import Overlay.Proofs.ClassPath.Checking

/-!
# Joined roots take part as their leaves

A joined root answers with the first member that knows a path, member by member and down through
any nesting, and a class path takes it apart into its leaves and gives each an ordinal. The two come
to the same, `joined_transparent`: what a tree of roots resolves and reads is what the first leaf
that knows the path resolves and reads, and so is the answer of the class path.
-/

namespace Overlay

variable {σ δ : Type}

/-- How a root is read plays no part in its promise. -/
theorem Root.Honest.withRead {root : Root σ} {w : σ} (h : root.Honest w)
    (read : σ → EntryPath → Except IoError ByteArray) :
    Root.Honest { root with read := read } w where
  renders := h.renders
  listed hkind := (h.listed hkind).imp_right fun hshows => ⟨hshows.plain, hshows.resolves⟩
  walked hkind := by
    obtain ⟨tree, hshows, hwalk⟩ := h.walked hkind
    exact ⟨tree, ⟨hshows.plain, hshows.resolves⟩, hwalk⟩

namespace RootTree

def knows (w : σ) (key : String) (root : Root σ) : Bool := (root.resolve w key).isSome

mutual

/-- A tree resolves what the first of its leaves resolves that resolves anything. -/
theorem resolve_eq (w : σ) (key : String) (tree : RootTree σ) :
    tree.resolve w key = tree.leaves.findSome? fun root => root.resolve w key := by
  cases tree with
  | leaf root =>
    rw [resolve, leaves, List.findSome?_cons]
    cases root.resolve w key <;> rfl
  | joined name members =>
    rw [resolve, leaves]
    exact resolveFirst_eq w key members

theorem resolveFirst_eq (w : σ) (key : String) (members : List (RootTree σ)) :
    resolveFirst w key members = (leavesOf members).findSome? fun root => root.resolve w key := by
  cases members with
  | nil => rfl
  | cons member rest =>
    rw [resolveFirst, leavesOf, List.findSome?_append, ← resolve_eq w key member,
      ← resolveFirst_eq w key rest]
    cases member.resolve w key <;> rfl

end

theorem isSome_resolve (w : σ) (key : String) (tree : RootTree σ) :
    (tree.resolve w key).isSome = (tree.leaves.find? (knows w key)).isSome := by
  rw [resolve_eq, Bool.eq_iff_iff, List.findSome?_isSome_iff, List.find?_isSome]
  rfl

mutual

/-- A tree reads what the first of its leaves reads that knows the path. -/
theorem read_of_find? {w : σ} {path : EntryPath} {root : Root σ} (tree : RootTree σ)
    (h : tree.leaves.find? (knows w path.render) = some root) :
    tree.read w path = root.read w path := by
  cases tree with
  | leaf only =>
    have hroot := List.mem_of_find?_eq_some h
    rw [leaves, List.mem_singleton] at hroot
    rw [read, hroot]
  | joined name members =>
    rw [leaves] at h
    exact readFirst_of_find? name members h

theorem readFirst_of_find? {w : σ} {path : EntryPath} {root : Root σ} (name : String)
    (members : List (RootTree σ))
    (h : (leavesOf members).find? (knows w path.render) = some root) :
    readFirst w path name members = root.read w path := by
  cases members with
  | nil => cases h
  | cons member rest =>
    rw [leavesOf, List.find?_append] at h
    rw [readFirst, isSome_resolve]
    cases hfirst : member.leaves.find? (knows w path.render) with
    | some first =>
      rw [hfirst, Option.some_or, Option.some.injEq] at h
      rw [← h]
      exact read_of_find? member hfirst
    | none =>
      rw [hfirst, Option.none_or] at h
      exact readFirst_of_find? name rest h

end

end RootTree

namespace ClassPath

mutual

theorem add_eq_foldlM (w : σ) (data : Option δ) (cp : ClassPath σ δ) (tree : RootTree σ) :
    cp.add w data tree = tree.leaves.foldlM (fun cp root => cp.add w data (.leaf root)) cp := by
  cases tree with
  | leaf root =>
    rw [RootTree.leaves, List.foldlM_cons]
    simp only [List.foldlM_nil, bind_pure]
  | joined name members =>
    rw [add, RootTree.leaves]
    exact addEach_eq_foldlM w data cp members

theorem addEach_eq_foldlM (w : σ) (data : Option δ) (cp : ClassPath σ δ)
    (members : List (RootTree σ)) :
    cp.addEach w data members =
      (RootTree.leavesOf members).foldlM (fun cp root => cp.add w data (.leaf root)) cp := by
  cases members with
  | nil => rfl
  | cons member rest =>
    rw [addEach, RootTree.leavesOf, List.foldlM_append, ← add_eq_foldlM w data cp member]
    exact congrArg _ (funext fun cp => addEach_eq_foldlM w data cp rest)

end

end ClassPath

namespace Session

theorem map_root_registered (added : List (RootTree σ × Option δ)) :
    (registered added).map RootEntry.root = added.flatMap fun (tree, _) => tree.leaves := by
  have hroots : (registered added).map RootEntry.root =
      ((constituents added).zipIdx.map Prod.fst).map Prod.fst := by
    rw [registered, List.map_map, List.map_map]
    rfl
  rw [hroots, List.zipIdx_map_fst, constituents, List.map_flatMap]
  simp only [List.map_map, Function.comp_def, List.map_id']

/-- The first answer of asking some members is that of the first one whose root knows the key. -/
theorem firstAnswer_eq (w : σ) (key : String) (ms : List (Member σ δ)) :
    (firstAnswer w key ms).map Located.path =
        (ms.map RootEntry.root).findSome? (fun root => root.resolve w key) ∧
      ∀ l, firstAnswer w key ms = some l →
        (ms.map RootEntry.root).find? (RootTree.knows w key) = some l.origin.root := by
  induction ms with
  | nil => exact ⟨rfl, nofun⟩
  | cons m rest ih =>
    rw [firstAnswer, List.findSome?_cons, List.map_cons, List.findSome?_cons, List.find?_cons,
      RootTree.knows, RootEntry.ask]
    cases m.root.resolve w key with
    | none => exact ih
    | some path => exact ⟨rfl, fun l hl => by rw [← Option.some.inj hl]; rfl⟩

/-- A joined root is transparent: it is added as its leaves are, one after the other, and a class
path that holds nothing else answers every path as the joined root itself does, wherever the scans
are. -/
theorem joined_transparent (tree : RootTree σ) :
    (∀ (w : σ) (data : Option δ) (cp : ClassPath σ δ),
      cp.add w data tree = tree.leaves.foldlM (fun cp root => cp.add w data (.leaf root)) cp) ∧
    ∀ {config : Config} {s : Session σ δ} {data : Option δ}, Reachable .honest config s →
      s.added = [(tree, data)] → s.coming = [] → s.todo = [] → ∀ p,
        (s.cp.findPath s.world p).answer = .ok (tree.resolve s.world (normalize p)) ∧
        (s.cp.readResource s.world p).answer =
          .ok ((tree.resolve s.world (normalize p)).map (tree.read s.world)) := by
  refine ⟨fun w data cp => cp.add_eq_foldlM w data tree, ?_⟩
  intro config s data hreach hadded hcoming htodo p
  obtain ⟨log, htidy, hfaithful⟩ := hreach.faithful
  obtain ⟨ms, hms, hfind, -⟩ := hreach.resources p
  have hroots : ms.map RootEntry.root = tree.leaves := by
    rw [hms.settled hcoming htodo, hadded, map_root_registered, List.flatMap_singleton]
  obtain ⟨hpath, howner⟩ := firstAnswer_eq s.world (normalize p) ms
  rw [hroots, ← RootTree.resolve_eq] at hpath
  rw [ClassPath.findPath, ClassPath.readResource, Reply.map, Reply.map, hfind, ← hpath]
  refine ⟨rfl, congrArg Except.ok ?_⟩
  cases hfirst : firstAnswer s.world (normalize p) ms with
  | none => rfl
  | some l =>
    have hleaf := howner l hfirst
    obtain ⟨hmem, hask, -⟩ := findSome?_ask (htidy.pairwise_counted hms) hfirst
    rw [hroots, ← hfaithful.renders hms hmem (ask_eq_some.1 hask).1] at hleaf
    exact congrArg some (tree.read_of_find? hleaf).symm

section Nested

def textArchive : Root Unit :=
  { (RootTables.ofPaths "a.zip" .archive (Forest.nodes (some (.file "x" (.file "y" .nil))))
      ⟨[.enter none, .file "x"], .crashed⟩).toRoot with
    read := fun _ path =>
      if path.render = "/x" then .ok "text".toUTF8 else .error (.missing path.render "a.zip") }

def emptyFiles : Root Unit :=
  { (RootTables.ofPaths "m" (.memory false)
      (Forest.nodes (some (.file "x" (.file "z" .nil))))).toRoot with
    read := fun _ _ => .ok .empty }

/-- The archive takes part twice, behind a joined root that has no members. -/
def nested : RootTree Unit :=
  .joined "app" [.joined "none" [], .joined "first" [.leaf textArchive, .leaf emptyFiles],
    .leaf textArchive]

theorem honest_nested : ∀ root ∈ nested.leaves, root.Honest () := by
  have harchive : textArchive.Honest () := by
    refine .withRead (RootTables.honest_ofPaths () (by decide) ⟨[.file "y", .leave], rfl⟩ ?_) _
    exact fun hend => by cases hend
  have hmemory : emptyFiles.Honest () := by
    refine .withRead (RootTables.honest_ofPaths () (by decide) List.nil_prefix ?_) _
    exact fun hend => by cases hend
  simp only [nested, RootTree.leaves, RootTree.leavesOf, List.append_nil, List.nil_append,
    List.cons_append, List.forall_mem_cons]
  exact ⟨harchive, hmemory, harchive, fun root hroot => absurd hroot List.not_mem_nil⟩

/-- With the first scan half done, the text is that of the archive that comes first. -/
theorem joined_transparent_nested :
    (∀ cp : ClassPath Unit String, cp.add () (some "data") nested =
      [textArchive, emptyFiles, textArchive].foldlM
        (fun cp root => cp.add () (some "data") (.leaf root)) cp) ∧
    ∃ s : Session Unit String, Reachable .honest {} s ∧ s.added = [(nested, some "data")] ∧
      s.cp.fallback.map RootEntry.ordinal = [0, 2] ∧ s.cp.pool.tasks.length = 2 ∧
      (s.cp.findPath () "x/").answer = .ok (some (.ofNames ["x"])) ∧
      (s.cp.readResource () "x/").answer = .ok (some (.ok "text".toUTF8)) ∧
      (s.cp.readResource () "w").answer = .ok none := by
  obtain ⟨hadd, hanswers⟩ := joined_transparent (δ := String) nested
  let added : ClassPath Unit String := ((ClassPath.new {}).add () (some "data") nested).value
  have hmoves : (added.moves [.take 0, .work 0]).map (fun cp =>
      (cp.fallback.map RootEntry.ordinal, cp.pool.tasks.length)) = some ([0, 2], 2) := rfl
  obtain ⟨cp, hcp, hbooks⟩ := Option.map_eq_some_iff.1 hmoves
  obtain ⟨hfallback, htasks⟩ := Prod.mk.inj hbooks
  obtain ⟨members, hreach⟩ := reachable_of_add .honest {} () nested (some "data") honest_nested
    (.of_moves hcp)
  obtain ⟨hpath, hread⟩ := hanswers hreach rfl rfl rfl "x/"
  obtain ⟨-, habsent⟩ := hanswers hreach rfl rfl rfl "w"
  exact ⟨hadd () (some "data"), _, hreach, rfl, hfallback, htasks, hpath, hread, habsent⟩

end Nested

end Session

end Overlay
