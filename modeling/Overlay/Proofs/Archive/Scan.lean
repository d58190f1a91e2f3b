import Overlay.Proofs.Archive.Tree
import Overlay.Proofs.Index.Contents
import Overlay.Proofs.Root.Contract
import Overlay.Proofs.Scan.Delivery
import Overlay.Root.Archive

/-!
# Scanning an archive

Visiting the tree of an archive is playing its walk, whoever visits: `visit_eq_play`. An indexer
follows that walk to its end, and the index then holds the paths of the tree, in the order of the
walk. The tree is linked to the map that answers lookups, so the index finds what the archive
resolves: `visit_indexes`. For the same reason an archive is an honest root.
-/

namespace Overlay

variable {ω : Type}

namespace Walk

/-- Goes on with a walk after some of its events, unless a visitor stopped it there. -/
def resume (visitor : Visitor ω) (ending : Ending) (later : List WalkEvent) :
    Except IoError Control × ω → Ending × ω
  | (.error error, s) => (.failed error, s)
  | (.ok .stop, s) => (.done, s)
  | (.ok .proceed, s) => playFrom visitor ending later s

theorem playFrom_cons (visitor : Visitor ω) (ending : Ending) (e : WalkEvent)
    (later : List WalkEvent) (s : ω) :
    playFrom visitor ending (e :: later) s = resume visitor ending later (visitor s e) := by
  rw [playFrom]
  obtain ⟨_ | _ | _, _⟩ := visitor s e <;> rfl

theorem resume_andThen {visitor : Visitor ω} {ending : Ending} {first later : List WalkEvent}
    {next : ω → Except IoError Control × ω}
    (hnext : ∀ s, playFrom visitor ending first s = resume visitor ending later (next s))
    (r : Except IoError Control × ω) :
    resume visitor ending first r = resume visitor ending later (Forest.andThen r next) := by
  obtain ⟨_ | _ | _, s⟩ := r
  · rfl
  · exact hnext s
  · rfl

end Walk

theorem Forest.playFrom_events (visitor : Visitor ω) (ending : Ending) (forest : Forest)
    (later : List WalkEvent) (s : ω) :
    Walk.playFrom visitor ending (forest.events ++ later) s =
      Walk.resume visitor ending later (forest.visit visitor s) := by
  induction forest generalizing later s with
  | nil => rfl
  | file name rest ih =>
    rw [events, List.cons_append, Walk.playFrom_cons]
    exact Walk.resume_andThen (fun s => ih later s) _
  | directory name inside rest ihInside ih =>
    rw [events, List.cons_append, List.append_assoc, List.cons_append, Walk.playFrom_cons]
    refine Walk.resume_andThen (fun s => ?_) _
    rw [ihInside]
    refine Walk.resume_andThen (fun s => ?_) _
    rw [Walk.playFrom_cons]
    exact Walk.resume_andThen (fun s => ih later s) _

/-- A walk without any more events is over, whatever the last answer was. -/
theorem Walk.resume_nil (visitor : Visitor ω) (r : Except IoError Control × ω) :
    resume visitor .done [] r =
      match r.1 with
      | .error error => (.failed error, r.2)
      | .ok _ => (.done, r.2) := by
  obtain ⟨_ | _ | _, s⟩ := r <;> rfl

/-- Visiting the tree of an archive is playing its walk. -/
theorem ArchiveTree.visit_eq_play (tree : ArchiveTree) (visitor : Visitor ω) (s : ω) :
    tree.visit visitor s = tree.walk.play visitor s := by
  have hafter : ∀ s, Walk.playFrom visitor .done (tree.forest.events ++ [.leave]) s =
      Walk.resume visitor .done []
        (Forest.andThen (tree.forest.visit visitor s) fun s => visitor s .leave) := by
    intro s
    rw [Forest.playFrom_events]
    exact Walk.resume_andThen (fun s => Walk.playFrom_cons visitor .done .leave [] s) _
  calc tree.visit visitor s
      = Walk.resume visitor .done [] (Forest.andThen (visitor s (.enter none)) fun s =>
          Forest.andThen (tree.forest.visit visitor s) fun s => visitor s .leave) :=
        (Walk.resume_nil visitor _).symm
    _ = Walk.resume visitor .done (tree.forest.events ++ [.leave]) (visitor s (.enter none)) :=
        (Walk.resume_andThen hafter _).symm
    _ = tree.walk.play visitor s := (Walk.playFrom_cons visitor .done ..).symm

/-- An indexer that follows some events puts their paths into the index, and the walk goes on. -/
theorem Indexer.Follows.playFrom {root : String} {ix last : Indexer} {events : List WalkEvent}
    {paths : List EntryPath} (h : Follows root ix events paths last) (ending : Ending)
    (index : Index ω) (origin : ω) :
    Walk.playFrom (Indexing.visitor root) ending events ⟨index, origin, ix⟩ =
      (ending, ⟨(index.putAll (paths.map fun path => ⟨path, origin⟩)).value, origin, last⟩) := by
  induction h generalizing index with
  | nil ix => rfl
  | cons hanswer _ ih =>
    rw [Walk.playFrom_cons, Indexing.visitor, Indexing.deliver_of_proceed hanswer, List.map_append,
      Index.putAll_append]
    exact ih _

namespace ArchiveTree

/-- Of the paths of an archive's tree, a key picks the one that the archive resolves it to. -/
theorem Linked.filter_nodes {tree : ArchiveTree} (h : tree.Linked .root) (key : String) :
    (Forest.nodes (some tree.forest)).filter (fun path => path.render = key) =
      (tree.resolve key).toList := by
  cases hresolve : tree.resolve key with
  | none =>
    refine List.filter_eq_nil_iff.2 fun path hpath hkey => ?_
    rw [h.resolve_iff.2 ⟨hpath, of_decide_eq_true hkey⟩] at hresolve
    cases hresolve
  | some path =>
    obtain ⟨hpath, hkey⟩ := h.resolve_iff.1 hresolve
    have hsame : ∀ other ∈ Forest.nodes (some tree.forest),
        decide (other.render = key) = decide (other = path) := by
      intro other hother
      rw [decide_eq_decide, ← hkey]
      exact ⟨(h.plain_nodes other hother).render_inj (h.plain_nodes path hpath), congrArg _⟩
    rw [List.filter_congr hsame, List.filter_eq, List.count_eq_one_of_mem h.nodup_nodes hpath]
    rfl

/-- Scanning an archive comes to its end, and the index then has precisely what the archive
resolves. -/
theorem visit_indexes (archive : String) (names : List String) (customTable check : Bool)
    (origin : ω) :
    let tree := (ofNames archive names).value
    let scan := tree.visit (Indexing.visitor archive) ⟨.new customTable check, origin, {}⟩
    scan.1 = .done ∧
      (∀ key, scan.2.index.find key =
        .ok ((tree.resolve key).map fun path => .single ⟨path, origin⟩)) ∧
      scan.2.index.size = tree.size ∧
      tree.size = scan.2.indexer.folders + scan.2.indexer.files := by
  intro tree scan
  have hlinked : tree.Linked .root := linked_ofNames archive names
  have hfollows : Indexer.Follows archive {} tree.events (Forest.nodes (some tree.forest))
      ⟨[], tree.forest.folders + 1, tree.forest.files⟩ := .rooted tree.forest
  obtain ⟨index, hindex, hscan⟩ : ∃ index : Index ω,
      index.Holds ((Forest.nodes (some tree.forest)).map fun path => ⟨path, origin⟩) ∧
        scan = (.done, ⟨index, origin, [], tree.forest.folders + 1, tree.forest.files⟩) :=
    ⟨_, (Index.holds_new customTable check).putAll _,
      (visit_eq_play tree _ _).trans (hfollows.playFrom .done _ origin)⟩
  have hsize : tree.size = tree.forest.folders + tree.forest.files + 1 := by
    rw [hlinked.size_eq, Forest.nodes, List.length_cons, Forest.length_paths]
  rw [hscan]
  refine ⟨rfl, fun key => ?_, ?_, hsize.trans (Nat.add_right_comm ..)⟩
  · obtain ⟨found, hfind, hanswers⟩ := hindex.find key
    have hplain : ∀ l ∈ (Forest.nodes (some tree.forest)).map fun path => Located.mk path origin,
        l.path.Plain := List.forall_mem_map.2 hlinked.plain_nodes
    have hunder : putUnder key ((Forest.nodes (some tree.forest)).map fun path => ⟨path, origin⟩) =
        (tree.resolve key).toList.map fun path => ⟨path, origin⟩ := by
      rw [putUnder, List.filter_map, ← hlinked.filter_nodes]
      rfl
    dsimp only
    rw [hfind]
    cases hresolve : tree.resolve key with
    | none =>
      rw [hresolve] at hunder
      rw [hanswers.eq_none hunder, Option.map_none]
    | some path =>
      rw [hresolve] at hunder
      rw [hanswers.eq_single hplain hunder, Option.map_some]
  · exact hindex.size.trans ((List.length_map _).trans hlinked.size_eq.symm)

end ArchiveTree

/-- An archive that can be opened is an honest root: its walk shows the tree it resolves. -/
theorem ArchiveRoot.honest {σ : Type} {name : String} {bytes : ByteArray}
    {opened : Logged ArchiveRoot} (h : ArchiveRoot.open? name bytes = some opened)
    (source : σ → Archive.Source) (learn : σ → List (String × Nat) → σ) (w : σ) :
    (opened.value.toRoot source learn).Honest w := by
  obtain ⟨headers, -, rfl⟩ := Option.map_eq_some_iff.1 h
  have hlinked := ArchiveTree.linked_ofNames name (headers.map fun header => header.name)
  refine ⟨fun p path hpath => ?_, nofun, fun _ => ⟨some _, ⟨hlinked.plain_nodes, ?_⟩, ?_, ?_⟩⟩
  · obtain ⟨hnode, hrender⟩ := hlinked.resolve_iff.1 hpath
    exact ⟨hrender, hlinked.plain_nodes path hnode⟩
  · exact fun p path => hlinked.resolve_iff
  · exact List.prefix_refl _
  · exact fun _ => rfl

end Overlay
