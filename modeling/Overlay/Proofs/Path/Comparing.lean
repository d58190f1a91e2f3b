import Overlay.Proofs.Path.Parsing

/-!
# Comparing paths

A key is compared with a path from its end, name by name. `readBack` does so with offsets of which
nothing is known and fails where it would read outside of the key; from an offset within the key it
never fails and finds what `matchBack` finds, so that a path is told from a key without such a
read, `rendersAs_exact`.

Two paths are compared by hash, length and depth first and then name by name, and where two chains
of parents meet in one object nothing is left to compare. None of this shows in the answer: paths
whose names are not empty and hold no slash are the same exactly if their texts are,
`samePath_exact`, so parsed texts are the same paths exactly if their normal forms are equal.
-/

namespace Overlay

def bytesAt? (key : Array UInt8) (start stop : Nat) : Option (List UInt8) :=
  if start ≤ stop ∧ stop ≤ key.size then some (key.extract start stop).toList else none

theorem bytesAt?_eq_some {key : Array UInt8} {start stop : Nat} (hstart : start ≤ stop)
    (hstop : stop ≤ key.size) :
    bytesAt? key start stop = some (key.extract start stop).toList :=
  if_pos ⟨hstart, hstop⟩

namespace EntryPath

/-- Compares as `matchBack` does, at any offset: `none` if a byte outside of the key is read, else
how many bytes are left in front of the names if these match. -/
def readBack (key : Array UInt8) : EntryPath → Nat → Option (Option Nat)
  | root, stop => some (some stop)
  | child parent name, stop =>
    if stop < (utf8 name).length then some none
    else do
      let start := stop - (utf8 name).length
      let bytes ← bytesAt? key start stop
      if bytes ≠ utf8 name then some none
      else if start < 1 then some none
      else
        let byte ← key[start - 1]?
        if byte ≠ slash then some none else parent.readBack key (start - 1)

/-- An offset within the key stays within it, so that nothing outside is read. -/
theorem readBack_eq {key : Array UInt8} {path : EntryPath} {stop : Nat} (h : stop ≤ key.size) :
    path.readBack key stop = some ((path.matchBack key ⟨stop, h⟩).map Subtype.val) := by
  induction path generalizing stop with
  | root => rfl
  | child parent name ih =>
    -- `matchBack` has one exit for a key that ends too early, the other exits correspond
    rw [readBack, matchBack]
    by_cases hshort : stop < (utf8 name).length
    · rw [if_pos hshort, dif_neg (by omega)]
      rfl
    · have hbytes := bytesAt?_eq_some (Nat.sub_le stop (utf8 name).length) h
      simp only [if_neg hshort, hbytes, Option.bind_eq_bind, Option.bind_some]
      by_cases hname : (key.extract (stop - (utf8 name).length) stop).toList = utf8 name
      · rw [if_neg (not_not_intro hname)]
        by_cases hroom : stop - (utf8 name).length < 1
        · rw [if_pos hroom, dif_neg (by omega)]
          rfl
        · have hread : key[stop - (utf8 name).length - 1]? =
              some key[stop - (utf8 name).length - 1] := Array.getElem?_eq_getElem (by omega)
          rw [if_neg hroom, dif_pos (by omega), hread, Option.bind_some]
          by_cases hslash : key[stop - (utf8 name).length - 1] = slash
          · rw [if_neg (not_not_intro hslash), if_pos ⟨hname, hslash⟩]
            exact ih _
          · rw [if_pos hslash, if_neg fun hboth => hslash hboth.2]
            rfl
      · rw [if_pos hname]
        split
        · rw [if_neg fun hboth => hname hboth.1]
          rfl
        · rfl

/-- From an offset outside of the key the comparison does read there. -/
example : (root.child "a").readBack #[slash] 2 = none := by decide

def rendersAs? (path : EntryPath) (key : String) : Option Bool :=
  if key.utf8ByteSize ≠ path.length then some false
  else match path with
    | root => some (key == "/")
    | child .. => do
      match ← path.readBack key.toByteArray.data key.toByteArray.data.size with
      | some left => some (left == 0)
      | none => some false

/-- No key makes the comparison read outside of it. -/
theorem rendersAs?_eq (path : EntryPath) (key : String) :
    path.rendersAs? key = some (path.rendersAs key) := by
  unfold rendersAs? rendersAs
  split
  · rfl
  · cases path with
    | root => rfl
    | child parent name =>
      dsimp only
      rw [readBack_eq (Nat.le_refl _), Option.bind_eq_bind, Option.bind_some]
      cases (child parent name).matchBack key.toByteArray.data ⟨_, Nat.le_refl _⟩ <;> rfl

/-- A path is told from every key, in normal form or not, as its text is, and without a read
outside of the key. -/
theorem rendersAs_exact (path : EntryPath) (key : String) :
    (path.rendersAs key = true ↔ path.render = key) ∧
      path.rendersAs? key = some (path.rendersAs key) :=
  ⟨rendersAs_iff, rendersAs?_eq path key⟩

/-- Tells of some pairs of paths that they are one object. Only equal paths are, but equal paths
may be two objects. -/
structure Identity where
  one : EntryPath → EntryPath → Bool
  eq_of_one : ∀ {a b : EntryPath}, one a b = true → a = b

namespace Identity

variable (identity : Identity)

def sameNames (a b : EntryPath) : Bool :=
  identity.one a b || match a, b with
    | root, root => true
    | child p m, child q n => m == n && sameNames p q
    | _, _ => false

def samePath (a b : EntryPath) : Bool :=
  identity.one a b ||
    (a.hash == b.hash && a.length == b.length && a.depth == b.depth && identity.sameNames a b)

theorem or_eq_right {a b : EntryPath} {same : Bool} (h : a = b → same = true) :
    (identity.one a b || same) = same := by
  cases hone : identity.one a b with
  | false => rfl
  | true => rw [h (identity.eq_of_one hone), Bool.true_or]

theorem sameNames_eq (a b : EntryPath) : identity.sameNames a b = a.sameNames b := by
  induction a generalizing b with
  | root =>
    cases b with
    | root => exact identity.or_eq_right fun _ => rfl
    | child q n => exact identity.or_eq_right fun h => nomatch h
  | child p m ih =>
    cases b with
    | root => exact identity.or_eq_right fun h => nomatch h
    | child q n =>
      rw [sameNames, ih]
      exact identity.or_eq_right sameNames_iff.2

theorem samePath_eq (a b : EntryPath) : identity.samePath a b = a.samePath b := by
  rw [samePath, sameNames_eq]
  exact identity.or_eq_right samePath_iff.2

end Identity

/-- Paths of names that are not empty and hold no slash are the same exactly if their texts are,
whichever objects they are made of, and what they keep never tells equal texts apart. Hence
comparing parsed texts is comparing normal forms. -/
theorem samePath_exact :
    (∀ a b : EntryPath, a.Plain → b.Plain →
      (a.samePath b = true ↔ a.render = b.render) ∧
        (a.render = b.render → a.hash = b.hash ∧ a.length = b.length ∧ a.depth = b.depth)) ∧
    (∀ (identity : Identity) (a b : EntryPath), identity.samePath a b = a.samePath b) ∧
    ∀ s t : String, (parse s).samePath (parse t) = true ↔ normalize s = normalize t := by
  have hplain : ∀ a b : EntryPath, a.Plain → b.Plain →
      (a.samePath b = true ↔ a.render = b.render) := by
    intro a b ha hb
    rw [samePath_iff]
    exact ⟨congrArg render, ha.render_inj hb⟩
  refine ⟨fun a b ha hb => ⟨hplain a b ha hb, fun hrender => ?_⟩, Identity.samePath_eq,
    fun s t => ?_⟩
  · obtain rfl := ha.render_inj hb hrender
    exact ⟨rfl, rfl, rfl⟩
  · rw [hplain _ _ (plain_parse s) (plain_parse t), render_parse, render_parse]

theorem samePath_exact_colliding :
    let a := parse "/Aa"
    let b := parse "BB/./"
    a.Plain ∧ b.Plain ∧ a.hash = b.hash ∧ a.length = b.length ∧ a.depth = b.depth ∧
      a.samePath b = false ∧ a.samePath (parse "x/..//Aa") = true := by
  intro a b
  have ha : a.Plain := plain_parse "/Aa"
  have hb : b.Plain := plain_parse "BB/./"
  obtain ⟨hplain, -, hparse⟩ := samePath_exact
  refine ⟨ha, hb, by decide, by decide, by decide, ?_, (hparse _ _).2 (by decide)⟩
  rw [Bool.eq_false_iff, Ne, (hplain a b ha hb).1]
  decide

end EntryPath

end Overlay
