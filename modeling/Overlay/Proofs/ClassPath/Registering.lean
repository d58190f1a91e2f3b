import Overlay.Proofs.ClassPath.Answers
import Overlay.Proofs.ClassPath.Replay

/-!
# Lookups while roots are added

A lookup takes the registry first and reads the index afterwards, and roots can be added in between.
Over honest roots what was found at the beginning is still found, and what is found is an answer of
a member of the end: `find_across_adds`. Between the members added meanwhile the order is not kept.
One that has to be asked is not in the registry that was taken, one added after it may be in the
index already, and then the lookup finds what no moment in between would give:
`find_passes_over_first`.
-/

namespace Overlay

variable {σ δ : Type}

def Deed.Registers : Deed σ δ → Prop
  | add .. | unpack | enroll | act => True
  | scan _ | find _ | findAll _ | change _ => False

namespace Session

def Registers (c : Contract σ) (s s' : Session σ δ) : Prop :=
  ∃ d : Deed σ δ, d.Registers ∧ s.Permits c d ∧ s.perform? d = some s'

/-- What can come of a session while roots are added and nothing else happens. -/
abbrev Adds (c : Contract σ) : Session σ δ → Session σ δ → Prop :=
  Relation.ReflTransGen (Registers c)

variable {config : Config} {s s' : Session σ δ} {log log' : List (Found σ δ)}

theorem Adds.steps {c : Contract σ} (h : Adds c s s') : Steps c s s' := by
  induction h with
  | refl => exact .refl
  | tail _ hlast ih =>
    obtain ⟨d, -, hpermits, hperform⟩ := hlast
    exact ih.tail (step_iff.2 ⟨d, hpermits, hperform⟩)

theorem Adds.leaf {c : Contract σ} {root : Root σ} {rest : List (RootTree σ)}
    (hcoming : s.coming = .leaf root :: rest) (htodo : s.todo = [])
    (hadmits : c.admits s.world root) :
    Adds c s { s with
      cp := (s.cp.addLeaf s.world s.data root).value
      members := s.members ++ [⟨s.cp.nextOrdinal, root, s.data⟩]
      coming := rest } := by
  have hact : ∀ {s : Session σ δ} {a : Action σ δ} {rest : List (Action σ δ)}, s.todo = a :: rest →
      Registers c s { s with cp := (s.cp.apply a).value, todo := rest } :=
    fun htodo => ⟨.act, trivial, trivial, by simp only [perform?, htodo]⟩
  have henroll : Registers c s (s.enroll root rest) := by
    refine ⟨.enroll, trivial, fun root' rest' h => ?_, by simp only [perform?, hcoming, htodo]⟩
    rw [hcoming] at h
    obtain ⟨hroot, -⟩ := List.cons.inj h
    rwa [← RootTree.leaf.inj hroot]
  have hadds := (publish_of_act hact (s.enroll root rest)).head henroll
  rw [htodo]
  exact hadds

structure Extends (s : Session σ δ) (log : List (Found σ δ)) (s' : Session σ δ)
    (log' : List (Found σ δ)) : Prop where
  world : s'.world = s.world
  fallback : ∀ m ∈ s.cp.fallback, m ∈ s'.cp.fallback
  log : ∀ l ∈ log, l ∈ log'
  members : s.members <+: s'.members

theorem Extends.refl : s.Extends log s log := ⟨rfl, fun _ hm => hm, fun _ hl => hl, List.prefix_rfl⟩

theorem Extends.trans {s'' : Session σ δ} {log'' : List (Found σ δ)} (h : s.Extends log s' log')
    (h' : s'.Extends log' s'' log'') : s.Extends log s'' log'' where
  world := h'.world.trans h.world
  fallback m hm := h'.fallback m (h.fallback m hm)
  log l hl := h'.log l (h.log l hl)
  members := h.members.trans h'.members

theorem Extends.act {a : Action σ δ} {rest : List (Action σ δ)} :
    s.Extends log { s with cp := (s.cp.apply a).value, todo := rest } (log ++ a.located) where
  world := rfl
  fallback m hm := by
    cases a with
    | fallBack entry => exact Registry.mem_insert.2 (.inr hm)
    | report _ | reserve _ | put _ | scan _ | remember _ => exact hm
  log l hl := List.mem_append_left _ hl
  members := List.prefix_rfl

theorem Faithful.registers (htidy : s.Tidy log) (h : s.Faithful log) {d : Deed σ δ}
    (hregisters : d.Registers) (hpermits : s.Permits .honest d) (hperform : s.perform? d = some s') :
    ∃ log', s'.Tidy log' ∧ s'.Faithful log' ∧ s.Extends log s' log' := by
  cases d with
  | add _ _ | unpack =>
    simp only [perform?] at hperform
    split at hperform
    next =>
      obtain rfl := Option.some.inj hperform
      exact ⟨log, htidy.congr rfl rfl rfl, ⟨h.honest, h.sound, h.complete⟩,
        ⟨rfl, fun _ hm => hm, fun _ hl => hl, List.prefix_rfl⟩⟩
    next => cases hperform
  | enroll =>
    simp only [perform?] at hperform
    split at hperform
    next root rest hcoming htodo =>
      obtain rfl := Option.some.inj hperform
      exact ⟨log, htidy.enroll _ _, h.enroll htodo (hpermits root rest hcoming) _,
        rfl, fun _ hm => hm, fun _ hl => hl, List.prefix_append _ _⟩
    next => cases hperform
  | act =>
    simp only [perform?] at hperform
    split at hperform
    next a rest htodo =>
      obtain rfl := Option.some.inj hperform
      exact ⟨_, htidy.act htodo, h.act htodo, .act⟩
    next => cases hperform
  | scan _ | find _ | findAll _ | change _ => cases hregisters

theorem Faithful.adds (htidy : s.Tidy log) (h : s.Faithful log) (hadds : Adds .honest s s') :
    ∃ log', s'.Tidy log' ∧ s'.Faithful log' ∧ s.Extends log s' log' := by
  induction hadds with
  | refl => exact ⟨log, htidy, h, .refl⟩
  | tail _ hlast ih =>
    obtain ⟨mid, htidy', hfaithful', hextends⟩ := ih
    obtain ⟨d, hregisters, hpermits, hperform⟩ := hlast
    obtain ⟨log', htidy'', hfaithful'', hextends'⟩ :=
      hfaithful'.registers htidy' hregisters hpermits hperform
    exact ⟨log', htidy'', hfaithful'', hextends.trans hextends'⟩

theorem Extends.mem_of_before (h : s.Extends log s' log') (htidy' : s'.Tidy log')
    {m m' : Member σ δ} (hm : m ∈ s.members) (hm' : m' ∈ s'.members) (hbefore : m'.Before m) :
    m' ∈ s.members := by
  obtain ⟨new, hnew⟩ := h.members
  have hordered := htidy'.ordered_members
  rw [← hnew, List.pairwise_append] at hordered
  rw [← hnew] at hm'
  refine (List.mem_append.1 hm').resolve_right fun hlater => ?_
  exact Nat.lt_asymm hbefore (hordered.2.2 m hm m' hlater)

section Lookup

variable {p : String} {entry entry' : Option (Entry (Member σ δ))}

/-- What the earlier registry and the later index show. -/
theorem Extends.sighted (h : s.Extends log s' log') (hfaithful : s.Faithful log)
    (hfaithful' : s'.Faithful log') (hans : Answers log (normalize p) entry)
    (hans' : Answers log' (normalize p) entry') {l : Found σ δ} :
    (Sighted s.world (normalize p) s.cp.fallback entry l →
      Sighted s.world (normalize p) s.cp.fallback entry' l) ∧
    (Sighted s.world (normalize p) s.cp.fallback entry' l →
      Sighted s'.world (normalize p) s'.cp.fallback entry' l) := by
  constructor
  · refine Or.imp_left fun hl => ?_
    obtain ⟨hlog, hrender⟩ := (hfaithful.mem_locationsOf hans).1 hl
    exact (hfaithful'.mem_locationsOf hans').2 ⟨h.log l hlog, hrender⟩
  · refine Or.imp_right ?_
    rintro ⟨m, hm, hask⟩
    exact ⟨m, h.fallback m hm, h.world ▸ hask⟩

/-- An answer that was not there yet at the beginning does not come before one that was. -/
theorem Extends.not_before (h : s.Extends log s' log') (htidy : s.Tidy log)
    (htidy' : s'.Tidy log') (hfaithful : s.Faithful log) (hans : Answers log (normalize p) entry)
    {l l' : Found σ δ} (hl : l.origin ∈ s.members) (hl' : l'.origin ∈ s'.members)
    (hask' : l'.origin.ask s.world (normalize p) = some l')
    (hnew : ¬ Sighted s.world (normalize p) s.cp.fallback entry l') : ¬ l'.Before l := by
  intro hbefore
  have hold := h.mem_of_before htidy' hl hl' hbefore
  refine hnew (hfaithful.sighted_of_ask p hans hold hask' (.inr fun hlast => ?_) htidy)
  have hsplit := List.dropLast_append_getLast? l'.origin hlast
  have hordered := htidy.ordered_members
  rw [← hsplit] at hl hordered
  rcases List.mem_append.1 hl with hearlier | hself
  · exact Nat.lt_asymm hbefore
      ((List.pairwise_append.1 hordered).2.2 _ hearlier _ List.mem_cons_self)
  · rw [Located.Before, List.mem_singleton.1 hself] at hbefore
    exact Nat.lt_irrefl _ hbefore

end Lookup

/-- The registry of one moment and the index of a later one, with nothing but roots being added in
between. What was found is found, and nothing is found that no member has. If no member that was
added to be asked has an answer, the lookup is as good as one at the end. -/
theorem find_across_adds (h : Reachable .honest config s) (hadds : Adds .honest s s')
    (p : String) :
    let mixed : ClassPath σ δ := { s'.cp with fallback := s.cp.fallback }
    ∃ early found, (s.cp.find s.world (normalize p)).answer = .ok early ∧
      (mixed.find s.world (normalize p)).answer = .ok found ∧
      (∀ l, early = some l → found = some l) ∧
      (∀ l, found = some l → l.origin ∈ s'.members ∧
        l.origin.root.resolve s.world (normalize p) = some l.path) ∧
      ((∀ m ∈ s'.cp.fallback, m ∈ s.cp.fallback ∨ m.root.resolve s.world (normalize p) = none) →
        (s'.cp.find s'.world (normalize p)).answer = .ok found) := by
  intro mixed
  obtain ⟨log, htidy, hfaithful⟩ := h.faithful
  obtain ⟨log', htidy', hfaithful', hextends⟩ := hfaithful.adds htidy hadds
  obtain ⟨entry, hfind, hans⟩ := htidy.index.find (normalize p)
  obtain ⟨entry', hfind', hans'⟩ := htidy'.index.find (normalize p)
  have hmixed : mixed.index.find (normalize p) = .ok entry' := hfind'
  have hall := pairwise_allAnswers s'.world (normalize p) htidy'.ordered_members
  have hsight := fun l => hextends.sighted hfaithful hfaithful' hans hans' (l := l)
  have hsee := fun l hl => hfaithful'.mem_allAnswers_of_sighted htidy' p hans' ((hsight l).2 hl)
  have hseeEarly := fun l hl => hsee l ((hsight l).1 hl)
  have hmem := fun l => mem_collect_iff_sighted htidy.ordered hall hsee (l := l)
  have hearly : choose s.world (normalize p) s.cp.fallback (entry.map Entry.winner) =
      (collect s.world (normalize p) s.cp.fallback entry).head? :=
    choose_eq_head? htidy.ordered (.of_sighted hall hseeEarly)
  have hfound : choose s.world (normalize p) s.cp.fallback (entry'.map Entry.winner) =
      (collect s.world (normalize p) s.cp.fallback entry').head? :=
    choose_eq_head? htidy.ordered (.of_sighted hall hsee)
  -- an answer is that of a member, which gives it in the one world there is
  have hanswer : ∀ l, Sighted s.world (normalize p) s.cp.fallback entry' l →
      l.origin ∈ s'.members ∧ l.origin.ask s.world (normalize p) = some l := by
    intro l hl
    obtain ⟨m, hm, hask⟩ := mem_allAnswers.1 (hsee l hl)
    obtain rfl : l.origin = m := (ask_eq_some.1 hask).2
    exact ⟨hm, hextends.world ▸ hask⟩
  refine ⟨_, _, ClassPath.find_answer hfind, ClassPath.find_answer hmixed, ?_, ?_, ?_⟩
  · intro l hl
    rw [hearly] at hl
    have hfirst := (mem_collect_iff_sighted htidy.ordered hall hseeEarly).1 (List.mem_of_head? hl)
    rw [hfound]
    refine head?_eq_some pairwise_collect ((hmem l).2 ((hsight l).1 hfirst)) fun l' hl' => ?_
    obtain ⟨horigin, hask⟩ := hanswer l' ((hmem l').1 hl')
    by_cases hold : Sighted s.world (normalize p) s.cp.fallback entry l'
    · exact not_before_head? pairwise_collect hl
        ((mem_collect_iff_sighted htidy.ordered hall hseeEarly).2 hold)
    · obtain ⟨m, hm, hask'⟩ :=
        mem_allAnswers.1 (hfaithful.mem_allAnswers_of_sighted htidy p hans hfirst)
      obtain rfl : l.origin = m := (ask_eq_some.1 hask').2
      exact hextends.not_before htidy htidy' hfaithful hans hm horigin hask hold
  · intro l hl
    rw [hfound] at hl
    obtain ⟨horigin, hask⟩ := hanswer l ((hmem l).1 (List.mem_of_head? hl))
    exact ⟨horigin, (ask_eq_some.1 hask).1⟩
  · intro hnone
    have hsame : ∀ l, Sighted s.world (normalize p) s'.cp.fallback entry' l ↔
        Sighted s.world (normalize p) s.cp.fallback entry' l := by
      refine fun l => ⟨Or.imp_right ?_, hextends.world ▸ (hsight l).2⟩
      rintro ⟨m, hm, hask⟩
      refine ⟨m, (hnone m hm).resolve_right fun hmiss => ?_, hask⟩
      rw [(ask_eq_some.1 hask).1] at hmiss
      cases hmiss
    obtain ⟨-, hchoose⟩ := collect_congr htidy.ordered htidy'.ordered hall hsee hsame
    rw [← hchoose, hextends.world]
    exact ClassPath.find_answer hfind'

section Passing

def oneFile (name : String) (kind : RootKind) : Root Unit :=
  (RootTables.ofPaths name kind (Forest.nodes (some (.file "x" .nil)))).toRoot

theorem honest_oneFile (name : String) (kind : RootKind) : (oneFile name kind).Honest () :=
  RootTables.honest_ofPaths () (by decide) List.nil_prefix fun hend => by cases hend

def askedAndListed : RootTree Unit :=
  .joined "both" [.leaf (oneFile "asked" .external), .leaf (oneFile "listed" (.memory false))]

theorem adds_askedAndListed :
    ∃ s : Session Unit String, Adds .honest (start {} ()) s ∧
      s.added = [(askedAndListed, none)] ∧ s.coming = [] ∧
      (ClassPath.find () { s.cp with fallback := [] } (normalize "x")).answer.toOption.map
        (Option.map fun l => l.origin.ordinal) = some (some 1) := by
  have hadd : Adds .honest (start (δ := String) {} ()) _ :=
    .single ⟨.add askedAndListed none, trivial, trivial, rfl⟩
  have hunpack := hadd.tail ⟨.unpack, trivial, trivial, rfl⟩
  have hfirst := hunpack.trans (Adds.leaf rfl rfl (honest_oneFile "asked" .external))
  have hsecond := hfirst.trans (Adds.leaf rfl rfl (honest_oneFile "listed" (.memory false)))
  exact ⟨_, hsecond, rfl, rfl, by decide +kernel⟩

/-- A lookup that takes the registry before the first of two roots is added, and reads the index
after the second one is, finds the second. No moment in between would give that answer. -/
theorem find_passes_over_first :
    ∃ (s s' : Session Unit String) (l : Found Unit String), Reachable .honest {} s ∧
      Adds .honest s s' ∧
      (ClassPath.find () { s'.cp with fallback := s.cp.fallback } (normalize "x")).answer =
        .ok (some l) ∧
      ∀ mid : Session Unit String, Adds .honest s mid → Adds .honest mid s' →
        firstAnswer () (normalize "x") mid.members ≠ some l := by
  have hreach : Reachable .honest {} (start (δ := String) {} ()) := ⟨(), .refl⟩
  obtain ⟨s', hadds, hadded, hcoming, hseen⟩ := adds_askedAndListed
  have hreach' : Reachable .honest {} s' := ⟨(), hadds.steps⟩
  obtain ⟨found, hfind, hfound⟩ := exists_answer hseen
  obtain ⟨l, rfl, hordinal⟩ := Option.map_eq_some_iff.1 hfound
  refine ⟨_, s', l, hreach, hadds, hfind, fun mid hbefore hafter hfirst => ?_⟩
  obtain ⟨log, htidy, hfaithful⟩ := Reachable.faithful ⟨(), hbefore.steps⟩
  obtain ⟨_, -, -, hextends⟩ := hfaithful.adds htidy hafter
  obtain ⟨hmem, -, hmin⟩ := findSome?_ask htidy.ordered_members hfirst
  -- there is no second member without the first
  have hasked : ⟨0, oneFile "asked" .external, none⟩ ∈ mid.members := by
    have hbegin := hextends.members
    rw [hreach'.members_registered.2 hcoming, hadded] at hbegin
    obtain ⟨first, rest, hmid⟩ := List.exists_cons_of_ne_nil (List.ne_nil_of_mem hmem)
    rw [hmid] at hbegin
    rw [hmid, (List.cons_prefix_cons.1 hbegin).1]
    exact List.mem_cons_self
  refine hmin _ hasked ⟨.child .root "x", _⟩ (ask_eq_some.2 ⟨by decide, rfl⟩) ?_
  rw [Located.Before, RootEntry.Before, hordinal]
  exact Nat.zero_lt_one

end Passing

end Session

end Overlay
