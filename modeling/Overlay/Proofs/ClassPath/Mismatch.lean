import Overlay.Proofs.ClassPath.Agreement
import Overlay.Proofs.ClassPath.Replay
import Overlay.Proofs.Index.Marks

/-!
# Mismatches

Over roots that contradict themselves the two answers of a checked lookup can differ. The lookup
fails then and only then: a location that it has found comes from a known member, so the cut-off at
the last one leaves nothing out. What such a failure leaves behind are marks in the index and the
wish for full logs. No answer depends on these, so class paths that are the same otherwise,
`ClassPath.Matches`, answer alike whatever is done later: `Matches.answersAfter`. Both together are
`verdicts_exact`.
-/

namespace Overlay

variable {σ δ : Type}

theorem Entry.winner_unmarked (e : Entry (Member σ δ)) : e.unmarked.winner = e.winner := by
  rw [winner, winner, locations_unmarked, first_unmarked]

/-- Of the two lookups, neither answer depends on the marks. -/
theorem ClassPath.answers_unmarked (w : σ) (cp : ClassPath σ δ) (key : String) :
    (cp.find w key).answer = (match (cp.index.find key).map (Option.map Entry.unmarked) with
      | .error mismatch => .error (.segments mismatch)
      | .ok entry => .ok (choose w key cp.fallback (entry.map Entry.winner))) ∧
    (cp.findAll w key).answer = match (cp.index.find key).map (Option.map Entry.unmarked) with
      | .error mismatch => .error (.segments mismatch)
      | .ok entry => .ok (collect w key cp.fallback entry) := by
  rw [find, findAll]
  rcases cp.index.find key with mismatch | _ | e
  · exact ⟨rfl, rfl⟩
  · exact ⟨rfl, rfl⟩
  · simp only [Except.map, Option.map_some, Entry.winner_unmarked, collect,
      Entry.locations_unmarked, and_self]

theorem Index.Matches.indexing {index index' : Index (Member σ δ)} (h : index.Matches index')
    (scan : Scan σ δ) (e : WalkEvent) :
    (scan.indexing e index).Matches (scan.indexing e index') := by
  unfold Scan.indexing
  cases (scan.response e).put? with
  | none => exact h
  | some path => exact h.put ⟨path, scan.entry⟩

namespace ClassPath

/-- Class paths that differ in marks and in the wish for full logs at most. -/
inductive Matches (cp : ClassPath σ δ) : ClassPath σ δ → Prop where
  | intro {index : Index (Member σ δ)} (detail : Bool) (hindex : cp.index.Matches index) :
      Matches cp { cp with index := index, fullDetail := detail }

namespace Matches

variable {cp cp' cp'' : ClassPath σ δ} {w : σ}

theorem refl (cp : ClassPath σ δ) : cp.Matches cp := .intro cp.fullDetail (.refl cp.index)

theorem symm (h : cp.Matches cp') : cp'.Matches cp := by
  obtain ⟨detail, hindex⟩ := h
  exact .intro cp.fullDetail hindex.symm

theorem trans (h : cp.Matches cp') (h' : cp'.Matches cp'') : cp.Matches cp'' := by
  obtain ⟨detail, hindex⟩ := h
  obtain ⟨detail', hindex'⟩ := h'
  exact .intro detail' (hindex.trans hindex')

theorem of_touched (h : cp.Touched cp') : cp.Matches cp' := by
  induction h with
  | refl => exact refl cp
  | tail _ hlast ih =>
    refine ih.trans ?_
    cases hlast with
    | warn key => exact .intro _ (.warn _ key)
    | detail => exact .intro true (.refl _)

theorem touched {after after' : ClassPath σ δ} (h : cp.Matches cp') (ht : cp.Touched after)
    (ht' : cp'.Touched after') : after.Matches after' :=
  (of_touched ht).symm.trans (h.trans (of_touched ht'))

theorem find_answer (h : cp.Matches cp') (w : σ) (key : String) :
    (cp'.find w key).answer = (cp.find w key).answer := by
  obtain ⟨detail, hindex⟩ := h
  rw [(answers_unmarked w _ key).1, (answers_unmarked w cp key).1, hindex.find]

theorem findAll_answer (h : cp.Matches cp') (w : σ) (key : String) :
    (cp'.findAll w key).answer = (cp.findAll w key).answer := by
  obtain ⟨detail, hindex⟩ := h
  rw [(answers_unmarked w _ key).2, (answers_unmarked w cp key).2, hindex.find]

theorem report_eq (h : cp.Matches cp') (key : String) (known : List (Member σ δ))
    (quick slow again : String) :
    cp'.report key known quick slow again = cp.report key known quick slow again := by
  obtain ⟨detail, hindex⟩ := h
  unfold report
  dsimp only
  rw [hindex.describe key]

variable {α β : Type}

theorem andThen_answer {reply reply' : Reply σ δ α} {f : α → ClassPath σ δ → Reply σ δ β}
    (hanswer : reply'.answer = reply.answer) (hafter : reply.after.Matches reply'.after)
    (hf : ∀ a {cp cp' : ClassPath σ δ}, cp.Matches cp' → (f a cp').answer = (f a cp).answer) :
    (reply'.andThen f).answer = (reply.andThen f).answer := by
  rw [Reply.andThen, Reply.andThen, hanswer]
  cases reply.answer with
  | error fault => rfl
  | ok a => exact hf a hafter

theorem giveUp_answer {operation key : String} {known : List (Member σ δ)} {shown : α → String}
    {quick slow : α} {again again' : Reply σ δ α} (hanswer : again'.answer = again.answer)
    (hafter : again.after.Matches again'.after) :
    (giveUp operation key known shown quick slow again').answer =
      (giveUp operation key known shown quick slow again).answer := by
  refine andThen_answer hanswer hafter fun second cp cp' h => ?_
  have hfull : Matches { cp with fullDetail := true } { cp' with fullDetail := true } :=
    h.touched (.single .detail) (.single .detail)
  dsimp only
  rw [hfull.report_eq]

theorem checkedFind_answer (h : cp.Matches cp') (w : σ) (known : List (Member σ δ))
    (key : String) :
    (cp'.checkedFind w known key).answer = (cp.checkedFind w known key).answer := by
  refine andThen_answer (h.find_answer w key) (h.touched (.find w cp key) (.find w cp' key))
    fun found cp cp' h => ?_
  dsimp only
  split
  · rfl
  · exact giveUp_answer (h.find_answer w key) (h.touched (.find w cp key) (.find w cp' key))

theorem checkedFindAll_answer (h : cp.Matches cp') (w : σ) (known : List (Member σ δ))
    (key : String) :
    (cp'.checkedFindAll w known key).answer = (cp.checkedFindAll w known key).answer := by
  refine andThen_answer (h.findAll_answer w key)
    (h.touched (.findAll w cp key) (.findAll w cp' key)) fun found cp cp' h => ?_
  dsimp only
  split
  · rfl
  · exact giveUp_answer (h.findAll_answer w key)
      (h.touched (.findAll w cp key) (.findAll w cp' key))

theorem indexes (h : cp.Matches cp') : cp.index.Matches cp'.index := by
  obtain ⟨detail, hindex⟩ := h
  exact hindex

theorem known_eq (h : cp.Matches cp') : cp'.known = cp.known := by
  obtain ⟨detail, hindex⟩ := h
  rfl

theorem findResource_answer (h : cp.Matches cp') (w : σ) (path : String) :
    (cp'.findResource w path).answer = (cp.findResource w path).answer := by
  rw [findResource, findResource, h.known_eq]
  cases cp.known with
  | none => exact h.find_answer w _
  | some known => exact h.checkedFind_answer w known _

theorem allResources_answer (h : cp.Matches cp') (w : σ) (path : String) :
    (cp'.allResources w path).answer = (cp.allResources w path).answer := by
  rw [allResources, allResources, h.known_eq]
  cases cp.known with
  | none => exact h.findAll_answer w _
  | some known => exact h.checkedFindAll_answer w known _

theorem apply (h : cp.Matches cp') (a : Action σ δ) :
    (cp.apply a).value.Matches (cp'.apply a).value := by
  obtain ⟨detail, hindex⟩ := h
  cases a with
  | put l => exact .intro detail (hindex.put l)
  | reserve count => exact .intro detail (hindex.reserve count)
  | report _ | fallBack _ | scan _ | remember _ => exact .intro detail hindex

theorem deliver (h : cp.Matches cp') (scan : Scan σ δ) :
    (cp.deliver scan).value.1.Matches (cp'.deliver scan).value.1 ∧
      (cp'.deliver scan).value.2 = (cp.deliver scan).value.2 := by
  obtain ⟨detail, hindex⟩ := h
  cases hrest : scan.rest with
  | nil =>
    simp only [ClassPath.deliver, hrest]
    exact ⟨.intro detail hindex, rfl⟩
  | cons e rest =>
    rw [deliver_cons cp hrest, deliver_cons _ hrest]
    exact ⟨.intro detail (hindex.indexing scan e), rfl⟩

theorem work (h : cp.Matches cp') (i : Nat) (scan : Scan σ δ) :
    (cp.work i scan).value.Matches (cp'.work i scan).value := by
  obtain ⟨hmatches, hprogress⟩ := h.deliver scan
  simp only [ClassPath.work, Logged.value_bind]
  generalize (cp.deliver scan).value = delivered at hmatches hprogress ⊢
  generalize (cp'.deliver scan).value = delivered' at hmatches hprogress ⊢
  obtain ⟨mid, progress⟩ := delivered
  obtain ⟨mid', progress'⟩ := delivered'
  obtain rfl : progress' = progress := hprogress
  obtain ⟨detail, hindex⟩ := hmatches
  rcases progress' with next | ending
  · exact .intro detail hindex
  · cases ending <;> exact .intro detail hindex

theorem move? (h : cp.Matches cp') (m : Pool.Move) :
    Option.Rel Matches ((cp.move? m).map Logged.value) ((cp'.move? m).map Logged.value) := by
  have hwork := h.work
  obtain ⟨detail, hindex⟩ := h
  cases m with
  | take i =>
    simp only [ClassPath.move?]
    cases cp.pool.take? i with
    | none => exact .none
    | some taken => exact .some (.intro detail hindex)
  | exit i =>
    simp only [ClassPath.move?]
    cases cp.pool.exit? i with
    | none => exact .none
    | some pool => exact .some (.intro detail hindex)
  | work i =>
    simp only [ClassPath.move?]
    split
    next scan _ => exact .some (hwork i scan)
    next => exact .none

end Matches

end ClassPath

namespace Session

def answersAfter (s : Session σ δ) (p : String) : List (Deed σ δ) →
    Option (Except LookupFault (Option (Found σ δ)) × Except LookupFault (List (Found σ δ)))
  | [] => some ((s.cp.findResource s.world p).answer, (s.cp.allResources s.world p).answer)
  | d :: rest => (s.perform? d).bind fun next => next.answersAfter p rest

inductive Matches (s : Session σ δ) : Session σ δ → Prop where
  | intro {cp : ClassPath σ δ} (hcp : s.cp.Matches cp) : Matches s { s with cp := cp }

namespace Matches

variable {s s' : Session σ δ}

theorem perform? (h : s.Matches s') (d : Deed σ δ) :
    Option.Rel Matches (s.perform? d) (s'.perform? d) := by
  obtain ⟨hcp⟩ := h
  obtain ⟨world, cp, added, members, todo, coming, data⟩ := s
  cases d with
  | add tree data' =>
    cases coming with
    | nil =>
      cases todo with
      | nil => exact .some ⟨hcp⟩
      | cons a rest => exact .none
    | cons tree rest => exact .none
  | unpack =>
    rcases coming with _ | ⟨root | ⟨name, trees⟩, rest⟩
    · exact .none
    · exact .none
    · exact .some ⟨hcp⟩
  | enroll =>
    rcases coming with _ | ⟨root | ⟨name, trees⟩, rest⟩
    · exact .none
    · cases todo with
      | nil =>
        obtain ⟨detail, hindex⟩ := hcp
        exact .some ⟨.intro detail hindex⟩
      | cons a rest => exact .none
    · exact .none
  | act =>
    cases todo with
    | nil => exact .none
    | cons a rest => exact .some ⟨hcp.apply a⟩
  | scan m =>
    have hmove := hcp.move? m
    simp only [Session.perform?]
    generalize cp.move? m = next at hmove ⊢
    generalize ClassPath.move? _ m = next' at hmove ⊢
    cases next <;> cases next' <;> cases hmove
    · exact .none
    next hnext => exact .some ⟨hnext⟩
  | find path =>
    exact .some ⟨hcp.touched (.findResource world cp path) (.findResource world _ path)⟩
  | findAll path =>
    exact .some ⟨hcp.touched (.allResources world cp path) (.allResources world _ path)⟩
  | change w => exact .some ⟨hcp⟩

theorem answersAfter (h : s.Matches s') (p : String) (deeds : List (Deed σ δ)) :
    s'.answersAfter p deeds = s.answersAfter p deeds := by
  induction deeds generalizing s s' with
  | nil =>
    obtain ⟨hcp⟩ := h
    rw [Session.answersAfter, Session.answersAfter, hcp.findResource_answer,
      hcp.allResources_answer]
  | cons d rest ih =>
    have hnext := h.perform? d
    rw [Session.answersAfter, Session.answersAfter]
    generalize s.perform? d = next at hnext ⊢
    generalize s'.perform? d = next' at hnext ⊢
    cases hnext with
    | none => rfl
    | some hmatches => exact ih hmatches

end Matches

end Session

section Compare

def Located.SamePlace (a b : Found σ δ) : Prop :=
  a.origin.ordinal = b.origin.ordinal ∧ a.path.samePath b.path = true

theorem Located.sameAs_iff {a b : Found σ δ} : a.sameAs b = true ↔ a.SamePlace b := by
  rw [sameAs, Bool.and_eq_true, beq_iff_eq, SamePlace]

theorem agree?_iff {a b : Option (Found σ δ)} :
    agree? a b = true ↔ Option.Rel Located.SamePlace a b := by
  cases a <;> cases b
  · exact iff_of_true rfl .none
  · exact iff_of_false Bool.false_ne_true nofun
  · exact iff_of_false Bool.false_ne_true nofun
  · rw [agree?, Located.sameAs_iff]
    exact ⟨.some, fun h => by cases h; assumption⟩

theorem agreeAll_iff {as bs : List (Found σ δ)} :
    agreeAll as bs = true ↔ List.Forall₂ Located.SamePlace as bs := by
  induction as generalizing bs with
  | nil =>
    cases bs with
    | nil => exact iff_of_true rfl .nil
    | cons b bs => exact iff_of_false Bool.false_ne_true nofun
  | cons a as ih =>
    cases bs with
    | nil => exact iff_of_false Bool.false_ne_true nofun
    | cons b bs =>
      rw [agreeAll, Bool.and_eq_true, Located.sameAs_iff, ih, List.forall₂_cons]

end Compare

theorem ClassPath.giveUp_of_ok {α : Type} {operation key : String} {known : List (Member σ δ)}
    {shown : α → String} {quick slow second : α} {again : Reply σ δ α}
    (h : again.answer = .ok second) :
    (∃ text, (giveUp operation key known shown quick slow again).answer =
        .error (.inconsistent operation key text)) ∧
      (giveUp operation key known shown quick slow again).after.fullDetail = true := by
  simp only [giveUp, Reply.andThen, h]
  exact ⟨⟨_, rfl⟩, trivial⟩

namespace Session

/-- What a checked lookup comes to when its answer is compared with the slow one: it gives this
answer if the two agree, and fails otherwise, which changes no more than marks and the wish for full
logs, and no answer that is given later. -/
structure Verdict {α : Type} (s : Session σ δ) (operation key : String) (agree : Prop) (answer : α)
    (reply : Reply σ δ α) : Prop where
  ok_iff : (∃ a, reply.answer = .ok a) ↔ agree
  answer : ∀ a, reply.answer = .ok a → a = answer
  fault : ∀ fault, reply.answer = .error fault → ∃ text, fault = .inconsistent operation key text
  after : ∀ fault, reply.answer = .error fault →
    reply.after = { s.cp with index := reply.after.index, fullDetail := true }
  /-- The index is the same without its marks. -/
  marks : s.cp.index.Matches reply.after.index
  locations : ∀ other, (reply.after.index.find other).map (Option.map Entry.locations) =
    (s.cp.index.find other).map (Option.map Entry.locations)
  later : ∀ p deeds, answersAfter { s with cp := reply.after } p deeds = s.answersAfter p deeds

theorem Verdict.of_check {α : Type} {s : Session σ δ} {operation key : String} {agree : Bool}
    {answer : α} {reply : Reply σ δ α} (htouched : s.cp.Touched reply.after)
    (hok : agree = true → reply.answer = .ok answer)
    (hfault : agree = false → (∃ text, reply.answer = .error (.inconsistent operation key text)) ∧
      reply.after.fullDetail = true) :
    s.Verdict operation key (agree = true) answer reply := by
  have hmatches : s.cp.Matches reply.after := .of_touched htouched
  have hsame := (ClassPath.Alike.of_touched htouched).same
  have hlocations := fun other => (hmatches.indexes.find_locations other).symm
  have hlater := fun p deeds => Matches.answersAfter (s := s) ⟨hmatches⟩ p deeds
  cases agree with
  | true =>
    have hreply := hok rfl
    refine ⟨iff_of_true ⟨answer, hreply⟩ rfl, fun a ha => ?_, fun fault h => ?_, fun fault h => ?_,
      hmatches.indexes, hlocations, hlater⟩
    · exact (Except.ok.inj (hreply.symm.trans ha)).symm
    · cases hreply.symm.trans h
    · cases hreply.symm.trans h
  | false =>
    obtain ⟨⟨text, hreply⟩, hfull⟩ := hfault rfl
    refine ⟨iff_of_false (fun ⟨a, ha⟩ => ?_) Bool.false_ne_true, fun a ha => ?_,
      fun fault h => ⟨text, (Except.error.inj (hreply.symm.trans h)).symm⟩, fun fault h => ?_,
      hmatches.indexes, hlocations, hlater⟩
    · cases hreply.symm.trans ha
    · cases hreply.symm.trans ha
    · rw [hfull] at hsame
      exact hsame

section Reachable

variable {c : Contract σ} {config : Config} {s : Session σ δ}

/-- With validation, a lookup fails if and only if it differs from asking every member in turn. The
cut-off at the last known member leaves nothing out. -/
theorem verdicts_exact (h : Reachable c config s) (hvalidate : config.validate = true)
    (htodo : s.todo = []) (key : String) :
    s.cp.known = some s.members ∧
    ∃ found all, (s.cp.find s.world key).answer = .ok found ∧
      (s.cp.findAll s.world key).answer = .ok all ∧
      found.filter (Located.isVisible s.members) = found ∧
      all.filter (Located.isVisible s.members) = all ∧
      s.Verdict "find_resource" key
        (Option.Rel Located.SamePlace found (firstAnswer s.world key s.members)) found
        (s.cp.checkedFind s.world s.members key) ∧
      s.Verdict "get_all_resources" key
        (List.Forall₂ Located.SamePlace all (allAnswers s.world key s.members)) all
        (s.cp.checkedFindAll s.world s.members key) := by
  obtain ⟨log, htidy⟩ := h.tidy
  obtain ⟨entry, hans, hone, hfind, hfindAll⟩ := htidy.lookups s.world key
  have hall : ∀ l ∈ collect s.world key s.cp.fallback entry,
      l.isVisible s.members = true := fun l hl =>
    isVisible_of_mem htidy.ordered_members (htidy.origin_mem hans hl)
  rw [choose_eq_head? htidy.ordered hone] at hfind
  generalize collect s.world key s.cp.fallback entry = all at hfind hfindAll hall
  have hvisible : all.head?.filter (Located.isVisible s.members) = all.head? := by
    cases hhead : all.head? with
    | none => rfl
    | some l => exact if_pos (hall l (List.mem_of_head? hhead))
  have hvisibleAll := List.filter_eq_self.2 hall
  refine ⟨h.known_eq hvalidate htodo, all.head?, all, hfind, hfindAll, hvisible, hvisibleAll, ?_,
    ?_⟩
  · rw [← agree?_iff]
    refine .of_check (.checkedFind s.world s.cp s.members key) (fun hagree => ?_) fun hagree => ?_
    · simp only [ClassPath.checkedFind, Reply.andThen, hfind, hvisible, hagree, if_true]
    · have hfirst := ClassPath.Matches.of_touched (.find s.world s.cp key)
      simp only [ClassPath.checkedFind, Reply.andThen, hfind, hvisible, hagree,
        Bool.false_eq_true, if_false]
      exact ClassPath.giveUp_of_ok ((hfirst.find_answer s.world key).trans hfind)
  · rw [← agreeAll_iff]
    refine .of_check (.checkedFindAll s.world s.cp s.members key) (fun hagree => ?_)
      fun hagree => ?_
    · simp only [ClassPath.checkedFindAll, Reply.andThen, hfindAll, hvisibleAll, hagree, if_true]
    · have hfirst := ClassPath.Matches.of_touched (.findAll s.world s.cp key)
      simp only [ClassPath.checkedFindAll, Reply.andThen, hfindAll, hvisibleAll, hagree,
        Bool.false_eq_true, if_false]
      exact ClassPath.giveUp_of_ok ((hfirst.findAll_answer s.world key).trans hfindAll)

/-- The walk of the first archive has named `/x`, which the archive resolves to another path.
Looking it up fails and does no harm; what the other archive resolves is found. -/
theorem verdicts_exact_deceptive :
    ∃ (s : Session Unit String) (text : String) (found : Option (Found Unit String)),
      Reachable .free { validate := true } s ∧
      (s.cp.findResource () "x").answer = .error (.inconsistent "find_resource" "/x" text) ∧
      (∀ p deeds, answersAfter { s with cp := (s.cp.findResource () "x").after } p deeds =
        s.answersAfter p deeds) ∧
      (s.cp.findResource () "z").answer = .ok found ∧
      found.map (fun l => l.origin.ordinal) = some 1 := by
  let checked : Config := { validate := true }
  let slow : List (Member Unit String) := registered [(deceptive, some "data")]
  have hmoves : ((addedDeceptive checked).moves [.take 0, .work 0, .work 0]).map (fun cp =>
      ((cp.find () "/x").answer.toOption.map fun found =>
          agree? found (firstAnswer () "/x" slow),
        (cp.find () "/z").answer.toOption.map fun found =>
          (found.map fun l => l.origin.ordinal, agree? found (firstAnswer () "/z" slow)))) =
      some (some false, some (some 1, true)) := by decide +kernel
  obtain ⟨cp, hcp, hseen⟩ := Option.map_eq_some_iff.1 hmoves
  obtain ⟨hx, hz⟩ := Prod.mk.inj hseen
  obtain ⟨wrong, hwrong, hdiffer⟩ := exists_answer hx
  obtain ⟨right, hright, hsame⟩ := exists_answer hz
  obtain ⟨members, hreach⟩ := reachable_of_add .free checked () deceptive (some "data")
    (fun _ _ => trivial) (.of_moves hcp)
  obtain rfl : members = slow := hreach.members_registered.2 rfl
  obtain ⟨hknown, found, _, hfind, -, -, -, hverdict, -⟩ := verdicts_exact hreach rfl rfl "/x"
  obtain ⟨-, found', _, hfind', -, -, -, hverdict', -⟩ := verdicts_exact hreach rfl rfl "/z"
  obtain rfl := Except.ok.inj (hwrong.symm.trans hfind)
  obtain rfl := Except.ok.inj (hright.symm.trans hfind')
  have hresource : ∀ p, cp.findResource () p = cp.checkedFind () slow (normalize p) := fun p => by
    rw [ClassPath.findResource, hknown]
  have hfails : ∃ text, (cp.checkedFind () slow "/x").answer =
      .error (.inconsistent "find_resource" "/x" text) := by
    cases hanswer : (cp.checkedFind () slow "/x").answer with
    | ok a =>
      have hrel := agree?_iff.2 (hverdict.ok_iff.1 ⟨a, hanswer⟩)
      rw [hdiffer] at hrel
      cases hrel
    | error fault =>
      obtain ⟨text, rfl⟩ := hverdict.fault fault hanswer
      exact ⟨text, rfl⟩
  obtain ⟨text, hfails⟩ := hfails
  obtain ⟨hordinal, hagree⟩ := Prod.mk.inj hsame
  obtain ⟨answer, hanswer⟩ := hverdict'.ok_iff.2 (agree?_iff.1 hagree)
  obtain rfl := hverdict'.answer answer hanswer
  refine ⟨_, text, answer, hreach, (congrArg Reply.answer (hresource "x")).trans hfails, ?_,
    (congrArg Reply.answer (hresource "z")).trans hanswer, hordinal⟩
  rw [hresource]
  exact hverdict.later

end Reachable

end Session

end Overlay
