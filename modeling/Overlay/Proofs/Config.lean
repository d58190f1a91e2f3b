import Mathlib.Data.List.Count
import Overlay.Config
import Overlay.Proofs.Text.Trimming

/-!
# What the variables may be given as

`Flags` and `Counts` are the values that a flag and a count are given as, in terms of the bytes
themselves: a word between blanks that is one of a few in either case, or a decimal numeral. Reading
accepts precisely those, so a configuration has in every field what its own variable stands for, and
the default where that stands for nothing: `ofLookup_exact`. A variable that is given as something
else is reported once, in the order in which the variables are read.
-/

namespace Overlay.Config

inductive Numeral : List Char → Nat → Prop
  | digit {d : Nat} (h : d < 10) : Numeral [d.digitChar] d
  | behind {cs : List Char} {n d : Nat} (hn : Numeral cs n) (h : d < 10) :
      Numeral (cs ++ [d.digitChar]) (n * 10 + d)

inductive CountWord : List Char → Nat → Prop
  | plain {cs : List Char} {n : Nat} (h : Numeral cs n) : CountWord cs n
  | signed {cs : List Char} {n : Nat} (h : Numeral cs n) : CountWord ('+' :: cs) n

def Counts (value : ByteArray) (n : Nat) : Prop :=
  ∃ word, Text.Encloses value word ∧ CountWord word n ∧ 1 ≤ n ∧ n < Nat.pow 2 64

def flagWords : Bool → List String
  | true => ["1", "true", "yes", "on"]
  | false => ["0", "false", "no", "off", ""]

/-- Letters between `A` and `Z` are as good as those between `a` and `z`. -/
def Flags (value : ByteArray) (b : Bool) : Prop :=
  ∃ word, Text.Encloses value word ∧ String.ofList (word.map Char.toLower) ∈ flagWords b

theorem trimmed?_eq_some_iff {value : ByteArray} {word : List Char} :
    trimmed? value = some word ↔ Text.Encloses value word := by
  rw [trimmed?, Option.map_eq_some_iff]
  constructor
  · rintro ⟨s, hs, hword⟩
    obtain ⟨left, right, heq, hblank⟩ := Text.trim_eq_iff.1 hword
    refine ⟨left, right, ?_, hblank⟩
    rw [Text.fromUTF8?_eq_some_iff.1 hs, ← heq, String.ofList_toList]
  · rintro ⟨left, right, rfl, hblank⟩
    refine ⟨_, Text.fromUTF8?_eq_some_iff.2 rfl, Text.trim_eq_iff.2 ⟨left, right, ?_, hblank⟩⟩
    exact String.toList_ofList

theorem decimal_concat (cs : List Char) (c : Char) :
    decimal (cs ++ [c]) = decimal cs * 10 + (c.toNat - '0'.toNat) := by
  rw [decimal, List.foldl_concat]
  rfl

theorem exists_digitChar {c : Char} (h : c.isDigit) :
    ∃ d < 10, c = Nat.digitChar d ∧ c.toNat - '0'.toNat = d := by
  obtain ⟨hlow, hhigh⟩ := Char.isDigit_iff_toNat.1 h
  change 48 ≤ c.toNat at hlow
  change c.toNat ≤ 57 at hhigh
  have hlt : c.toNat - 48 < 10 := by omega
  refine ⟨c.toNat - 48, hlt, Char.toNat_inj.1 ?_, rfl⟩
  rw [Nat.toNat_digitChar_of_lt_ten hlt]
  omega

theorem numeral_iff {cs : List Char} {n : Nat} :
    Numeral cs n ↔ cs ≠ [] ∧ cs.all Char.isDigit ∧ decimal cs = n := by
  constructor
  · intro h
    induction h with
    | @digit d h =>
      simp [Nat.isDigit_digitChar, h, decimal, Nat.toNat_digitChar_sub_48_of_lt_ten h]
    | @behind cs n d hn h ih =>
      obtain ⟨-, hdigits, rfl⟩ := ih
      refine ⟨by simp, ?_, ?_⟩
      · rw [List.all_append, hdigits]
        simp [Nat.isDigit_digitChar, h]
      · rw [decimal_concat]
        exact congrArg _ (Nat.toNat_digitChar_sub_48_of_lt_ten h)
  · rintro ⟨hne, hdigits, rfl⟩
    -- a numeral grows at its end, where the digits are read last
    induction cs using List.reverseRecOn with
    | nil => exact absurd rfl hne
    | append_singleton cs c ih =>
      rw [List.all_append, Bool.and_eq_true, List.all_cons, List.all_nil, Bool.and_true] at hdigits
      obtain ⟨d, hd, rfl, hvalue⟩ := exists_digitChar hdigits.2
      rw [decimal_concat, hvalue]
      by_cases hnil : cs = []
      · subst hnil
        rw [List.nil_append, decimal, List.foldl_nil, Nat.zero_mul, Nat.zero_add]
        exact .digit hd
      · exact .behind (ih hnil hdigits.1) hd

theorem not_numeral_signed {cs : List Char} {n : Nat} : ¬ Numeral ('+' :: cs) n := by
  intro h
  have hdigits := (numeral_iff.1 h).2.1
  rw [List.all_cons] at hdigits
  cases hdigits

/-- The checks on what follows the sign are those of a numeral in the range of counts. -/
theorem accepted_iff {digits : List Char} {n : Nat} :
    (digits ≠ [] ∧ digits.all Char.isDigit = true ∧ 0 < decimal digits ∧
        decimal digits < UInt64.size) ∧ some (decimal digits) = some n ↔
      Numeral digits n ∧ 1 ≤ n ∧ n < Nat.pow 2 64 := by
  rw [numeral_iff, Option.some_inj]
  constructor
  · rintro ⟨⟨hne, hdigits, hpos, hlt⟩, rfl⟩
    exact ⟨⟨hne, hdigits, rfl⟩, hpos, hlt⟩
  · rintro ⟨⟨hne, hdigits, rfl⟩, hpos, hlt⟩
    exact ⟨⟨hne, hdigits, hpos, hlt⟩, rfl⟩

theorem count?_eq_some_iff {value : ByteArray} {n : Nat} :
    count? value = some n ↔ Counts value n := by
  rw [count?]
  simp only [bind, Option.bind_eq_some_iff, trimmed?_eq_some_iff, Option.ite_none_right_eq_some]
  refine exists_congr fun word => and_congr_right fun _ => ?_
  rw [accepted_iff]
  refine and_congr_left fun _ => ?_
  -- a word with a sign is a count only by what follows the sign, since no numeral begins with one
  split
  next rest =>
    constructor
    · exact .signed
    · rintro (h | h)
      · exact absurd h not_numeral_signed
      · exact h
  next hunsigned =>
    constructor
    · exact .plain
    · rintro (h | h)
      · exact h
      · exact absurd rfl (hunsigned _)

theorem Counts.pos {value : ByteArray} {n : Nat} (h : Counts value n) : 0 < n := by
  obtain ⟨word, -, -, hpos, -⟩ := h
  exact hpos

theorem flagWords_apart : ∀ word ∈ flagWords true, word ∉ flagWords false := by decide

theorem flag?_eq_some_iff {value : ByteArray} {b : Bool} :
    flag? value = some b ↔ Flags value b := by
  rw [flag?]
  simp only [bind, Option.bind_eq_some_iff, trimmed?_eq_some_iff]
  refine exists_congr fun word => and_congr_right fun _ => ?_
  generalize String.ofList (word.map Char.toLower) = lower
  change (if lower ∈ flagWords true then some true
    else if lower ∈ flagWords false then some false else none) = some b ↔ lower ∈ flagWords b
  by_cases htrue : lower ∈ flagWords true
  · rw [if_pos htrue]
    cases b with
    | true => exact iff_of_true rfl htrue
    | false => exact iff_of_false (by decide) (flagWords_apart lower htrue)
  · rw [if_neg htrue, Option.ite_none_right_eq_some]
    cases b with
    | true => exact iff_of_false (fun h => by cases h.2) htrue
    | false => exact and_iff_left rfl

/-- What a variable sets a field to: what its value stands for, or the default if there is no value
or it stands for nothing. -/
inductive Sets {α : Type} (Stands : ByteArray → α → Prop) (default : α) :
    Option ByteArray → α → Prop
  | absent : Sets Stands default none default
  | given {value : ByteArray} {a : α} (h : Stands value a) : Sets Stands default (some value) a
  | ignored {value : ByteArray} (h : ∀ a, ¬ Stands value a) :
      Sets Stands default (some value) default

theorem Sets.pos {default n : Nat} {value : Option ByteArray} (h : Sets Counts default value n)
    (hdefault : 0 < default) : 0 < n := by
  cases h with
  | absent => exact hdefault
  | given h => exact h.pos
  | ignored _ => exact hdefault

section

variable {α : Type} {parse : ByteArray → Option α} {Stands : ByteArray → α → Prop}

theorem value_setting_iff (h : ∀ value a, parse value = some a ↔ Stands value a)
    {complaint : Event} {default a : α} {value : Option ByteArray} :
    (setting parse complaint default value).value = a ↔ Sets Stands default value a := by
  rcases value with _ | value
  · rw [setting, Logged.value_pure]
    constructor
    · rintro rfl
      exact .absent
    · rintro ⟨⟩
      rfl
  · cases hparse : parse value with
    | none =>
      have hnot : ∀ b, ¬ Stands value b := fun b hb => by
        rw [← h, hparse] at hb
        cases hb
      rw [setting, hparse]
      constructor
      · rintro rfl
        exact .ignored hnot
      · rintro (_ | hb | _)
        · exact absurd hb (hnot a)
        · rfl
    | some b =>
      have hb : Stands value b := (h value b).1 hparse
      rw [setting, hparse]
      constructor
      · rintro rfl
        exact .given hb
      · rintro (_ | ha | hnot)
        · rw [← h, hparse] at ha
          exact Option.some.inj ha
        · exact absurd hb (hnot b)

end

namespace Setting

def Accepts : Setting → ByteArray → Prop
  | maxScanners, value => ∃ n, Counts value n
  | disableCustomTable, value | validate, value | development, value => ∃ b, Flags value b

instance (s : Setting) (value : ByteArray) : Decidable (s.Accepts value) :=
  match s with
  | maxScanners => decidable_of_iff ((count? value).isSome) <| by
      simp only [Option.isSome_iff_exists, count?_eq_some_iff, Accepts]
  | disableCustomTable | validate | development =>
    decidable_of_iff ((flag? value).isSome) <| by
      simp only [Option.isSome_iff_exists, flag?_eq_some_iff, Accepts]

def Refused (lookup : String → Option ByteArray) (s : Setting) : Prop :=
  ∃ value ∈ lookup s.envName, ¬ s.Accepts value

instance (lookup : String → Option ByteArray) : DecidablePred (Refused lookup) := fun s =>
  inferInstanceAs (Decidable (∃ value ∈ lookup s.envName, ¬ s.Accepts value))

def complaint : Setting → Event
  | maxScanners => .invalidCount maxScanners.envName
  | disableCustomTable => .invalidFlag disableCustomTable.envName
  | validate => .invalidFlag validate.envName
  | development => .invalidFlag development.envName

def inOrder : List Setting := [maxScanners, disableCustomTable, validate, development]

theorem envName_injective : Function.Injective envName := by
  intro s t
  cases s <;> cases t <;> simp [envName]

theorem complaint_injective : Function.Injective complaint := by
  intro s t
  cases s <;> cases t <;> simp [complaint, envName]

theorem count_inOrder (s : Setting) : inOrder.count s = 1 := by
  cases s <;> rfl

end Setting

/-- Reading a variable reports it if it is refused, whatever it is read as. -/
theorem events_setting {α : Type} {parse : ByteArray → Option α} {Stands : ByteArray → α → Prop}
    (h : ∀ value a, parse value = some a ↔ Stands value a) {s : Setting}
    (hs : ∀ value, s.Accepts value ↔ ∃ a, Stands value a) (lookup : String → Option ByteArray)
    (default : α) :
    (setting parse s.complaint default (lookup s.envName)).events =
      if s.Refused lookup then [s.complaint] else [] := by
  cases hvalue : lookup s.envName with
  | none =>
    have hnot : ¬ s.Refused lookup := fun ⟨value, hmem, _⟩ => by
      rw [hvalue] at hmem
      cases hmem
    rw [if_neg hnot]
    rfl
  | some value =>
    have hrefused : s.Refused lookup ↔ parse value = none := by
      rw [Setting.Refused, hvalue, Option.eq_none_iff_forall_ne_some]
      simp only [Option.mem_some_iff, exists_eq_left', hs, ← h, not_exists, ne_eq]
    rw [setting]
    cases hparse : parse value with
    | none =>
      rw [if_pos (hrefused.2 hparse)]
      rfl
    | some a =>
      rw [if_neg fun hr => by rw [hrefused.1 hr] at hparse; cases hparse]
      rfl

theorem flatMap_ite_eq {α β : Type} (p : α → Prop) [DecidablePred p] (f : α → β) (l : List α) :
    (l.flatMap fun a => if p a then [f a] else []) = (l.filter p).map f := by
  induction l with
  | nil => rfl
  | cons a rest ih =>
    rw [List.flatMap_cons, ih]
    by_cases ha : p a
    · rw [if_pos ha, List.filter_cons_of_pos (by simpa using ha)]
      rfl
    · rw [if_neg ha, List.filter_cons_of_neg (by simpa using ha)]
      rfl

theorem events_ofLookup (lookup : String → Option ByteArray) :
    (ofLookup lookup).events =
      (Setting.inOrder.filter (Setting.Refused lookup)).map Setting.complaint := by
  have hcount := events_setting (s := .maxScanners) (fun _ _ => count?_eq_some_iff)
    (fun _ => Iff.rfl) lookup 4
  have hflag : ∀ s : Setting, s ≠ .maxScanners →
      (flagOf lookup s false).events = if s.Refused lookup then [s.complaint] else [] := by
    intro s hs
    cases s with
    | maxScanners => exact absurd rfl hs
    | disableCustomTable | validate | development =>
      exact events_setting (fun _ _ => flag?_eq_some_iff) (fun _ => Iff.rfl) lookup false
  have hreads : (ofLookup lookup).events =
      Setting.inOrder.flatMap fun s => if s.Refused lookup then [s.complaint] else [] :=
    calc (ofLookup lookup).events
        = (setting count? Setting.maxScanners.complaint 4
              (lookup Setting.maxScanners.envName)).events ++
            ((flagOf lookup .disableCustomTable false).events ++
              ((flagOf lookup .validate false).events ++
                ((flagOf lookup .development false).events ++ []))) := rfl
      _ = _ := by
        rw [hcount, hflag _ (by decide), hflag _ (by decide), hflag _ (by decide)]
        rfl
  rw [hreads, flatMap_ite_eq]

/-- A configuration holds in every field what its own variable stands for, the default if it stands
for nothing; the variables that are refused are reported, each of them once. -/
theorem ofLookup_exact (lookup : String → Option ByteArray) :
    (∀ b, (ofLookup lookup).value.customTable = b ↔
      Sets Flags false (lookup Setting.disableCustomTable.envName) (!b)) ∧
    (∀ b, (ofLookup lookup).value.validate = b ↔
      Sets Flags false (lookup Setting.validate.envName) b) ∧
    (∀ b, (ofLookup lookup).value.development = b ↔
      Sets Flags false (lookup Setting.development.envName) b) ∧
    (∀ n, (ofLookup lookup).value.maxScanners = n ↔
      Sets Counts 4 (lookup Setting.maxScanners.envName) n) ∧
    0 < (ofLookup lookup).value.maxScanners ∧
    Function.Injective Setting.envName ∧
    (ofLookup lookup).events =
      (Setting.inOrder.filter (Setting.Refused lookup)).map Setting.complaint ∧
    ∀ s : Setting, s.complaint.level = .warn ∧
      (ofLookup lookup).events.count s.complaint = if s.Refused lookup then 1 else 0 := by
  have hflag : ∀ (s : Setting) (b : Bool), (flagOf lookup s false).value = b ↔
      Sets Flags false (lookup s.envName) b := fun s b =>
    value_setting_iff fun _ _ => flag?_eq_some_iff
  have hcount : ∀ n, (ofLookup lookup).value.maxScanners = n ↔
      Sets Counts 4 (lookup Setting.maxScanners.envName) n := fun n =>
    value_setting_iff fun _ _ => count?_eq_some_iff
  have hpos : 0 < (ofLookup lookup).value.maxScanners := ((hcount _).1 rfl).pos (by decide)
  refine ⟨fun b => ?_, hflag .validate, hflag .development, hcount, hpos,
    Setting.envName_injective, events_ofLookup lookup, fun s => ⟨?_, ?_⟩⟩
  · rw [← hflag]
    exact Bool.not_eq_eq_eq_not
  · cases s <;> rfl
  · rw [events_ofLookup, List.count_map_of_injective _ _ Setting.complaint_injective]
    by_cases hs : s.Refused lookup
    · rw [if_pos hs, List.count_filter (by simpa using hs), Setting.count_inOrder]
    · rw [if_neg hs, List.count_eq_zero]
      exact fun hmem => hs (of_decide_eq_true (List.mem_filter.1 hmem).2)

/-- Blanks around it, a sign and zeros in front do no harm to a count, nor do capitals to a flag; a
blank inside does. -/
example :
    let lookup := fun name =>
      if name = Setting.maxScanners.envName then some "\t+007\n".toUTF8
      else if name = Setting.validate.envName then some " Yes".toUTF8
      else if name = Setting.development.envName then some "yes no".toUTF8
      else none
    (ofLookup lookup).value = ⟨true, true, false, 7⟩ ∧
      (ofLookup lookup).events = [.invalidFlag Setting.development.envName] := by
  decide +kernel

end Overlay.Config
