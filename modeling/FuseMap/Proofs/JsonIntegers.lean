import FuseMap.Json.Parser
import FuseMap.Proofs.Numeral
import FuseMap.Proofs.Success

/-! # The integers of a value that was read

A reader of JSON takes integers up to a number of digits. The value that it gives has no other
integers inside (`within_of_parseWithin`): those that it reads have as many digits as their text,
and all others come from the parts that were read before.
-/

namespace FuseMap.Json

/-- A value is an integer or has it inside. -/
inductive Value.HasInteger (n : Int) : Value → Prop
  | self : HasInteger n (.integer n)
  | item {items : List Value} {v : Value} : v ∈ items → HasInteger n v → HasInteger n (.array items)
  | field {fields : List (Str × Value)} {name : Str} {v : Value} : (name, v) ∈ fields →
    HasInteger n v → HasInteger n (.record fields)

theorem Value.HasInteger.of_lookup {fields : List (Str × Value)} {name : Str} {v : Value} {n : Int}
    (h : fields.lookup name = some v) (hn : v.HasInteger n) :
    (Value.record fields).HasInteger n := by
  obtain ⟨front, back, rfl, -⟩ := List.lookup_eq_some_iff.1 h
  exact .field (List.mem_append_right _ List.mem_cons_self) hn

/-- The integers of a value have no more digits than a reader takes. -/
def Value.Within (limits : Limits) (v : Value) : Prop :=
  ∀ n, v.HasInteger n → limits.allowsDigits (Text.digitCount n) = true

variable {limits : Limits} {n level : Nat} {cs rest whole : List Char} {v : Value}

/-! ## Numbers -/

theorem allowsDigits_mono {m n : Nat} (hmn : m ≤ n) (h : limits.allowsDigits n = true) :
    limits.allowsDigits m = true := by
  obtain ⟨_ | digits, depth⟩ := limits
  · rfl
  · simp only [Limits.allowsDigits, Option.all_some, decide_eq_true_eq] at h ⊢
    omega

theorem digits_of_integerPart? (h : integerPart? cs = some (whole, rest)) :
    whole ≠ [] ∧ ∀ c ∈ whole, c.isDigit = true := by
  unfold integerPart? at h
  split at h
  · cases h
    exact ⟨List.cons_ne_nil _ _, by simp⟩
  · split at h
    · cases h
    · next hne =>
      cases h
      refine ⟨fun hnil => hne (List.isEmpty_iff.2 hnil), fun c hc => ?_⟩
      exact List.all_eq_true.1 List.all_takeWhile c hc

/-- A number has no more digits than its text. -/
theorem within_of_magnitude {negative : Bool} (h : magnitude limits negative cs = .ok (v, rest)) :
    v.Within limits := by
  unfold magnitude at h
  split at h
  · cases h
  · next whole rest' hwhole =>
    obtain ⟨hne, hdigits⟩ := digits_of_integerPart? hwhole
    have hcount := Text.digitCount_digitsValue_le hne hdigits
    dsimp only at h
    split at h
    · split at h
      · next hallowed =>
        cases h
        intro n hn
        cases hn
        refine allowsDigits_mono ?_ hallowed
        cases negative with
        | false => exact hcount
        | true => simpa [Text.digitCount] using hcount
      · cases h
    · cases h
      nofun

/-- Of the scalars, only a number can be an integer. -/
theorem within_of_scalar (h : scalar limits cs = .ok (v, rest)) : v.Within limits := by
  unfold scalar at h
  split at h
  · next r hword =>
    -- the words that stand for a value stand for no integer
    have hwords : ∀ word ∈ words, ∀ n, ¬ word.2.HasInteger n := by
      simp only [words, List.forall_mem_cons]
      refine ⟨?_, ?_, ?_, ?_, ?_, ?_, by simp⟩
      all_goals nofun
    cases h
    obtain ⟨word, hmem, hafter⟩ := List.exists_of_findSome?_eq_some hword
    obtain ⟨_, -, ⟨⟩⟩ := Option.map_eq_some_iff.1 hafter
    exact fun n hn => absurd hn (hwords word hmem n)
  · unfold number at h
    rw [mapError_eq_ok_iff] at h
    split at h
    · exact within_of_magnitude h
    · exact within_of_magnitude h

/-! ## Values -/

theorem within_value_of_str (s : Str) : s.value.Within limits := by
  cases s <;> nofun

theorem within_array {items : List Value} (h : ∀ x ∈ items, x.Within limits) :
    (Value.array items).Within limits := by
  rintro n (_ | ⟨hmem, hn⟩)
  exact h _ hmem n hn

theorem within_record {fields : List (Str × Value)} (h : ∀ f ∈ fields, f.2.Within limits) :
    (Value.record fields).Within limits := by
  rintro n (_ | _ | ⟨hmem, hn⟩)
  exact h _ hmem n hn

theorem within_insertField {name : Str} {fields : List (Str × Value)} (hv : v.Within limits)
    (h : ∀ f ∈ fields, f.2.Within limits) : ∀ f ∈ insertField name v fields, f.2.Within limits := by
  fun_induction insertField name v fields with
  | case1 => simpa using hv
  | case2 n' x fields hname =>
    rw [List.forall_mem_cons] at h ⊢
    exact ⟨hv, h.2⟩
  | case3 n' x fields hname ih =>
    rw [List.forall_mem_cons] at h ⊢
    exact ⟨h.1, ih h.2⟩

/-- What is read within a number of steps keeps to the limits. -/
structure ReadsWithin (limits : Limits) (n : Nat) : Prop where
  value : ∀ {level cs v rest}, Json.value limits n level cs = .ok (v, rest) → v.Within limits
  items : ∀ {level read cs v rest}, (∀ x ∈ read, Value.Within limits x) →
    Json.items limits n level read cs = .ok (v, rest) → v.Within limits
  members : ∀ {level read cs v rest}, (∀ f ∈ read, Value.Within limits f.2) →
    Json.members limits n level read cs = .ok (v, rest) → v.Within limits

theorem ReadsWithin.value_succ (h : ReadsWithin limits n)
    (hread : Json.value limits (n + 1) level cs = .ok (v, rest)) : v.Within limits := by
  unfold Json.value at hread
  split at hread
  · next hzero => cases hzero
  · obtain ⟨s, -, ⟨⟩⟩ := bind_eq_ok_iff.1 hread
    exact within_value_of_str _
  · next n' _ rest' hn =>
    cases hn
    split at hread
    · split at hread
      · cases hread
        exact within_array (by simp)
      · exact h.items (by simp) hread
    · cases hread
  · next n' _ rest' hn =>
    cases hn
    split at hread
    · split at hread
      · cases hread
        exact within_record (by simp)
      · exact h.members (by simp) hread
    · cases hread
  · exact within_of_scalar hread

theorem ReadsWithin.items_succ (h : ReadsWithin limits n) {read : List Value}
    (hread : ∀ x ∈ read, Value.Within limits x)
    (hitems : Json.items limits (n + 1) level read cs = .ok (v, rest)) : v.Within limits := by
  rw [Json.items] at hitems
  obtain ⟨⟨x, rest'⟩, hx, hitems⟩ := bind_eq_ok_iff.1 hitems
  have hall : ∀ y ∈ x :: read, y.Within limits := List.forall_mem_cons.2 ⟨h.value hx, hread⟩
  dsimp only at hitems
  split at hitems
  · cases hitems
    exact within_array fun y hy => hall y (List.mem_reverse.1 hy)
  · exact h.items hall hitems
  · cases hitems

theorem ReadsWithin.members_succ (h : ReadsWithin limits n) {read : List (Str × Value)}
    (hread : ∀ f ∈ read, Value.Within limits f.2)
    (hmembers : Json.members limits (n + 1) level read cs = .ok (v, rest)) : v.Within limits := by
  unfold Json.members at hmembers
  split at hmembers
  · next hzero => cases hzero
  · next hn =>
    cases hn
    obtain ⟨⟨name, rest'⟩, -, hmembers⟩ := bind_eq_ok_iff.1 hmembers
    dsimp only at hmembers
    split at hmembers
    · obtain ⟨⟨x, rest'⟩, hx, hmembers⟩ := bind_eq_ok_iff.1 hmembers
      have hall := @within_insertField limits x name _ (h.value hx) hread
      dsimp only at hmembers
      split at hmembers
      · cases hmembers
        exact within_record hall
      · exact h.members hall hmembers
      · cases hmembers
    · cases hmembers
  · cases hmembers

/-- No value, item or field that is read has an integer with too many digits. -/
theorem readsWithin (limits : Limits) (n : Nat) : ReadsWithin limits n := by
  induction n with
  | zero =>
    constructor
    · intro _ _ _ _ h
      rw [Json.value] at h
      cases h
    · intro _ _ _ _ _ _ h
      rw [Json.items] at h
      cases h
    · intro _ _ _ _ _ _ h
      rw [Json.members] at h
      cases h
  | succ n ih => exact ⟨ih.value_succ, ih.items_succ, ih.members_succ⟩

/-- The value of a text has no integers with more digits than the reader takes. -/
theorem within_of_parseWithin {text : List Char} (h : parseWithin limits text = .ok v) :
    v.Within limits := by
  rw [parseWithin, mapError_eq_ok_iff, document.eq_def] at h
  split at h
  · cases h
  · obtain ⟨⟨x, rest⟩, hx, h⟩ := bind_eq_ok_iff.1 h
    dsimp only at h
    split at h
    · cases h
      exact (readsWithin limits _).value hx
    · cases h

end FuseMap.Json
