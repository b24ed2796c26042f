import FuseMap.Text.Integer
import Mathlib.Algebra.Group.Nat.Defs

/-! # Reading numerals back

Numbers brought to a fixed number of places by zeros in front read back as themselves, decimal ones
by `digitsValue` and hexadecimal ones by `hexValue`. Decimal digits stand for one number, whether
those of all scripts are allowed or not (`readInteger?_of_isDigit`).
-/

namespace FuseMap.Text

variable {width n : Nat} {digits : List Char}

theorem length_padLeft (h : digits.length ≤ width) : (padLeft width digits).length = width := by
  simp only [padLeft, List.length_append, List.length_replicate]
  omega

theorem mem_padLeft {c : Char} (h : c ∈ padLeft width digits) : c = '0' ∨ c ∈ digits := by
  rcases List.mem_append.1 h with h | h
  · exact .inl (List.eq_of_mem_replicate h)
  · exact .inr h

/-- A run of characters is found in front of a text that does not go on with it. -/
theorem takeWhile_append_of_head? {p : Char → Bool} {xs ys : List Char} (hx : ∀ x ∈ xs, p x = true)
    (hy : ∀ y ∈ ys.head?, p y = false) : (xs ++ ys).takeWhile p = xs := by
  rw [List.takeWhile_append_of_pos hx]
  cases ys with
  | nil => simp
  | cons y ys => simp [hy y rfl]

/-- Texts that begin with runs of characters come apart where the runs end. -/
theorem eq_of_append_eq {p : Char → Bool} {xs xs' ys ys' : List Char} (hx : ∀ x ∈ xs, p x = true)
    (hx' : ∀ x ∈ xs', p x = true) (hy : ∀ y ∈ ys.head?, p y = false)
    (hy' : ∀ y ∈ ys'.head?, p y = false) (h : xs ++ ys = xs' ++ ys') : xs = xs' ∧ ys = ys' := by
  have hrun : xs = xs' := by
    rw [← takeWhile_append_of_head? hx hy, h, takeWhile_append_of_head? hx' hy']
  subst hrun
  exact ⟨rfl, List.append_cancel_left h⟩

/-! ## Decimal numerals -/

theorem digitsValue_toDigits (n : Nat) : digitsValue (Nat.toDigits 10 n) = n :=
  Nat.ofDigitChars_ten_toDigits

theorem digitsValue_padLeft : digitsValue (padLeft width digits) = digitsValue digits := by
  change Nat.ofDigitChars 10 (padLeft width digits) 0 = Nat.ofDigitChars 10 digits 0
  rw [padLeft, Nat.ofDigitChars_append, Nat.ofDigitChars_replicate_zero, Nat.mul_zero]

theorem isDigit_of_mem_padLeft_toDigits {c : Char}
    (h : c ∈ padLeft width (Nat.toDigits 10 n)) : c.isDigit = true := by
  rcases mem_padLeft h with rfl | h
  · rfl
  · exact Nat.isDigit_of_mem_toDigits (by decide) (by decide) h

/-- A smaller number has no more digits. -/
theorem length_toDigits_mono {m : Nat} (h : m ≤ n) :
    (Nat.toDigits 10 m).length ≤ (Nat.toDigits 10 n).length := by
  have hpos := Nat.length_toDigits_pos (b := 10) (n := n)
  have hn := (Nat.length_toDigits_le_iff (b := 10) (by decide) hpos).1 (Nat.le_refl _)
  exact (Nat.length_toDigits_le_iff (by decide) hpos).2 (Nat.lt_of_le_of_lt h hn)

theorem toNat_of_isDigit {c : Char} (h : c.isDigit = true) : 48 ≤ c.toNat ∧ c.toNat ≤ 57 := by
  simp only [Char.isDigit, Bool.and_eq_true, decide_eq_true_eq, ge_iff_le] at h
  exact h

theorem digitValue?_of_isDigit {c : Char} (h : c.isDigit = true) :
    digitValue? c = some (c.toNat - '0'.toNat) := by
  obtain ⟨hle, hlt⟩ := toNat_of_isDigit h
  -- the digits of this script come first
  obtain ⟨zeros, hzeros⟩ : ∃ zeros, decimalZeros = '0'.toNat :: zeros := ⟨_, rfl⟩
  rw [digitValue?, hzeros, List.find?_cons_of_pos, Option.map_some]
  simp only [Bool.and_eq_true, decide_eq_true_eq]
  exact ⟨hle, Nat.lt_succ_of_le hlt⟩

theorem isPadding_of_isDigit {c : Char} (h : c.isDigit = true) : isPadding c = false := by
  obtain ⟨hle, hlt⟩ := toNat_of_isDigit h
  simp only [isPadding, isBlank, Bool.and_eq_false_iff, Bool.or_eq_false_iff,
    decide_eq_false_iff_not, beq_eq_false_iff_ne, ne_eq]
  omega

theorem trimPadding_of_isDigit (h : ∀ c ∈ digits, c.isDigit = true) :
    trimPadding digits = digits := by
  have hkept : ∀ cs : List Char, (∀ c ∈ cs, c.isDigit = true) → cs.dropWhile isPadding = cs := by
    rintro (_ | ⟨c, cs⟩) hcs
    · rfl
    · have hc := isPadding_of_isDigit (hcs c List.mem_cons_self)
      rw [List.dropWhile_cons_of_neg (by simp [hc])]
  rw [trimPadding, hkept _ h, hkept _ fun c hc => h c (List.mem_reverse.1 hc), List.reverse_reverse]

/-- ASCII digits are read as their number. -/
theorem continueDigits?_of_isDigit (h : ∀ c ∈ digits, c.isDigit = true) (value : Nat) :
    continueDigits? value digits =
      some (digits.foldl (fun value c => 10 * value + (c.toNat - '0'.toNat)) value) := by
  induction digits generalizing value with
  | nil => rfl
  | cons c digits ih =>
    have hc := h c List.mem_cons_self
    rw [continueDigits?.eq_3, digitValue?_of_isDigit hc, Option.bind_some,
      ih fun d hd => h d (List.mem_cons_of_mem _ hd)]
    · rfl
    · rintro _ _ rfl
      cases hc

/-- ASCII digits stand for the same number as digits of any script do, if there are not too many of
them. -/
theorem readInteger?_of_isDigit {text : String} (hne : text.toList ≠ [])
    (h : ∀ c ∈ text.toList, c.isDigit = true) (hlength : text.toList.length ≤ maxDigits) :
    readInteger? text = some (digitsValue text.toList : Int) := by
  unfold readInteger?
  rw [trimPadding_of_isDigit h]
  revert h hne hlength
  generalize text.toList = digits
  intro hne h hlength
  obtain _ | ⟨c, digits⟩ := digits
  · exact absurd rfl hne
  have hc := h c List.mem_cons_self
  have hcount : ¬ maxDigits < (c :: digits).countP (· != '_') := by
    have := List.countP_le_length (p := (· != '_')) (l := c :: digits)
    omega
  have hread : readNatural? (c :: digits) = some (digitsValue (c :: digits)) := by
    rw [readNatural?, if_neg hcount, digitValue?_of_isDigit hc, Option.bind_some,
      continueDigits?_of_isDigit fun d hd => h d (List.mem_cons_of_mem _ hd), digitsValue,
      List.foldl_cons, Nat.mul_zero, Nat.zero_add]
  split
  · cases ‹c :: digits = _›
    cases hc
  · cases ‹c :: digits = _›
    cases hc
  · rw [hread]
    rfl

theorem lt_of_digitValue? {c : Char} {d : Nat} (h : digitValue? c = some d) :
    d < 10 ∧ c ≠ '_' := by
  constructor
  · obtain ⟨start, hstart, rfl⟩ := Option.map_eq_some_iff.1 h
    have hrange := List.find?_some hstart
    simp only [Bool.and_eq_true, decide_eq_true_eq] at hrange
    omega
  · rintro rfl
    cases (show digitValue? '_' = none by decide).symm.trans h

/-- One more digit makes the bound ten times as great. -/
theorem lt_mul_pow_succ {value d k : Nat} (hd : d < 10) (h : n < (10 * value + d + 1) * 10 ^ k) :
    n < (value + 1) * 10 ^ (k + 1) := by
  calc
    n < (10 * value + d + 1) * 10 ^ k := h
    _ ≤ ((value + 1) * 10) * 10 ^ k := Nat.mul_le_mul_right _ (by omega)
    _ = (value + 1) * 10 ^ (k + 1) := by rw [Nat.mul_assoc, Nat.pow_succ']

theorem lt_of_continueDigits? {value : Nat} {cs : List Char}
    (h : continueDigits? value cs = some n) : n < (value + 1) * 10 ^ cs.countP (· != '_') := by
  fun_induction continueDigits? value cs with
  | case1 =>
    cases h
    simp
  | case2 value c rest ih =>
    obtain ⟨d, hd, h⟩ := Option.bind_eq_some_iff.1 h
    obtain ⟨hlt, hne⟩ := lt_of_digitValue? hd
    simpa [hne] using lt_mul_pow_succ hlt (ih d h)
  | case3 value c rest _ ih =>
    obtain ⟨d, hd, h⟩ := Option.bind_eq_some_iff.1 h
    obtain ⟨hlt, hne⟩ := lt_of_digitValue? hd
    simpa [hne] using lt_mul_pow_succ hlt (ih d h)

/-- Digits stand for a number that has no more of them. -/
theorem digitCount_digitsValue_le (hne : digits ≠ []) (h : ∀ c ∈ digits, c.isDigit = true) :
    digitCount (digitsValue digits) ≤ digits.length := by
  have hlt : digitsValue digits < (0 + 1) * 10 ^ digits.countP (· != '_') :=
    lt_of_continueDigits? (continueDigits?_of_isDigit h 0)
  rw [Nat.zero_add, Nat.one_mul] at hlt
  refine (Nat.length_toDigits_le_iff (by decide) (List.length_pos_iff.2 hne)).2 ?_
  exact Nat.lt_of_lt_of_le hlt (Nat.pow_le_pow_right (by decide) List.countP_le_length)

theorem lt_of_readNatural? {cs : List Char} (h : readNatural? cs = some n) :
    n < 10 ^ maxDigits := by
  cases cs with
  | nil => cases h
  | cons c cs =>
    rw [readNatural?] at h
    split at h
    · cases h
    · next hcount =>
      obtain ⟨d, hd, h⟩ := Option.bind_eq_some_iff.1 h
      obtain ⟨hlt, hne⟩ := lt_of_digitValue? hd
      have hn : n < (0 + 1) * 10 ^ (cs.countP (· != '_') + 1) := by
        refine lt_mul_pow_succ hlt ?_
        rw [Nat.mul_zero, Nat.zero_add]
        exact lt_of_continueDigits? h
      rw [List.countP_cons_of_pos (by simpa using hne)] at hcount
      rw [Nat.zero_add, Nat.one_mul] at hn
      exact Nat.lt_of_lt_of_le hn (Nat.pow_le_pow_right (by decide) (Nat.not_lt.1 hcount))

/-- A number has no more digits than can be read and written. -/
def IsShort (i : Int) : Prop := digitCount i ≤ maxDigits

/-- What can be read can be written. -/
theorem isShort_of_readInteger? {text : String} {i : Int} (h : readInteger? text = some i) :
    IsShort i := by
  have hlt : i.natAbs < 10 ^ maxDigits := by
    unfold readInteger? at h
    split at h
    all_goals
      obtain ⟨_, hread, rfl⟩ := Option.map_eq_some_iff.1 h
      obtain ⟨n, hn, ⟨⟩⟩ := Option.bind_eq_some_iff.1 hread
      simpa using lt_of_readNatural? hn
  exact (Nat.length_toDigits_le_iff (by decide) (by decide)).2 hlt

/-! ## Hexadecimal numerals -/

/-- Whether a character is a lower case hexadecimal digit. -/
def isHexDigit (c : Char) : Bool := c.isDigit || ('a' ≤ c && c ≤ 'f')

/-- The value of a lower case hexadecimal digit. -/
def hexDigitValue (c : Char) : Nat :=
  if c.isDigit then c.toNat - '0'.toNat else c.toNat - 'a'.toNat + 10

/-- The number that lower case hexadecimal digits stand for. -/
def hexValue (digits : List Char) : Nat :=
  digits.foldl (fun value c => 16 * value + hexDigitValue c) 0

theorem hexDigitValue_digitChar : ∀ n < 16, hexDigitValue (Nat.digitChar n) = n := by decide

theorem isHexDigit_digitChar : ∀ n < 16, isHexDigit (Nat.digitChar n) = true := by decide

theorem hexValue_concat (digits : List Char) (c : Char) :
    hexValue (digits ++ [c]) = 16 * hexValue digits + hexDigitValue c := by
  simp [hexValue]

theorem hexValue_toDigits (n : Nat) : hexValue (Nat.toDigits 16 n) = n := by
  induction n using Nat.base_induction 16 (by decide) with
  | single m hm => simp [Nat.toDigits_of_lt_base hm, hexValue, hexDigitValue_digitChar m hm]
  | digit m k hk hm ih =>
    rw [← Nat.toDigits_append_toDigits (by decide) hm hk, Nat.toDigits_of_lt_base hk,
      hexValue_concat, ih, hexDigitValue_digitChar k hk]

theorem isHexDigit_of_mem_toDigits {c : Char} (h : c ∈ Nat.toDigits 16 n) :
    isHexDigit c = true := by
  induction n using Nat.base_induction 16 (by decide) with
  | single m hm =>
    rw [Nat.toDigits_of_lt_base hm, List.mem_singleton] at h
    exact h ▸ isHexDigit_digitChar m hm
  | digit m k hk hm ih =>
    rw [← Nat.toDigits_append_toDigits (by decide) hm hk, Nat.toDigits_of_lt_base hk,
      List.mem_append, List.mem_singleton] at h
    rcases h with h | h
    · exact ih h
    · exact h ▸ isHexDigit_digitChar k hk

theorem hexValue_padLeft : hexValue (padLeft width digits) = hexValue digits := by
  have hzeros : ∀ k, hexValue (List.replicate k '0') = 0 := by
    intro k
    induction k with
    | zero => rfl
    | succ k ih => rw [List.replicate_succ', hexValue_concat, ih]; rfl
  simp only [padLeft, hexValue, List.foldl_append]
  exact congrArg (List.foldl _ · digits) (hzeros _)

theorem hexValue_hex : hexValue (hex width n).toList = n := by
  rw [hex, String.toList_ofList, hexValue_padLeft, hexValue_toDigits]

theorem isHexDigit_of_mem_hex {c : Char} (h : c ∈ (hex width n).toList) :
    isHexDigit c = true := by
  rw [hex, String.toList_ofList] at h
  rcases mem_padLeft h with rfl | h
  · rfl
  · exact isHexDigit_of_mem_toDigits h

/-- Four digits are enough for a sum modulo 2 ^ 16. -/
theorem length_hex_four (h : n < 65536) : (hex 4 n).toList.length = 4 := by
  rw [hex, String.toList_ofList]
  exact length_padLeft ((Nat.length_toDigits_le_iff (by decide) (by decide)).2 h)

end FuseMap.Text
