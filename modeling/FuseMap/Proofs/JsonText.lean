import FuseMap.Json.Parser
import FuseMap.Json.Printer
import FuseMap.Proofs.Numeral
import FuseMap.Proofs.Success

/-! # Reading printed JSON back

A value is printed in a layout and read by `value`, which is bounded by a number of steps. Both are
followed along the value: what is printed of a value, whatever stands behind it as long as it does
not go on with a number, is read as that value, and twice the length of the text is a sufficient
bound (`value_render`). The reader may have limits as long as the value keeps to them. Numbers with
a point are left out, and so are strings with characters that are escaped.
-/

namespace FuseMap.Json

/-! ## Texts of one value -/

/-- A text of blanks and line feeds. -/
def IsGap (s : String) : Prop := ∀ c ∈ s.toList, c = ' ' ∨ c = '\n'

/-- A layout that puts nothing but gaps around the marks of JSON. -/
structure Layout.Regular (l : Layout) : Prop where
  opening : ∀ level, IsGap (l.opening level)
  between : ∀ level, ∃ gap, IsGap gap ∧ l.between level = "," ++ gap
  closing : ∀ level, IsGap (l.closing level)
  colon : ∃ gap, IsGap gap ∧ l.colon = ":" ++ gap

theorem isGap_newLine (level : Nat) : IsGap (newLine level) := by
  intro c hc
  simp only [newLine, String.toList_append, String.toList_ofList, List.mem_append] at hc
  rcases hc with hc | hc
  · exact .inr (by simpa using hc)
  · exact .inl (List.eq_of_mem_replicate hc)

theorem regular_indentedLayout : indentedLayout.Regular where
  opening level := isGap_newLine (level + 1)
  between level := ⟨_, isGap_newLine (level + 1), rfl⟩
  closing := isGap_newLine
  colon := ⟨" ", by simp [IsGap], rfl⟩

/-- A character that stands for itself in a string. -/
def IsPlain (c : Char) : Prop := 0x20 ≤ c.toNat ∧ c.toNat < 0x7F ∧ c ≠ '"' ∧ c ≠ '\\'

/-- A value without numbers with a point, in which all characters stand for themselves and the
fields of an object have different names. Inside of `level` arrays and objects it keeps to the
limits of a reader. -/
inductive Value.Plain (limits : Limits) : Nat → Value → Prop
  | null {level : Nat} : Plain limits level .null
  | bool {level : Nat} (b : Bool) : Plain limits level (.bool b)
  | integer {level : Nat} {n : Int} : limits.allowsDigits (Text.digitCount n) = true →
      Plain limits level (.integer n)
  | string {level : Nat} {s : String} : (∀ c ∈ s.toList, IsPlain c) → Plain limits level (.string s)
  | array {level : Nat} {items : List Value} : limits.allowsDepth (level + 1) = true →
      (∀ v ∈ items, Plain limits (level + 1) v) → Plain limits level (.array items)
  | object {level : Nat} {fields : List (String × Value)} : limits.allowsDepth (level + 1) = true →
      (fields.map (·.1)).Nodup → (∀ f ∈ fields, ∀ c ∈ f.1.toList, IsPlain c) →
      (∀ f ∈ fields, Plain limits (level + 1) f.2) → Plain limits level (.object fields)

/-- A text that does not go on with a number. -/
def Ends (cs : List Char) : Prop :=
  ∀ c ∈ cs.head?, c.isDigit = false ∧ c ≠ '.' ∧ c ≠ 'e' ∧ c ≠ 'E'

section
variable {s : String} {c : Char} {cs : List Char}

theorem skipSpace_cons (h : isSpace c = false) : skipSpace (c :: cs) = c :: cs := by
  simp [skipSpace, h]

theorem skipSpace_append (hs : IsGap s) : skipSpace (s.toList ++ cs) = skipSpace cs := by
  rw [skipSpace, List.dropWhile_append_of_pos, skipSpace]
  intro a ha
  rcases hs a ha with rfl | rfl
  · rfl
  · rfl

theorem skipSpace_gap (hs : IsGap s) (h : isSpace c = false) :
    skipSpace (s.toList ++ c :: cs) = c :: cs := by
  rw [skipSpace_append hs, skipSpace_cons h]

theorem ends_gap (hs : IsGap s) (h : Ends cs) : Ends (s.toList ++ cs) := by
  intro a ha
  cases hlist : s.toList with
  | nil => exact h a (by simpa [hlist] using ha)
  | cons b l =>
    obtain rfl : b = a := by simpa [hlist] using ha
    rcases hs b (by simp [hlist]) with rfl | rfl
    · decide
    · decide

theorem ends_cons (h : c.isDigit = false ∧ c ≠ '.' ∧ c ≠ 'e' ∧ c ≠ 'E') : Ends (c :: cs) := by
  intro a ha
  cases ha
  exact h

end

/-! ## Strings -/

section
variable {s : String} {c : Char} {cs rest opening : List Char} {read : List Nat}

/-- A string of plain characters is written as it is, between quotes. -/
theorem quotedString_eq (h : ∀ c ∈ s.toList, IsPlain c) :
    (quotedString s).toList = '"' :: (s.toList ++ ['"']) := by
  have hchar : s.toList.map escapedChar = s.toList.map String.singleton := by
    refine List.map_congr_left fun c hc => ?_
    obtain ⟨hlow, hhigh, hquote, hslash⟩ := h c hc
    have hne : ∀ d : Char, d.toNat < 0x20 → c ≠ d := by
      rintro d hd rfl
      omega
    have h8 : c.toNat ≠ 0x08 := by omega
    have h12 : c.toNat ≠ 0x0C := by omega
    simp [escapedChar, hquote, hslash, hne '\n' (by decide), hne '\r' (by decide),
      hne '\t' (by decide), h8, h12, hlow, hhigh]
  have hjoin : ∀ l : List Char, (String.join (l.map String.singleton)).toList = l := by
    intro l
    induction l with
    | nil => rfl
    | cons c l ih => simpa using ih
  simp [quotedString, hchar, hjoin]

theorem stringRest_plain (hc : IsPlain c) :
    stringRest opening read (c :: rest) = stringRest opening (c.toNat :: read) rest := by
  obtain ⟨hlow, -, hquote, hslash⟩ := hc
  have hcontrol : ¬ c.toNat ≤ 0x1F := by omega
  rw [stringRest.eq_def]
  split
  case h_6 heq =>
    cases heq
    rw [if_neg hcontrol]
  all_goals simp_all

theorem stringRest_append (h : ∀ c ∈ cs, IsPlain c) :
    stringRest opening read (cs ++ '"' :: rest) =
      .ok (.ofCodes (joinHalves (read.reverse ++ cs.map Char.toNat)), rest) := by
  induction cs generalizing read with
  | nil => simp [stringRest]
  | cons c cs ih =>
    rw [List.forall_mem_cons] at h
    rw [List.cons_append, stringRest_plain h.1, ih h.2]
    simp

theorem isHalf_of_isPlain (hc : IsPlain c) : isHalf c.toNat = false := by
  obtain ⟨-, hc, -⟩ := hc
  simp only [isHalf, isHighHalf, isLowHalf, Bool.or_eq_false_iff, Bool.and_eq_false_iff,
    decide_eq_false_iff_not]
  omega

/-- Plain characters are no halves, and nothing is joined. -/
theorem joinHalves_map (h : ∀ c ∈ cs, IsPlain c) :
    joinHalves (cs.map Char.toNat) = cs.map Char.toNat := by
  induction cs with
  | nil => rfl
  | cons c cs ih =>
    rw [List.forall_mem_cons] at h
    have hhigh : isHighHalf c.toNat = false := (Bool.or_eq_false_iff.1 (isHalf_of_isPlain h.1)).1
    cases cs with
    | nil => rfl
    | cons d cs =>
      rw [List.map_cons, List.map_cons, joinHalves, hhigh, Bool.false_and, if_neg (by simp),
        ← List.map_cons, ih h.2]

/-- The codes of plain characters make up a text. -/
theorem ofCodes_map (h : ∀ c ∈ cs, IsPlain c) :
    Str.ofCodes (cs.map Char.toNat) = .plain (String.ofList cs) := by
  have hhalf : ¬ (cs.map Char.toNat).any isHalf = true := by
    simpa using fun c hc => isHalf_of_isPlain (h c hc)
  simp [Str.ofCodes, hhalf, Function.comp_def]

/-- A string of plain characters is read up to its closing quote. -/
theorem stringRest_quoted (h : ∀ c ∈ s.toList, IsPlain c) :
    stringRest opening [] (s.toList ++ '"' :: rest) = .ok (.plain s, rest) := by
  rw [stringRest_append h, List.reverse_nil, List.nil_append, joinHalves_map h, ofCodes_map h,
    String.ofList_toList]

end

/-! ## Numbers -/

section
variable {limits : Limits} {n : Nat} {c : Char} {cs rest : List Char}

theorem spanDigits_append (h : ∀ c ∈ cs, c.isDigit = true) (hrest : Ends rest) :
    spanDigits (cs ++ rest) = (cs, rest) := by
  have hstop : ∀ c ∈ rest.head?, c.isDigit = false := fun c hc => (hrest c hc).1
  have htake := Text.takeWhile_append_of_head? h hstop
  have hdrop : (cs ++ rest).dropWhile Char.isDigit = rest := by
    have := List.takeWhile_append_dropWhile (p := Char.isDigit) (l := cs ++ rest)
    rw [htake] at this
    exact List.append_cancel_left this
  rw [spanDigits, htake, hdrop]

theorem head?_toDigits_ne_zero (h : n ≠ 0) : (Nat.toDigits 10 n).head? ≠ some '0' := by
  induction n using Nat.base_induction 10 (by decide) with
  | single m hm =>
    rw [Nat.toDigits_of_lt_base hm]
    revert m
    decide
  | digit m k hk hm ih =>
    rw [← Nat.toDigits_append_toDigits (by decide) hm hk]
    have hne : Nat.toDigits 10 m ≠ [] := List.ne_nil_of_length_pos Nat.length_toDigits_pos
    rw [List.head?_append_of_ne_nil _ hne]
    exact ih (Nat.pos_iff_ne_zero.1 hm)

theorem isDigit_of_mem_toDigits (h : c ∈ Nat.toDigits 10 n) : c.isDigit = true :=
  Nat.isDigit_of_mem_toDigits (by decide) (by decide) h

/-- The digits of a number are read back as its whole part. -/
theorem integerPart?_toDigits (hrest : Ends rest) :
    integerPart? (Nat.toDigits 10 n ++ rest) = some (Nat.toDigits 10 n, rest) := by
  rcases eq_or_ne n 0 with rfl | hn
  · rfl
  · have hhead := head?_toDigits_ne_zero hn
    have hspan := spanDigits_append (fun c hc => isDigit_of_mem_toDigits (n := n) hc) hrest
    have hne : Nat.toDigits 10 n ≠ [] := List.ne_nil_of_length_pos Nat.length_toDigits_pos
    rw [integerPart?.eq_def]
    split
    · next heq =>
      have happend : (Nat.toDigits 10 n ++ rest).head? = (Nat.toDigits 10 n).head? :=
        List.head?_append_of_ne_nil _ hne
      rw [← happend, heq] at hhead
      exact absurd rfl hhead
    · rw [hspan]
      simp [hne]

theorem fractionPart_of_ends (h : Ends cs) : fractionPart cs = ([], cs) := by
  unfold fractionPart
  split
  · exact absurd rfl (h '.' rfl).2.1
  · rfl

theorem exponentPart_of_ends (h : Ends cs) : exponentPart cs = (none, cs) := by
  unfold exponentPart
  split
  · exact absurd rfl (h 'e' rfl).2.2.1
  · exact absurd rfl (h 'E' rfl).2.2.2
  · rfl

/-- A number is read back if its digits may be read. -/
theorem magnitude_toDigits (negative : Bool) (hrest : Ends rest)
    (hdigits : limits.allowsDigits (Nat.toDigits 10 n).length = true) :
    magnitude limits negative (Nat.toDigits 10 n ++ rest) =
      .ok (.integer (if negative then -(n : Int) else n), rest) := by
  simp [magnitude, integerPart?_toDigits hrest, fractionPart_of_ends hrest,
    exponentPart_of_ends hrest, Text.digitsValue_toDigits, hdigits]

/-- No word that stands for a value starts with a digit, nor with a digit behind a sign. -/
theorem scalar_of_isDigit (h : c.isDigit = true) :
    scalar limits (c :: cs) = number limits (c :: cs) ∧
      scalar limits ('-' :: c :: cs) = number limits ('-' :: c :: cs) := by
  have hne : ∀ d : Char, d.isDigit = false → (d == c) = false := by
    intro d hd
    simp only [beq_eq_false_iff_ne]
    rintro rfl
    rw [h] at hd
    cases hd
  constructor
  · simp [scalar, words, afterWord?, hne 'n' rfl, hne 't' rfl, hne 'f' rfl, hne 'N' rfl,
      hne 'I' rfl, hne '-' rfl]
  · simp [scalar, words, afterWord?, hne 'I' rfl]

theorem exists_toDigits_eq_cons (n : Nat) :
    ∃ c cs, Nat.toDigits 10 n = c :: cs ∧ c.isDigit = true := by
  obtain ⟨c, cs, hcs⟩ := List.exists_cons_of_length_pos (Nat.length_toDigits_pos (b := 10) (n := n))
  exact ⟨c, cs, hcs, isDigit_of_mem_toDigits (n := n) (by simp [hcs])⟩

theorem toList_toString (i : Int) :
    (toString i).toList =
      if 0 ≤ i then Nat.toDigits 10 i.toNat else '-' :: Nat.toDigits 10 (-i).toNat := by
  rw [Int.toString_eq_repr, Int.repr_eq_if]
  split <;> simp

/-- A number starts with a digit or a sign. -/
theorem exists_toString_eq_cons (i : Int) :
    ∃ c cs, (toString i).toList = c :: cs ∧ (c.isDigit = true ∨ c = '-') := by
  rw [toList_toString]
  split
  · obtain ⟨c, cs, hcs, hc⟩ := exists_toDigits_eq_cons i.toNat
    exact ⟨c, cs, hcs, .inl hc⟩
  · exact ⟨'-', _, rfl, .inr rfl⟩

/-- An integer is read back if it does not have too many digits. -/
theorem scalar_toString {i : Int} (hdigits : limits.allowsDigits (Text.digitCount i) = true)
    (hrest : Ends rest) :
    scalar limits ((toString i).toList ++ rest) = .ok (.integer i, rest) := by
  rw [Text.digitCount] at hdigits
  rw [toList_toString]
  split
  · next hi =>
    obtain ⟨c, cs, hcs, hc⟩ := exists_toDigits_eq_cons i.toNat
    have habs : i.natAbs = i.toNat := by omega
    rw [habs] at hdigits
    have hread := magnitude_toDigits false hrest hdigits
    have hsign : ∀ rest', c :: cs ++ rest ≠ '-' :: rest' := by
      rintro rest' heq
      cases heq
      cases hc
    rw [hcs] at hread ⊢
    rw [List.cons_append, (scalar_of_isDigit hc).1, ← List.cons_append, number, hread]
    · simp only [Bool.false_eq_true, if_false, Int.toNat_of_nonneg hi, Except.mapError]
    · exact hsign
  · next hi =>
    obtain ⟨c, cs, hcs, hc⟩ := exists_toDigits_eq_cons (-i).toNat
    have habs : i.natAbs = (-i).toNat := by omega
    rw [habs] at hdigits
    have hread := magnitude_toDigits true hrest hdigits
    have hvalue : -((-i).toNat : Int) = i := by omega
    rw [hcs] at hread ⊢
    rw [List.cons_append, List.cons_append, (scalar_of_isDigit hc).2, ← List.cons_append, number,
      hread]
    simp only [if_true, hvalue, Except.mapError]

end

/-! ## Values -/

/-- The value is read inside of `level` arrays and objects, whatever stands behind it. -/
def Value.ReadBack (limits : Limits) (l : Layout) (level : Nat) (v : Value) : Prop :=
  ∀ {n : Nat} {rest : List Char}, 2 * (v.render l level).toList.length ≤ n → Ends rest →
    value limits n level ((v.render l level).toList ++ rest) = .ok (v, rest)

section
variable {limits : Limits} {l : Layout} {level n : Nat} {c : Char} {cs rest : List Char}

/-- A value that starts otherwise is a word or a number. -/
theorem value_of_ne (hquote : c ≠ '"') (hbracket : c ≠ '[') (hbrace : c ≠ '\x7b') :
    value limits (n + 1) level (c :: cs) = scalar limits (c :: cs) := by
  rw [value]
  all_goals
    rintro rest heq
    cases heq
    contradiction

/-- Whether a value can start with a character. -/
def isStart (c : Char) : Bool :=
  c.isDigit || ['-', 'n', 't', 'f', '"', '[', '\x7b'].contains c

theorem ne_of_isStart {d : Char} (hc : isStart c = true) (hd : isStart d = false) : c ≠ d := by
  rintro rfl
  rw [hc] at hd
  cases hd

theorem isSpace_of_isStart (h : isStart c = true) : isSpace c = false := by
  simp [isSpace, ne_of_isStart h (d := ' ') rfl, ne_of_isStart h (d := '\t') rfl,
    ne_of_isStart h (d := '\n') rfl, ne_of_isStart h (d := '\r') rfl]

/-- The items of an array with the marks between them. -/
def itemsText (l : Layout) (level : Nat) (items : List Value) : List Char :=
  ((l.between level).intercalate (renderItems l (level + 1) items)).toList

/-- The fields of an object with the marks between them. -/
def fieldsText (l : Layout) (level : Nat) (fields : List (String × Value)) : List Char :=
  ((l.between level).intercalate (renderFields l (level + 1) (fields.map plainField))).toList

theorem toList_render_array (v : Value) (items : List Value) :
    ((Value.array (v :: items)).render l level).toList =
      '[' :: ((l.opening level).toList ++ itemsText l level (v :: items) ++
        (l.closing level).toList ++ [']']) := by
  simp [Value.render, itemsText]

theorem toList_render_object (f : String × Value) (fields : List (String × Value)) :
    ((Value.object (f :: fields)).render l level).toList =
      '\x7b' :: ((l.opening level).toList ++ fieldsText l level (f :: fields) ++
        (l.closing level).toList ++ ['\x7d']) := by
  simp [Value.object, Value.render, fieldsText]

theorem itemsText_singleton (v : Value) :
    itemsText l level [v] = (v.render l (level + 1)).toList := by
  simp [itemsText, renderItems]

theorem itemsText_cons_cons (v w : Value) (items : List Value) :
    itemsText l level (v :: w :: items) = (v.render l (level + 1)).toList ++
      ((l.between level).toList ++ itemsText l level (w :: items)) := by
  simp [itemsText, renderItems, String.intercalate_cons_cons]

theorem fieldsText_singleton (f : String × Value) :
    fieldsText l level [f] =
      (quotedString f.1).toList ++ l.colon.toList ++ (f.2.render l (level + 1)).toList := by
  simp [fieldsText, renderFields, plainField, Str.quotedString]

theorem fieldsText_cons_cons (f g : String × Value) (fields : List (String × Value)) :
    fieldsText l level (f :: g :: fields) =
      (quotedString f.1).toList ++ l.colon.toList ++ (f.2.render l (level + 1)).toList ++
        ((l.between level).toList ++ fieldsText l level (g :: fields)) := by
  simp [fieldsText, renderFields, plainField, Str.quotedString, String.intercalate_cons_cons]

/-- The text of a value starts as a value can start. -/
theorem render_eq_cons (l : Layout) (level : Nat) {depth : Nat} {v : Value}
    (h : v.Plain limits depth) :
    ∃ c cs, (v.render l level).toList = c :: cs ∧ isStart c = true := by
  cases h with
  | null => exact ⟨'n', "ull".toList, by simp [Value.render], rfl⟩
  | bool b =>
    cases b with
    | false => exact ⟨'f', "alse".toList, by simp [Value.render], rfl⟩
    | true => exact ⟨'t', "rue".toList, by simp [Value.render], rfl⟩
  | @integer _ i _ =>
    obtain ⟨c, cs, hcs, hc⟩ := exists_toString_eq_cons i
    refine ⟨c, cs, by rw [Value.render, hcs], ?_⟩
    rcases hc with hc | rfl
    · rw [isStart, hc, Bool.true_or]
    · rfl
  | string hs =>
    rw [Value.render, quotedString_eq hs]
    exact ⟨'"', _, rfl, rfl⟩
  | @array _ items _ _ =>
    cases items with
    | nil => exact ⟨'[', [']'], by simp [Value.render], rfl⟩
    | cons v items => exact ⟨'[', _, toList_render_array v items, rfl⟩
  | @object _ fields _ _ _ _ =>
    cases fields with
    | nil => exact ⟨'\x7b', ['\x7d'], by simp [Value.object, Value.render], rfl⟩
    | cons f fields => exact ⟨'\x7b', _, toList_render_object f fields, rfl⟩

theorem itemsText_eq_cons (l : Layout) {v : Value} (h : v.Plain limits (level + 1))
    (items : List Value) :
    ∃ c cs, itemsText l level (v :: items) = c :: cs ∧ isStart c = true := by
  obtain ⟨c, cs, hcs, hc⟩ := render_eq_cons l (level + 1) h
  cases items with
  | nil => exact ⟨c, cs, by rw [itemsText_singleton, hcs], hc⟩
  | cons w items =>
    rw [itemsText_cons_cons, hcs]
    exact ⟨c, _, rfl, hc⟩

theorem fieldsText_eq_cons (l : Layout) (level : Nat) {f : String × Value}
    (h : ∀ c ∈ f.1.toList, IsPlain c) (fields : List (String × Value)) :
    ∃ cs, fieldsText l level (f :: fields) = '"' :: cs := by
  cases fields with
  | nil =>
    rw [fieldsText_singleton, quotedString_eq h]
    exact ⟨_, rfl⟩
  | cons g fields =>
    rw [fieldsText_cons_cons, quotedString_eq h]
    exact ⟨_, rfl⟩

theorem length_between_pos (hl : l.Regular) (level : Nat) :
    0 < (l.between level).toList.length := by
  obtain ⟨gap, -, hbetween⟩ := hl.between level
  simp [hbetween]

theorem between_append (hl : l.Regular) (level : Nat) (h : isSpace c = false) (cs : List Char) :
    ∃ more, (l.between level).toList ++ c :: cs = ',' :: more ∧ skipSpace more = c :: cs := by
  obtain ⟨gap, hgap, hbetween⟩ := hl.between level
  exact ⟨gap.toList ++ c :: cs, by simp [hbetween], skipSpace_gap hgap h⟩

theorem ends_closing (hl : l.Regular) (level : Nat)
    (h : c.isDigit = false ∧ c ≠ '.' ∧ c ≠ 'e' ∧ c ≠ 'E') (cs : List Char) :
    Ends ((l.closing level).toList ++ c :: cs) :=
  ends_gap (hl.closing level) (ends_cons h)

/-! ### Arrays -/

theorem value_bracket {more : List Char} (hdepth : limits.allowsDepth (level + 1) = true)
    (h : skipSpace cs = c :: more) (hne : c ≠ ']') :
    value limits (n + 1) level ('[' :: cs) = items limits n (level + 1) [] (c :: more) := by
  rw [value, if_pos hdepth, h]
  split
  · next heq =>
    cases heq
    contradiction
  · rfl

/-- One item is read, and what stands behind it decides how to go on. -/
theorem items_item {v : Value} {read : List Value} {after : List Char}
    (hread : v.ReadBack limits l level) (hn : 2 * (v.render l level).toList.length ≤ n)
    (hafter : Ends after) :
    items limits (n + 1) level read ((v.render l level).toList ++ after) =
      match skipSpace after with
      | ']' :: rest => .ok (.array (v :: read).reverse, rest)
      | ',' :: rest => items limits n level (v :: read) (skipSpace rest)
      | rest => .error ⟨.expectingComma, rest⟩ := by
  rw [items, hread hn hafter]
  rfl

/-- The items from one on are read, whatever has been read before. -/
theorem items_itemsText (hl : l.Regular) {v : Value} {vs read : List Value}
    (hplain : ∀ w ∈ v :: vs, w.Plain limits (level + 1))
    (hread : ∀ w ∈ v :: vs, w.ReadBack limits l (level + 1))
    (hn : 2 * (itemsText l level (v :: vs)).length + 1 ≤ n) :
    items limits n (level + 1) read
        (itemsText l level (v :: vs) ++ ((l.closing level).toList ++ ']' :: rest)) =
      .ok (.array (read.reverse ++ v :: vs), rest) := by
  -- a step is spent on each item, and two characters pay for it: its first one and the mark behind
  induction vs generalizing n v read with
  | nil =>
    obtain ⟨n, rfl⟩ := Nat.exists_eq_add_of_le' (Nat.le_of_add_left_le hn)
    rw [List.forall_mem_singleton] at hread
    rw [itemsText_singleton] at hn ⊢
    rw [items_item hread (by omega) (ends_closing hl level (by decide) rest),
      skipSpace_gap (hl.closing level) rfl, ← List.reverse_cons]
    rfl
  | cons w vs ih =>
    obtain ⟨n, rfl⟩ := Nat.exists_eq_add_of_le' (Nat.le_of_add_left_le hn)
    rw [List.forall_mem_cons] at hplain hread
    obtain ⟨c, cs, hcs, hc⟩ := itemsText_eq_cons l (hplain.2 w List.mem_cons_self) vs
    obtain ⟨more, hmore, hskip⟩ := between_append hl level (isSpace_of_isStart hc)
      (cs ++ ((l.closing level).toList ++ ']' :: rest))
    rw [← List.cons_append, ← hcs] at hmore hskip
    have hpos := length_between_pos hl level
    rw [itemsText_cons_cons] at hn ⊢
    simp only [List.length_append] at hn
    rw [List.append_assoc, List.append_assoc, hmore,
      items_item hread.1 (by omega) (ends_cons (by decide)), skipSpace_cons rfl]
    simp only [hskip]
    rw [ih hplain.2 hread.2 (by omega), List.reverse_cons, List.append_assoc,
      List.singleton_append]

/-! ### Objects -/

theorem value_brace {more : List Char} (hdepth : limits.allowsDepth (level + 1) = true)
    (h : skipSpace cs = c :: more) (hne : c ≠ '\x7d') :
    value limits (n + 1) level ('\x7b' :: cs) = members limits n (level + 1) [] (c :: more) := by
  rw [value, if_pos hdepth, h]
  split
  · next heq =>
    cases heq
    contradiction
  · rfl

/-- A field with a new name comes last. -/
theorem insertField_of_nodup {f : String × Value} {read fields : List (String × Value)}
    (h : ((read ++ f :: fields).map (·.1)).Nodup) :
    insertField f.1 f.2 (read.map plainField) = (read ++ [f]).map plainField := by
  induction read with
  | nil => rfl
  | cons g read ih =>
    rw [List.cons_append, List.map_cons, List.nodup_cons] at h
    have hne : g.1 ≠ f.1 := fun heq => h.1 (heq ▸ by simp)
    rw [List.map_cons, plainField, insertField, if_neg (by simpa using hne), ih h.2,
      List.cons_append, List.map_cons, plainField]

/-- One field is read, and what stands behind it decides how to go on. -/
theorem members_field (hl : l.Regular) {name : String} {v : Value} {read : List (Str × Value)}
    {after : List Char} (hname : ∀ c ∈ name.toList, IsPlain c) (hplain : v.Plain limits level)
    (hread : v.ReadBack limits l level) (hn : 2 * (v.render l level).toList.length ≤ n)
    (hafter : Ends after) :
    members limits (n + 1) level read
        ((quotedString name).toList ++ l.colon.toList ++ (v.render l level).toList ++ after) =
      match skipSpace after with
      | '\x7d' :: rest => .ok (.record (insertField name v read), rest)
      | ',' :: rest => members limits n level (insertField name v read) (skipSpace rest)
      | rest => .error ⟨.expectingComma, rest⟩ := by
  obtain ⟨gap, hgap, hcolon⟩ := hl.colon
  obtain ⟨c, cs, hcs, hc⟩ := render_eq_cons l level hplain
  have hskip : skipSpace (gap.toList ++ ((v.render l level).toList ++ after)) =
      (v.render l level).toList ++ after := by
    rw [hcs, List.cons_append]
    exact skipSpace_gap hgap (isSpace_of_isStart hc)
  have htext : (quotedString name).toList ++ l.colon.toList ++ (v.render l level).toList ++ after =
      '"' :: (name.toList ++ '"' :: ':' ::
        (gap.toList ++ ((v.render l level).toList ++ after))) := by
    simp [quotedString_eq hname, hcolon]
  rw [htext, members, stringRest_quoted hname]
  simp only [bind, Except.bind, skipSpace_cons (c := ':') rfl, hskip, hread hn hafter]
  rfl

/-- The fields from one on are read, whatever has been read before. -/
theorem members_fieldsText (hl : l.Regular) {f : String × Value}
    {fields read : List (String × Value)} (hnames : ((read ++ f :: fields).map (·.1)).Nodup)
    (htexts : ∀ g ∈ f :: fields, ∀ c ∈ g.1.toList, IsPlain c)
    (hplain : ∀ g ∈ f :: fields, g.2.Plain limits (level + 1))
    (hread : ∀ g ∈ f :: fields, g.2.ReadBack limits l (level + 1))
    (hn : 2 * (fieldsText l level (f :: fields)).length + 1 ≤ n) :
    members limits n (level + 1) (read.map plainField)
        (fieldsText l level (f :: fields) ++ ((l.closing level).toList ++ '\x7d' :: rest)) =
      .ok (.object (read ++ f :: fields), rest) := by
  induction fields generalizing n f read with
  | nil =>
    obtain ⟨n, rfl⟩ := Nat.exists_eq_add_of_le' (Nat.le_of_add_left_le hn)
    rw [List.forall_mem_singleton] at htexts hplain hread
    rw [fieldsText_singleton] at hn ⊢
    simp only [List.length_append] at hn
    rw [members_field hl htexts hplain hread (by omega) (ends_closing hl level (by decide) rest),
      skipSpace_gap (hl.closing level) rfl, insertField_of_nodup hnames]
    rfl
  | cons g fields ih =>
    obtain ⟨n, rfl⟩ := Nat.exists_eq_add_of_le' (Nat.le_of_add_left_le hn)
    rw [List.forall_mem_cons] at htexts hplain hread
    obtain ⟨cs, hcs⟩ := fieldsText_eq_cons l level (htexts.2 g List.mem_cons_self) fields
    obtain ⟨more, hmore, hskip⟩ := between_append hl level (c := '"') rfl
      (cs ++ ((l.closing level).toList ++ '\x7d' :: rest))
    rw [← List.cons_append, ← hcs] at hmore hskip
    have hpos := length_between_pos hl level
    have hnames' : ((read ++ [f] ++ g :: fields).map (·.1)).Nodup := by simpa using hnames
    rw [fieldsText_cons_cons] at hn ⊢
    simp only [List.length_append] at hn
    rw [List.append_assoc, List.append_assoc _ (fieldsText l level (g :: fields)), hmore,
      members_field hl htexts.1 hplain.1 hread.1 (by omega) (ends_cons (by decide)),
      skipSpace_cons rfl, insertField_of_nodup hnames]
    simp only [hskip]
    rw [ih hnames' htexts.2 hplain.2 hread.2 (by omega), List.append_assoc, List.singleton_append]

/-! ### All values -/

theorem exists_eq_succ {v : Value} (h : v.Plain limits level)
    (hn : 2 * (v.render l level).toList.length ≤ n) : ∃ m, n = m + 1 := by
  obtain ⟨c, cs, hcs, -⟩ := render_eq_cons l level h
  rw [hcs, List.length_cons] at hn
  exact ⟨n - 1, by omega⟩

/-- Integers are read back within the limit for their digits. -/
theorem readBack_integer {i : Int} (h : limits.allowsDigits (Text.digitCount i) = true) :
    (Value.integer i).ReadBack limits l level := by
  intro n rest hn hrest
  obtain ⟨n, rfl⟩ := exists_eq_succ (.integer h) hn
  have hscalar := scalar_toString h hrest
  obtain ⟨c, cs, hcs, hc⟩ := exists_toString_eq_cons i
  rw [Value.render, hcs, List.cons_append]
  rw [hcs, List.cons_append] at hscalar
  rw [value_of_ne, hscalar]
  all_goals
    rintro rfl
    revert hc
    decide

/-- An array is read back if its items are. -/
theorem readBack_array (hl : l.Regular) {vs : List Value}
    (hdepth : limits.allowsDepth (level + 1) = true)
    (hplain : ∀ v ∈ vs, v.Plain limits (level + 1))
    (hread : ∀ v ∈ vs, v.ReadBack limits l (level + 1)) :
    (Value.array vs).ReadBack limits l level := by
  intro n rest hn hrest
  obtain ⟨n, rfl⟩ := exists_eq_succ (.array hdepth hplain) hn
  cases vs with
  | nil =>
    have htext : ((Value.array []).render l level).toList ++ rest = '[' :: ']' :: rest := by
      simp [Value.render]
    rw [htext, value, if_pos hdepth, skipSpace_cons rfl]
    rfl
  | cons v vs =>
    obtain ⟨c, cs, hcs, hc⟩ := itemsText_eq_cons l (hplain v List.mem_cons_self) vs
    rw [toList_render_array] at hn ⊢
    simp only [List.cons_append, List.append_assoc, List.length_cons, List.length_append] at hn ⊢
    have hitems : items limits n (level + 1) [] (itemsText l level (v :: vs) ++
        ((l.closing level).toList ++ ']' :: rest)) = .ok (.array (v :: vs), rest) :=
      items_itemsText hl hplain hread (by omega)
    rw [hcs, List.cons_append] at hitems ⊢
    refine (value_bracket hdepth ?_ (ne_of_isStart hc rfl)).trans hitems
    exact skipSpace_gap (hl.opening level) (isSpace_of_isStart hc)

/-- An object is read back if the values of its fields are. -/
theorem readBack_object (hl : l.Regular) {fields : List (String × Value)}
    (hdepth : limits.allowsDepth (level + 1) = true) (hnames : (fields.map (·.1)).Nodup)
    (htexts : ∀ f ∈ fields, ∀ c ∈ f.1.toList, IsPlain c)
    (hplain : ∀ f ∈ fields, f.2.Plain limits (level + 1))
    (hread : ∀ f ∈ fields, f.2.ReadBack limits l (level + 1)) :
    (Value.object fields).ReadBack limits l level := by
  intro n rest hn hrest
  obtain ⟨n, rfl⟩ := exists_eq_succ (.object hdepth hnames htexts hplain) hn
  cases fields with
  | nil =>
    have htext : ((Value.object []).render l level).toList ++ rest = '\x7b' :: '\x7d' :: rest := by
      simp [Value.object, Value.render]
    rw [htext, value, if_pos hdepth, skipSpace_cons rfl]
    rfl
  | cons f fields =>
    obtain ⟨cs, hcs⟩ := fieldsText_eq_cons l level (htexts f List.mem_cons_self) fields
    rw [toList_render_object] at hn ⊢
    simp only [List.cons_append, List.append_assoc, List.length_cons, List.length_append] at hn ⊢
    have hmembers : members limits n (level + 1) [] (fieldsText l level (f :: fields) ++
        ((l.closing level).toList ++ '\x7d' :: rest)) = .ok (.object (f :: fields), rest) :=
      @members_fieldsText _ _ _ _ _ hl _ _ [] hnames htexts hplain hread (by omega)
    rw [hcs, List.cons_append] at hmembers ⊢
    exact (value_brace hdepth (skipSpace_gap (hl.opening level) rfl) (by decide)).trans hmembers

/-- The text of a value is read as this value. -/
theorem value_render (hl : l.Regular) {v : Value} (h : v.Plain limits level) :
    v.ReadBack limits l level := by
  -- the parts of a value stand one level deeper, and so they do in the text
  induction h with
  | null =>
    intro n rest hn hrest
    obtain ⟨n, rfl⟩ := exists_eq_succ (.null : Value.Plain limits _ _) hn
    simp [Value.render, value_of_ne, scalar, words, afterWord?]
  | bool b =>
    intro n rest hn hrest
    obtain ⟨n, rfl⟩ := exists_eq_succ (.bool b : Value.Plain limits _ _) hn
    cases b <;> simp [Value.render, value_of_ne, scalar, words, afterWord?]
  | integer hdigits => exact readBack_integer hdigits
  | string hs =>
    intro n rest hn hrest
    obtain ⟨n, rfl⟩ := exists_eq_succ (.string hs : Value.Plain limits _ _) hn
    rw [Value.render, quotedString_eq hs, List.cons_append, List.append_assoc, value,
      List.singleton_append, stringRest_quoted hs]
    rfl
  | array hdepth hplain ih => exact readBack_array hl hdepth hplain ih
  | object hdepth hnames htexts hplain ih => exact readBack_object hl hdepth hnames htexts hplain ih

end

/-- A printed value with a gap behind it is a document. -/
theorem parseWithin_indented {limits : Limits} {v : Value} (h : v.Plain limits 0) {gap : String}
    (hgap : IsGap gap) : parseWithin limits (v.indented ++ gap).toList = .ok v := by
  obtain ⟨c, cs, hcs, hc⟩ := render_eq_cons indentedLayout 0 h
  have hends : Ends gap.toList := by
    rw [← List.append_nil gap.toList]
    exact ends_gap hgap (by simp [Ends])
  have hskip : skipSpace gap.toList = [] := by
    rw [← List.append_nil gap.toList, skipSpace_append hgap]
    rfl
  have hlength : 2 * (v.render indentedLayout 0).toList.length ≤
      2 * (v.indented ++ gap).toList.length + 2 := by
    simp only [Value.indented, String.toList_append, List.length_append]
    omega
  have hread := value_render regular_indentedLayout h hlength hends
  have htext : (v.indented ++ gap).toList = c :: (cs ++ gap.toList) := by
    rw [String.toList_append, Value.indented, hcs, List.cons_append]
  rw [hcs, List.cons_append, ← htext] at hread
  have hdocument : document limits (v.indented ++ gap).toList = .ok v := by
    rw [document]
    · rw [htext, skipSpace_cons (isSpace_of_isStart hc), ← htext, hread]
      simp only [bind, Except.bind, hskip]
      rfl
    · intro tail heq
      rw [htext] at heq
      exact ne_of_isStart hc (d := '\uFEFF') rfl (List.cons.inj heq).1
  rw [parseWithin, hdocument]
  rfl

/-! ## Line ends -/

section
variable {limits : Limits} {l : Layout} {level : Nat}

theorem ne_return_of_isGap {s : String} (h : IsGap s) : ∀ c ∈ s.toList, c ≠ '\r' := by
  intro c hc
  rcases h c hc with rfl | rfl
  · decide
  · decide

theorem ne_return_quotedString {s : String} (h : ∀ c ∈ s.toList, IsPlain c) :
    ∀ c ∈ (quotedString s).toList, c ≠ '\r' := by
  rw [quotedString_eq h]
  simp only [List.forall_mem_cons, List.forall_mem_append]
  refine ⟨by decide, ?_, by decide, by simp⟩
  rintro c hc rfl
  exact absurd (h _ hc).1 (by decide)

theorem ne_return_between (hl : l.Regular) : ∀ c ∈ (l.between level).toList, c ≠ '\r' := by
  obtain ⟨gap, hgap, hbetween⟩ := hl.between level
  rw [hbetween, String.toList_append, List.forall_mem_append]
  exact ⟨by simp, ne_return_of_isGap hgap⟩

theorem ne_return_itemsText (hl : l.Regular) {items : List Value}
    (h : ∀ v ∈ items, ∀ level, ∀ c ∈ (v.render l level).toList, c ≠ '\r') :
    ∀ c ∈ itemsText l level items, c ≠ '\r' := by
  induction items with
  | nil => simp [itemsText, renderItems]
  | cons v items ih =>
    rw [List.forall_mem_cons] at h
    cases items with
    | nil =>
      rw [itemsText_singleton]
      exact h.1 _
    | cons w items =>
      rw [itemsText_cons_cons, List.forall_mem_append, List.forall_mem_append]
      exact ⟨h.1 _, ne_return_between hl, ih h.2⟩

theorem ne_return_fieldsText (hl : l.Regular) {fields : List (String × Value)}
    (htexts : ∀ f ∈ fields, ∀ c ∈ f.1.toList, IsPlain c)
    (h : ∀ f ∈ fields, ∀ level, ∀ c ∈ (f.2.render l level).toList, c ≠ '\r') :
    ∀ c ∈ fieldsText l level fields, c ≠ '\r' := by
  have hcolon : ∀ c ∈ l.colon.toList, c ≠ '\r' := by
    obtain ⟨gap, hgap, hcolon⟩ := hl.colon
    rw [hcolon, String.toList_append, List.forall_mem_append]
    exact ⟨by simp, ne_return_of_isGap hgap⟩
  induction fields with
  | nil => simp [fieldsText, renderFields]
  | cons f fields ih =>
    rw [List.forall_mem_cons] at htexts h
    have hname := ne_return_quotedString htexts.1
    cases fields with
    | nil =>
      rw [fieldsText_singleton, List.forall_mem_append, List.forall_mem_append]
      exact ⟨⟨hname, hcolon⟩, h.1 _⟩
    | cons g fields =>
      rw [fieldsText_cons_cons]
      simp only [List.forall_mem_append]
      exact ⟨⟨⟨hname, hcolon⟩, h.1 _⟩, ne_return_between hl, ih htexts.2 h.2⟩

/-- Lines end with line feeds alone. -/
theorem ne_return_render (hl : l.Regular) {depth : Nat} {v : Value} (h : v.Plain limits depth)
    (level : Nat) : ∀ c ∈ (v.render l level).toList, c ≠ '\r' := by
  induction h generalizing level with
  | null => simp [Value.render]
  | bool b => cases b <;> simp [Value.render]
  | integer =>
    have hdigits : ∀ n, ∀ c ∈ Nat.toDigits 10 n, c ≠ '\r' := by
      rintro n c hc rfl
      cases isDigit_of_mem_toDigits hc
    rw [Value.render, toList_toString]
    split
    · exact hdigits _
    · exact List.forall_mem_cons.2 ⟨by decide, hdigits _⟩
  | string hs =>
    rw [Value.render]
    exact ne_return_quotedString hs
  | @array _ items _ _ ih =>
    cases items with
    | nil => simp [Value.render]
    | cons v items =>
      rw [toList_render_array]
      simp only [List.forall_mem_cons, List.forall_mem_append]
      exact ⟨by decide, ⟨⟨ne_return_of_isGap (hl.opening level), ne_return_itemsText hl ih⟩,
        ne_return_of_isGap (hl.closing level)⟩, by decide, by simp⟩
  | @object _ fields _ _ htexts _ ih =>
    cases fields with
    | nil => simp [Value.object, Value.render]
    | cons f fields =>
      rw [toList_render_object]
      simp only [List.forall_mem_cons, List.forall_mem_append]
      exact ⟨by decide, ⟨⟨ne_return_of_isGap (hl.opening level),
        ne_return_fieldsText hl htexts ih⟩, ne_return_of_isGap (hl.closing level)⟩, by decide,
        by simp⟩

end

end FuseMap.Json
