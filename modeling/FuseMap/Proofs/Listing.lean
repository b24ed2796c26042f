import FuseMap.Proofs.JsonText
import FuseMap.Proofs.Lexing
import FuseMap.SumOfProducts.Listing
import Mathlib.Data.List.Nodup

/-! # Listings can be told apart

The listing of a sum determines the sum, if different pins have different names. The text comes
apart at characters that its parts do not have: the name of the output ends at a dot or a space, a
line at its line end or at the semicolon, and a literal at the next space. The constants that stand
for an empty term and an empty sum begin with a quotation mark, which no literal does.
-/

namespace FuseMap

/-! ## Joined texts -/

section
variable {p : Char → Bool} {c : Char} {sep x x' rest rest' : List Char} {xs xs' : List (List Char)}

theorem intercalate_eq_flatMap (sep x : List Char) (xs : List (List Char)) :
    sep.intercalate (x :: xs) = x ++ xs.flatMap (sep ++ ·) := by
  induction xs generalizing x with
  | nil => simp
  | cons y xs ih => rw [List.intercalate_cons_cons, ih, List.flatMap_cons, List.append_assoc,
      List.append_assoc]

theorem head?_of_joined (hc : p c = false) (hrest : ∀ a ∈ rest.head?, p a = false) :
    ∀ a ∈ (xs.flatMap ((c :: sep) ++ ·) ++ rest).head?, p a = false := by
  cases xs with
  | nil => exact hrest
  | cons x xs => simpa using hc

/-- Texts with a separator before each come apart if its first character is in none of them, and
something else follows. -/
theorem eq_of_flatMap_eq (hc : p c = false) (hxs : ∀ x ∈ xs, ∀ a ∈ x, p a = true)
    (hxs' : ∀ x ∈ xs', ∀ a ∈ x, p a = true) (hrest : ∀ a ∈ rest.head?, p a = false ∧ a ≠ c)
    (hrest' : ∀ a ∈ rest'.head?, p a = false ∧ a ≠ c)
    (h : xs.flatMap ((c :: sep) ++ ·) ++ rest = xs'.flatMap ((c :: sep) ++ ·) ++ rest') :
    xs = xs' ∧ rest = rest' := by
  induction xs generalizing xs' with
  | nil =>
    cases xs' with
    | nil => exact ⟨rfl, h⟩
    | cons x' xs' => exact absurd rfl (hrest c (congrArg List.head? h)).2
  | cons x xs ih =>
    cases xs' with
    | nil => exact absurd rfl (hrest' c (congrArg List.head? h.symm)).2
    | cons x' xs' =>
      simp only [List.flatMap_cons, List.append_assoc] at h
      obtain ⟨rfl, htail⟩ := Text.eq_of_append_eq (hxs x List.mem_cons_self)
        (hxs' x' List.mem_cons_self) (head?_of_joined hc fun a ha => (hrest a ha).1)
        (head?_of_joined hc fun a ha => (hrest' a ha).1) (List.append_cancel_left h)
      obtain ⟨rfl, hend⟩ := ih (fun y hy => hxs y (List.mem_cons_of_mem _ hy))
        (fun y hy => hxs' y (List.mem_cons_of_mem _ hy)) htail
      exact ⟨rfl, hend⟩

/-- The same for texts with a separator between them. -/
theorem eq_of_joined_eq (hc : p c = false) (hxs : ∀ y ∈ x :: xs, ∀ a ∈ y, p a = true)
    (hxs' : ∀ y ∈ x' :: xs', ∀ a ∈ y, p a = true) (hrest : ∀ a ∈ rest.head?, p a = false ∧ a ≠ c)
    (h : (c :: sep).intercalate (x :: xs) ++ rest = (c :: sep).intercalate (x' :: xs') ++ rest) :
    x :: xs = x' :: xs' := by
  rw [List.forall_mem_cons] at hxs hxs'
  rw [intercalate_eq_flatMap, intercalate_eq_flatMap, List.append_assoc, List.append_assoc] at h
  have hnext : ∀ a ∈ rest.head?, p a = false := fun a ha => (hrest a ha).1
  obtain ⟨rfl, htail⟩ := Text.eq_of_append_eq hxs.1 hxs'.1 (head?_of_joined hc hnext)
    (head?_of_joined hc hnext) h
  obtain ⟨rfl, -⟩ := eq_of_flatMap_eq hc hxs.2 hxs'.2 hrest hrest htail
  rfl

end

/-! ## Names of pins -/

/-- The characters of names, and of the numbers that pins without a name have. -/
def isLabelChar (c : Char) : Bool := Design.isNameChar c || c == '-'

/-- The pins have different names of which a listing can be read. -/
structure Labels (name : Int → String) (pins : List Int) : Prop where
  nonempty : ∀ pin ∈ pins, (name pin).toList ≠ []
  chars : ∀ pin ∈ pins, ∀ c ∈ (name pin).toList, isLabelChar c = true
  injective : ∀ pin ∈ pins, ∀ pin' ∈ pins, name pin = name pin' → pin = pin'

/-- The pins have names by which they can be told apart, and no two pins that have a name have the
same. Of two names of a pin the last counts. -/
structure NamesApart (names : List (Int × String)) (pins : List Int) : Prop where
  named : ∀ pin ∈ pins, ∃ name, names.reverse.lookup pin = some name
  isName : ∀ {pin name}, names.reverse.lookup pin = some name → Design.isName name = true
  injective : ∀ {pin pin' name}, names.reverse.lookup pin = some name →
    names.reverse.lookup pin' = some name → pin = pin'

section
variable {names : List (Int × String)} {pins : List Int} {pin : Int} {c : Char}

theorem mem_of_lookup_reverse {name : String} (h : names.reverse.lookup pin = some name) :
    (pin, name) ∈ names := by
  obtain ⟨before, after, hnames, -⟩ := List.lookup_eq_some_iff.1 h
  exact List.mem_reverse.1 (by simp [hnames])

/-- Entries with different names give the pins names that are apart. -/
theorem namesApart_of_nodup (hpins : ∀ pin ∈ pins, pin ∈ names.map (·.1))
    (hnames : ∀ entry ∈ names, Design.isName entry.2 = true) (hnodup : (names.map (·.2)).Nodup) :
    NamesApart names pins where
  named pin hpin := by
    obtain ⟨entry, hentry, rfl⟩ := List.mem_map.1 (hpins pin hpin)
    refine Option.isSome_iff_exists.1 (List.lookup_isSome_iff.2 ⟨entry, ?_, beq_self_eq_true _⟩)
    exact List.mem_reverse.2 hentry
  isName h := hnames _ (mem_of_lookup_reverse h)
  injective h h' := congrArg Prod.fst <|
    List.inj_on_of_nodup_map hnodup (mem_of_lookup_reverse h) (mem_of_lookup_reverse h') rfl

theorem isLabelChar_of_isNameChar (h : Design.isNameChar c = true) : isLabelChar c = true := by
  rw [isLabelChar, h, Bool.true_or]

/-- Names that are apart can be read in a listing. -/
theorem Labels.of_namesApart (h : NamesApart names pins) : Labels (pinName names) pins := by
  have hname : ∀ pin ∈ pins, names.reverse.lookup pin = some (pinName names pin) := by
    intro pin hpin
    obtain ⟨name, hlookup⟩ := h.named pin hpin
    rw [pinName, hlookup, Option.getD_some]
  refine ⟨fun pin hpin => ?_, fun pin hpin c hc => ?_, fun pin hpin pin' hpin' heq => ?_⟩
  · obtain ⟨c, cs, hcs, -, -⟩ := Design.isName_iff.1 (h.isName (hname pin hpin))
    rw [hcs]
    exact List.cons_ne_nil c cs
  · obtain ⟨c', cs, hcs, hletter, hchars⟩ := Design.isName_iff.1 (h.isName (hname pin hpin))
    rw [hcs] at hc
    apply isLabelChar_of_isNameChar
    rcases List.mem_cons.1 hc with rfl | hc
    · rw [Design.isNameChar, Design.isAlphanum_of_isAlpha hletter, Bool.true_or]
    · exact hchars c hc
  · exact h.injective (hname pin hpin) (heq ▸ hname pin' hpin')

theorem toList_pinName_nil (pin : Int) :
    (pinName [] pin).toList = 'p' :: 'i' :: 'n' :: (toString pin).toList := by
  have htext : toString "pin" = "pin" := rfl
  simp [pinName, htext]

theorem isLabelChar_of_mem_toString (h : c ∈ (toString pin).toList) : isLabelChar c = true := by
  have hdigit : ∀ {n}, c ∈ Nat.toDigits 10 n → isLabelChar c = true := fun hc =>
    isLabelChar_of_isNameChar <| by
      rw [Design.isNameChar, Design.isAlphanum_of_isDigit (Json.isDigit_of_mem_toDigits hc),
        Bool.true_or]
  rw [Json.toList_toString] at h
  split at h
  · exact hdigit h
  · rcases List.mem_cons.1 h with rfl | h
    · rfl
    · exact hdigit h

/-- Without names, pins are told apart by their numbers. -/
theorem Labels.of_numbers (pins : List Int) : Labels (pinName []) pins := by
  refine ⟨fun pin _ => ?_, fun pin _ c hc => ?_, fun pin _ pin' _ heq => ?_⟩
  · rw [toList_pinName_nil]
    exact List.cons_ne_nil _ _
  · rw [toList_pinName_nil] at hc
    simp only [List.mem_cons] at hc
    rcases hc with rfl | rfl | rfl | hc
    · rfl
    · rfl
    · rfl
    · exact isLabelChar_of_mem_toString hc
  · have hnumber : (toString pin).toList = (toString pin').toList := by
      simpa [toList_pinName_nil] using congrArg String.toList heq
    have hends : Json.Ends [] := nofun
    have hread : ∀ i : Int,
        Json.scalar .standard ((toString i).toList ++ []) = .ok (.integer i, []) :=
      fun i => Json.scalar_toString rfl hends
    have hsame := hread pin
    rw [hnumber, hread pin'] at hsame
    cases hsame
    rfl

end

/-! ## Literals and terms -/

section
variable {names : List (Int × String)} {pins : List Int} {l l' : Literal} {t t' : ProductTerm}
  {c : Char}

theorem Literal.toList_listing (names : List (Int × String)) (l : Literal) :
    (l.listing names).toList =
      (if l.inverted then ['!'] else []) ++ (pinName names l.pin).toList := by
  rw [listing, String.toList_append]
  cases l.inverted <;> rfl

/-- The characters of literals. -/
def isLiteralChar (c : Char) : Bool := isLabelChar c || c == '!'

theorem isLiteralChar_of_mem_listing (h : Labels (pinName names) pins) (hl : l.pin ∈ pins)
    (hc : c ∈ (l.listing names).toList) : isLiteralChar c = true := by
  rw [Literal.toList_listing, List.mem_append] at hc
  rcases hc with hc | hc
  · split at hc
    · rw [List.mem_singleton.1 hc]
      rfl
    · cases hc
  · rw [isLiteralChar, h.chars l.pin hl c hc, Bool.true_or]

theorem Literal.listing_ne_nil (h : Labels (pinName names) pins) (hl : l.pin ∈ pins) :
    (l.listing names).toList ≠ [] := by
  rw [toList_listing]
  exact List.append_ne_nil_of_right_ne_nil _ (h.nonempty l.pin hl)

/-- A complement is told by its mark, and the pin by its label. -/
theorem eq_of_literal_eq (h : Labels (pinName names) pins) (hl : l.pin ∈ pins)
    (hl' : l'.pin ∈ pins) (heq : l.listing names = l'.listing names) : l = l' := by
  have hmark : ∀ pin ∈ pins, ∀ cs, (pinName names pin).toList ≠ '!' :: cs := by
    intro pin hpin cs hname
    have := h.chars pin hpin '!' (by simp [hname])
    cases this
  have htext := congrArg String.toList heq
  rw [Literal.toList_listing, Literal.toList_listing] at htext
  obtain ⟨pin, inverted⟩ := l
  obtain ⟨pin', inverted'⟩ := l'
  cases inverted <;> cases inverted'
  · rw [h.injective pin hl pin' hl' (String.toList_inj.1 (by simpa using htext))]
  · exact absurd (by simpa using htext) (hmark pin hl _)
  · exact absurd (by simpa using htext.symm) (hmark pin' hl' _)
  · rw [h.injective pin hl pin' hl' (String.toList_inj.1 (by simpa using htext))]

theorem ProductTerm.toList_listing_nil (names : List (Int × String)) :
    (listing names []).toList = ['\'', 'b', '\'', '1'] := by
  have htext : listing names [] = "'b'1" := rfl
  simp [htext]

theorem ProductTerm.toList_listing_cons (h : Labels (pinName names) pins) (hl : l.pin ∈ pins) :
    (listing names (l :: t)).toList =
      " & ".toList.intercalate ((l :: t).map fun l => (l.listing names).toList) := by
  have hne : (" & ".intercalate ((l :: t).map (Literal.listing names))).isEmpty = false := by
    rw [← Bool.not_eq_true, String.isEmpty_iff, ← String.toList_inj, String.toList_intercalate,
      List.map_cons, List.map_cons, intercalate_eq_flatMap]
    exact List.append_ne_nil_of_left_ne_nil (l.listing_ne_nil h hl) _
  rw [listing]
  simp only [hne, Bool.false_eq_true, if_false, String.toList_intercalate, List.map_map]
  rfl

/-- A term with literals begins with one, and an empty one with a quotation mark. -/
theorem ProductTerm.exists_listing_cons (h : Labels (pinName names) pins) (hl : l.pin ∈ pins) :
    ∃ c cs, (listing names (l :: t)).toList = c :: cs ∧ c ≠ '\'' := by
  obtain ⟨c, cs, hcs⟩ := List.exists_cons_of_ne_nil (l.listing_ne_nil h hl)
  refine ⟨c, _, by rw [toList_listing_cons h hl, List.map_cons, intercalate_eq_flatMap, hcs]; rfl,
    ?_⟩
  rintro rfl
  have := isLiteralChar_of_mem_listing h hl (c := '\'') (by simp [hcs])
  cases this

theorem ProductTerm.listing_nil_ne_cons (h : Labels (pinName names) pins) (hl : l.pin ∈ pins) :
    listing names [] ≠ listing names (l :: t) := by
  intro heq
  obtain ⟨c, cs, hcs, hc⟩ := exists_listing_cons (t := t) h hl
  rw [← heq, toList_listing_nil] at hcs
  cases hcs
  exact hc rfl

theorem eq_of_map_eq {α β : Type} {f : α → β} {as bs : List α}
    (hf : ∀ a ∈ as, ∀ b ∈ bs, f a = f b → a = b) (h : as.map f = bs.map f) : as = bs := by
  induction as generalizing bs with
  | nil => exact (List.map_eq_nil_iff.1 h.symm).symm
  | cons a as ih =>
    cases bs with
    | nil => cases h
    | cons b bs =>
      rw [List.map_cons, List.map_cons, List.cons.injEq] at h
      rw [hf a List.mem_cons_self b List.mem_cons_self h.1,
        ih (fun a ha b hb => hf a (List.mem_cons_of_mem _ ha) b (List.mem_cons_of_mem _ hb)) h.2]

/-- Terms are taken apart at their ampersands. -/
theorem eq_of_term_eq (h : Labels (pinName names) pins) (ht : ∀ l ∈ t, l.pin ∈ pins)
    (ht' : ∀ l ∈ t', l.pin ∈ pins) (heq : t.listing names = t'.listing names) : t = t' := by
  have hchars : ∀ {t : ProductTerm}, (∀ l ∈ t, l.pin ∈ pins) →
      ∀ text ∈ t.map fun l => (l.listing names).toList, ∀ c ∈ text, isLiteralChar c = true := by
    intro t ht text htext c hc
    obtain ⟨l, hl, rfl⟩ := List.mem_map.1 htext
    exact isLiteralChar_of_mem_listing h (ht l hl) hc
  cases t with
  | nil =>
    cases t' with
    | nil => rfl
    | cons l' t' =>
      exact absurd heq (ProductTerm.listing_nil_ne_cons h (ht' l' List.mem_cons_self))
  | cons l t =>
    cases t' with
    | nil => exact absurd heq.symm (ProductTerm.listing_nil_ne_cons h (ht l List.mem_cons_self))
    | cons l' t' =>
      have htext := congrArg (String.toList · ++ []) heq
      simp only [ProductTerm.toList_listing_cons h (ht l List.mem_cons_self),
        ProductTerm.toList_listing_cons h (ht' l' List.mem_cons_self)] at htext
      have hmap : (l :: t).map (fun l => (l.listing names).toList) =
          (l' :: t').map fun l => (l.listing names).toList :=
        eq_of_joined_eq (p := isLiteralChar) rfl (hchars ht) (hchars ht') (by simp) htext
      refine eq_of_map_eq (fun l hl l' hl' hlist => ?_) hmap
      exact eq_of_literal_eq h (ht l hl) (ht' l' hl') (String.toList_inj.1 hlist)

/-- The characters that end a line of a listing. -/
def isLineEnd (c : Char) : Bool := c == '\n' || c == ';'

theorem not_isLineEnd_of_mem_listing (h : Labels (pinName names) pins) (ht : ∀ l ∈ t, l.pin ∈ pins)
    (hc : c ∈ (t.listing names).toList) : isLineEnd c = false := by
  have hmark : ∀ l ∈ t, ∀ c ∈ (l.listing names).toList, isLineEnd c = false := by
    intro l hl c hc
    have hliteral := isLiteralChar_of_mem_listing h (ht l hl) hc
    rw [← Bool.not_eq_true, isLineEnd, Bool.or_eq_true, beq_iff_eq, beq_iff_eq]
    rintro (rfl | rfl) <;> cases hliteral
  have hsep : ∀ c ∈ " & ".toList, isLineEnd c = false := by simp [isLineEnd]
  have hempty : ∀ c ∈ ['\'', 'b', '\'', '1'], isLineEnd c = false := by simp [isLineEnd]
  cases t with
  | nil => exact hempty c (ProductTerm.toList_listing_nil names ▸ hc)
  | cons l t =>
    rw [ProductTerm.toList_listing_cons h (ht l List.mem_cons_self), List.map_cons,
      intercalate_eq_flatMap, List.mem_append, List.mem_flatMap] at hc
    obtain hc | ⟨text, htext, hc⟩ := hc
    · exact hmark l List.mem_cons_self c hc
    · obtain ⟨l', hl', rfl⟩ := List.mem_map.1 htext
      rcases List.mem_append.1 hc with hc | hc
      · exact hsep c hc
      · exact hmark l' (List.mem_cons_of_mem _ hl') c hc

end

/-! ## Sums -/

/-- What stands after the equals sign of a listing; `width` is the width of the name before it. -/
def termLines (names : List (Int × String)) (width : Nat) : List ProductTerm → List Char
  | [] => "'b'0;\n".toList
  | t :: rest =>
    ('\n' :: (List.replicate width ' ' ++ " # ".toList)).intercalate
      ((t :: rest).map fun t => (t.listing names).toList) ++ ";\n".toList

namespace SumOfProducts

/-- The mark of an output with a flip flop. -/
def registeredText (s : SumOfProducts) : List Char := if s.registered then ".dff".toList else []

def pins (s : SumOfProducts) : List Int := s.outputPin :: s.terms.flatMap ProductTerm.pins

/-- A listing is the output, its mark, and the lines of its terms. -/
theorem toList_listing (names : List (Int × String)) (s : SumOfProducts) :
    (s.listing names).toList = (pinName names s.outputPin).toList ++
      (s.registeredText ++ (" = ".toList ++ termLines names
        ((pinName names s.outputPin).toList ++ s.registeredText).length s.terms)) := by
  have hname : (pinName names s.outputPin ++ if s.registered then ".dff" else "").toList =
      (pinName names s.outputPin).toList ++ s.registeredText := by
    rw [String.toList_append, registeredText]
    cases s.registered <;> rfl
  rw [listing]
  cases hterms : s.terms with
  | nil =>
    simp only [String.toList_append, hname, List.append_assoc, termLines]
    rfl
  | cons t rest =>
    simp only [String.toList_append, hname, String.toList_intercalate, List.map_cons, List.map_map,
      intercalate_eq_flatMap, termLines, List.flatMap_map, String.length_toList.symm]
    simp

/-- The name of the output ends at a dot or at a space. -/
theorem head?_registeredText (s : SumOfProducts) (cs : List Char) :
    (s.registeredText ++ (" = ".toList ++ cs)).head? =
      some (if s.registered then '.' else ' ') := by
  rw [registeredText]
  cases s.registered <;> simp

end SumOfProducts

section
variable {names : List (Int × String)} {pins : List Int} {width : Nat}
  {terms terms' : List ProductTerm} {s s' : SumOfProducts}

theorem termLines_nil_ne_cons (h : Labels (pinName names) pins) {t : ProductTerm}
    (ht : ∀ l ∈ t, l.pin ∈ pins) :
    termLines names width [] ≠ termLines names width (t :: terms) := by
  have hfalse : "'b'0;\n".toList = ['\'', 'b', '\'', '0', ';', '\n'] := by simp
  rw [termLines, termLines, List.map_cons, intercalate_eq_flatMap, hfalse]
  intro heq
  cases t with
  | nil =>
    rw [ProductTerm.toList_listing_nil] at heq
    cases heq
  | cons l t =>
    obtain ⟨c, cs, hcs, hc⟩ :=
      ProductTerm.exists_listing_cons (t := t) h (ht l List.mem_cons_self)
    rw [hcs] at heq
    exact hc (Option.some.inj (congrArg List.head? heq)).symm

theorem eq_of_termLines_eq (h : Labels (pinName names) pins)
    (hterms : ∀ t ∈ terms, ∀ l ∈ t, l.pin ∈ pins) (hterms' : ∀ t ∈ terms', ∀ l ∈ t, l.pin ∈ pins)
    (heq : termLines names width terms = termLines names width terms') : terms = terms' := by
  have hlines : ∀ {terms : List ProductTerm}, (∀ t ∈ terms, ∀ l ∈ t, l.pin ∈ pins) →
      ∀ text ∈ terms.map fun t => (t.listing names).toList, ∀ c ∈ text, (!isLineEnd c) = true := by
    intro terms hterms text htext c hc
    obtain ⟨t, ht, rfl⟩ := List.mem_map.1 htext
    rw [not_isLineEnd_of_mem_listing h (hterms t ht) hc]
    rfl
  cases terms with
  | nil =>
    cases terms' with
    | nil => rfl
    | cons t' terms' =>
      exact absurd heq (termLines_nil_ne_cons h (hterms' t' List.mem_cons_self))
  | cons t terms =>
    cases terms' with
    | nil => exact absurd heq.symm (termLines_nil_ne_cons h (hterms t List.mem_cons_self))
    | cons t' terms' =>
      have hmap : (t :: terms).map (fun t => (t.listing names).toList) =
          (t' :: terms').map fun t => (t.listing names).toList :=
        eq_of_joined_eq (p := fun c => !isLineEnd c) rfl (hlines hterms) (hlines hterms')
          (by simp [isLineEnd]) heq
      refine eq_of_map_eq (fun t ht t' ht' hlist => ?_) hmap
      exact eq_of_term_eq h (hterms t ht) (hterms' t' ht') (String.toList_inj.1 hlist)

theorem eq_of_listing_eq_of_labels (h : Labels (pinName names) pins) (hs : s.pins ⊆ pins)
    (hs' : s'.pins ⊆ pins) (heq : s.listing names = s'.listing names) : s = s' := by
  have hterms : ∀ {s : SumOfProducts}, s.pins ⊆ pins → ∀ t ∈ s.terms, ∀ l ∈ t, l.pin ∈ pins :=
    fun {s} hs t ht l hl => hs <| List.mem_cons_of_mem _ <|
      List.mem_flatMap.2 ⟨t, ht, List.mem_map_of_mem hl⟩
  have hpin := hs List.mem_cons_self
  have hpin' := hs' List.mem_cons_self
  have hmark : ∀ (s : SumOfProducts) (cs : List Char),
      ∀ c ∈ (s.registeredText ++ (" = ".toList ++ cs)).head?, isLabelChar c = false := by
    intro s cs c hc
    rw [s.head?_registeredText, Option.mem_some_iff] at hc
    rw [← hc]
    cases s.registered <;> rfl
  have hmarks : ∀ b b' : Bool,
      (if b then '.' else ' ') = (if b' then '.' else ' ') → b = b' := by decide
  have htext := congrArg String.toList heq
  rw [SumOfProducts.toList_listing, SumOfProducts.toList_listing] at htext
  obtain ⟨hname, htail⟩ := Text.eq_of_append_eq (h.chars _ hpin) (h.chars _ hpin') (hmark s _)
    (hmark s' _) htext
  have hhead := congrArg List.head? htail
  rw [s.head?_registeredText, s'.head?_registeredText] at hhead
  obtain ⟨pin, registered, terms⟩ := s
  obtain ⟨pin', registered', terms'⟩ := s'
  obtain rfl : pin = pin' := h.injective _ hpin _ hpin' (String.toList_inj.1 hname)
  obtain rfl : registered = registered' := hmarks registered registered' (Option.some.inj hhead)
  have hlines := List.append_cancel_left (List.append_cancel_left htail)
  obtain rfl : terms = terms' := eq_of_termLines_eq h (hterms hs) (hterms hs') hlines
  rfl

/-- Two sums with the same listing are the same, if names are given by which all their pins can be
told apart, or none at all. -/
theorem eq_of_listing_eq (hnames : names = [] ∨ NamesApart names (s.pins ++ s'.pins))
    (heq : s.listing names = s'.listing names) : s = s' := by
  have hlabels : Labels (pinName names) (s.pins ++ s'.pins) := by
    rcases hnames with rfl | hnames
    · exact .of_numbers _
    · exact .of_namesApart hnames
  exact eq_of_listing_eq_of_labels hlabels (List.subset_append_left _ _)
    (List.subset_append_right _ _) heq

end

/-- A sum with an empty term, and with one that repeats a literal. -/
def oddSum : SumOfProducts := ⟨23, true, [[], [⟨10, false⟩, ⟨11, true⟩, ⟨10, false⟩]]⟩

/-- The same sum, its terms written as numbers. -/
def oddSumOfBits : SumOfProducts :=
  ⟨23, true, [ProductTerm.ofBits 0 [], ProductTerm.ofBits 5 [10, 11, 10]]⟩

theorem eq_of_listing_eq_oddSum :
    NamesApart [(10, "a"), (11, "b"), (23, "q")] (oddSum.pins ++ oddSumOfBits.pins) ∧
      oddSum.listing [(10, "a"), (11, "b"), (23, "q")] =
        oddSumOfBits.listing [(10, "a"), (11, "b"), (23, "q")] ∧
      oddSum.listing [] = oddSumOfBits.listing [] ∧ oddSum = oddSumOfBits := by
  have hnames : NamesApart [(10, "a"), (11, "b"), (23, "q")] (oddSum.pins ++ oddSumOfBits.pins) :=
    namesApart_of_nodup (by decide) (by decide) (by decide)
  exact ⟨hnames, rfl, rfl, eq_of_listing_eq (.inr hnames) rfl⟩

example : oddSum.listing [(10, "a"), (11, "b"), (23, "q")] =
    "q.dff = 'b'1\n      # a & !b & a;\n" := by decide

end FuseMap
