import FuseMap.Design.Parser
import FuseMap.Proofs.Sentence

/-! # Texts that are alike

Two lists of tokens are alike if they differ in nothing but their names, which correspond to each
other one to one, and their lines, which correspond too (`Correspondence`). The reader does the same
with both of them: it takes the same statements up to the correspondence, gives the same tables, and
fails in corresponding lines (`alike_ofScript`). For each of its steps this is one lemma, which
follows the definition of the step.
-/

namespace FuseMap.Design

/-- How the names and the lines of two texts correspond. -/
structure Correspondence where
  Name : String → String → Prop
  Line : Nat → Nat → Prop
  name_iff : ∀ {a a' b b'}, Name a b → Name a' b' → (a = a' ↔ b = b')

theorem Correspondence.beq_eq (c : Correspondence) {a a' b b' : String} (h : c.Name a b)
    (h' : c.Name a' b') : (a == a') = (b == b') := by
  rw [Bool.eq_iff_iff, beq_iff_eq, beq_iff_eq]
  exact c.name_iff h h'

variable {c : Correspondence} {α β γ δ : Type}

/-! ## Ends of computations -/

/-- Two steps of reading both succeed, with results that correspond, or both fail in lines that
correspond. -/
inductive EndsAlike (c : Correspondence) (R : α → β → Prop) :
    Except Failure α → Except Failure β → Prop
  | ok {a : α} {b : β} : R a b → EndsAlike c R (.ok a) (.ok b)
  | error {f g : Failure} : Option.Rel c.Line f.line? g.line? → EndsAlike c R (.error f) (.error g)

namespace EndsAlike

variable {R : α → β → Prop} {S : γ → δ → Prop} {step : Except Failure α} {step' : Except Failure β}

/-- Steps one after the other end alike if each does, whatever corresponding results the first
gives. -/
protected theorem bind {next : α → Except Failure γ} {next' : β → Except Failure δ}
    (h : EndsAlike c R step step') (hnext : ∀ a b, R a b → EndsAlike c S (next a) (next' b)) :
    EndsAlike c S (step >>= next) (step' >>= next') := by
  cases h with
  | ok hab => exact hnext _ _ hab
  | error hline => exact .error hline

/-- A failure in a line that is given. -/
theorem fail {l m : Nat} (h : c.Line l m) (f g : Fault) :
    EndsAlike c R (.error ⟨f, some l⟩) (.error ⟨g, some m⟩) :=
  .error (.some h)

/-- A branch is taken in both runs or in neither. -/
protected theorem ite {p q : Prop} [Decidable p] [Decidable q] {other : Except Failure α}
    {other' : Except Failure β} (hpq : p ↔ q) (h : EndsAlike c R step step')
    (hother : EndsAlike c R other other') :
    EndsAlike c R (if p then step else other) (if q then step' else other') := by
  by_cases hp : p
  · rw [if_pos hp, if_pos (hpq.1 hp)]
    exact h
  · rw [if_neg hp, if_neg (mt hpq.2 hp)]
    exact hother

protected theorem mapM {f : α → Except Failure γ} {f' : β → Except Failure δ} {xs : List α}
    {ys : List β} (h : List.Forall₂ R xs ys) (hf : ∀ a b, R a b → EndsAlike c S (f a) (f' b)) :
    EndsAlike c (List.Forall₂ S) (xs.mapM f) (ys.mapM f') := by
  induction h with
  | nil => exact .ok .nil
  | cons hab _ ih =>
    rw [List.mapM_cons, List.mapM_cons]
    exact (hf _ _ hab).bind fun _ _ hresult => ih.bind fun _ _ hresults =>
      .ok (.cons hresult hresults)

protected theorem foldlM {f : γ → α → Except Failure γ} {f' : δ → β → Except Failure δ}
    {xs : List α} {ys : List β} {s : γ} {s' : δ} (h : List.Forall₂ R xs ys)
    (hf : ∀ s s' a b, S s s' → R a b → EndsAlike c S (f s a) (f' s' b)) (hs : S s s') :
    EndsAlike c S (xs.foldlM f s) (ys.foldlM f' s') := by
  induction h generalizing s s' with
  | nil => exact .ok hs
  | cons hab _ ih =>
    rw [List.foldlM_cons, List.foldlM_cons]
    exact (hf _ _ _ _ hs hab).bind fun _ _ hnext => ih hnext

end EndsAlike

/-! ## Tokens -/

/-- The tokens differ in nothing but the names they are. -/
inductive Token.Like (c : Correspondence) : Token → Token → Prop
  | identifier {a b : String} : c.Name a b → Like c (.identifier a) (.identifier b)
  | keyword (k : Keyword) : Like c (.keyword k) (.keyword k)
  | number (digits : String) : Like c (.number digits) (.number digits)
  | arrow : Like c .arrow .arrow
  | symbol (s : Symbol) : Like c (.symbol s) (.symbol s)

structure Lexeme.Like (c : Correspondence) (x y : Lexeme) : Prop where
  token : x.token.Like c y.token
  line : c.Line x.line y.line

/-- The tokens are alike one by one. -/
abbrev Alike (c : Correspondence) : List Lexeme → List Lexeme → Prop :=
  List.Forall₂ (Lexeme.Like c)

/-- Readers have taken something from tokens that are alike, and what is left is alike. -/
def Taken (c : Correspondence) (R : α → β → Prop) (x : α × List Lexeme) (y : β × List Lexeme) :
    Prop :=
  R x.1 y.1 ∧ Alike c x.2 y.2

/-- The words correspond, and so do their lines. -/
structure Word.Like (c : Correspondence) (R : String → String → Prop) (v w : Word) : Prop where
  text : R v.text w.text
  line : c.Line v.line w.line

variable {xs ys : List Lexeme} {R : α → β → Prop}

theorem Alike.headLine (h : Alike c xs ys) :
    Option.Rel c.Line (xs.head?.map (·.line)) (ys.head?.map (·.line)) := by
  cases h with
  | nil => exact .none
  | cons hxy _ => exact .some hxy.line

/-- What was found instead may differ in a name, but it stands in a corresponding line. -/
theorem endsAlike_expected (what : String) (h : Alike c xs ys) :
    EndsAlike c R (.error (.expected what xs)) (.error (.expected what ys)) :=
  .error h.headLine

/-- A symbol is ahead in both or in none. -/
theorem Alike.notAhead_or (h : Alike c xs ys) (s : Symbol) :
    (NotAhead s xs ∧ NotAhead s ys) ∨ ∃ l m xs' ys', xs = ⟨.symbol s, l⟩ :: xs' ∧
      ys = ⟨.symbol s, m⟩ :: ys' ∧ Alike c xs' ys' := by
  cases h with
  | nil => exact .inl ⟨by simp [NotAhead], by simp [NotAhead]⟩
  | @cons x y xs ys hxy hrest =>
    obtain ⟨token, line⟩ := x
    obtain ⟨token', line'⟩ := y
    by_cases hs : token = .symbol s
    · subst hs
      cases hxy.token
      exact .inr ⟨line, line', xs, ys, rfl, rfl, hrest⟩
    · refine .inl ⟨by simpa [NotAhead] using hs, ?_⟩
      have htoken := hxy.token
      cases htoken with
      | symbol => simpa [NotAhead] using hs
      | identifier | keyword | number | arrow => simp [NotAhead]

theorem takeSymbol_of_notAhead {s : Symbol} (h : NotAhead s xs) :
    takeSymbol s xs = .error (.expected (inApostrophes (String.singleton s.char)) xs) := by
  fun_cases takeSymbol s xs with
  | case1 => exact absurd rfl h
  | case2 => rfl
  | case3 => rfl

/-- Symbols are alike only if they are equal, so that both texts have the symbol or neither. -/
theorem alike_takeSymbol (s : Symbol) (h : Alike c xs ys) :
    EndsAlike c (Alike c) (takeSymbol s xs) (takeSymbol s ys) := by
  obtain ⟨hx, hy⟩ | ⟨l, m, xs, ys, rfl, rfl, hrest⟩ := h.notAhead_or s
  · rw [takeSymbol_of_notAhead hx, takeSymbol_of_notAhead hy]
    exact endsAlike_expected _ h
  · rw [takeSymbol, takeSymbol, if_pos rfl, if_pos rfl]
    exact .ok hrest

theorem alike_takeArrow (h : Alike c xs ys) :
    EndsAlike c (Alike c) (takeArrow xs) (takeArrow ys) := by
  cases h with
  | nil => exact endsAlike_expected _ .nil
  | @cons x y xs ys hxy hrest =>
    obtain ⟨token, line⟩ := x
    obtain ⟨token', line'⟩ := y
    obtain ⟨htoken, hline⟩ := hxy
    have hlexemes : Alike c (⟨token, line⟩ :: xs) (⟨token', line'⟩ :: ys) :=
      .cons ⟨htoken, hline⟩ hrest
    cases htoken with
    | arrow => exact .ok hrest
    | identifier | keyword | number | symbol => exact endsAlike_expected _ hlexemes

section words

variable {pick : Token → Option String} {P : String → String → Prop} {what : String}

/-- A kind of words that is found in both texts alike. -/
def PicksAlike (c : Correspondence) (pick : Token → Option String) (P : String → String → Prop) :
    Prop :=
  ∀ {t u}, Token.Like c t u → Option.Rel P (pick t) (pick u)

theorem picksAlike_number? : PicksAlike c Token.number? Eq := by
  intro t u h
  cases h with
  | number => exact .some rfl
  | identifier | keyword | arrow | symbol => exact .none

theorem picksAlike_identifier? : PicksAlike c Token.identifier? c.Name := by
  intro t u h
  cases h with
  | identifier hab => exact .some hab
  | number | keyword | arrow | symbol => exact .none

theorem alike_takeWord (hpick : PicksAlike c pick P) (h : Alike c xs ys) :
    EndsAlike c (Taken c (Word.Like c P)) (takeWord pick what xs) (takeWord pick what ys) := by
  cases h with
  | nil => exact endsAlike_expected _ .nil
  | @cons x y xs ys hxy hrest =>
    obtain ⟨token, line⟩ := x
    obtain ⟨token', line'⟩ := y
    have hpicked := hpick hxy.token
    simp only [takeWord]
    generalize pick token = o at hpicked
    generalize pick token' = o' at hpicked
    cases hpicked with
    | none => exact endsAlike_expected _ (.cons hxy hrest)
    | some hab => exact .ok ⟨⟨hab, hxy.line⟩, hrest⟩

theorem takeMoreWords_of_notAhead (h : NotAhead .comma xs) :
    takeMoreWords pick what xs = .ok ([], xs) := by
  fun_cases takeMoreWords pick what xs with
  | case1 => exact absurd rfl h
  | case2 => exact absurd rfl h
  | case3 => exact absurd rfl h
  | case4 => rfl

theorem alike_takeMoreWords (hpick : PicksAlike c pick P) {xs ys : List Lexeme}
    (h : Alike c xs ys) :
    EndsAlike c (Taken c (List.Forall₂ (Word.Like c P))) (takeMoreWords pick what xs)
      (takeMoreWords pick what ys) := by
  obtain ⟨hx, hy⟩ | ⟨l, m, xs, ys, rfl, rfl, hrest⟩ := h.notAhead_or .comma
  · rw [takeMoreWords_of_notAhead hx, takeMoreWords_of_notAhead hy]
    exact .ok ⟨.nil, h⟩
  · cases hrest with
    | nil => exact endsAlike_expected _ .nil
    | @cons x y xs ys hxy hrest =>
      obtain ⟨token, line⟩ := x
      obtain ⟨token', line'⟩ := y
      have hpicked := hpick hxy.token
      rw [takeMoreWords, takeMoreWords]
      generalize pick token = o at hpicked
      generalize pick token' = o' at hpicked
      cases hpicked with
      | none => exact endsAlike_expected _ (.cons hxy hrest)
      | some hab =>
        refine (alike_takeMoreWords hpick hrest).bind fun _ _ hwords => ?_
        exact .ok ⟨.cons ⟨hab, hxy.line⟩ hwords.1, hwords.2⟩
termination_by xs.length

theorem alike_takeWords (hpick : PicksAlike c pick P) (h : Alike c xs ys) :
    EndsAlike c (Taken c (List.Forall₂ (Word.Like c P))) (takeWords pick what xs)
      (takeWords pick what ys) := by
  refine (alike_takeWord hpick h).bind fun _ _ hfirst => ?_
  refine (alike_takeMoreWords hpick hfirst.2).bind fun _ _ hmore => ?_
  exact .ok ⟨.cons hfirst.1 hmore.1, hmore.2⟩

end words

/-! ## Functions -/

/-- The functions differ in nothing but their names. -/
inductive Expr.Like (c : Correspondence) : Expr → Expr → Prop
  | const (b : Bool) : Like c (.const b) (.const b)
  | pin {a b : String} : c.Name a b → Like c (.pin a) (.pin b)
  | not {e e' : Expr} : Like c e e' → Like c (.not e) (.not e')
  | and {e e' f f' : Expr} : Like c e e' → Like c f f' → Like c (.and e f) (.and e' f')
  | or {e e' f f' : Expr} : Like c e e' → Like c f f' → Like c (.or e f) (.or e' f')
  | xor {e e' f f' : Expr} : Like c e e' → Like c f f' → Like c (.xor e f) (.xor e' f')

/-- Two readers of functions take like functions from like tokens. -/
structure ReadsAlike (c : Correspondence) (r r' : FormulaReader) : Prop where
  read : ∀ {xs ys}, Alike c xs ys → EndsAlike c (Taken c (Expr.Like c)) (r xs) (r' ys)

section formulas

variable {r r' inner inner' : FormulaReader} {declared declared' : String → Bool}

theorem alike_chainRest {s : Symbol} {join : Expr → Expr → Expr}
    (hjoin : ∀ {e e' f f'}, Expr.Like c e e' → Expr.Like c f f' →
      Expr.Like c (join e f) (join e' f')) (hr : ReadsAlike c r r') (n : Nat) {left left' : Expr}
    (hleft : left.Like c left') (h : Alike c xs ys) :
    EndsAlike c (Taken c (Expr.Like c)) (chainRest s join r n left xs)
      (chainRest s join r' n left' ys) := by
  induction n generalizing left left' xs ys with
  | zero =>
    exact .ok ⟨hleft, h⟩
  | succ n ih =>
    obtain ⟨hx, hy⟩ | ⟨l, m, xs, ys, rfl, rfl, hrest⟩ := h.notAhead_or s
    · rw [chainRest_of_notAhead hx, chainRest_of_notAhead hy]
      exact .ok ⟨hleft, h⟩
    · rw [chainRest_cons, chainRest_cons]
      exact (hr.read hrest).bind fun _ _ hright => ih (hjoin hleft hright.1) hright.2

theorem ReadsAlike.chain (hr : ReadsAlike c r r') (s : Symbol) {join : Expr → Expr → Expr}
    (hjoin : ∀ {e e' f f'}, Expr.Like c e e' → Expr.Like c f f' →
      Expr.Like c (join e f) (join e' f')) :
    ReadsAlike c (chain s join r) (chain s join r') := by
  refine ⟨fun h => (hr.read h).bind ?_⟩
  rintro ⟨left, rest⟩ ⟨left', rest'⟩ ⟨hleft, hrest⟩
  have hlength : rest.length = rest'.length := hrest.length_eq
  simp only [hlength]
  exact alike_chainRest hjoin hr _ hleft hrest

/-- A row of digits that is no constant starts no operand. -/
theorem operand_number {digits : String} (hzero : digits ≠ "0") (hone : digits ≠ "1") {line : Nat} :
    operand declared inner (⟨.number digits, line⟩ :: xs) =
      .error (.expected operandText (⟨.number digits, line⟩ :: xs)) := by
  simp [operand, hzero, hone]

/-- The only names that an operand looks at are looked up, which gives the same answer for both. -/
theorem ReadsAlike.operand (hdeclared : ∀ {a b}, c.Name a b → declared a = declared' b)
    (hinner : ReadsAlike c inner inner') :
    ReadsAlike c (operand declared inner) (operand declared' inner') := by
  refine ⟨fun {xs ys} h => ?_⟩
  induction h with
  | nil => exact endsAlike_expected _ .nil
  | @cons x y xs ys hxy hrest ih =>
    obtain ⟨token, line⟩ := x
    obtain ⟨token', line'⟩ := y
    obtain ⟨htoken, hline⟩ := hxy
    have hlexemes : Alike c (⟨token, line⟩ :: xs) (⟨token', line'⟩ :: ys) :=
      .cons ⟨htoken, hline⟩ hrest
    cases htoken with
    | identifier hab =>
      rw [Design.operand, Design.operand, hdeclared hab]
      exact .ite Iff.rfl (.ok ⟨.pin hab, hrest⟩) (.fail hline _ _)
    | keyword | arrow => exact endsAlike_expected _ hlexemes
    | number digits =>
      -- constants are the only numbers that the reader takes
      by_cases hzero : digits = "0"
      · subst hzero
        exact .ok ⟨.const false, hrest⟩
      by_cases hone : digits = "1"
      · subst hone
        exact .ok ⟨.const true, hrest⟩
      rw [operand_number hzero hone, operand_number hzero hone]
      exact endsAlike_expected _ hlexemes
    | symbol s =>
      cases s with
      | not => exact ih.bind fun _ _ hread => .ok ⟨.not hread.1, hread.2⟩
      | leftParen =>
        refine (hinner.read hrest).bind fun _ _ hread => ?_
        exact (alike_takeSymbol _ hread.2).bind fun _ _ hclosed => .ok ⟨hread.1, hclosed⟩
      | _ => exact endsAlike_expected _ hlexemes

theorem alike_formulaWithin (hdeclared : ∀ {a b}, c.Name a b → declared a = declared' b)
    (depth : Nat) :
    ReadsAlike c (formulaWithin declared depth) (formulaWithin declared' depth) := by
  induction depth with
  | zero => exact ⟨fun h => endsAlike_expected _ h⟩
  | succ depth ih =>
    have hatom := ih.operand hdeclared
    exact ((hatom.chain .and .and).chain .xor .xor).chain .or .or

theorem alike_formula (hdeclared : ∀ {a b}, c.Name a b → declared a = declared' b)
    (h : Alike c xs ys) :
    EndsAlike c (Taken c (Expr.Like c)) (formula declared xs) (formula declared' ys) := by
  rw [formula, formula, h.length_eq]
  exact (alike_formulaWithin hdeclared _).read h

end formulas

/-! ## Statements -/

/-- The same pins are declared, under corresponding names. -/
abbrev NamesAlike (c : Correspondence) : Names → Names → Prop :=
  List.Forall₂ fun p q => p.1 = q.1 ∧ c.Name p.2 q.2

structure TableStatement.Like (c : Correspondence) (t u : TableStatement) : Prop where
  line : c.Line t.line u.line
  inputPins : t.inputPins = u.inputPins
  outputPin : t.outputPin = u.outputPin
  registered : t.registered = u.registered
  form : t.form = u.form
  rows : List.Forall₂ (Word.Like c Eq) t.rows u.rows

structure FunctionStatement.Like (c : Correspondence) (f g : FunctionStatement) : Prop where
  output : f.output.Like c c.Name g.output
  registered : f.registered = g.registered
  formula : f.formula.Like c g.formula

inductive Statement.Like (c : Correspondence) : Statement → Statement → Prop
  | pins {line line' : Nat} {numbers numbers' names names' : List Word} : c.Line line line' →
    List.Forall₂ (Word.Like c Eq) numbers numbers' →
    List.Forall₂ (Word.Like c c.Name) names names' →
    Like c (.pins line numbers names) (.pins line' numbers' names')
  | table {t u : TableStatement} : t.Like c u → Like c (.table t) (.table u)
  | function {f g : FunctionStatement} : f.Like c g → Like c (.function f) (.function g)

section statements

variable {names names' : Names} {line line' : Nat}

theorem alike_pinStatement (hline : c.Line line line') (h : Alike c xs ys) :
    EndsAlike c (Taken c (Statement.Like c)) (pinStatement line xs) (pinStatement line' ys) := by
  refine (alike_takeWords picksAlike_number? h).bind fun _ _ hnumbers => ?_
  refine (alike_takeSymbol _ hnumbers.2).bind fun _ _ h => ?_
  refine (alike_takeWords picksAlike_identifier? h).bind fun _ _ hnames => ?_
  refine (alike_takeSymbol _ hnames.2).bind fun _ _ h => ?_
  exact .ok ⟨.pins hline hnumbers.1 hnames.1, h⟩

/-- A name is declared if the corresponding one is, and for the same pin. -/
theorem pin?_eq (h : NamesAlike c names names') {a b : String} (hab : c.Name a b) :
    names.pin? a = names'.pin? b := by
  induction h with
  | nil => rfl
  | @cons p q names names' hpq _ ih =>
    rw [Names.pin?, Names.pin?] at ih ⊢
    rw [List.find?_cons, List.find?_cons]
    rw [c.beq_eq hpq.2 hab]
    cases q.2 == b with
    | false => exact ih
    | true => exact congrArg some hpq.1

theorem alike_pin (h : NamesAlike c names names') {v w : Word} (hword : v.Like c c.Name w) :
    EndsAlike c Eq (names.pin v) (names'.pin w) := by
  rw [Names.pin, Names.pin, pin?_eq h hword.text]
  cases names'.pin? w.text with
  | none => exact .fail hword.line _ _
  | some pin => exact .ok rfl

theorem alike_takeFillValue (h : Alike c xs ys) :
    EndsAlike c (Taken c Eq) (takeFillValue xs) (takeFillValue ys) := by
  refine (alike_takeSymbol _ h).bind fun _ _ h => ?_
  refine (alike_takeWord picksAlike_number? h).bind ?_
  rintro ⟨v, xs⟩ ⟨w, ys⟩ ⟨hword, h⟩
  have htext : v.text = w.text := hword.text
  simp only [htext]
  refine .ite Iff.rfl (.fail hword.line _ _) ?_
  exact (alike_takeSymbol _ h).bind fun _ _ h => .ok ⟨rfl, h⟩

/-- Modifiers have no names, so that they are the same in both texts. -/
theorem alike_takeModifier (m : Modifiers) (h : Alike c xs ys) :
    EndsAlike c (Taken c Eq) (takeModifier m xs) (takeModifier m ys) := by
  have hunexpected (f g : Fault) : EndsAlike c (Taken c Eq)
      (.error ⟨f, xs.head?.map (·.line)⟩ : Except Failure (Modifiers × List Lexeme))
      (.error ⟨g, ys.head?.map (·.line)⟩ : Except Failure (Modifiers × List Lexeme)) :=
    .error h.headLine
  cases h with
  | nil => exact hunexpected _ _
  | @cons x y xs ys hxy hrest =>
    obtain ⟨token, line⟩ := x
    obtain ⟨token', line'⟩ := y
    cases hxy.token with
    | keyword k =>
      cases k with
      | count => exact .ite Iff.rfl (hunexpected _ _) (.ok ⟨rfl, hrest⟩)
      | dff => exact .ite Iff.rfl (hunexpected _ _) (.ok ⟨rfl, hrest⟩)
      | fill =>
        refine .ite Iff.rfl (hunexpected _ _) ((alike_takeFillValue hrest).bind ?_)
        rintro ⟨value, xs⟩ ⟨_, ys⟩ ⟨rfl, h⟩
        exact .ok ⟨rfl, h⟩
      | pin | table => exact hunexpected _ _
    | identifier | number | arrow | symbol => exact hunexpected _ _

theorem takeModifiers_of_notAhead {n : Nat} {m : Modifiers} (h : NotAhead .dot xs) :
    takeModifiers n m xs = .ok (m, xs) := by
  fun_cases takeModifiers n m xs with
  | case1 => exact absurd rfl h
  | case2 => rfl

theorem alike_takeModifiers (n : Nat) (m : Modifiers) (h : Alike c xs ys) :
    EndsAlike c (Taken c Eq) (takeModifiers n m xs) (takeModifiers n m ys) := by
  induction n generalizing m xs ys with
  | zero => exact .ok ⟨rfl, h⟩
  | succ n ih =>
    obtain ⟨hx, hy⟩ | ⟨l, l', xs, ys, rfl, rfl, hrest⟩ := h.notAhead_or .dot
    · rw [takeModifiers_of_notAhead hx, takeModifiers_of_notAhead hy]
      exact .ok ⟨rfl, h⟩
    · rw [takeModifiers, takeModifiers]
      refine (alike_takeModifier m hrest).bind ?_
      rintro ⟨m', xs⟩ ⟨_, ys⟩ ⟨rfl, h⟩
      exact ih m' h

theorem alike_takeRows (h : Alike c xs ys) :
    EndsAlike c (Taken c (List.Forall₂ (Word.Like c Eq))) (takeRows xs) (takeRows ys) := by
  induction h with
  | nil => exact endsAlike_expected _ .nil
  | @cons x y xs ys hxy hrest ih =>
    obtain ⟨token, line⟩ := x
    obtain ⟨token', line'⟩ := y
    obtain ⟨htoken, hline⟩ := hxy
    have hlexemes : Alike c (⟨token, line⟩ :: xs) (⟨token', line'⟩ :: ys) :=
      .cons ⟨htoken, hline⟩ hrest
    cases htoken with
    | number digits =>
      exact ih.bind fun _ _ hrows => .ok ⟨.cons ⟨rfl, hline⟩ hrows.1, hrows.2⟩
    | symbol s =>
      cases s with
      | rightBrace => exact .ok ⟨.nil, hrest⟩
      | _ => exact endsAlike_expected _ hlexemes
    | identifier | keyword | arrow => exact endsAlike_expected _ hlexemes

theorem alike_checkInputCount (output output' : String) (inputs : Nat)
    (hline : c.Line line line') :
    EndsAlike c Eq (checkInputCount output inputs line) (checkInputCount output' inputs line') :=
  .ite Iff.rfl (.fail hline _ _) (.ok rfl)

/-- A table with corresponding names has the same pins, modifiers and rows. -/
theorem alike_tableStatement (hnames : NamesAlike c names names') (hline : c.Line line line')
    (h : Alike c xs ys) :
    EndsAlike c (Taken c (Statement.Like c)) (tableStatement names line xs)
      (tableStatement names' line' ys) := by
  refine (alike_takeSymbol _ h).bind fun _ _ h => ?_
  refine (alike_takeWords picksAlike_identifier? h).bind fun inputs inputs' hinputs => ?_
  refine (alike_takeArrow hinputs.2).bind fun _ _ h => ?_
  refine (alike_takeWord picksAlike_identifier? h).bind fun output output' houtput => ?_
  refine (alike_takeSymbol _ houtput.2).bind fun rest rest' h => ?_
  refine (EndsAlike.mapM hinputs.1 fun _ _ => alike_pin hnames).bind fun pins pins' hpins => ?_
  obtain rfl := List.forall₂_eq_eq_eq ▸ hpins
  refine (alike_pin hnames houtput.1).bind fun pin pin' hpin => ?_
  subst hpin
  refine .ite Iff.rfl (.fail hline _ _) ?_
  refine (alike_checkInputCount _ _ _ hline).bind fun _ _ _ => ?_
  rw [h.length_eq]
  refine (alike_takeModifiers _ _ h).bind ?_
  rintro ⟨m, xs⟩ ⟨_, ys⟩ ⟨rfl, h⟩
  refine .ite Iff.rfl (.fail hline _ _) ?_
  refine (alike_takeSymbol _ h).bind fun _ _ h => ?_
  refine (alike_takeRows h).bind fun _ _ hrows => ?_
  exact .ok ⟨.table ⟨hline, rfl, rfl, rfl, rfl, hrows.1⟩, hrows.2⟩

theorem takeRegistered_of_notAhead (h : NotAhead .dot xs) :
    takeRegistered xs = .ok (false, xs) := by
  fun_cases takeRegistered xs with
  | case1 => exact absurd rfl h
  | case2 => exact absurd rfl h
  | case3 => rfl

theorem alike_takeRegistered (h : Alike c xs ys) :
    EndsAlike c (Taken c Eq) (takeRegistered xs) (takeRegistered ys) := by
  obtain ⟨hx, hy⟩ | ⟨l, m, xs, ys, rfl, rfl, hrest⟩ := h.notAhead_or .dot
  · rw [takeRegistered_of_notAhead hx, takeRegistered_of_notAhead hy]
    exact .ok ⟨rfl, h⟩
  · cases hrest with
    | nil => exact endsAlike_expected _ .nil
    | @cons x y xs ys hxy hrest =>
      obtain ⟨token, line⟩ := x
      obtain ⟨token', line'⟩ := y
      obtain ⟨htoken, hline⟩ := hxy
      have hlexemes : Alike c (⟨token, line⟩ :: xs) (⟨token', line'⟩ :: ys) :=
        .cons ⟨htoken, hline⟩ hrest
      cases htoken with
      | keyword k =>
        cases k with
        | dff => exact .ok ⟨rfl, hrest⟩
        | _ => exact endsAlike_expected _ hlexemes
      | identifier | number | arrow | symbol => exact endsAlike_expected _ hlexemes

/-- A function keeps its shape and has corresponding names. -/
theorem alike_functionStatement (hnames : NamesAlike c names names') {output output' : Word}
    (houtput : output.Like c c.Name output') (h : Alike c xs ys) :
    EndsAlike c (Taken c (Statement.Like c)) (functionStatement names output xs)
      (functionStatement names' output' ys) := by
  refine (alike_takeRegistered h).bind ?_
  rintro ⟨registered, xs⟩ ⟨_, ys⟩ ⟨rfl, h⟩
  refine (alike_takeSymbol _ h).bind fun _ _ h => ?_
  refine (alike_formula ?_ h).bind fun _ _ hformula => ?_
  · intro a b hab
    rw [pin?_eq hnames hab]
  refine (alike_takeSymbol _ hformula.2).bind fun _ _ h => ?_
  exact .ok ⟨.function ⟨houtput, rfl, hformula.1⟩, h⟩

/-- There is a statement in both texts or in neither, and it is of the same kind. -/
theorem alike_takeStatement? (hnames : NamesAlike c names names') (h : Alike c xs ys) :
    Option.Rel (EndsAlike c (Taken c (Statement.Like c))) (takeStatement? names xs)
      (takeStatement? names' ys) := by
  cases h with
  | nil => exact .none
  | @cons x y xs ys hxy hrest =>
    obtain ⟨token, line⟩ := x
    obtain ⟨token', line'⟩ := y
    obtain ⟨htoken, hline⟩ := hxy
    cases htoken with
    | identifier hab => exact .some (alike_functionStatement hnames ⟨hab, hline⟩ hrest)
    | keyword k =>
      cases k with
      | pin => exact .some (alike_pinStatement hline hrest)
      | table => exact .some (alike_tableStatement hnames hline hrest)
      | _ => exact .some (.fail hline _ _)
    | number | arrow | symbol => exact .some (.fail hline _ _)

end statements

/-! ## Tables -/

section tables

variable {rows rows' : List Word} {line line' : Nat}

theorem alike_bits {v w : Word} (h : v.Like c Eq w) : EndsAlike c Eq v.bits w.bits := by
  rw [Word.bits, Word.bits, h.text]
  exact .ite Iff.rfl (.ok rfl) (.fail h.line _ _)

theorem alike_countedEntries (hline : c.Line line line') (inputs : Nat)
    (h : List.Forall₂ (Word.Like c Eq) rows rows') :
    EndsAlike c Eq (countedEntries line inputs rows) (countedEntries line' inputs rows') := by
  refine (EndsAlike.mapM h fun _ _ => alike_bits).bind fun bits bits' hbits => ?_
  obtain rfl := List.forall₂_eq_eq_eq ▸ hbits
  exact .ite Iff.rfl (.fail hline _ _) (.ok rfl)

/-- The input bits and the output bit of a pair correspond. -/
abbrev PairAlike (c : Correspondence) (p q : Word × Word) : Prop :=
  p.1.Like c Eq q.1 ∧ p.2.Like c Eq q.2

theorem alike_pairRows {rows rows' : List Word} (h : List.Forall₂ (Word.Like c Eq) rows rows') :
    List.Forall₂ (PairAlike c) (pairRows rows) (pairRows rows') :=
  match h with
  | .nil => .nil
  | .cons _ .nil => .nil
  | .cons hinput (.cons houtput h) => .cons ⟨hinput, houtput⟩ (alike_pairRows h)

theorem alike_addListed (inputs : Nat) (known : List (Nat × Bool)) {p q : Word × Word}
    (h : PairAlike c p q) :
    EndsAlike c Eq (addListed inputs known p) (addListed inputs known q) := by
  refine (alike_bits h.1).bind fun bits _ hbits => ?_
  subst hbits
  refine (alike_bits h.2).bind fun value _ hvalue => ?_
  subst hvalue
  refine .ite Iff.rfl (.fail h.1.line _ _) ?_
  split
  · exact .ite Iff.rfl (.fail h.1.line _ _) (.ok rfl)
  · exact .fail h.2.line _ _

theorem alike_listedEntries (hline : c.Line line line') (inputs : Nat) (fill : Option Bool)
    (h : List.Forall₂ (Word.Like c Eq) rows rows') :
    EndsAlike c Eq (listedEntries line inputs fill rows)
      (listedEntries line' inputs fill rows') := by
  rw [listedEntries, listedEntries, h.length_eq]
  refine .ite Iff.rfl (.fail hline _ _) (.ite Iff.rfl (.fail hline _ _) ?_)
  refine (EndsAlike.foldlM (alike_pairRows h) (fun known _ _ _ hknown hrow => ?_) rfl).bind
    fun known _ hknown => ?_
  · exact hknown ▸ alike_addListed inputs known hrow
  · subst hknown
    exact .ite Iff.rfl (.fail hline _ _) (.ok rfl)

/-- A table statement has the same entries under other names. -/
theorem alike_entries {t u : TableStatement} (h : t.Like c u) :
    EndsAlike c Eq t.entries u.entries := by
  rw [TableStatement.entries, TableStatement.entries, h.form, h.inputPins]
  cases u.form with
  | counting => exact alike_countedEntries h.line _ h.rows
  | listed fill => exact alike_listedEntries h.line _ fill h.rows

end tables

/-! ## The tables of functions -/

section

variable {e e' : Expr} {names names' : List String}

theorem Expr.Like.forall₂_names (h : e.Like c e') : List.Forall₂ c.Name e.names e'.names := by
  induction h with
  | const => exact .nil
  | pin hab => exact .cons hab .nil
  | not _ ih => exact ih
  | and _ _ ih ih' | or _ _ ih ih' | xor _ _ ih ih' => exact List.rel_append ih ih'

/-- Functions that differ in their names have equal values under corresponding assignments. -/
theorem Expr.Like.value_eq (h : e.Like c e') {w w' : String → Bool}
    (hw : ∀ {a b}, c.Name a b → w a = w' b) : e.value w = e'.value w' := by
  induction h with
  | const => rfl
  | pin hab => exact hw hab
  | not _ ih => rw [value, value, ih]
  | and _ _ ih ih' | or _ _ ih ih' | xor _ _ ih ih' => rw [value, value, ih, ih']

theorem alike_filter {a b : String} (hab : c.Name a b) (h : List.Forall₂ c.Name names names') :
    List.Forall₂ c.Name (names.filter fun x => !x == a) (names'.filter fun y => !y == b) := by
  induction h with
  | nil => exact .nil
  | @cons x y names names' hxy _ ih =>
    rw [List.filter_cons, List.filter_cons, c.beq_eq hxy hab]
    cases y == b with
    | false => exact .cons hxy ih
    | true => exact ih

theorem alike_eraseDups (h : List.Forall₂ c.Name names names') :
    List.Forall₂ c.Name names.eraseDups names'.eraseDups := by
  -- after its first name the list is filtered, so that the induction is on its length
  induction hlength : names.length using Nat.strongRecOn generalizing names names' with
  | ind n ih =>
    cases h with
    | nil => exact .nil
    | @cons a b names names' hab h =>
      rw [List.eraseDups_cons, List.eraseDups_cons]
      refine .cons hab (ih _ ?_ (alike_filter hab h) rfl)
      have := List.length_filter_le (fun x => !x == a) names
      rw [List.length_cons] at hlength
      omega

theorem inputValue_eq (index : Nat) (h : List.Forall₂ c.Name names names') {a b : String}
    (hab : c.Name a b) : Expr.inputValue index names a = Expr.inputValue index names' b := by
  induction h with
  | nil => rfl
  | @cons x y names names' hxy h ih =>
    rw [Expr.inputValue, Expr.inputValue, c.beq_eq hxy hab, h.length_eq, ih]

/-- A function has the same table under other names. -/
theorem Expr.Like.tabulate_eq (h : e.Like c e') : e.tabulate = e'.tabulate := by
  have hinputs : List.Forall₂ c.Name e.inputs e'.inputs := alike_eraseDups h.forall₂_names
  simp only [Expr.tabulate, hinputs.length_eq]
  exact List.map_congr_left fun index _ => h.value_eq fun hab => inputValue_eq index hinputs hab

end

/-! ## Designs -/

/-- The states have the same tables and correspond in their names and lines. -/
structure State.Like (c : Correspondence) (s s' : State) : Prop where
  names : NamesAlike c s.names s'.names
  tables : s.tables = s'.tables
  configured : List.Forall₂ (fun p q => p.1 = q.1 ∧ c.Line p.2 q.2) s.configured s'.configured

structure Script.Like (c : Correspondence) (x y : Script) : Prop where
  lexemes : Alike c x.lexemes y.lexemes
  lastLine : c.Line x.lastLine y.lastLine

section states

variable {s s' : State}

theorem alike_declare {names names' : Names} {p q : Word × Word} (h : NamesAlike c names names')
    (hnumber : p.1.Like c Eq q.1) (hname : p.2.Like c c.Name q.2) :
    EndsAlike c (NamesAlike c) (State.declare names p) (State.declare names' q) := by
  have hany (pin : Int) : names.any (·.1 == pin) = names'.any (·.1 == pin) := by
    induction h with
    | nil => rfl
    | cons hpq _ ih => rw [List.any_cons, List.any_cons, hpq.1, ih]
  rw [State.declare, State.declare, pin?_eq h hname.text, hnumber.text, hany]
  refine .ite Iff.rfl (.fail hnumber.line _ _) (.ite Iff.rfl (.fail hname.line _ _) ?_)
  refine .ite Iff.rfl (.fail hnumber.line _ _) (.ok ?_)
  exact List.rel_append h (.cons ⟨rfl, hname.text⟩ .nil)

theorem alike_lookup {configured configured' : List (Int × Nat)} (pin : Int)
    (h : List.Forall₂ (fun p q => p.1 = q.1 ∧ c.Line p.2 q.2) configured configured') :
    Option.Rel c.Line (configured.lookup pin) (configured'.lookup pin) := by
  induction h with
  | nil => exact .none
  | @cons p q configured configured' hpq _ ih =>
    obtain ⟨pin', line⟩ := p
    obtain ⟨_, line'⟩ := q
    obtain ⟨rfl, hline⟩ := hpq
    rw [List.lookup_cons, List.lookup_cons]
    cases pin == pin' with
    | false => exact ih
    | true => exact .some hline

/-- The line of an earlier table for the same output corresponds, and so does the report of it. -/
theorem alike_configure (h : s.Like c s') {line line' : Nat} (hline : c.Line line line')
    (t : TruthTable) : EndsAlike c (State.Like c) (s.configure line t) (s'.configure line' t) := by
  have hlookup := alike_lookup t.outputPin h.configured
  rw [State.configure, State.configure]
  generalize s.configured.lookup t.outputPin = o at hlookup
  generalize s'.configured.lookup t.outputPin = o' at hlookup
  cases hlookup with
  | none =>
    refine .ok ⟨h.names, ?_, List.rel_append h.configured (.cons ⟨rfl, hline⟩ .nil)⟩
    exact congrArg (· ++ [t]) h.tables
  | some => exact .fail hline _ _

/-- One step of the run lemma: states that correspond are taken to states that correspond. -/
theorem alike_execute (h : s.Like c s') {statement statement' : Statement}
    (hstatement : statement.Like c statement') :
    EndsAlike c (State.Like c) (s.execute statement) (s'.execute statement') := by
  cases hstatement with
  | @pins line line' numbers numbers' words words' hline hnumbers hwords =>
    rw [State.execute, State.execute, hnumbers.length_eq, hwords.length_eq]
    refine .ite Iff.rfl (.fail hline _ _) ?_
    have hentries : List.Forall₂ (fun p q : Word × Word => p.1.Like c Eq q.1 ∧
        p.2.Like c c.Name q.2) (numbers.zip words) (numbers'.zip words') := by
      induction hnumbers generalizing words words' with
      | nil => exact .nil
      | cons hnumber _ ih =>
        cases hwords with
        | nil => exact .nil
        | cons hword hwords => exact .cons ⟨hnumber, hword⟩ (ih hwords)
    refine (EndsAlike.foldlM hentries (fun _ _ _ _ hnames hentry => ?_) h.names).bind
      fun _ _ hnames => .ok ⟨hnames, h.tables, h.configured⟩
    exact alike_declare hnames hentry.1 hentry.2
  | table ht =>
    refine (alike_entries ht).bind fun entries _ hentries => ?_
    subst hentries
    rw [ht.outputPin, ht.registered, ht.inputPins]
    exact alike_configure h ht.line _
  | @function f g hf =>
    refine (alike_pin h.names hf.output).bind fun pin _ hpin => ?_
    subst hpin
    have hinputs : List.Forall₂ c.Name f.formula.inputs g.formula.inputs :=
      alike_eraseDups hf.formula.forall₂_names
    have hpin (a b : String) (hab : c.Name a b) : EndsAlike c Eq
        (s.names.pin ⟨a, f.output.line⟩) (s'.names.pin ⟨b, g.output.line⟩) :=
      alike_pin h.names ⟨hab, hf.output.line⟩
    refine (EndsAlike.mapM hinputs hpin).bind fun pins pins' hpins => ?_
    obtain rfl := List.forall₂_eq_eq_eq ▸ hpins
    refine (alike_checkInputCount _ _ _ hf.output.line).bind fun _ _ _ => ?_
    rw [hf.registered, hf.formula.tabulate_eq]
    exact alike_configure h hf.output.line _

/-- The run lemma: statements are carried out alike one after the other, or refused alike. -/
theorem alike_readStatements (n : Nat) (h : s.Like c s') (hlexemes : Alike c xs ys) :
    EndsAlike c (State.Like c) (readStatements n s xs) (readStatements n s' ys) := by
  induction n generalizing s s' xs ys with
  | zero => exact .ok h
  | succ n ih =>
    have htaken := alike_takeStatement? h.names hlexemes
    rw [readStatements, readStatements]
    generalize takeStatement? s.names xs = o at htaken
    generalize takeStatement? s'.names ys = o' at htaken
    cases htaken with
    | none => exact .ok h
    | some htaken =>
      refine htaken.bind fun _ _ htaken => ?_
      refine (alike_execute h htaken.1).bind fun s₁ s₁' h₁ => ?_
      exact ih ⟨h₁.names, h₁.tables, h₁.configured⟩ htaken.2

end states

/-- Two scripts that are alike give designs with the same tables and corresponding names, or are
refused in corresponding lines. -/
theorem alike_ofScript {x y : Script} (h : x.Like c y) :
    (∃ d d', ofScript x = .ok d ∧ ofScript y = .ok d' ∧ d.tables = d'.tables ∧
      NamesAlike c d.names d'.names) ∨
    ∃ e e', ofScript x = .error e ∧ ofScript y = .error e' ∧ c.Line e.line e'.line := by
  have hinitial : State.Like c {} {} := ⟨.nil, rfl, .nil⟩
  have hread := alike_readStatements x.lexemes.length hinitial h.lexemes
  rw [ofScript, ofScript, ← h.lexemes.length_eq]
  generalize readStatements x.lexemes.length {} x.lexemes = step at hread
  generalize readStatements x.lexemes.length {} y.lexemes = step' at hread
  cases hread with
  | ok hs => exact .inl ⟨_, _, rfl, rfl, hs.tables, hs.names⟩
  | @error f g hline =>
    refine .inr ⟨_, _, rfl, rfl, ?_⟩
    rw [Failure.locate, Failure.locate]
    generalize f.line? = l at hline
    generalize g.line? = m at hline
    cases hline with
    | none => exact h.lastLine
    | some hline => exact hline

end FuseMap.Design
