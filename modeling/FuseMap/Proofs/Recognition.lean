import FuseMap.Proofs.Failure
import FuseMap.Proofs.Grammar
import Mathlib.Data.List.Induction

/-! # The reader of functions recognizes their grammar

The reader takes the tokens that spell a function and stops where no operator follows
(`formula_eq_ok_iff`). There is at most one such place, and if there is none the reader fails on a
token that cannot stand where it stands. The inputs of the function are the names in the tokens, in
the order in which they are first used (`Formula.firstUses_inputs`).
-/

namespace FuseMap.Design

variable {op : Operator} {l : Level} {r inner : FormulaReader} {declared : String → Bool}
  {e : Expr} {lexemes rest : List Lexeme}

/-! ## Where the reader stops -/

/-- A reader of a level stops where no operator of the level follows. -/
structure Stops (l : Level) (r : FormulaReader) : Prop where
  ends : ∀ {lexemes e rest}, r lexemes = .ok (e, rest) → Ends l rest

theorem ends_nil (l : Level) : Ends l [] := fun _ _ h => by cases h

/-- A formula ends where neither its operator nor a tighter one is ahead. -/
theorem Ends.chain (hop : NotAhead op.symbol rest) (h : Ends op.operands rest) :
    Ends (.chain op) rest := by
  intro op' hop'
  rw [operators_chain] at hop'
  obtain rfl | hmem := List.mem_cons.1 hop'
  · exact hop
  · exact h op' hmem

theorem Stops.chainRest (hs : Stops op.operands r) (hr : Takes op.operands r) {n : Nat}
    {left : Expr} (hn : lexemes.length ≤ n) (hends : Ends op.operands lexemes)
    (h : chainRest op.symbol op.join r n left lexemes = .ok (e, rest)) :
    Ends (.chain op) rest := by
  induction n generalizing left lexemes with
  | zero =>
    obtain rfl := List.length_eq_zero_iff.1 (Nat.le_zero.1 hn)
    cases h
    exact ends_nil _
  | succ n ih =>
    obtain hstop | ⟨line, lexemes, rfl⟩ := notAhead_or op.symbol lexemes
    · rw [chainRest_of_notAhead hstop] at h
      cases h
      exact hends.chain hstop
    · rw [chainRest_cons, bind_eq_ok_iff] at h
      obtain ⟨⟨right, rest'⟩, hright, h⟩ := h
      obtain ⟨front, rfl, -⟩ := hr.front hright
      simp only [List.length_cons, List.length_append] at hn
      exact ih (by omega) (hs.ends hright) h

theorem Stops.chain (op : Operator) (hs : Stops op.operands r) (hr : Takes op.operands r) :
    Stops (.chain op) (chain op.symbol op.join r) := by
  refine ⟨fun {lexemes e rest} h => ?_⟩
  rw [Design.chain, bind_eq_ok_iff] at h
  obtain ⟨⟨left, rest'⟩, hleft, h⟩ := h
  exact hs.chainRest hr (Nat.le_refl _) (hs.ends hleft) h

/-- The reader of the loosest level stops only where no operator is ahead. -/
theorem stops_reader {atom : FormulaReader} (h : Takes .operand atom) :
    Stops (.chain .or) ((Level.chain .or).reader atom) := by
  have hoperand : Stops .operand atom := ⟨fun _ _ hop => by cases hop⟩
  have hand : Stops (.chain .and) ((Level.chain .and).reader atom) := .chain .and hoperand h
  have hxor : Stops (.chain .xor) ((Level.chain .xor).reader atom) :=
    .chain .xor hand (h.reader _)
  exact .chain .or hxor (h.reader _)

/-- Reading is sound, complete and takes as much as it can. -/
theorem formula_eq_ok_iff (h : Declares declared (tokens lexemes)) :
    formula declared lexemes = .ok (e, rest) ↔ ∃ front, lexemes = front ++ rest ∧
      Formula (.chain .or) (tokens front) e ∧ Ends (.chain .or) rest := by
  constructor
  · intro hread
    obtain ⟨front, hlexemes, he⟩ := formula_sound hread
    rw [formula, formulaWithin_succ] at hread
    exact ⟨front, hlexemes, he, (stops_reader (takes_atomWithin _)).ends hread⟩
  · rintro ⟨front, rfl, he, hends⟩
    have hlength : (tokens front).length ≤ (front ++ rest).length := by simp
    rw [formula, formulaWithin_succ,
      he.reader_eq (h.subset (by simp)) rfl hlength hends.tighter, Level.resume_of_ends hends]

/-! ## Failures -/

/-- The failure is that of finding something else than what was needed, at some place of the
tokens. -/
def ExpectsIn (lexemes : List Lexeme) (f : Failure) : Prop :=
  ∃ what found, f = .expected what found ∧ found <:+ lexemes

theorem ExpectsIn.of_suffix {lexemes' : List Lexeme} {f : Failure} (h : ExpectsIn lexemes f)
    (hsuffix : lexemes <:+ lexemes') : ExpectsIn lexemes' f := by
  obtain ⟨what, found, rfl, hfound⟩ := h
  exact ⟨what, found, rfl, hfound.trans hsuffix⟩

/-- A reader does not fail on tokens of declared names for another reason. -/
def Expects (declared : String → Bool) (r : FormulaReader) : Prop :=
  ∀ lexemes, Declares declared (tokens lexemes) → FailsOnly (ExpectsIn lexemes) (r lexemes)

theorem failsOnly_expected {α : Type} (what : String) (lexemes : List Lexeme) :
    FailsOnly (ExpectsIn lexemes) (.error (.expected what lexemes) : Except Failure α) :=
  .error ⟨what, lexemes, rfl, List.suffix_refl _⟩

theorem failsOnly_takeSymbol (s : Symbol) (lexemes : List Lexeme) :
    FailsOnly (ExpectsIn lexemes) (takeSymbol s lexemes) := by
  fun_cases takeSymbol s lexemes with
  | case1 => exact .ok _
  | case2 => exact failsOnly_expected _ _
  | case3 => exact failsOnly_expected _ _

theorem Declares.of_suffix {lexemes' : List Lexeme} (h : Declares declared (tokens lexemes'))
    (hsuffix : lexemes <:+ lexemes') : Declares declared (tokens lexemes) :=
  h.subset (List.map_subset _ hsuffix.subset)

/-- What comes after a part of the tokens that was read fails in the tokens too. -/
theorem failsOnly_of_suffix {α : Type} {lexemes' : List Lexeme} {step : Except Failure α}
    (h : FailsOnly (ExpectsIn lexemes) step) (hsuffix : lexemes <:+ lexemes') :
    FailsOnly (ExpectsIn lexemes') step :=
  h.mono fun _ hf => hf.of_suffix hsuffix

theorem Expects.chainRest (hr : Takes l r) (h : Expects declared r) (s : Symbol)
    (join : Expr → Expr → Expr) (n : Nat) (left : Expr)
    (hnames : Declares declared (tokens lexemes)) :
    FailsOnly (ExpectsIn lexemes) (chainRest s join r n left lexemes) := by
  induction n generalizing left lexemes with
  | zero => exact .ok _
  | succ n ih =>
    obtain hstop | ⟨line, lexemes, rfl⟩ := notAhead_or s lexemes
    · rw [chainRest_of_notAhead hstop]
      exact .ok _
    · have hcons := List.suffix_cons (⟨.symbol s, line⟩ : Lexeme) lexemes
      rw [chainRest_cons]
      refine (failsOnly_of_suffix (h lexemes (hnames.of_suffix hcons)) hcons).bind
        fun right hright => ?_
      obtain ⟨front, rfl, -⟩ := hr.front hright
      have hsuffix := (List.suffix_append front right.2).trans hcons
      exact failsOnly_of_suffix (ih _ (hnames.of_suffix hsuffix)) hsuffix

theorem Expects.chain (hr : Takes l r) (h : Expects declared r) (s : Symbol)
    (join : Expr → Expr → Expr) : Expects declared (chain s join r) := by
  intro lexemes hnames
  refine (h lexemes hnames).bind fun left hleft => ?_
  obtain ⟨front, rfl, -⟩ := hr.front hleft
  have hsuffix := List.suffix_append front left.2
  exact failsOnly_of_suffix (h.chainRest hr s join _ _ (hnames.of_suffix hsuffix)) hsuffix

theorem Expects.operand (hr : Takes (.chain .or) inner) (h : Expects declared inner) :
    Expects declared (operand declared inner) := by
  intro lexemes hnames
  fun_induction Design.operand declared inner lexemes with
  | case1 line lexemes ih =>
    have hsuffix := List.suffix_cons (⟨.symbol .not, line⟩ : Lexeme) lexemes
    exact (failsOnly_of_suffix (ih (hnames.of_suffix hsuffix)) hsuffix).bind fun _ _ => .ok _
  | case2 line lexemes =>
    have hsuffix := List.suffix_cons (⟨.symbol .leftParen, line⟩ : Lexeme) lexemes
    refine (failsOnly_of_suffix (h lexemes (hnames.of_suffix hsuffix)) hsuffix).bind
      fun inside hinside => ?_
    obtain ⟨front, rfl, -⟩ := hr.front hinside
    have hclose := (List.suffix_append front inside.2).trans hsuffix
    exact (failsOnly_of_suffix (failsOnly_takeSymbol _ _) hclose).bind fun _ _ => .ok _
  | case3 | case5 | case6 => exact .ok _
  | case4 name line lexemes hname => exact absurd (hnames name List.mem_cons_self) hname
  | case7 => exact failsOnly_expected _ _

/-- If all names are declared, a function is refused only where a token is not what was expected. -/
theorem expects_formulaWithin (depth : Nat) :
    Expects declared (formulaWithin declared depth) := by
  induction depth with
  | zero => exact fun lexemes _ => failsOnly_expected _ lexemes
  | succ depth ih =>
    have hatom := ih.operand (takes_formulaWithin depth)
    have htakes : Takes .operand (atomWithin declared depth) := takes_atomWithin depth
    have hand := hatom.chain htakes .and .and
    have hxor := hand.chain (htakes.reader (.chain .and)) .xor .xor
    exact hxor.chain (htakes.reader (.chain .xor)) .or .or

/-! ## Inputs -/

/-- The names in the order in which they are first used, each of them once. -/
structure FirstUses (uses names : List String) : Prop where
  nodup : names.Nodup
  mem_iff : ∀ name, name ∈ names ↔ name ∈ uses
  ordered : names.Pairwise fun a b => uses.idxOf a < uses.idxOf b

theorem firstUses_eraseDups (uses : List String) : FirstUses uses uses.eraseDups := by
  suffices hordered : uses.eraseDups.Pairwise fun a b => uses.idxOf a < uses.idxOf b by
    refine ⟨hordered.imp fun hlt => ?_, fun name => List.mem_eraseDups, hordered⟩
    rintro rfl
    exact Nat.lt_irrefl _ hlt
  -- from the end: one more use adds a name only if it is new, and then behind all others
  induction uses using List.reverseRecOn with
  | nil => exact List.Pairwise.nil
  | append_singleton uses name ih =>
    have hkept : uses.eraseDups.Pairwise fun a b =>
        (uses ++ [name]).idxOf a < (uses ++ [name]).idxOf b := by
      refine ih.imp_of_mem fun ha hb hlt => ?_
      rwa [List.idxOf_append_of_mem (List.mem_eraseDups.1 ha),
        List.idxOf_append_of_mem (List.mem_eraseDups.1 hb)]
    rw [List.eraseDups_append]
    by_cases hname : name ∈ uses
    · have hnone : [name].removeAll uses = [] := by simp [List.removeAll, hname]
      rw [hnone, List.eraseDups_nil, List.append_nil]
      exact hkept
    · have hsome : [name].removeAll uses = [name] := by simp [List.removeAll, hname]
      rw [hsome, List.eraseDups_cons, List.filter_nil, List.eraseDups_nil]
      refine List.pairwise_append.2 ⟨hkept, List.pairwise_singleton _ _, fun a ha b hb => ?_⟩
      obtain rfl := List.mem_singleton.1 hb
      have ha := List.mem_eraseDups.1 ha
      rw [List.idxOf_append_of_mem ha, List.idxOf_append_of_notMem hname]
      have hlt := List.idxOf_lt_length_iff.2 ha
      omega

theorem names_join (op : Operator) (a b : Expr) : (op.join a b).names = a.names ++ b.names := by
  cases op <;> rfl

theorem Formula.names_eq {ts : List Token} (h : Formula l ts e) :
    e.names = ts.filterMap Token.identifier? := by
  induction h with
  | join _ _ iha ihb =>
    rw [names_join, iha, ihb, List.filterMap_append]
    rfl
  | single _ ih => exact ih
  | not _ ih => exact ih
  | @paren ts e _ ih =>
    rw [List.cons_append, List.filterMap_cons, List.filterMap_append, ih]
    exact (List.append_nil _).symm
  | pin => rfl
  | zero => rfl
  | one => rfl

theorem Formula.firstUses_inputs {ts : List Token} (h : Formula l ts e) :
    FirstUses (ts.filterMap Token.identifier?) e.inputs := by
  rw [Expr.inputs, h.names_eq]
  exact firstUses_eraseDups _

/-! ## Functions in a list of tokens -/

theorem Formula.length_pos {ts : List Token} (h : Formula l ts e) : 0 < ts.length := by
  induction h with
  | join _ _ iha _ =>
    rw [List.length_append]
    omega
  | single _ ih => exact ih
  | not | paren | pin | zero | one => simp

/-- The tokens from place `i` up to place `j` spell a function, and no operator follows. -/
structure SpelledAt (lexemes : List Lexeme) (i j : Nat) (e : Expr) : Prop where
  ordered : i ≤ j
  inside : j ≤ lexemes.length
  formula : Formula (.chain .or) (tokens (lexemes.extract i j)) e
  ends : ∀ op : Operator, (tokens lexemes)[j]? ≠ some (.symbol op.symbol)

theorem ends_drop_iff {j : Nat} : Ends (.chain .or) (lexemes.drop j) ↔
    ∀ op : Operator, (tokens lexemes)[j]? ≠ some (.symbol op.symbol) := by
  have hhead : (tokens (lexemes.drop j)).head? = (tokens lexemes)[j]? := by
    rw [tokens, List.map_drop, List.head?_drop]
    rfl
  constructor
  · intro h op
    have hop := h op (by cases op <;> decide)
    rwa [NotAhead, hhead] at hop
  · intro h op _
    rw [NotAhead, hhead]
    exact h op

/-- Indices and suffixes of the tokens say the same. -/
theorem spelledAt_iff {i : Nat} : (∃ j, SpelledAt lexemes i j e ∧ rest = lexemes.drop j) ↔
    ∃ front, lexemes.drop i = front ++ rest ∧ Formula (.chain .or) (tokens front) e ∧
      Ends (.chain .or) rest := by
  constructor
  · rintro ⟨j, ⟨hij, -, he, hends⟩, rfl⟩
    refine ⟨_, ?_, he, ends_drop_iff.2 hends⟩
    have hdrop : lexemes.drop j = (lexemes.drop i).drop (j - i) := by
      rw [List.drop_drop, Nat.add_sub_cancel' hij]
    rw [hdrop, List.take_append_drop]
  · rintro ⟨front, hfront, he, hends⟩
    have hpos : 0 < front.length := by simpa using he.length_pos
    have hlength : front.length + rest.length = lexemes.length - i := by
      rw [← List.length_append, ← hfront, List.length_drop]
    have hdrop : lexemes.drop (i + front.length) = rest := by
      rw [← List.drop_drop, hfront, List.drop_left]
    have htake : lexemes.extract i (i + front.length) = front := by
      rw [List.extract_eq_take_drop, Nat.add_sub_cancel_left, hfront, List.take_left]
    refine ⟨i + front.length, ⟨by omega, by omega, ?_, ?_⟩, hdrop.symm⟩
    · rwa [htake]
    · rw [← ends_drop_iff, hdrop]
      exact hends

/-- From every place of the tokens the reader takes exactly what the grammar allows: if the tokens
up to some place spell a function that no operator follows, it gives this function, whose inputs are
the names in these tokens, and goes on at that place; otherwise it fails on one of the tokens. -/
theorem formula_recognizes (h : Declares declared (tokens lexemes)) (i : Nat) :
    (∀ e rest, formula declared (lexemes.drop i) = .ok (e, rest) ↔
      ∃ j, SpelledAt lexemes i j e ∧ rest = lexemes.drop j) ∧
    (∀ e j, SpelledAt lexemes i j e →
      FirstUses ((tokens (lexemes.extract i j)).filterMap Token.identifier?) e.inputs) ∧
    ((¬ ∃ e j, SpelledAt lexemes i j e) →
      ∃ what found, formula declared (lexemes.drop i) = .error (.expected what found) ∧
        found <:+ lexemes.drop i) := by
  have hiff : ∀ e rest, formula declared (lexemes.drop i) = .ok (e, rest) ↔
      ∃ j, SpelledAt lexemes i j e ∧ rest = lexemes.drop j := by
    intro e rest
    rw [spelledAt_iff, formula_eq_ok_iff (h.of_suffix (List.drop_suffix i lexemes))]
  refine ⟨hiff, fun e j hspelled => hspelled.formula.firstUses_inputs, fun hnone => ?_⟩
  cases hread : formula declared (lexemes.drop i) with
  | ok result =>
    obtain ⟨j, hspelled, -⟩ := (hiff result.1 result.2).1 hread
    exact absurd ⟨result.1, j, hspelled⟩ hnone
  | error f =>
    have hnames := h.of_suffix (List.drop_suffix i lexemes)
    obtain ⟨what, found, rfl, hfound⟩ := expects_formulaWithin _ _ hnames f hread
    exact ⟨what, found, rfl, hfound⟩

/-- The tokens of `y = a | !b ? (a & 1);`. -/
def sampleLexemes : List Lexeme :=
  [.identifier "y", .symbol .equals, .identifier "a", .symbol .or, .symbol .not, .identifier "b",
    .symbol .xor, .symbol .leftParen, .identifier "a", .symbol .and, .number "1",
    .symbol .rightParen, .symbol .semicolon].map (⟨·, 1⟩)

/-- The function that these tokens spell. -/
def sampleFormula : Expr :=
  .or (.pin "a") (.xor (.not (.pin "b")) (.and (.pin "a") (.const true)))

/-- The tokens after the equals sign spell a function up to the semicolon. -/
theorem formula_recognizes_sample :
    Declares (["y", "a", "b"].contains ·) (tokens sampleLexemes) ∧
    formula (["y", "a", "b"].contains ·) (sampleLexemes.drop 2) =
      .ok (sampleFormula, sampleLexemes.drop 12) ∧
    SpelledAt sampleLexemes 2 12 sampleFormula ∧ FirstUses ["a", "b", "a"] ["a", "b"] := by
  have hnames : Declares (["y", "a", "b"].contains ·) (tokens sampleLexemes) := by
    simp [Declares, tokens, sampleLexemes]
  have hread : formula (["y", "a", "b"].contains ·) (sampleLexemes.drop 2) =
      .ok (sampleFormula, sampleLexemes.drop 12) := rfl
  obtain ⟨hiff, huses, -⟩ := formula_recognizes hnames 2
  obtain ⟨j, hspelled, hrest⟩ := (hiff _ _).1 hread
  obtain rfl : j = 12 := by
    have hlength : 13 - 12 = 13 - j := by simpa [sampleLexemes] using congrArg List.length hrest
    have hinside : j ≤ 13 := hspelled.inside
    omega
  exact ⟨hnames, hread, hspelled, huses _ _ hspelled⟩

end FuseMap.Design
