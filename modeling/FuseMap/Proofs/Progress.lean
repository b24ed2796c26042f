import FuseMap.Proofs.Excess
import FuseMap.Proofs.Likeness
import FuseMap.Proofs.Recognition

/-! # Loops without bounds

The loops over statements, modifiers and operators and the recursion into parentheses are given
bounds; those over words and over rows recurse on the tokens themselves. Since every round takes a
token off, none of them ever comes to its bound: each obeys the equation that it would have without
one (`LoopsEnd`). Reading the statements one after the other comes to the end of the tokens or to a
statement that fails (`Finishes`).
-/

namespace FuseMap.Design

variable {l : Level} {r r' inner inner' : FormulaReader} {declared : String → Bool} {e : Expr}
  {lexemes rest : List Lexeme}

/-! ## Functions -/

/-- A formula takes at least one token. -/
theorem Takes.length_lt (h : Takes l r) (hread : r lexemes = .ok (e, rest)) :
    rest.length < lexemes.length := by
  obtain ⟨front, rfl, he⟩ := h.front hread
  have hpos := he.length_pos
  rw [length_tokens] at hpos
  rw [List.length_append]
  omega

/-- An operand in parentheses is read from fewer tokens. -/
theorem operand_congr (h : ∀ ys : List Lexeme, ys.length < lexemes.length → inner ys = inner' ys) :
    operand declared inner lexemes = operand declared inner' lexemes := by
  fun_induction operand declared inner lexemes with
  | case1 line lexemes ih =>
    rw [operand, ih fun ys hys => h ys (Nat.lt_succ_of_lt hys)]
  | case2 line lexemes =>
    rw [operand, h lexemes (Nat.lt_succ_self _)]
  | case3 name line lexemes hname => rw [operand, if_pos hname]
  | case4 name line lexemes hname => rw [operand, if_neg hname]
  | case5 | case6 => rfl
  | case7 lexemes _ _ _ _ _ => rw [operand] <;> assumption

theorem chainRest_congr (hr : Takes l r) {s : Symbol} {join : Expr → Expr → Expr} {n : Nat}
    {left : Expr} (h : ∀ ys : List Lexeme, ys.length < lexemes.length → r ys = r' ys) :
    chainRest s join r n left lexemes = chainRest s join r' n left lexemes := by
  induction n generalizing left lexemes with
  | zero => rfl
  | succ n ih =>
    obtain hstop | ⟨line, lexemes, rfl⟩ := notAhead_or s lexemes
    · rw [chainRest_of_notAhead hstop, chainRest_of_notAhead hstop]
    · rw [chainRest_cons, chainRest_cons, ← h lexemes (Nat.lt_succ_self _)]
      cases hread : r lexemes with
      | error f => rfl
      | ok result =>
        have hlt := hr.length_lt hread
        exact ih fun ys hys => h ys (by simp only [List.length_cons]; omega)

theorem chain_congr (hr : Takes l r) {s : Symbol} {join : Expr → Expr → Expr}
    (h : ∀ ys : List Lexeme, ys.length ≤ lexemes.length → r ys = r' ys) :
    chain s join r lexemes = chain s join r' lexemes := by
  rw [chain, chain, ← h lexemes (Nat.le_refl _)]
  cases hread : r lexemes with
  | error f => rfl
  | ok result =>
    have hlt := hr.length_lt hread
    exact chainRest_congr hr fun ys hys => h ys (by omega)

theorem reader_congr {atom atom' : FormulaReader} (hatom : Takes .operand atom)
    (h : ∀ ys : List Lexeme, ys.length ≤ lexemes.length → atom ys = atom' ys) :
    (Level.chain .or).reader atom lexemes = (Level.chain .or).reader atom' lexemes := by
  refine chain_congr (hatom.reader (.chain .xor)) fun ys hys => ?_
  refine chain_congr (hatom.reader (.chain .and)) fun zs hzs => ?_
  exact chain_congr hatom fun us hus => h us (by omega)

/-- Any bound on the depth of parentheses that is greater than the number of tokens does. -/
theorem formulaWithin_eq_of_lt {m n : Nat} (hm : lexemes.length < m) (hn : lexemes.length < n) :
    formulaWithin declared m lexemes = formulaWithin declared n lexemes := by
  induction m generalizing n lexemes with
  | zero => cases hm
  | succ m ih =>
    obtain _ | n := n
    · cases hn
    rw [formulaWithin_succ, formulaWithin_succ]
    refine reader_congr (takes_atomWithin m) fun ys hys => operand_congr fun zs hzs => ?_
    exact ih (by omega) (by omega)

theorem formula_eq_reader (declared : String → Bool) :
    formula declared = (Level.chain .or).reader (operand declared (formula declared)) := by
  funext lexemes
  rw [formula, formulaWithin_succ]
  refine reader_congr (takes_atomWithin _) fun ys hys => operand_congr fun zs hzs => ?_
  exact formulaWithin_eq_of_lt (by omega) (Nat.lt_succ_self _)

/-! ## Modifiers -/

theorem length_lt_of_takeModifier {m m' : Modifiers} (h : takeModifier m lexemes = .ok (m', rest)) :
    rest.length < lexemes.length := by
  obtain ⟨modifier, front, hlexemes, hfront, -⟩ := takeModifier_ok 0 h
  have hlength := congrArg List.length hlexemes
  have hlong : 2 ≤ front.length := by
    rw [← length_tokens, hfront]
    cases modifier <;> simp [Modifier.tokens]
  simp only [List.length_cons, List.length_append] at hlength
  omega

/-- The bound is never reached: each modifier takes a token. -/
theorem takeModifiers_eq_of_le {m : Modifiers} {k n : Nat} (hk : lexemes.length ≤ k)
    (hn : lexemes.length ≤ n) : takeModifiers k m lexemes = takeModifiers n m lexemes := by
  induction k generalizing n m lexemes with
  | zero =>
    obtain rfl := List.length_eq_zero_iff.1 (Nat.le_zero.1 hk)
    rw [takeModifiers_of_notAhead (by simp [NotAhead]),
      takeModifiers_of_notAhead (by simp [NotAhead])]
  | succ k ih =>
    obtain hstop | ⟨line, lexemes, rfl⟩ := notAhead_or .dot lexemes
    · rw [takeModifiers_of_notAhead hstop, takeModifiers_of_notAhead hstop]
    obtain _ | n := n
    · cases hn
    rw [takeModifiers, takeModifiers]
    cases hmodifier : takeModifier m lexemes with
    | error f => rfl
    | ok result =>
      have hlt := length_lt_of_takeModifier hmodifier
      simp only [List.length_cons] at hk hn
      exact ih (by omega) (by omega)

/-! ## Statements -/

/-- The bound is never reached: each statement takes a token. -/
theorem readStatements_eq_of_le {s : State} {m n : Nat} (hm : lexemes.length ≤ m)
    (hn : lexemes.length ≤ n) : readStatements m s lexemes = readStatements n s lexemes := by
  induction m generalizing n s lexemes with
  | zero =>
    obtain rfl := List.length_eq_zero_iff.1 (Nat.le_zero.1 hm)
    cases n <;> rfl
  | succ m ih =>
    obtain _ | n := n
    · obtain rfl := List.length_eq_zero_iff.1 (Nat.le_zero.1 hn)
      rfl
    rw [readStatements, readStatements]
    split
    · rfl
    · next result hresult =>
      cases hread : result with
      | error f => rfl
      | ok taken =>
        subst hread
        have hlt := length_lt_of_takeStatement? hresult
        cases hexecute : s.execute taken.1 with
        | error f => simp only [bind, Except.bind, hexecute]
        | ok s' =>
          simp only [bind, Except.bind, hexecute]
          exact ih (by omega) (by omega)

/-- Reads and carries out statements up to the end of the tokens. -/
def readAll (s : State) (lexemes : List Lexeme) : Except Failure State :=
  readStatements lexemes.length s lexemes

theorem ofScript_eq_error_iff {script : Script} {e : SyntaxError} : ofScript script = .error e ↔
    ∃ f, readAll {} script.lexemes = .error f ∧ f.locate script.lastLine = e := by
  rw [ofScript, readAll]
  cases readStatements script.lexemes.length {} script.lexemes with
  | error f => simp
  | ok s => simp

section
variable {s : State} {statement : Statement}

theorem readAll_of_refused {f : Failure} (h : takeStatement? s.names lexemes = some (.error f)) :
    readAll s lexemes = .error f := by
  rw [readAll, readStatements_eq_of_le (Nat.le_refl _) (Nat.le_succ _), readStatements, h]
  rfl

theorem readAll_of_taken (h : takeStatement? s.names lexemes = some (.ok (statement, rest))) :
    readAll s lexemes = (do
      let s ← s.execute statement
      readAll { s with statements := s.statements ++ [statement] } rest) := by
  have hlt : rest.length < lexemes.length := length_lt_of_takeStatement? h
  rw [readAll, readStatements_eq_of_le (Nat.le_refl _) (Nat.le_succ _), readStatements, h]
  cases hexecute : s.execute statement with
  | error f => simp only [bind, Except.bind, hexecute]
  | ok s' =>
    simp only [bind, Except.bind, hexecute]
    exact readStatements_eq_of_le (Nat.le_of_lt hlt) (Nat.le_refl _)

end

/-- A state that reading comes to says how reading goes on. -/
theorem readAll_of_reaches {start : List Lexeme} {s : State} (h : Reaches start s lexemes) :
    readAll {} start = readAll s lexemes := by
  induction h with
  | start => rfl
  | @next s s' lexemes rest statement hreached htaken hexecute ih =>
    rw [ih, readAll_of_taken htaken, hexecute]
    rfl

/-- Reading has come to an end: at the end of the tokens, at a statement that cannot be read, or at
one that cannot be carried out. -/
inductive Finishes (start : List Lexeme) : Except Failure State → Prop
  | read {s : State} : Reaches start s [] → Finishes start (.ok s)
  | refused {s : State} {lexemes : List Lexeme} {f : Failure} :
    Reaches start s lexemes → takeStatement? s.names lexemes = some (.error f) →
    Finishes start (.error f)
  | rejected {s : State} {lexemes rest : List Lexeme} {statement : Statement} {f : Failure} :
    Reaches start s lexemes → takeStatement? s.names lexemes = some (.ok (statement, rest)) →
    s.execute statement = .error f → Finishes start (.error f)

theorem finishes_of_reaches {start : List Lexeme} {s : State} (h : Reaches start s lexemes) :
    Finishes start (readAll s lexemes) := by
  -- By induction on the number of tokens that are left, since each statement takes some off.
  induction hn : lexemes.length using Nat.strongRecOn generalizing s lexemes with
  | _ n ih =>
    subst hn
    cases htake : takeStatement? s.names lexemes with
    | none =>
      obtain rfl := eq_nil_of_takeStatement? htake
      exact .read h
    | some result =>
      obtain f | ⟨statement, rest⟩ := result
      · rw [readAll_of_refused htake]
        exact .refused h htake
      · rw [readAll_of_taken htake]
        cases hexecute : s.execute statement with
        | error f => exact .rejected h htake hexecute
        | ok s' => exact ih _ (length_lt_of_takeStatement? htake) (h.next htake hexecute) rfl

/-! ## The loops of reading -/

/-- The loops of reading end: each round takes something off the front, and goes on in the same way
with what is left. -/
structure LoopsEnd : Prop where
  pieces : ∀ {c rest p}, piece c rest = .ok p → 0 < p.length ∧ p.length ≤ (c :: rest).length
  statements : ∀ {s lexemes statement rest},
    takeStatement? s.names lexemes = some (.ok (statement, rest)) →
    rest.length < lexemes.length ∧ readAll s lexemes = (do
      let s ← s.execute statement
      readAll { s with statements := s.statements ++ [statement] } rest)
  modifiers : ∀ {m m' line lexemes rest}, takeModifier m lexemes = .ok (m', rest) →
    rest.length < lexemes.length ∧
    takeModifiers (lexemes.length + 1) m (⟨.symbol .dot, line⟩ :: lexemes) =
      takeModifiers rest.length m' rest
  operators : ∀ declared (op : Operator) {left right line lexemes rest},
    let r := op.operands.reader (operand declared (formula declared))
    r lexemes = .ok (right, rest) →
    rest.length < lexemes.length ∧
    chainRest op.symbol op.join r (lexemes.length + 1) left (⟨.symbol op.symbol, line⟩ :: lexemes) =
      chainRest op.symbol op.join r rest.length (op.join left right) rest
  parentheses : ∀ declared,
    formula declared = (Level.chain .or).reader (operand declared (formula declared))

theorem takes_atom : Takes .operand (operand declared (formula declared)) :=
  .operand ⟨formula_sound⟩

theorem loopsEnd : LoopsEnd where
  pieces h := by
    obtain ⟨front, cs, rfl, hlength, -⟩ := starts_of_piece h
    simp only [hlength, List.length_cons, List.length_append]
    omega
  statements h := ⟨length_lt_of_takeStatement? h, readAll_of_taken h⟩
  modifiers h := by
    have hlt := length_lt_of_takeModifier h
    refine ⟨hlt, ?_⟩
    rw [takeModifiers, h]
    exact takeModifiers_eq_of_le (Nat.le_of_lt hlt) (Nat.le_refl _)
  operators declared op := by
    intro left right line lexemes rest r h
    have htakes : Takes op.operands r := takes_atom.reader _
    have hlt := htakes.length_lt h
    refine ⟨hlt, ?_⟩
    rw [chainRest_cons, h]
    exact chainRest_eq_of_le htakes (Nat.le_of_lt hlt) (Nat.le_refl _)
  parentheses := formula_eq_reader

end FuseMap.Design
