import FuseMap.Design.Formula
import FuseMap.Proofs.Success

/-! # The grammar of boolean functions

`Formula` says which tokens spell a function: `|` binds loosest, then `?`, then `&`, then `!`, and
operators group to the left. The reader only takes what is spelled (`formula_sound`), and tokens
spell one function at most (`Formula.unique`).
-/

namespace FuseMap.Design

/-- The operators between two operands, from the loosest to the tightest. -/
inductive Operator
  | or
  | xor
  | and
deriving DecidableEq, Repr

/-- What a formula can be: operands with an operator between them, or one operand. -/
inductive Level
  | chain (op : Operator)
  | operand
deriving DecidableEq, Repr

namespace Operator

def symbol : Operator → Symbol
  | .or => .or
  | .xor => .xor
  | .and => .and

def join : Operator → Expr → Expr → Expr
  | .or => .or
  | .xor => .xor
  | .and => .and

/-- What stands on both sides of an operator. -/
def operands : Operator → Level
  | .or => .chain .xor
  | .xor => .chain .and
  | .and => .operand

end Operator

/-- The tokens of a level spell a function. -/
inductive Formula : Level → List Token → Expr → Prop
  | join {op : Operator} {ts us : List Token} {a b : Expr} :
    Formula (.chain op) ts a → Formula op.operands us b →
    Formula (.chain op) (ts ++ .symbol op.symbol :: us) (op.join a b)
  | single {op : Operator} {ts : List Token} {e : Expr} :
    Formula op.operands ts e → Formula (.chain op) ts e
  | not {ts : List Token} {e : Expr} :
    Formula .operand ts e → Formula .operand (.symbol .not :: ts) (.not e)
  | paren {ts : List Token} {e : Expr} :
    Formula (.chain .or) ts e →
    Formula .operand (.symbol .leftParen :: ts ++ [.symbol .rightParen]) e
  | pin {name : String} : Formula .operand [.identifier name] (.pin name)
  | zero : Formula .operand [.number "0"] (.const false)
  | one : Formula .operand [.number "1"] (.const true)

/-- A formula ends before the first semicolon. -/
theorem Formula.semicolon_not_mem {l : Level} {ts : List Token} {e : Expr} (h : Formula l ts e) :
    .symbol .semicolon ∉ ts := by
  induction h with
  | @join op _ _ _ _ _ _ iha ihb => cases op <;> simp [iha, ihb, Operator.symbol]
  | single _ ih => exact ih
  | not _ ih => simpa using ih
  | paren _ ih => simpa using ih
  | pin => simp
  | zero => simp
  | one => simp

def tokens (lexemes : List Lexeme) : List Token := lexemes.map (·.token)

@[simp] theorem tokens_nil : tokens [] = [] := rfl

@[simp] theorem tokens_cons (x : Lexeme) (xs : List Lexeme) :
    tokens (x :: xs) = x.token :: tokens xs := rfl

@[simp] theorem tokens_append (xs ys : List Lexeme) : tokens (xs ++ ys) = tokens xs ++ tokens ys :=
  List.map_append

@[simp] theorem length_tokens (xs : List Lexeme) : (tokens xs).length = xs.length :=
  List.length_map _

theorem tokens_eq_append_iff {xs : List Lexeme} {ts us : List Token} :
    tokens xs = ts ++ us ↔ ∃ ys zs, xs = ys ++ zs ∧ tokens ys = ts ∧ tokens zs = us :=
  List.map_eq_append_iff

theorem exists_of_tokens_eq_cons {xs : List Lexeme} {t : Token} {ts : List Token}
    (h : tokens xs = t :: ts) : ∃ line ys, xs = ⟨t, line⟩ :: ys ∧ tokens ys = ts := by
  obtain ⟨⟨t, line⟩, ys, rfl, rfl, rfl⟩ := List.map_eq_cons_iff.1 h
  exact ⟨line, ys, rfl, rfl⟩

theorem exists_of_tokens_eq_singleton {xs : List Lexeme} {t : Token} (h : tokens xs = [t]) :
    ∃ line, xs = [⟨t, line⟩] := by
  obtain ⟨line, ys, rfl, hys⟩ := exists_of_tokens_eq_cons h
  exact ⟨line, by rw [List.map_eq_nil_iff.1 hys]⟩

/-- A reader of functions. -/
abbrev FormulaReader := List Lexeme → Except Failure (Expr × List Lexeme)

/-! ## The reader takes what is spelled -/

/-- A reader takes formulas of a level. -/
structure Takes (l : Level) (r : FormulaReader) : Prop where
  front : ∀ {lexemes e rest}, r lexemes = .ok (e, rest) →
    ∃ front, lexemes = front ++ rest ∧ Formula l (tokens front) e

variable {op : Operator} {r inner : FormulaReader} {declared : String → Bool}

/-- A symbol is taken if it is at the front, and nothing else is taken. -/
theorem takeSymbol_eq_ok_iff {s : Symbol} {lexemes rest : List Lexeme} :
    takeSymbol s lexemes = .ok rest ↔ ∃ line, lexemes = ⟨.symbol s, line⟩ :: rest := by
  fun_cases takeSymbol s lexemes with
  | case1 line rest' => simp [eq_comm]
  | case2 t line rest' hne => simp [hne]
  | case3 rest' hne =>
    refine ⟨fun h => (by cases h), fun ⟨line, h⟩ => ?_⟩
    exact absurd h (hne s line rest)

/-- The token at the front is not the given symbol. -/
def NotAhead (s : Symbol) (lexemes : List Lexeme) : Prop :=
  (tokens lexemes).head? ≠ some (.symbol s)

theorem notAhead_or (s : Symbol) (lexemes : List Lexeme) :
    NotAhead s lexemes ∨ ∃ line rest, lexemes = ⟨.symbol s, line⟩ :: rest := by
  by_cases h : NotAhead s lexemes
  · exact .inl h
  · obtain _ | ⟨⟨t, line⟩, rest⟩ := lexemes
    · exact absurd (by simp [NotAhead]) h
    · simp only [NotAhead, tokens_cons, List.head?_cons, ne_eq, Option.some.injEq,
        Classical.not_not] at h
      exact .inr ⟨line, rest, by rw [h]⟩

section chainRest

variable {s : Symbol} {join : Expr → Expr → Expr} {n : Nat} {left e : Expr}
  {lexemes rest : List Lexeme}

theorem chainRest_of_notAhead (h : NotAhead s lexemes) :
    chainRest s join r n left lexemes = .ok (left, lexemes) := by
  fun_cases chainRest s join r n left lexemes with
  | case1 n line rest => exact absurd rfl h
  | case2 => rfl
  | case3 => rfl

/-- A chain goes on with its operator; the function so far becomes the left operand. -/
theorem chainRest_cons {line : Nat} :
    chainRest s join r (n + 1) left (⟨.symbol s, line⟩ :: lexemes) =
      (do let (right, rest) ← r lexemes; chainRest s join r n (join left right) rest) := by
  rw [chainRest, if_pos rfl]

end chainRest

/-- A chain is spelled by the tokens of its left operand and those that are taken after them. -/
theorem Takes.chainRest (hr : Takes op.operands r) {n : Nat} {left e : Expr} {ts : List Token}
    {lexemes rest : List Lexeme} (hleft : Formula (.chain op) ts left)
    (h : chainRest op.symbol op.join r n left lexemes = .ok (e, rest)) :
    ∃ front, lexemes = front ++ rest ∧ Formula (.chain op) (ts ++ tokens front) e := by
  induction n generalizing left ts lexemes with
  | zero =>
    simp only [Design.chainRest, Except.ok.injEq, Prod.mk.injEq] at h
    obtain ⟨rfl, rfl⟩ := h
    exact ⟨[], rfl, by simpa using hleft⟩
  | succ n ih =>
    obtain hstop | ⟨line, lexemes, rfl⟩ := notAhead_or op.symbol lexemes
    · rw [chainRest_of_notAhead hstop] at h
      cases h
      exact ⟨[], rfl, by simpa using hleft⟩
    · rw [chainRest_cons, bind_eq_ok_iff] at h
      obtain ⟨⟨right, rest'⟩, hright, h⟩ := h
      obtain ⟨front, rfl, hfront⟩ := hr.front hright
      obtain ⟨front', rfl, he⟩ := ih (hleft.join hfront) h
      exact ⟨⟨.symbol op.symbol, line⟩ :: front ++ front', by simp, by simpa using he⟩

theorem Takes.chain (op : Operator) (hr : Takes op.operands r) :
    Takes (.chain op) (chain op.symbol op.join r) := by
  refine ⟨fun {lexemes e rest} h => ?_⟩
  rw [Design.chain, bind_eq_ok_iff] at h
  obtain ⟨⟨left, rest'⟩, hleft, h⟩ := h
  obtain ⟨front, rfl, hfront⟩ := hr.front hleft
  obtain ⟨front', rfl, he⟩ := hr.chainRest (.single hfront) h
  exact ⟨front ++ front', by simp, by simpa using he⟩

/-- If what stands in parentheses is read as it should be, operands are. -/
theorem Takes.operand (hinner : Takes (.chain .or) inner) :
    Takes .operand (operand declared inner) := by
  refine ⟨fun {lexemes e rest} h => ?_⟩
  fun_induction Design.operand declared inner lexemes generalizing e with
  | case1 line lexemes ih =>
    simp only [bind_eq_ok_iff, pure_eq_ok_iff] at h
    obtain ⟨⟨e', rest'⟩, hoperand, h⟩ := h
    cases h
    obtain ⟨front, rfl, he⟩ := ih hoperand
    exact ⟨⟨.symbol .not, line⟩ :: front, rfl, he.not⟩
  | case2 line lexemes =>
    simp only [bind_eq_ok_iff, pure_eq_ok_iff] at h
    obtain ⟨⟨e', rest'⟩, hparen, rest'', hclose, h⟩ := h
    cases h
    obtain ⟨front, rfl, he⟩ := hinner.front hparen
    obtain ⟨line', rfl⟩ := takeSymbol_eq_ok_iff.1 hclose
    exact ⟨⟨.symbol .leftParen, line⟩ :: front ++ [⟨.symbol .rightParen, line'⟩], by simp,
      by simpa using he.paren⟩
  | case3 name line lexemes hname =>
    cases h
    exact ⟨[⟨.identifier name, line⟩], rfl, .pin⟩
  | case4 => cases h
  | case5 line lexemes =>
    cases h
    exact ⟨[⟨.number "0", line⟩], rfl, .zero⟩
  | case6 line lexemes =>
    cases h
    exact ⟨[⟨.number "1", line⟩], rfl, .one⟩
  | case7 => cases h

/-- The reader of a level, given the reader of operands. -/
def Level.reader (atom : FormulaReader) : Level → FormulaReader
  | .operand => atom
  | .chain .and => Design.chain .and .and atom
  | .chain .xor => Design.chain .xor .xor (Design.chain .and .and atom)
  | .chain .or => Design.chain .or .or (Design.chain .xor .xor (Design.chain .and .and atom))

theorem reader_chain (atom : FormulaReader) (op : Operator) :
    (Level.chain op).reader atom = chain op.symbol op.join (op.operands.reader atom) := by
  cases op <;> rfl

/-- If operands are read as they should be, formulas of every level are. -/
theorem Takes.reader {atom : FormulaReader} (h : Takes .operand atom) :
    ∀ l : Level, Takes l (l.reader atom)
  | .operand => h
  | .chain .and => .chain .and h
  | .chain .xor => .chain .xor (.chain .and h)
  | .chain .or => .chain .or (.chain .xor (.chain .and h))

/-- The reader of operands with parentheses up to a depth. -/
def atomWithin (declared : String → Bool) (depth : Nat) : FormulaReader :=
  operand declared (formulaWithin declared depth)

theorem formulaWithin_succ (declared : String → Bool) (depth : Nat) :
    formulaWithin declared (depth + 1) = (Level.chain .or).reader (atomWithin declared depth) :=
  rfl

theorem takes_formulaWithin (depth : Nat) : Takes (.chain .or) (formulaWithin declared depth) := by
  induction depth with
  | zero => exact ⟨fun h => by cases h⟩
  | succ depth ih => exact formulaWithin_succ declared depth ▸ ih.operand.reader _

theorem takes_atomWithin (depth : Nat) : Takes .operand (atomWithin declared depth) :=
  (takes_formulaWithin depth).operand

/-- What is read as a function is spelled by the tokens that were taken. -/
theorem formula_sound {lexemes rest : List Lexeme} {e : Expr}
    (h : formula declared lexemes = .ok (e, rest)) :
    ∃ front, lexemes = front ++ rest ∧ Formula (.chain .or) (tokens front) e :=
  (takes_formulaWithin _).front h

/-! ## Tokens spell one function

A reader finds every formula of declared names (`Formula.reader_eq`), and it finds one only.
-/

namespace Level

/-- The operators that can follow a formula of a level and belong to it. -/
def operators : Level → List Operator
  | .operand => []
  | .chain .and => [.and]
  | .chain .xor => [.xor, .and]
  | .chain .or => [.or, .xor, .and]

/-- The level of the parts of a formula. -/
def tighter : Level → Level
  | .operand => .operand
  | .chain op => op.operands

/-- How a reader of a level goes on after a part of a formula. -/
def resume (atom : FormulaReader) (e : Expr) (rest : List Lexeme) :
    Level → Except Failure (Expr × List Lexeme)
  | .operand => .ok (e, rest)
  | .chain op => chainRest op.symbol op.join (op.operands.reader atom) rest.length e rest

end Level

theorem operators_chain (op : Operator) :
    (Level.chain op).operators = op :: op.operands.operators := by
  cases op <;> rfl

theorem not_mem_operators (op : Operator) : op ∉ op.operands.operators := by
  cases op <;> decide

theorem symbol_injective {op op' : Operator} (h : op.symbol = op'.symbol) : op = op' := by
  cases op <;> cases op' <;> cases h <;> rfl

/-- No operator follows that would belong to a formula of the level. -/
def Ends (l : Level) (rest : List Lexeme) : Prop := ∀ op ∈ l.operators, NotAhead op.symbol rest

variable {l : Level} {atom : FormulaReader} {e : Expr} {rest : List Lexeme}

/-- What ends a formula ends its parts. -/
theorem Ends.tighter (h : Ends l rest) : Ends l.tighter rest := by
  cases l with
  | operand => exact h
  | chain op =>
    intro op' hop'
    exact h op' (operators_chain op ▸ List.mem_cons_of_mem _ hop')

/-- Where a formula ends, resuming it adds nothing. -/
theorem Level.resume_of_ends (h : Ends l rest) : l.resume atom e rest = .ok (e, rest) := by
  cases l with
  | operand => rfl
  | chain op => exact chainRest_of_notAhead (h op (operators_chain op ▸ List.mem_cons_self))

/-- An operator ends its left operand. -/
theorem ends_operands (op : Operator) (line : Nat) (rest : List Lexeme) :
    Ends op.operands (⟨.symbol op.symbol, line⟩ :: rest) := by
  intro op' hop' h
  simp only [tokens_cons, List.head?_cons, Option.some.injEq, Token.symbol.injEq] at h
  exact not_mem_operators op (symbol_injective h ▸ hop')

/-- A symbol that is no operator ends a formula of any level. -/
theorem ends_of_not_operator {t : Symbol} (h : ∀ op : Operator, op.symbol ≠ t) (l : Level)
    (line : Nat) (rest : List Lexeme) : Ends l (⟨.symbol t, line⟩ :: rest) := by
  intro op _ heq
  simp only [tokens_cons, List.head?_cons, Option.some.injEq, Token.symbol.injEq] at heq
  exact h op heq.symm

/-- Any bound that is at least the number of tokens does. -/
theorem chainRest_eq_of_le (hr : Takes l r) {s : Symbol} {join : Expr → Expr → Expr} {m n : Nat}
    {left : Expr} {lexemes : List Lexeme} (hm : lexemes.length ≤ m) (hn : lexemes.length ≤ n) :
    chainRest s join r m left lexemes = chainRest s join r n left lexemes := by
  induction m generalizing n left lexemes with
  | zero =>
    obtain rfl := List.length_eq_zero_iff.1 (Nat.le_zero.1 hm)
    rw [chainRest_of_notAhead (by simp [NotAhead]), chainRest_of_notAhead (by simp [NotAhead])]
  | succ m ih =>
    obtain hstop | ⟨line, lexemes, rfl⟩ := notAhead_or s lexemes
    · rw [chainRest_of_notAhead hstop, chainRest_of_notAhead hstop]
    obtain _ | n := n
    · cases hn
    rw [chainRest_cons, chainRest_cons]
    cases hright : r lexemes with
    | error => rfl
    | ok result =>
      obtain ⟨right, rest⟩ := result
      obtain ⟨front, rfl, -⟩ := hr.front hright
      simp only [List.length_cons, List.length_append] at hm hn
      exact ih (by omega) (by omega)

theorem operand_not (line : Nat) {lexemes : List Lexeme}
    (h : operand declared inner lexemes = .ok (e, rest)) :
    operand declared inner (⟨.symbol .not, line⟩ :: lexemes) = .ok (e.not, rest) := by
  rw [operand, h]
  rfl

theorem operand_paren (declared : String → Bool) (line : Nat) {line' : Nat} {lexemes : List Lexeme}
    (h : inner lexemes = .ok (e, ⟨.symbol .rightParen, line'⟩ :: rest)) :
    operand declared inner (⟨.symbol .leftParen, line⟩ :: lexemes) = .ok (e, rest) := by
  rw [operand, h]
  rfl

/-- The names in the tokens are declared. -/
def Declares (declared : String → Bool) (ts : List Token) : Prop :=
  ∀ name, .identifier name ∈ ts → declared name = true

theorem Declares.subset {ts us : List Token} (h : Declares declared ts) (hus : us ⊆ ts) :
    Declares declared us :=
  fun name hname => h name (hus hname)

theorem operand_pin (inner : FormulaReader) {name : String} (h : declared name = true)
    (line : Nat) : operand declared inner (⟨.identifier name, line⟩ :: rest) =
      .ok (.pin name, rest) := by
  rw [operand, if_pos h]

/-- Completeness, by induction on the formula: its reader takes just its tokens and goes on with
what follows. -/
theorem Formula.reader_eq {ts : List Token} (h : Formula l ts e) (hnames : Declares declared ts)
    {depth : Nat} {front rest : List Lexeme} (hfront : tokens front = ts)
    (hdepth : ts.length ≤ depth) (hends : Ends l.tighter rest) :
    l.reader (atomWithin declared depth) (front ++ rest) =
      l.resume (atomWithin declared depth) e rest := by
  induction h generalizing depth front rest with
  | @join op ts us a b _ _ iha ihb =>
    have hops : Ends op.operands rest := hends
    obtain ⟨left, right, rfl, rfl, hright⟩ := tokens_eq_append_iff.1 hfront
    obtain ⟨line, right, rfl, rfl⟩ := exists_of_tokens_eq_cons hright
    simp only [List.length_append, List.length_cons] at hdepth
    have hleft : (tokens left).length ≤ depth := by omega
    have hright : (tokens right).length ≤ depth := by omega
    -- the reader of the left part stops before the operator and then goes on with it
    have ha := iha (hnames.subset (by simp)) rfl hleft (ends_operands op line (right ++ rest))
    have hb := ihb (hnames.subset (by simp)) rfl hright hops.tighter
    rw [Level.resume_of_ends hops] at hb
    rw [List.append_assoc, List.cons_append, ha, Level.resume, List.length_cons, chainRest_cons, hb]
    exact chainRest_eq_of_le ((takes_atomWithin depth).reader _) (by simp) (Nat.le_refl _)
  | @single op ts e _ ih =>
    have hops : Ends op.operands rest := hends
    rw [reader_chain, chain, ih hnames hfront hdepth hops.tighter, Level.resume_of_ends hops]
    rfl
  | @not ts e _ ih =>
    obtain ⟨line, front, rfl, rfl⟩ := exists_of_tokens_eq_cons hfront
    exact operand_not line (ih (hnames.subset (by simp)) rfl (Nat.le_of_succ_le hdepth) hends)
  | @paren ts e _ ih =>
    obtain ⟨line, tail, rfl, htail⟩ := exists_of_tokens_eq_cons hfront
    obtain ⟨front, close, rfl, rfl, hclose⟩ := tokens_eq_append_iff.1 htail
    obtain ⟨line', rfl⟩ := exists_of_tokens_eq_singleton hclose
    obtain _ | depth := depth
    · cases hdepth
    have hinner : (tokens front).length ≤ depth := by
      simp only [List.length_append, List.length_cons] at hdepth
      omega
    have hends (l : Level) : Ends l (⟨.symbol .rightParen, line'⟩ :: rest) :=
      ends_of_not_operator (by intro op; cases op <;> decide) l line' rest
    have he := ih (hnames.subset (by simp)) rfl hinner (hends _)
    rw [Level.resume_of_ends (hends _), ← formulaWithin_succ] at he
    rw [List.cons_append, List.append_assoc]
    exact operand_paren declared line he
  | @pin name =>
    obtain ⟨line, rfl⟩ := exists_of_tokens_eq_singleton hfront
    exact operand_pin (formulaWithin declared depth) (hnames name List.mem_cons_self) line
  | zero =>
    obtain ⟨line, rfl⟩ := exists_of_tokens_eq_singleton hfront
    rfl
  | one =>
    obtain ⟨line, rfl⟩ := exists_of_tokens_eq_singleton hfront
    rfl

/-- A reader is a function, so that tokens spell at most one function. -/
theorem Formula.unique {ts : List Token} {e' : Expr} (h : Formula l ts e) (h' : Formula l ts e') :
    e = e' := by
  have htokens : tokens (ts.map (⟨·, 0⟩)) = ts := by simp [tokens, Function.comp_def]
  have hends (l : Level) : Ends l [] := fun _ _ hs => by cases hs
  have hnames : Declares (fun _ => true) ts := fun _ _ => rfl
  have heq := (h.reader_eq hnames htokens (Nat.le_refl _) (hends _)).symm.trans
    (h'.reader_eq hnames htokens (Nat.le_refl _) (hends _))
  rw [Level.resume_of_ends (hends _), Level.resume_of_ends (hends _)] at heq
  cases heq
  rfl

end FuseMap.Design
