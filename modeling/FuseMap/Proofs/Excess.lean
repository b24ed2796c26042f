import FuseMap.Proofs.WellFormed

/-! # Tables and numbers that are too large

Most of what can be wrong with a design text is reported to its writer, and the steps of reading
fail in such a way if they fail (`Spares`). There are two exceptions, both found when a statement is
carried out: a listed table can have more entries than a list can hold, and a pin number more digits
than can be read. `Exceeds` says what such a statement looks like: carrying it out fails without a
report (`Exceeds.execute`), and no other statement does so (`exceeds_of_execute`).
-/

namespace FuseMap.Design

variable {α : Type}

/-- If a step of reading a design fails, the fault is reported, and it names no pin. -/
def Spares (step : Except Failure α) : Prop :=
  FailsOnly (fun f => f.fault.isReported = true ∧ f.fault.numbers = []) step

/-- Nothing needs to be said about the faults of such a step that are not reported. -/
theorem Spares.failsOnly {step : Except Failure α} (h : Spares step) {P : Failure → Prop} :
    FailsOnly (fun f => f.fault.numbers = [] ∧ (f.fault.isReported = false → P f)) step :=
  h.mono fun _ ⟨htrue, hnumbers⟩ => ⟨hnumbers, fun hfalse => nomatch htrue.symm.trans hfalse⟩

/-! ## Tokens -/

/-- A token that was not expected is reported, and the message names no pin. -/
theorem spares_expected (what : String) (found : List Lexeme) :
    Spares (.error (.expected what found) : Except Failure α) :=
  .error ⟨rfl, rfl⟩

theorem spares_takeSymbol (s : Symbol) (lexemes : List Lexeme) : Spares (takeSymbol s lexemes) := by
  unfold takeSymbol
  split
  · exact .ite (fun _ => .ok _) fun _ => spares_expected _ _
  · exact spares_expected _ _

theorem spares_takeArrow (lexemes : List Lexeme) : Spares (takeArrow lexemes) := by
  unfold takeArrow
  split
  · exact .ok _
  · exact spares_expected _ _

section
variable (pick : Token → Option String) (what : String)

theorem spares_takeWord (lexemes : List Lexeme) : Spares (takeWord pick what lexemes) := by
  unfold takeWord
  split
  · exact spares_expected _ _
  · split
    · exact .ok _
    · exact spares_expected _ _

theorem spares_takeMoreWords (lexemes : List Lexeme) :
    Spares (takeMoreWords pick what lexemes) := by
  fun_induction takeMoreWords pick what lexemes with
  | case1 _ _ _ _ _ _ ih => exact ih.bind fun _ _ => .ok _
  | case2 => exact spares_expected _ _
  | case3 => exact spares_expected _ _
  | case4 => exact .ok _

theorem spares_takeWords (lexemes : List Lexeme) : Spares (takeWords pick what lexemes) := by
  refine (spares_takeWord pick what lexemes).bind fun word _ => ?_
  exact (spares_takeMoreWords pick what word.2).bind fun _ _ => .ok _

end

/-! ## Functions -/

section
variable {step inner : List Lexeme → Except Failure (Expr × List Lexeme)}

theorem spares_chainRest (s : Symbol) (join : Expr → Expr → Expr)
    (h : ∀ lexemes, Spares (step lexemes)) (n : Nat) (left : Expr) (lexemes : List Lexeme) :
    Spares (chainRest s join step n left lexemes) := by
  fun_induction chainRest s join step n left lexemes with
  | case1 n left line rest ih => exact (h rest).bind fun right _ => ih right.1 right.2
  | case2 => exact .ok _
  | case3 => exact .ok _

theorem spares_chain (s : Symbol) (join : Expr → Expr → Expr)
    (h : ∀ lexemes, Spares (step lexemes)) (lexemes : List Lexeme) :
    Spares (chain s join step lexemes) :=
  (h lexemes).bind fun _ _ => spares_chainRest s join h _ _ _

theorem spares_operand (declared : String → Bool) (h : ∀ lexemes, Spares (inner lexemes))
    (lexemes : List Lexeme) : Spares (operand declared inner lexemes) := by
  fun_induction operand declared inner lexemes with
  | case1 _ _ ih => exact ih.bind fun _ _ => .ok _
  | case2 => exact (h _).bind fun _ _ => (spares_takeSymbol _ _).bind fun _ _ => .ok _
  | case3 | case5 | case6 => exact .ok _
  | case4 => exact .error ⟨rfl, rfl⟩
  | case7 => exact spares_expected _ _

/-- A function that cannot be read is reported, at any depth of parentheses. -/
theorem spares_formula (declared : String → Bool) (lexemes : List Lexeme) :
    Spares (formula declared lexemes) := by
  suffices h : ∀ depth lexemes, Spares (formulaWithin declared depth lexemes) from h _ _
  intro depth
  induction depth with
  | zero => exact fun lexemes => spares_expected _ lexemes
  | succ depth ih =>
    exact spares_chain _ _ (spares_chain _ _ (spares_chain _ _ (spares_operand declared ih)))

end

/-! ## Statements -/

theorem spares_pinStatement (line : Nat) (lexemes : List Lexeme) :
    Spares (pinStatement line lexemes) := by
  refine (spares_takeWords _ _ _).bind fun _ _ => (spares_takeSymbol _ _).bind fun _ _ => ?_
  refine (spares_takeWords _ _ _).bind fun _ _ => (spares_takeSymbol _ _).bind fun _ _ => ?_
  exact .ok _

theorem spares_takeFillValue (lexemes : List Lexeme) : Spares (takeFillValue lexemes) := by
  refine (spares_takeSymbol _ _).bind fun _ _ => (spares_takeWord _ _ _).bind fun _ _ => ?_
  refine .ite (fun _ => .error ⟨rfl, rfl⟩) fun _ => ?_
  exact (spares_takeSymbol _ _).bind fun _ _ => .ok _

theorem spares_takeModifier (m : Modifiers) (lexemes : List Lexeme) :
    Spares (takeModifier m lexemes) := by
  unfold takeModifier
  dsimp only
  split
  · exact .ite (fun _ => .error ⟨rfl, rfl⟩) fun _ => .ok _
  · exact .ite (fun _ => .error ⟨rfl, rfl⟩) fun _ => .ok _
  · exact .ite (fun _ => .error ⟨rfl, rfl⟩) fun _ => (spares_takeFillValue _).bind fun _ _ => .ok _
  · exact .error ⟨rfl, rfl⟩

theorem spares_takeModifiers (n : Nat) (m : Modifiers) (lexemes : List Lexeme) :
    Spares (takeModifiers n m lexemes) := by
  fun_induction takeModifiers n m lexemes with
  | case1 n m line rest ih => exact (spares_takeModifier m rest).bind fun m' _ => ih m'.1 m'.2
  | case2 => exact .ok _

theorem spares_takeRows (lexemes : List Lexeme) : Spares (takeRows lexemes) := by
  fun_induction takeRows lexemes with
  | case1 => exact .ok _
  | case2 _ _ _ ih => exact ih.bind fun _ _ => .ok _
  | case3 => exact spares_expected _ _

theorem spares_pin (names : Names) (w : Word) : Spares (names.pin w) := by
  unfold Names.pin
  split
  · exact .ok _
  · exact .error ⟨rfl, rfl⟩

theorem spares_checkInputCount (output : String) (inputs line : Nat) :
    Spares (checkInputCount output inputs line) :=
  .ite (fun _ => .error ⟨rfl, rfl⟩) fun _ => .ok _

/-- Too many inputs are found when the statement is read, and are reported. -/
theorem spares_tableStatement (names : Names) (line : Nat) (lexemes : List Lexeme) :
    Spares (tableStatement names line lexemes) := by
  refine (spares_takeSymbol _ _).bind fun _ _ => (spares_takeWords _ _ _).bind fun _ _ => ?_
  refine (spares_takeArrow _).bind fun _ _ => (spares_takeWord _ _ _).bind fun _ _ => ?_
  refine (spares_takeSymbol _ _).bind fun _ _ => ?_
  refine FailsOnly.bind (.mapM fun _ _ => spares_pin _ _) fun _ _ => ?_
  refine (spares_pin _ _).bind fun _ _ => .ite (fun _ => .error ⟨rfl, rfl⟩) fun _ => ?_
  refine (spares_checkInputCount _ _ _).bind fun _ _ => ?_
  refine (spares_takeModifiers _ _ _).bind fun _ _ => .ite (fun _ => .error ⟨rfl, rfl⟩) fun _ => ?_
  refine (spares_takeSymbol _ _).bind fun _ _ => (spares_takeRows _).bind fun _ _ => ?_
  exact .ok _

theorem spares_takeRegistered (lexemes : List Lexeme) : Spares (takeRegistered lexemes) := by
  unfold takeRegistered
  split
  · exact .ok _
  · exact spares_expected _ _
  · exact .ok _

theorem spares_functionStatement (names : Names) (output : Word) (lexemes : List Lexeme) :
    Spares (functionStatement names output lexemes) := by
  refine (spares_takeRegistered _).bind fun _ _ => (spares_takeSymbol _ _).bind fun _ _ => ?_
  refine (spares_formula _ _).bind fun _ _ => (spares_takeSymbol _ _).bind fun _ _ => ?_
  exact .ok _

/-- Whatever the tokens are, a statement that cannot be read is reported. -/
theorem spares_takeStatement {names : Names} {lexemes : List Lexeme}
    {step : Except Failure (Statement × List Lexeme)}
    (h : takeStatement? names lexemes = some step) : Spares step := by
  unfold takeStatement? at h
  split at h
  · cases h
  · cases h
    exact spares_pinStatement _ _
  · cases h
    exact spares_tableStatement _ _ _
  · cases h
    exact spares_functionStatement _ _ _
  · cases h
    exact .error ⟨rfl, rfl⟩

/-! ## Tables -/

theorem spares_bits (w : Word) : Spares w.bits :=
  .ite (fun _ => .ok _) fun _ => .error ⟨rfl, rfl⟩

theorem spares_countedEntries (line inputs : Nat) (rows : List Word) :
    Spares (countedEntries line inputs rows) := by
  refine FailsOnly.bind (.mapM fun w _ => spares_bits w) fun _ _ => ?_
  exact .ite (fun _ => .error ⟨rfl, rfl⟩) fun _ => .ok _

theorem spares_addListed (inputs : Nat) (known : List (Nat × Bool)) (row : Word × Word) :
    Spares (addListed inputs known row) := by
  refine (spares_bits _).bind fun _ _ => (spares_bits _).bind fun _ _ => ?_
  refine .ite (fun _ => .error ⟨rfl, rfl⟩) fun _ => ?_
  split
  · exact .ite (fun _ => .error ⟨rfl, rfl⟩) fun _ => .ok _
  · exact .error ⟨rfl, rfl⟩

/-- The entries of 62 inputs can be counted by a size, those of 63 cannot. -/
theorem isSize_combinations_iff {n : Nat} : isSize (TruthTable.combinations n) = true ↔ n < 63 := by
  have hbound : sizeBound = TruthTable.combinations 63 := by decide
  have hlt : TruthTable.combinations n < TruthTable.combinations 63 ↔ n < 63 :=
    Nat.pow_lt_pow_iff_right (by decide)
  rw [isSize, Bool.and_eq_true, decide_eq_true_iff, decide_eq_true_iff, ← hlt, hbound]
  omega

/-- A table statement lists its rows, in pairs, and has more entries than a list can hold. -/
def TableStatement.IsTooLarge (t : TableStatement) : Prop :=
  ∃ fill, t.form = .listed fill ∧ 63 ≤ t.inputPins.length ∧ t.rows.length % 2 = 0

/-- Only a table that is too large keeps its entries from being built without a report. -/
theorem failsOnly_entries (t : TableStatement) :
    FailsOnly (fun f => f.fault.numbers = [] ∧ (f.fault.isReported = false →
      t.IsTooLarge ∧ f = ⟨.tableTooLarge, some t.line⟩)) t.entries := by
  unfold TableStatement.entries
  split
  · exact (spares_countedEntries _ _ _).failsOnly
  · next fill hfill =>
    refine .ite (fun _ => .error ⟨rfl, nofun⟩) fun heven => .ite (fun hsize => ?_) fun _ => ?_
    · have hinputs := Nat.not_lt.1 (mt isSize_combinations_iff.2 hsize)
      exact .error ⟨rfl, fun _ => ⟨⟨fill, hfill, hinputs, not_not.1 heven⟩, rfl⟩⟩
    · refine FailsOnly.bind (.foldlM fun known row _ => (spares_addListed _ _ _).failsOnly) ?_
      exact fun _ _ => .ite (fun _ => .error ⟨rfl, nofun⟩) fun _ => .ok _

/-- A table that is too large ends the run before any of its rows is looked at. -/
theorem TableStatement.IsTooLarge.entries {t : TableStatement} (h : t.IsTooLarge) :
    t.entries = .error ⟨.tableTooLarge, some t.line⟩ := by
  obtain ⟨fill, hform, hinputs, heven⟩ := h
  have hsize := mt isSize_combinations_iff.1 (Nat.not_lt.2 hinputs)
  rw [TableStatement.entries, hform]
  simp [listedEntries, heven, hsize]

/-! ## Pins -/

/-- The number of a pin has more digits than can be read. -/
def Word.IsTooLong (number : Word) : Prop := Text.maxDigits < number.text.toList.length

/-- Why a pin is not declared. -/
theorem declare_error {names : Names} {entry : Word × Word} {f : Failure}
    (h : State.declare names entry = .error f) :
    (entry.1.IsTooLong ∧ f = ⟨.numberTooLong, some entry.1.line⟩) ∨
      (¬ entry.1.IsTooLong ∧ (f = ⟨.duplicateName entry.2.text, some entry.2.line⟩ ∨
        f = ⟨.duplicateNumber (Text.digitsValue entry.1.text.toList), some entry.1.line⟩)) := by
  simp only [State.declare, ite_error_eq_error_iff] at h
  obtain h | ⟨hshort, ⟨-, rfl⟩ | ⟨-, ⟨-, rfl⟩ | ⟨-, h⟩⟩⟩ := h
  · exact .inl h
  · exact .inr ⟨hshort, .inl rfl⟩
  · exact .inr ⟨hshort, .inr rfl⟩
  · cases h

/-- A number that is too long ends the run before the name is looked at. -/
theorem Word.IsTooLong.declare {names : Names} {entry : Word × Word} (h : entry.1.IsTooLong) :
    State.declare names entry = .error ⟨.numberTooLong, some entry.1.line⟩ :=
  if_pos h

/-! ## Carrying out a statement -/

/-- The only fault of a table that is added is that its output has one already. -/
theorem configure_error {s : State} {line : Nat} {t : TruthTable} {f : Failure}
    (h : s.configure line t = .error f) :
    ∃ earlier, f = ⟨.alreadyConfigured t.outputPin earlier, some line⟩ := by
  unfold State.configure at h
  split at h
  · next earlier _ =>
    cases h
    exact ⟨earlier, rfl⟩
  · cases h

/-- A statement is too large to be carried out: its table is, or the number of one of its pins,
when the pins before it have been declared. -/
inductive Exceeds (s : State) : Statement → Failure → Prop
  | table {t : TableStatement} :
    t.IsTooLarge → Exceeds s (.table t) ⟨.tableTooLarge, some t.line⟩
  | number {line : Nat} {numbers names : List Word} {front back : List (Word × Word)}
      {entry : Word × Word} {declared : Names} :
    numbers.length = names.length → numbers.zip names = front ++ entry :: back →
    front.foldlM State.declare s.names = .ok declared → entry.1.IsTooLong →
    Exceeds s (.pins line numbers names) ⟨.numberTooLong, some entry.1.line⟩

/-- How carrying out a statement can fail. -/
inductive Rejects (s : State) : Statement → Failure → Prop
  | plain {statement : Statement} {f : Failure} : f.fault.isReported = true →
    f.fault.numbers = [] → Rejects s statement f
  | exceeds {statement : Statement} {f : Failure} : Exceeds s statement f → Rejects s statement f
  | duplicate {line : Nat} {numbers names : List Word} {entry : Word × Word} :
    entry ∈ numbers.zip names → ¬ entry.1.IsTooLong → Rejects s (.pins line numbers names)
      ⟨.duplicateNumber (Text.digitsValue entry.1.text.toList), some entry.1.line⟩
  | table {t : TableStatement} {earlier : Nat} :
    Rejects s (.table t) ⟨.alreadyConfigured t.outputPin earlier, some t.line⟩
  | function {g : FunctionStatement} {pin : Int} {earlier : Nat} : s.names.pin g.output = .ok pin →
    Rejects s (.function g) ⟨.alreadyConfigured pin earlier, some g.output.line⟩

theorem Spares.rejects {step : Except Failure α} {f : Failure} {s : State} {statement : Statement}
    (h : Spares step) (hf : step = .error f) : Rejects s statement f :=
  .plain (h f hf).1 (h f hf).2

/-- Every failure of a statement is of one of the kinds of `Rejects`. -/
theorem rejects_of_execute {s : State} {statement : Statement} {f : Failure}
    (h : s.execute statement = .error f) : Rejects s statement f := by
  cases statement with
  | pins line numbers names =>
    rcases ite_error_eq_error_iff.1 h with ⟨-, rfl⟩ | ⟨hlength, h⟩
    · exact .plain rfl rfl
    rcases bind_eq_error_iff.1 h with h | ⟨_, _, h⟩
    · obtain ⟨front, entry, back, declared, hzip, hfront, hentry⟩ := foldlM_eq_error_iff.1 h
      obtain ⟨hlong, rfl⟩ | ⟨hshort, rfl | rfl⟩ := declare_error hentry
      · exact .exceeds (.number (not_not.1 hlength) hzip hfront hlong)
      · exact .plain rfl rfl
      · exact .duplicate (hzip ▸ List.mem_append_right _ List.mem_cons_self) hshort
    · cases h
  | table t =>
    rcases bind_eq_error_iff.1 h with h | ⟨entries, -, h⟩
    · obtain ⟨hnumbers, hunreported⟩ := failsOnly_entries t f h
      cases hreported : f.fault.isReported with
      | true => exact .plain hreported hnumbers
      | false =>
        obtain ⟨hlarge, rfl⟩ := hunreported hreported
        exact .exceeds (.table hlarge)
    · obtain ⟨earlier, rfl⟩ := configure_error h
      exact .table
  | function g =>
    rcases bind_eq_error_iff.1 h with h | ⟨pin, hpin, h⟩
    · exact (spares_pin _ _).rejects h
    rcases bind_eq_error_iff.1 h with h | ⟨inputPins, -, h⟩
    · have hspares : Spares (g.formula.inputs.mapM fun name =>
          s.names.pin ⟨name, g.output.line⟩) := .mapM fun _ _ => spares_pin _ _
      exact hspares.rejects h
    rcases bind_eq_error_iff.1 h with h | ⟨_, -, h⟩
    · exact (spares_checkInputCount _ _ _).rejects h
    · obtain ⟨earlier, rfl⟩ := configure_error h
      exact .function hpin

/-- A failure that is not reported comes from a number that is too long or a table that is too
large. -/
theorem exceeds_of_execute {s : State} {statement : Statement} {f : Failure}
    (h : s.execute statement = .error f) (hf : f.fault.isReported = false) :
    Exceeds s statement f := by
  cases rejects_of_execute h with
  | plain hreported => exact nomatch hreported.symm.trans hf
  | exceeds hexceeds => exact hexceeds
  | duplicate | table | function => cases hf

theorem Exceeds.execute {s : State} {statement : Statement} {f : Failure}
    (h : Exceeds s statement f) : s.execute statement = .error f := by
  cases h with
  | table hlarge =>
    rw [State.execute, hlarge.entries]
    rfl
  | @number line numbers names front back entry declared hlength hzip hfront hlong =>
    have hfold : (numbers.zip names).foldlM State.declare s.names =
        .error ⟨.numberTooLong, some entry.1.line⟩ :=
      foldlM_eq_error_iff.2 ⟨front, entry, back, declared, hzip, hfront, hlong.declare⟩
    refine ite_error_eq_error_iff.2 (.inr ⟨not_not.2 hlength, ?_⟩)
    rw [hfold]
    rfl

/-! ## Reading -/

/-- The states that reading a design comes to, each with the tokens that are left. -/
inductive Reaches (start : List Lexeme) : State → List Lexeme → Prop
  | start : Reaches start {} start
  | next {s s' : State} {lexemes rest : List Lexeme} {statement : Statement} :
    Reaches start s lexemes → takeStatement? s.names lexemes = some (.ok (statement, rest)) →
    s.execute statement = .ok s' →
    Reaches start { s' with statements := s'.statements ++ [statement] } rest

/-- What the lexer refuses is reported with the characters it found. -/
theorem failsOnly_piece (c : Char) (rest : List Char) :
    FailsOnly (fun f => f.isReported = true ∧ f.numbers = []) (piece c rest) := by
  unfold piece
  split
  · exact .ok _
  · split
    · exact .ok _
    · exact .error ⟨rfl, rfl⟩
  · unfold plainPiece
    refine .ite (fun _ => .ok _) fun _ => .ite (fun _ => .ok _) fun _ => ?_
    refine .ite (fun _ => .ite (fun _ => .ok _) fun _ => .error ⟨rfl, rfl⟩) fun _ => ?_
    refine .ite (fun _ => .ok _) fun _ => ?_
    split
    · exact .ok _
    · exact .error ⟨rfl, rfl⟩

/-- Whatever is wrong with the words of a text is reported. -/
theorem failsOnly_lexFrom (skip line : Nat) (read : List Lexeme) (cs : List Char) :
    FailsOnly (fun e => e.fault.isReported = true ∧ e.fault.numbers = [])
      (lexFrom skip line read cs) := by
  fun_induction lexFrom skip line read cs with
  | case1 => exact .ok _
  | case2 _ _ _ _ _ _ ih => exact ih
  | case3 _ _ c rest _ hfault => exact .error (failsOnly_piece c rest _ hfault)
  | case4 _ _ _ _ _ _ _ ih => exact ih

end FuseMap.Design
