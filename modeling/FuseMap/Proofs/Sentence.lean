import FuseMap.Design.Statement
import FuseMap.Proofs.Grammar

/-! # The grammar of statements

A `Sentence` is a statement as it is written, and `Spells` says which tokens write it. The reader
only takes sentences (`takeStatement?_sound`), and the tokens of a text can be cut into sentences in
one way at most (`SpellsAll.unique`).
-/

namespace FuseMap.Design

inductive Modifier
  | count
  | fill (value : Bool)
  | dff
deriving DecidableEq, Repr

/-- A statement as it is written. -/
inductive Sentence
  | pins (numbers names : List String)
  | table (inputs : List String) (output : String) (modifiers : List Modifier)
    (rows : List String)
  | function (output : String) (registered : Bool) (formula : Expr)
deriving DecidableEq, Repr

/-! ## Spelling -/

def Modifier.tokens : Modifier → List Token
  | .count => [.symbol .dot, .keyword .count]
  | .fill value =>
    [.symbol .dot, .keyword .fill, .symbol .leftParen, .number (if value then "1" else "0"),
      .symbol .rightParen]
  | .dff => [.symbol .dot, .keyword .dff]

/-- Tokens with commas between them. -/
def separated : List Token → List Token
  | [] => []
  | t :: ts => t :: ts.flatMap fun t => [.symbol .comma, t]

/-- The mark of a registered function. -/
def registeredMark (registered : Bool) : List Token :=
  if registered then [.symbol .dot, .keyword .dff] else []

/-- The tokens write a statement. -/
inductive Spells : List Token → Sentence → Prop
  | pins {numbers names : List String} :
    numbers ≠ [] → names ≠ [] →
    Spells (.keyword .pin :: (separated (numbers.map .number) ++ .symbol .equals ::
      (separated (names.map .identifier) ++ [.symbol .semicolon]))) (.pins numbers names)
  | table {inputs : List String} {output : String} {modifiers : List Modifier}
    {rows : List String} :
    inputs ≠ [] →
    Spells (.keyword .table :: .symbol .leftParen :: (separated (inputs.map .identifier) ++
      .arrow :: .identifier output :: .symbol .rightParen :: (modifiers.flatMap Modifier.tokens ++
        .symbol .leftBrace :: (rows.map .number ++ [.symbol .rightBrace]))))
      (.table inputs output modifiers rows)
  | function {output : String} {registered : Bool} {ts : List Token} {e : Expr} :
    Formula (.chain .or) ts e →
    Spells (.identifier output :: (registeredMark registered ++ .symbol .equals ::
      (ts ++ [.symbol .semicolon]))) (.function output registered e)

/-- The tokens write statements one after the other. -/
inductive SpellsAll : List Token → List Sentence → Prop
  | nil : SpellsAll [] []
  | cons {ts us : List Token} {s : Sentence} {ss : List Sentence} :
    Spells ts s → SpellsAll us ss → SpellsAll (ts ++ us) (s :: ss)

/-! ## The reader takes sentences -/

/-- The modifiers after one more is given. -/
def Modifiers.add (m : Modifiers) : Modifier → Modifiers
  | .count => { m with count := true }
  | .fill value => { m with fill := some value }
  | .dff => { m with dff := true }

/-- What modifiers say together. -/
def Modifiers.ofList (ms : List Modifier) : Modifiers := ms.foldl add {}

/-- How modifiers say that rows are to be read. -/
def Modifiers.form (m : Modifiers) : Rows := if m.count then .counting else .listed m.fill

/-- A statement that was read, with the pins of its names looked up, is the sentence. -/
inductive Statement.Reads (names : Names) : Statement → Sentence → Prop
  | pins {line : Nat} {numbers words : List Word} :
    Reads names (.pins line numbers words) (.pins (numbers.map (·.text)) (words.map (·.text)))
  | table {t : TableStatement} {inputs : List String} {output : String}
    {modifiers : List Modifier} :
    List.Forall₂ (fun name pin => names.pin? name = some pin) inputs t.inputPins →
    names.pin? output = some t.outputPin → t.registered = (Modifiers.ofList modifiers).dff →
    t.form = (Modifiers.ofList modifiers).form →
    Reads names (.table t) (.table inputs output modifiers (t.rows.map (·.text)))
  | function {f : FunctionStatement} :
    Reads names (.function f) (.function f.output.text f.registered f.formula)

variable {lexemes rest : List Lexeme} {names : Names}

theorem takeArrow_eq_ok_iff :
    takeArrow lexemes = .ok rest ↔ ∃ line, lexemes = ⟨.arrow, line⟩ :: rest := by
  fun_cases takeArrow lexemes with
  | case1 line rest' => simp [eq_comm]
  | case2 rest' hne =>
    refine ⟨fun h => (by cases h), fun ⟨line, h⟩ => ?_⟩
    exact absurd h (hne line rest)

section words

variable {pick : Token → Option String} {make : String → Token} {what : String}

theorem takeWord_ok (hpick : ∀ {t s}, pick t = some s → t = make s) {w : Word}
    (h : takeWord pick what lexemes = .ok (w, rest)) :
    lexemes = ⟨make w.text, w.line⟩ :: rest := by
  obtain _ | ⟨⟨token, line⟩, lexemes⟩ := lexemes
  · cases h
  rw [takeWord] at h
  split at h
  · next text hpicked =>
    cases h
    rw [← hpick hpicked]
  · cases h

theorem takeMoreWords_ok (hpick : ∀ {t s}, pick t = some s → t = make s) {ws : List Word}
    (h : takeMoreWords pick what lexemes = .ok (ws, rest)) :
    ∃ front, lexemes = front ++ rest ∧
      tokens front = (ws.map (make ·.text)).flatMap fun t => [.symbol .comma, t] := by
  fun_induction takeMoreWords pick what lexemes generalizing ws with
  | case1 line token line' lexemes text hpicked ih =>
    simp only [bind_eq_ok_iff, pure_eq_ok_iff] at h
    obtain ⟨⟨words, rest'⟩, hwords, h⟩ := h
    cases h
    obtain ⟨front, rfl, hfront⟩ := ih hwords
    exact ⟨⟨.symbol .comma, line⟩ :: ⟨token, line'⟩ :: front, rfl, by simp [hfront, hpick hpicked]⟩
  | case2 => cases h
  | case3 => cases h
  | case4 =>
    cases h
    exact ⟨[], rfl, rfl⟩

theorem takeWords_ok (hpick : ∀ {t s}, pick t = some s → t = make s) {ws : List Word}
    (h : takeWords pick what lexemes = .ok (ws, rest)) :
    ws ≠ [] ∧ ∃ front, lexemes = front ++ rest ∧
      tokens front = separated (ws.map (make ·.text)) := by
  simp only [takeWords, bind_eq_ok_iff, pure_eq_ok_iff] at h
  obtain ⟨⟨word, rest'⟩, hword, ⟨words, rest''⟩, hwords, h⟩ := h
  cases h
  obtain rfl := takeWord_ok hpick hword
  obtain ⟨front, rfl, hfront⟩ := takeMoreWords_ok hpick hwords
  exact ⟨List.cons_ne_nil _ _, ⟨make word.text, word.line⟩ :: front, rfl,
    by simp [separated, hfront]⟩

end words

theorem eq_of_number? {t : Token} {s : String} (h : t.number? = some s) : t = .number s := by
  cases t <;> cases h; rfl

theorem eq_of_identifier? {t : Token} {s : String} (h : t.identifier? = some s) :
    t = .identifier s := by
  cases t <;> cases h; rfl

theorem takeFillValue_ok {value : Bool} (h : takeFillValue lexemes = .ok (value, rest)) :
    ∃ front, lexemes = front ++ rest ∧
      tokens front = [.symbol .leftParen, .number (if value then "1" else "0"),
        .symbol .rightParen] := by
  simp only [takeFillValue, throw_eq_error, error_bind, bind_eq_ok_iff, ite_error_eq_ok_iff,
    pure_eq_ok_iff] at h
  obtain ⟨rest₁, hopen, ⟨word, rest₂⟩, hword, hbit, rest₃, hclose, h⟩ := h
  cases h
  obtain ⟨line, rfl⟩ := takeSymbol_eq_ok_iff.1 hopen
  obtain rfl := takeWord_ok eq_of_number? hword
  obtain ⟨line', rfl⟩ := takeSymbol_eq_ok_iff.1 hclose
  refine ⟨[⟨.symbol .leftParen, line⟩, ⟨.number word.text, word.line⟩,
    ⟨.symbol .rightParen, line'⟩], rfl, ?_⟩
  simp only [not_and_or, not_not] at hbit
  rcases hbit with hbit | hbit <;> simp [hbit]

theorem takeModifier_ok {m m' : Modifiers} (line : Nat)
    (h : takeModifier m lexemes = .ok (m', rest)) :
    ∃ modifier front, ⟨.symbol .dot, line⟩ :: lexemes = front ++ rest ∧
      tokens front = Modifier.tokens modifier ∧ m' = m.add modifier := by
  simp only [takeModifier] at h
  split at h
  · next line' lexemes =>
    simp only [ite_error_eq_ok_iff] at h
    cases h.2
    exact ⟨.count, [⟨.symbol .dot, line⟩, ⟨.keyword .count, line'⟩], rfl, rfl, rfl⟩
  · next line' lexemes =>
    simp only [ite_error_eq_ok_iff] at h
    cases h.2
    exact ⟨.dff, [⟨.symbol .dot, line⟩, ⟨.keyword .dff, line'⟩], rfl, rfl, rfl⟩
  · next line' lexemes =>
    simp only [ite_error_eq_ok_iff, bind_eq_ok_iff, pure_eq_ok_iff] at h
    obtain ⟨-, ⟨value, rest'⟩, hvalue, h⟩ := h
    cases h
    obtain ⟨front, rfl, hfront⟩ := takeFillValue_ok hvalue
    exact ⟨.fill value, ⟨.symbol .dot, line⟩ :: ⟨.keyword .fill, line'⟩ :: front, rfl,
      by simp [hfront, Modifier.tokens], rfl⟩
  · cases h

theorem takeModifiers_ok {n : Nat} {m m' : Modifiers}
    (h : takeModifiers n m lexemes = .ok (m', rest)) :
    ∃ (modifiers : List Modifier) (front : List Lexeme), lexemes = front ++ rest ∧
      tokens front = modifiers.flatMap Modifier.tokens ∧ m' = modifiers.foldl Modifiers.add m := by
  fun_induction takeModifiers n m lexemes generalizing m' with
  | case1 n m line lexemes ih =>
    rw [bind_eq_ok_iff] at h
    obtain ⟨⟨m₁, rest₁⟩, hmodifier, h⟩ := h
    obtain ⟨modifier, front, hlexemes, hfront, rfl⟩ := takeModifier_ok line hmodifier
    obtain ⟨modifiers, front', rfl, hfront', rfl⟩ := ih _ _ h
    exact ⟨modifier :: modifiers, front ++ front', by simpa using hlexemes,
      by simp [hfront, hfront'], rfl⟩
  | case2 =>
    cases h
    exact ⟨[], [], rfl, rfl, rfl⟩

theorem takeRows_ok {ws : List Word} (h : takeRows lexemes = .ok (ws, rest)) :
    ∃ front, lexemes = front ++ rest ∧
      tokens front = (ws.map (·.text)).map .number ++ [.symbol .rightBrace] := by
  fun_induction takeRows lexemes generalizing ws with
  | case1 line lexemes =>
    cases h
    exact ⟨[⟨.symbol .rightBrace, line⟩], rfl, rfl⟩
  | case2 digits line lexemes ih =>
    simp only [bind_eq_ok_iff, pure_eq_ok_iff] at h
    obtain ⟨⟨rows, rest'⟩, hrows, h⟩ := h
    cases h
    obtain ⟨front, rfl, hfront⟩ := ih hrows
    exact ⟨⟨.number digits, line⟩ :: front, rfl, by simp [hfront]⟩
  | case3 => cases h

theorem takeRegistered_ok {registered : Bool}
    (h : takeRegistered lexemes = .ok (registered, rest)) :
    ∃ front, lexemes = front ++ rest ∧ tokens front = registeredMark registered := by
  unfold takeRegistered at h
  split at h
  · next line line' lexemes =>
    cases h
    exact ⟨[⟨.symbol .dot, line⟩, ⟨.keyword .dff, line'⟩], rfl, rfl⟩
  · cases h
  · cases h
    exact ⟨[], rfl, rfl⟩

/-- The front of the lexemes is a sentence, and the statement reads it. -/
def Sound (names : Names) (lexemes : List Lexeme) (statement : Statement) (rest : List Lexeme) :
    Prop :=
  ∃ front s, lexemes = front ++ rest ∧ Spells (tokens front) s ∧ statement.Reads names s

variable {statement : Statement} {line : Nat}

theorem pinStatement_sound (h : pinStatement line lexemes = .ok (statement, rest)) :
    Sound names (⟨.keyword .pin, line⟩ :: lexemes) statement rest := by
  simp only [pinStatement, bind_eq_ok_iff, pure_eq_ok_iff] at h
  obtain ⟨⟨numbers, rest₁⟩, hnumbers, rest₂, hequals, ⟨words, rest₃⟩, hwords, rest₄, hend, h⟩ := h
  cases h
  obtain ⟨hne, front, rfl, hfront⟩ := takeWords_ok eq_of_number? hnumbers
  obtain ⟨line₁, rfl⟩ := takeSymbol_eq_ok_iff.1 hequals
  obtain ⟨hne', front', rfl, hfront'⟩ := takeWords_ok eq_of_identifier? hwords
  obtain ⟨line₂, rfl⟩ := takeSymbol_eq_ok_iff.1 hend
  refine ⟨⟨.keyword .pin, line⟩ :: (front ++ ⟨.symbol .equals, line₁⟩ ::
    (front' ++ [⟨.symbol .semicolon, line₂⟩])), _, by simp, ?_, .pins⟩
  have hspells : Spells _ (.pins (numbers.map (·.text)) (words.map (·.text))) :=
    .pins (by simpa using hne) (by simpa using hne')
  simpa [hfront, hfront', Function.comp_def] using hspells

theorem functionStatement_sound {output : Word}
    (h : functionStatement names output lexemes = .ok (statement, rest)) :
    Sound names (⟨.identifier output.text, output.line⟩ :: lexemes) statement rest := by
  simp only [functionStatement, bind_eq_ok_iff, pure_eq_ok_iff] at h
  obtain ⟨⟨registered, rest₁⟩, hregistered, rest₂, hequals, ⟨e, rest₃⟩, hformula, rest₄, hend,
    h⟩ := h
  cases h
  obtain ⟨front, rfl, hfront⟩ := takeRegistered_ok hregistered
  obtain ⟨line₁, rfl⟩ := takeSymbol_eq_ok_iff.1 hequals
  obtain ⟨front', rfl, he⟩ := formula_sound hformula
  obtain ⟨line₂, rfl⟩ := takeSymbol_eq_ok_iff.1 hend
  refine ⟨⟨.identifier output.text, output.line⟩ :: (front ++ ⟨.symbol .equals, line₁⟩ ::
    (front' ++ [⟨.symbol .semicolon, line₂⟩])), _, by simp, ?_, .function⟩
  simpa [hfront] using Spells.function he

theorem pin_eq_ok_iff {w : Word} {pin : Int} :
    names.pin w = .ok pin ↔ names.pin? w.text = some pin := by
  rw [Names.pin]
  split
  · next p hp => simp [hp]
  · next hp => simp [hp]

theorem tableStatement_sound (h : tableStatement names line lexemes = .ok (statement, rest)) :
    Sound names (⟨.keyword .table, line⟩ :: lexemes) statement rest := by
  simp only [tableStatement, throw_eq_error, error_bind, bind_eq_ok_iff, ite_error_eq_ok_iff,
    pure_eq_ok_iff] at h
  obtain ⟨rest₁, hopen, ⟨inputs, rest₂⟩, hinputs, rest₃, harrow, ⟨output, rest₄⟩, houtput, rest₅,
    hclose, inputPins, hinputPins, outputPin, houtputPin, -, -, -, ⟨m, rest₆⟩, hmodifiers, -, rest₇,
    hbrace, ⟨rows, rest₈⟩, hrows, h⟩ := h
  cases h
  obtain ⟨line₁, rfl⟩ := takeSymbol_eq_ok_iff.1 hopen
  obtain ⟨hne, front, rfl, hfront⟩ := takeWords_ok eq_of_identifier? hinputs
  obtain ⟨line₂, rfl⟩ := takeArrow_eq_ok_iff.1 harrow
  obtain rfl := takeWord_ok eq_of_identifier? houtput
  obtain ⟨line₃, rfl⟩ := takeSymbol_eq_ok_iff.1 hclose
  obtain ⟨modifiers, front', rfl, hfront', rfl⟩ := takeModifiers_ok hmodifiers
  obtain ⟨line₄, rfl⟩ := takeSymbol_eq_ok_iff.1 hbrace
  obtain ⟨front'', rfl, hfront''⟩ := takeRows_ok hrows
  have hpins : List.Forall₂ (fun name pin => names.pin? name = some pin)
      (inputs.map (·.text)) inputPins :=
    List.forall₂_map_left_iff.2 ((mapM_eq_ok_iff.1 hinputPins).imp fun _ _ => pin_eq_ok_iff.1)
  refine ⟨⟨.keyword .table, line⟩ :: ⟨.symbol .leftParen, line₁⟩ :: (front ++
    ⟨.arrow, line₂⟩ :: ⟨.identifier output.text, output.line⟩ :: ⟨.symbol .rightParen, line₃⟩ ::
      (front' ++ ⟨.symbol .leftBrace, line₄⟩ :: front'')), _, by simp, ?_,
    .table hpins (pin_eq_ok_iff.1 houtputPin) rfl rfl⟩
  have hspells : Spells _ (.table (inputs.map (·.text)) output.text modifiers
    (rows.map (·.text))) := .table (by simpa using hne)
  simpa [hfront, hfront', hfront'', Function.comp_def] using hspells

/-- Every statement is written as it is read; its first token tells its kind. -/
theorem takeStatement?_sound (h : takeStatement? names lexemes = some (.ok (statement, rest))) :
    Sound names lexemes statement rest := by
  unfold takeStatement? at h
  split at h
  · cases h
  · exact pinStatement_sound (Option.some.inj h)
  · exact tableStatement_sound (Option.some.inj h)
  · have hfunction := functionStatement_sound (Option.some.inj h)
    exact hfunction
  · cases h

/-! ## A text has one reading -/

/-- The token that a statement with the given first token ends with. -/
def endOf : Token → Token
  | .keyword .table => .symbol .rightBrace
  | _ => .symbol .semicolon

theorem mem_separated {t : Token} {ts : List Token} (h : t ∈ separated ts) :
    t = .symbol .comma ∨ t ∈ ts := by
  cases ts with
  | nil => cases h
  | cons u us =>
    simp only [separated, List.mem_cons, List.mem_flatMap, List.not_mem_nil, or_false] at h ⊢
    rcases h with rfl | ⟨u', hu', rfl | rfl⟩
    · exact .inr (.inl rfl)
    · exact .inl rfl
    · exact .inr (.inr hu')

/-- A projection that passes over commas passes over the separators. -/
theorem filterMap_separated {α : Type} {f : Token → Option α} (h : f (.symbol .comma) = none)
    (ts : List Token) : (separated ts).filterMap f = ts.filterMap f := by
  cases ts with
  | nil => rfl
  | cons t ts =>
    have hrest : (ts.flatMap fun t => [.symbol .comma, t]).filterMap f = ts.filterMap f := by
      induction ts with
      | nil => rfl
      | cons u us ih =>
        simp only [List.flatMap_cons, List.cons_append, List.nil_append, List.filterMap_cons, h, ih]
    rw [separated, List.filterMap_cons, List.filterMap_cons, hrest]

/-- A statement ends with the first token that can end it. -/
theorem Spells.ends {ts : List Token} {s : Sentence} (h : Spells ts s) :
    ∃ t init, ts = t :: (init ++ [endOf t]) ∧ endOf t ∉ init := by
  cases h with
  | @pins numbers words _ _ =>
    refine ⟨.keyword .pin, separated (numbers.map .number) ++ .symbol .equals ::
      separated (words.map .identifier), by simp [endOf], ?_⟩
    intro h
    simp only [endOf, List.mem_append, List.mem_cons] at h
    rcases h with h | h | h
    · simpa using mem_separated h
    · cases h
    · simpa using mem_separated h
  | @table inputs output modifiers rows _ =>
    refine ⟨.keyword .table, .symbol .leftParen :: (separated (inputs.map .identifier) ++
      .arrow :: .identifier output :: .symbol .rightParen :: (modifiers.flatMap Modifier.tokens ++
        .symbol .leftBrace :: rows.map .number)), by simp [endOf], ?_⟩
    intro h
    simp only [endOf, List.mem_append, List.mem_cons, List.mem_flatMap] at h
    rcases h with h | h | h | h | h | ⟨modifier, -, h⟩ | h | h
    · cases h
    · simpa using mem_separated h
    · cases h
    · cases h
    · cases h
    · cases modifier <;> simp [Modifier.tokens] at h
    · cases h
    · simp at h
  | @function output registered ts e he =>
    refine ⟨.identifier output, registeredMark registered ++ .symbol .equals :: ts,
      by simp [endOf], ?_⟩
    intro h
    simp only [endOf, List.mem_append, List.mem_cons] at h
    rcases h with h | h | h
    · cases registered <;> simp [registeredMark] at h
    · cases h
    · exact he.semicolon_not_mem h

/-- A statement has a token. -/
theorem length_lt_of_takeStatement?
    (h : takeStatement? names lexemes = some (.ok (statement, rest))) :
    rest.length < lexemes.length := by
  obtain ⟨front, sentence, rfl, hspells, -⟩ := takeStatement?_sound h
  obtain ⟨t, init, hends, -⟩ := hspells.ends
  have hlong : 0 < front.length := by
    rw [← length_tokens, hends]
    exact Nat.succ_pos _
  rw [List.length_append]
  omega

/-- A list can be cut in one way at the first occurrence of an item. -/
theorem eq_of_append_cons_eq {α : Type} {a : α} {xs ys us vs : List α} (hx : a ∉ xs) (hy : a ∉ ys)
    (h : xs ++ a :: us = ys ++ a :: vs) : xs = ys ∧ us = vs := by
  induction xs generalizing ys with
  | nil =>
    cases ys with
    | nil => exact ⟨rfl, (List.cons.inj h).2⟩
    | cons y ys => exact absurd (List.cons.inj h).1 (List.ne_of_not_mem_cons hy)
  | cons x xs ih =>
    cases ys with
    | nil => exact absurd (List.cons.inj h).1.symm (List.ne_of_not_mem_cons hx)
    | cons y ys =>
      obtain ⟨rfl, hrest⟩ := List.cons.inj h
      obtain ⟨rfl, rfl⟩ :=
        ih (List.not_mem_of_not_mem_cons hx) (List.not_mem_of_not_mem_cons hy) hrest
      exact ⟨rfl, rfl⟩

/-- A statement ends with the first token that can end one, so that it is known where it ends. -/
theorem Spells.eq_of_append_eq {ts ts' us us' : List Token} {s s' : Sentence} (h : Spells ts s)
    (h' : Spells ts' s') (heq : ts ++ us = ts' ++ us') : ts = ts' ∧ us = us' := by
  obtain ⟨t, init, rfl, hinit⟩ := h.ends
  obtain ⟨t', init', rfl, hinit'⟩ := h'.ends
  simp only [List.cons_append, List.append_assoc, List.nil_append, List.cons.injEq] at heq
  obtain ⟨rfl, heq⟩ := heq
  obtain ⟨rfl, rfl⟩ := eq_of_append_cons_eq hinit hinit' heq
  exact ⟨rfl, rfl⟩

/-- The modifier that a token of one stands for. -/
def Token.modifier? : Token → Option Modifier
  | .keyword .count => some .count
  | .keyword .dff => some .dff
  | .number digits => some (.fill (digits == "1"))
  | _ => none

theorem filterMap_modifier? (ms : List Modifier) :
    (ms.flatMap Modifier.tokens).filterMap Token.modifier? = ms := by
  induction ms with
  | nil => rfl
  | cons m ms ih =>
    rw [List.flatMap_cons, List.filterMap_append, ih]
    cases m with
    | count => rfl
    | dff => rfl
    | fill value => cases value <;> rfl

theorem filterMap_number? (ns : List String) : (ns.map .number).filterMap Token.number? = ns := by
  rw [List.filterMap_map]
  exact List.filterMap_some

theorem filterMap_identifier? (ns : List String) :
    (ns.map .identifier).filterMap Token.identifier? = ns := by
  rw [List.filterMap_map]
  exact List.filterMap_some

theorem filterMap_numbers_identifier? (ns : List String) :
    (ns.map .number).filterMap Token.identifier? = [] :=
  List.filterMap_eq_nil_iff.2 (by simp [Token.identifier?])

theorem filterMap_identifiers_number? (ns : List String) :
    (ns.map .identifier).filterMap Token.number? = [] :=
  List.filterMap_eq_nil_iff.2 (by simp [Token.number?])

/-- The numbers come before the equals sign and the names after it. -/
theorem pins_injective {numbers numbers' names names' : List String}
    (h : separated (numbers.map .number) ++ .symbol .equals ::
        (separated (names.map .identifier) ++ [.symbol .semicolon]) =
      separated (numbers'.map .number) ++ .symbol .equals ::
        (separated (names'.map .identifier) ++ [.symbol .semicolon])) :
    numbers = numbers' ∧ names = names' := by
  have hnumbers := congrArg (List.filterMap Token.number?) h
  have hnames := congrArg (List.filterMap Token.identifier?) h
  simp only [List.filterMap_append, List.filterMap_cons, Token.number?, List.filterMap_nil,
    filterMap_separated (f := Token.number?) rfl, filterMap_number?, filterMap_identifiers_number?,
    List.append_nil] at hnumbers
  simp only [List.filterMap_append, List.filterMap_cons, Token.identifier?, List.filterMap_nil,
    filterMap_separated (f := Token.identifier?) rfl, filterMap_identifier?,
    filterMap_numbers_identifier?, List.append_nil, List.nil_append] at hnames
  exact ⟨hnumbers, hnames⟩

/-- The head of a table ends at the brace, and its names end with the output. -/
theorem table_injective {inputs inputs' : List String} {output output' : String}
    {modifiers modifiers' : List Modifier} {rows rows' : List String}
    (h : separated (inputs.map .identifier) ++ .arrow :: .identifier output ::
        .symbol .rightParen :: (modifiers.flatMap Modifier.tokens ++
          .symbol .leftBrace :: (rows.map .number ++ [.symbol .rightBrace])) =
      separated (inputs'.map .identifier) ++ .arrow :: .identifier output' ::
        .symbol .rightParen :: (modifiers'.flatMap Modifier.tokens ++
          .symbol .leftBrace :: (rows'.map .number ++ [.symbol .rightBrace]))) :
    inputs = inputs' ∧ output = output' ∧ modifiers = modifiers' ∧ rows = rows' := by
  have hinputs (ns : List String) : .arrow ∉ separated (ns.map .identifier) := fun h => by
    simpa using mem_separated h
  have hmodifiers (ms : List Modifier) : .symbol .leftBrace ∉ ms.flatMap Modifier.tokens := by
    intro h
    obtain ⟨m, -, h⟩ := List.mem_flatMap.1 h
    cases m <;> simp [Modifier.tokens] at h
  obtain ⟨hnames, h⟩ := eq_of_append_cons_eq (hinputs inputs) (hinputs inputs') h
  simp only [List.cons.injEq, Token.identifier.injEq, true_and] at h
  obtain ⟨houtput, h⟩ := h
  obtain ⟨hmods, h⟩ := eq_of_append_cons_eq (hmodifiers modifiers) (hmodifiers modifiers') h
  have hnames := congrArg (List.filterMap Token.identifier?) hnames
  have hmods := congrArg (List.filterMap Token.modifier?) hmods
  have hrows := congrArg (List.filterMap Token.number?) (List.append_cancel_right h)
  simp only [filterMap_separated (f := Token.identifier?) rfl, filterMap_identifier?] at hnames
  simp only [filterMap_modifier?] at hmods
  simp only [filterMap_number?] at hrows
  exact ⟨hnames, houtput, hmods, hrows⟩

/-- The mark of a register stands before the equals sign or nowhere. -/
theorem registeredMark_injective {registered registered' : Bool} {ts ts' : List Token}
    (h : registeredMark registered ++ .symbol .equals :: ts =
      registeredMark registered' ++ .symbol .equals :: ts') :
    registered = registered' ∧ ts = ts' := by
  have hmark (b : Bool) : .symbol .equals ∉ registeredMark b := by
    cases b <;> simp [registeredMark]
  obtain ⟨hmarks, hrest⟩ := eq_of_append_cons_eq (hmark registered) (hmark registered') h
  refine ⟨?_, hrest⟩
  cases registered <;> cases registered'
  · rfl
  · cases hmarks
  · cases hmarks
  · rfl

theorem Spells.unique {ts ts' : List Token} {s s' : Sentence} (h : Spells ts s)
    (h' : Spells ts' s') (heq : ts = ts') : s = s' := by
  cases h with
  | pins =>
    cases h' with
    | pins =>
      obtain ⟨rfl, rfl⟩ := pins_injective (List.cons.inj heq).2
      rfl
    | table => cases heq
    | function => cases heq
  | table =>
    cases h' with
    | pins => cases heq
    | table =>
      obtain ⟨rfl, rfl, rfl, rfl⟩ := table_injective (List.cons.inj (List.cons.inj heq).2).2
      rfl
    | function => cases heq
  | @function output registered ts e he =>
    cases h' with
    | pins => cases heq
    | table => cases heq
    | @function output' registered' ts' e' he' =>
      obtain ⟨houtput, hrest⟩ := List.cons.inj heq
      cases houtput
      obtain ⟨rfl, hformula⟩ := registeredMark_injective hrest
      obtain rfl := List.append_cancel_right hformula
      rw [he.unique he']

/-- Tokens write statements in one way. -/
theorem SpellsAll.unique {ts : List Token} {ss ss' : List Sentence} (h : SpellsAll ts ss)
    (h' : SpellsAll ts ss') : ss = ss' := by
  induction h generalizing ss' with
  | nil =>
    generalize hts : [] = ts at h'
    cases h' with
    | nil => rfl
    | cons hs _ =>
      obtain ⟨t, init, rfl, -⟩ := hs.ends
      cases hts
  | @cons ts us s ss hs _ ih =>
    generalize hts : ts ++ us = ts' at h'
    cases h' with
    | nil =>
      obtain ⟨t, init, rfl, -⟩ := hs.ends
      cases hts
    | @cons ts' us' s' ss' hs' hss' =>
      obtain ⟨rfl, rfl⟩ := hs.eq_of_append_eq hs' hts
      rw [hs.unique hs' rfl, ih hss']

end FuseMap.Design
