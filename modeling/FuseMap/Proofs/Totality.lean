import FuseMap.Error
import FuseMap.Proofs.Progress

/-! # Every text has an ending

Reading a design text comes to an end, with a design or with an error in a line of the text
(`ending_of_parse`). Nothing on the way is undefined: numbers that are not too long can be read, a
row that has a bit for each input of a table has an index in the table, and a function has a value
for every combination of its inputs (`Statement.Defined`). Two kinds of errors are not reported, and
there is one kind of text for each (`Overflows`, `DeclaresLongNumber`).
-/

namespace FuseMap.Design

/-! ## Lines -/

/-- The line is one of those of a text that starts in the line `first`. -/
def IsLine (first : Nat) (cs : List Char) (line : Nat) : Prop :=
  first ≤ line ∧ line ≤ first + cs.count '\n'

section
variable {skip first line : Nat} {read : List Lexeme} {c : Char} {cs : List Char} {text : String}

theorem isLine_first (first : Nat) (cs : List Char) : IsLine first cs first :=
  ⟨Nat.le_refl _, Nat.le_add_right _ _⟩

theorem IsLine.cons (h : IsLine (if c = '\n' then first + 1 else first) cs line) :
    IsLine first (c :: cs) line := by
  obtain ⟨hfirst, hlast⟩ := h
  unfold IsLine
  rw [List.count_cons]
  by_cases hc : c = '\n'
  · simp only [hc, if_true, beq_self_eq_true] at hfirst hlast ⊢
    omega
  · simp only [hc, if_false, beq_iff_eq] at hfirst hlast ⊢
    omega

theorem isLine_of_lexFrom_error {e : SyntaxError} (h : lexFrom skip line read cs = .error e) :
    IsLine line cs e.line := by
  fun_induction lexFrom skip line read cs with
  | case1 => cases h
  | case2 line read c rest nextLine skip ih => exact (ih h).cons
  | case3 =>
    cases h
    exact isLine_first _ _
  | case4 line read c rest nextLine p hpiece ih => exact (ih h).cons

theorem isLine_of_lexFrom {script : Script} (h : lexFrom skip line read cs = .ok script) :
    IsLine line cs script.lastLine ∧
      ∀ x ∈ script.lexemes, x ∈ read ∨ IsLine line cs x.line := by
  fun_induction lexFrom skip line read cs with
  | case1 =>
    cases h
    exact ⟨isLine_first _ _, fun x hx => .inl (List.mem_reverse.1 hx)⟩
  | case2 line read c rest nextLine skip ih =>
    obtain ⟨hlast, hlexemes⟩ := ih h
    exact ⟨hlast.cons, fun x hx => (hlexemes x hx).imp_right .cons⟩
  | case3 => cases h
  | case4 line read c rest nextLine p hpiece ih =>
    obtain ⟨hlast, hlexemes⟩ := ih h
    refine ⟨hlast.cons, fun x hx => ?_⟩
    rcases hlexemes x hx with hx | hx
    · rcases List.mem_append.1 hx with hx | hx
      · obtain ⟨token, -, rfl⟩ := by simpa using hx
        exact .inr (isLine_first _ _)
      · exact .inl hx
    · exact .inr hx.cons

/-- Equal names, and lines of which something is known. -/
def Correspondence.ofLines (P : Nat → Prop) : Correspondence where
  Name := Eq
  Line l _ := P l
  name_iff h h' := by rw [h, h']

theorem Token.like_self {P : Nat → Prop} (t : Token) : t.Like (.ofLines P) t := by
  cases t with
  | identifier name => exact .identifier rfl
  | keyword k => exact .keyword k
  | number digits => exact .number digits
  | arrow => exact .arrow
  | symbol s => exact .symbol s

/-- Errors are found in the lines of tokens, or in the last line. -/
theorem isLine_of_parse {e : SyntaxError} (h : parse text = .error e) :
    IsLine 1 text.toList e.line := by
  rcases bind_eq_error_iff.1 h with hlex | ⟨script, hlex, h⟩
  · exact isLine_of_lexFrom_error hlex
  · obtain ⟨hlast, hlexemes⟩ := isLine_of_lexFrom hlex
    have hlike : script.Like (.ofLines (IsLine 1 text.toList)) script := by
      refine ⟨List.forall₂_same.2 fun x hx => ⟨x.token.like_self, ?_⟩, hlast⟩
      exact (hlexemes x hx).resolve_left List.not_mem_nil
    obtain ⟨d, d', hok, -⟩ | ⟨e', e'', herror, -, hline⟩ := alike_ofScript hlike
    · cases h.symm.trans hok
    · cases h.symm.trans herror
      exact hline

end

/-! ## Numbers -/

/-- One or more decimal digits. -/
def IsNumeral (digits : String) : Prop :=
  digits.toList ≠ [] ∧ ∀ c ∈ digits.toList, c.isDigit = true

theorem number?_wordToken (word : String) : (wordToken word).number? = none := by
  unfold wordToken
  split <;> rfl

theorem IsPiece.isNumeral {next : Option Char} {front : List Char} {t : Token} {d : String}
    (h : IsPiece next front (some t)) (hd : t.number? = some d) : IsNumeral d := by
  cases h with
  | number hdigits =>
    cases hd
    rw [IsNumeral, String.toList_ofList]
    exact ⟨List.cons_ne_nil _ _, hdigits⟩
  | word =>
    rw [number?_wordToken] at hd
    cases hd
  | arrow | symbol => cases hd

theorem Written.isNumeral {cs : List Char} {ts : List Token} (h : Written cs ts) :
    ∀ d ∈ ts.filterMap Token.number?, IsNumeral d := by
  induction h with
  | nil => nofun
  | @cons front cs t ts hpiece _ ih =>
    intro d hd
    rw [List.filterMap_append, List.mem_append] at hd
    refine hd.elim (fun hd => ?_) (ih d)
    obtain ⟨token, htoken, hnumber⟩ := List.mem_filterMap.1 hd
    obtain rfl := Option.mem_toList.1 htoken
    exact hpiece.isNumeral hnumber

/-- What is left to be read is the end of the text. -/
theorem Reaches.suffix {start lexemes : List Lexeme} {s : State} (h : Reaches start s lexemes) :
    lexemes <:+ start := by
  induction h with
  | start => exact List.suffix_rfl
  | next _ htaken _ ih =>
    obtain ⟨front, sentence, rfl, -⟩ := takeStatement?_sound htaken
    exact (List.suffix_append _ _).trans ih

/-! ## Functions -/

/-- The values of the inputs of a function in the combination with the given index. -/
def Expr.combination (e : Expr) (index : Nat) (name : String) : Option Bool :=
  if name ∈ e.inputs then some (inputValue index e.inputs name) else none

/-- A tree has a value where all its names have one. -/
theorem Expr.value_tree {e : Expr} {pins : String → Option Bool} {w : String → Bool}
    (h : ∀ name ∈ e.names, pins name = some (w name)) : e.tree.value pins = .ok (e.value w) := by
  induction e with
  | const b => rfl
  | pin name => simp [tree, Tree.value, value, h name (by simp [names])]
  | not e ih => simp [tree, Tree.value, Tree.values, Tree.nodeValue, value, ih h, Except.map]
  | and a b iha ihb | or a b iha ihb | xor a b iha ihb =>
    have ha := iha fun name hname => h name (List.mem_append_left _ hname)
    have hb := ihb fun name hname => h name (List.mem_append_right _ hname)
    cases hvalue : a.value w <;>
      simp [tree, Tree.value, Tree.values, Tree.nodeValue, value, ha, hb, hvalue, Except.map,
        Except.bind]

/-! ## Statements -/

/-- What a statement needs when it is carried out is defined. -/
def Statement.Defined : Statement → Prop
  | .pins _ numbers _ =>
    ∀ w ∈ numbers, ¬ w.IsTooLong →
      Text.readInteger? w.text = some (Text.digitsValue w.text.toList : Int)
  | .table t => ∀ w ∈ t.rows, ∀ bits, w.bits = .ok bits → bits ≠ [] ∧
    (bits.length = t.inputPins.length → bitsValue bits < TruthTable.combinations t.inputPins.length)
  | .function f => ∀ index, f.formula.tree.value (f.formula.combination index) =
    .ok (f.formula.value (Expr.inputValue index f.formula.inputs))

/-- The rows of digits in a sentence, its fill value apart. -/
def Sentence.numbers : Sentence → List String
  | .pins numbers _ => numbers
  | .table _ _ _ rows => rows
  | .function _ _ _ => []

theorem Spells.numbers_subset {ts : List Token} {sentence : Sentence} (h : Spells ts sentence) :
    sentence.numbers ⊆ ts.filterMap Token.number? := by
  cases h with
  | @pins numbers names =>
    have hself : (numbers.map Token.number).filterMap Token.number? = numbers :=
      (List.filterMap_map ..).trans List.filterMap_some
    rw [List.filterMap_cons_none rfl, List.filterMap_append, filterMap_separated rfl, hself]
    exact List.subset_append_left _ _
  | table =>
    intro d hd
    exact List.mem_filterMap.2 ⟨.number d, by simpa using .inr (.inr hd), rfl⟩
  | function => exact List.nil_subset _

/-- A statement that is read has rows and numbers that can be converted. -/
theorem defined_of_takeStatement? {names : Names} {lexemes rest : List Lexeme}
    {statement : Statement}
    (hnumerals : ∀ d ∈ (tokens lexemes).filterMap Token.number?, IsNumeral d)
    (h : takeStatement? names lexemes = some (.ok (statement, rest))) : statement.Defined := by
  obtain ⟨front, sentence, rfl, hspells, hreads⟩ := takeStatement?_sound h
  have hnumbers : ∀ d ∈ sentence.numbers, IsNumeral d := fun d hd => by
    refine hnumerals d ?_
    rw [tokens_append, List.filterMap_append]
    exact List.mem_append_left _ (hspells.numbers_subset hd)
  cases hreads with
  | pins =>
    intro w hw hshort
    obtain ⟨hne, hdigits⟩ := hnumbers _ (List.mem_map_of_mem hw)
    exact Text.readInteger?_of_isDigit hne hdigits (Nat.not_lt.1 hshort)
  | table =>
    intro w hw bits hbits
    obtain ⟨hne, -⟩ := hnumbers _ (List.mem_map_of_mem hw)
    obtain rfl := Word.bits_ok hbits
    exact ⟨mt List.map_eq_nil_iff.1 hne, fun hlength => hlength ▸ bitsValue_lt _⟩
  | @function f =>
    intro index
    refine Expr.value_tree fun name hname => if_pos ?_
    exact List.mem_eraseDups.2 hname

theorem defined_of_reaches {text : String} {script : Script} {s : State}
    {lexemes rest : List Lexeme} {statement : Statement} (hlex : lex text = .ok script)
    (hreached : Reaches script.lexemes s lexemes)
    (htake : takeStatement? s.names lexemes = some (.ok (statement, rest))) :
    statement.Defined := by
  refine defined_of_takeStatement? (fun d hd => ?_) htake
  have hsuffix := (hreached.suffix.map Lexeme.token).filterMap Token.number?
  exact (written_of_lex hlex).isNumeral d (hsuffix.subset hd)

/-! ## Pins -/

/-- The numbers of the pins have no more digits than can be read. -/
def Names.Short (names : Names) : Prop := ∀ entry ∈ names, Text.IsShort entry.1

/-- A pin that is declared was read, so that it can be written. -/
theorem Names.Short.declare {names names' : Names} {entry : Word × Word} (h : names.Short)
    (hread : ¬ entry.1.IsTooLong →
      Text.readInteger? entry.1.text = some (Text.digitsValue entry.1.text.toList : Int))
    (hdeclare : State.declare names entry = .ok names') : names'.Short := by
  obtain ⟨hlength, -, -, rfl⟩ := declare_eq_ok_iff.1 hdeclare
  have hentry := Text.isShort_of_readInteger? (hread (Nat.not_lt.2 hlength))
  exact List.forall_mem_append.2 ⟨h, List.forall_mem_singleton.2 hentry⟩

theorem Names.Short.foldlM_declare {names names' : Names} {entries : List (Word × Word)}
    (h : names.Short)
    (hread : ∀ entry ∈ entries, ¬ entry.1.IsTooLong →
      Text.readInteger? entry.1.text = some (Text.digitsValue entry.1.text.toList : Int))
    (hdeclare : entries.foldlM State.declare names = .ok names') : names'.Short := by
  induction entries generalizing names with
  | nil =>
    cases hdeclare
    exact h
  | cons entry entries ih =>
    rw [List.forall_mem_cons] at hread
    rw [List.foldlM_cons, bind_eq_ok_iff] at hdeclare
    obtain ⟨_, hentry, hdeclare⟩ := hdeclare
    exact ih (h.declare hread.1 hentry) hread.2 hdeclare

/-- Only a statement about pins changes the names. -/
theorem Names.Short.execute {s s' : State} {statement : Statement} (h : s.names.Short)
    (hdefined : statement.Defined) (hexecute : s.execute statement = .ok s') : s'.names.Short := by
  cases statement with
  | pins line numbers names =>
    simp only [State.execute, throw_eq_error, error_bind, bind_eq_ok_iff, ite_error_eq_ok_iff,
      pure_eq_ok_iff] at hexecute
    obtain ⟨-, names', hdeclare, rfl⟩ := hexecute
    exact h.foldlM_declare (fun entry hentry => hdefined _ (List.of_mem_zip hentry).1) hdeclare
  | table t =>
    simp only [State.execute, bind_eq_ok_iff] at hexecute
    obtain ⟨entries, -, hconfigure⟩ := hexecute
    rwa [(configure_ok hconfigure).1]
  | function f =>
    simp only [State.execute, bind_eq_ok_iff] at hexecute
    obtain ⟨outputPin, -, inputPins, -, _, -, hconfigure⟩ := hexecute
    rwa [(configure_ok hconfigure).1]

/-- The run lemma: all declared pins can be written. -/
theorem short_of_reaches {text : String} {script : Script} {s : State} {lexemes : List Lexeme}
    (hlex : lex text = .ok script) (h : Reaches script.lexemes s lexemes) : s.names.Short := by
  induction h with
  | start => nofun
  | @next s s' _ _ _ hreached htake hexecute ih =>
    have hshort : s'.names.Short := ih.execute (defined_of_reaches hlex hreached htake) hexecute
    exact hshort

theorem short_of_parse {text : String} {design : Design} (h : parse text = .ok design) :
    design.names.Short := by
  obtain ⟨script, hlex, hscript⟩ := bind_eq_ok_iff.1 h
  have hfinishes := finishes_of_reaches (.start : Reaches script.lexemes _ _)
  rw [readAll] at hfinishes
  rw [ofScript] at hscript
  split at hscript
  · next s hread =>
    cases hscript
    rw [hread] at hfinishes
    cases hfinishes with
    | read hreached => exact short_of_reaches hlex hreached
  · cases hscript

/-- The pins of a design can be written. -/
theorem isShort_of_parse {text : String} {design : Design} (h : parse text = .ok design)
    {t : TruthTable} (ht : t ∈ design.tables) :
    ∀ pin ∈ t.outputPin :: t.inputPins, Text.IsShort pin := by
  intro pin hpin
  obtain ⟨entry, hentry, rfl⟩ := List.mem_map.1 ((wellFormed_of_parse h).declared t ht pin hpin)
  exact short_of_parse h entry hentry

/-- The pins in an error are those of the state, or have been read. -/
theorem Rejects.isShort {s : State} {statement : Statement} {f : Failure}
    (h : Rejects s statement f) (hnames : s.names.Short) (hdefined : statement.Defined)
    (hchecked : ∀ t, statement = .table t → t.Checked s.names) :
    ∀ n ∈ f.fault.numbers, Text.IsShort n := by
  have hdeclared : ∀ {pin}, pin ∈ s.names.map (·.1) → Text.IsShort pin := by
    intro pin hpin
    obtain ⟨entry, hentry, rfl⟩ := List.mem_map.1 hpin
    exact hnames entry hentry
  cases h with
  | plain _ hnumbers => simp [hnumbers]
  | exceeds hexceeds => cases hexceeds <;> exact List.forall_mem_nil _
  | duplicate hentry hshort =>
    refine List.forall_mem_singleton.2 ?_
    exact Text.isShort_of_readInteger? (hdefined _ (List.of_mem_zip hentry).1 hshort)
  | @table t _ =>
    refine List.forall_mem_singleton.2 (hdeclared ?_)
    exact (hchecked t rfl).declared _ List.mem_cons_self
  | function hpin =>
    refine List.forall_mem_singleton.2 (hdeclared ?_)
    exact List.mem_map_of_mem (mem_of_pin? (pin_eq_ok_iff.1 hpin))

/-- What is wrong with a text can be written. -/
theorem isShort_of_parse_error {text : String} {e : SyntaxError} (h : parse text = .error e) :
    ∀ n ∈ e.fault.numbers, Text.IsShort n := by
  rcases bind_eq_error_iff.1 h with hlex | ⟨script, hlex, h⟩
  · simp [(failsOnly_lexFrom _ _ _ _ _ hlex).2]
  · obtain ⟨f, hread, rfl⟩ := ofScript_eq_error_iff.1 h
    have hfinishes := finishes_of_reaches (.start : Reaches script.lexemes _ _)
    rw [hread] at hfinishes
    cases hfinishes with
    | refused _ htake => simp [Failure.locate, (spares_takeStatement htake f rfl).2]
    | rejected hreached htake hexecute =>
      refine (rejects_of_execute hexecute).isShort (short_of_reaches hlex hreached)
        (defined_of_reaches hlex hreached htake) ?_
      rintro t rfl
      exact checked_of_takeStatement? htake

theorem isWritable_of_parse_error {text : String} {e : SyntaxError} (h : parse text = .error e) :
    (Error.design e).isWritable = true := by
  refine List.all_eq_true.2 fun n hn => decide_eq_true ?_
  exact isShort_of_parse_error h n hn

/-! ## Texts that are too large -/

/-- A text comes to a table with 63 or more inputs whose rows are listed in pairs. -/
def Overflows (text : String) : Prop :=
  ∃ script s lexemes t rest, lex text = .ok script ∧ Reaches script.lexemes s lexemes ∧
    takeStatement? s.names lexemes = some (.ok (.table t, rest)) ∧ t.IsTooLarge

/-- A text comes to pins of which the first ones can be declared and the next has a number with more
digits than can be read. -/
def DeclaresLongNumber (text : String) : Prop :=
  ∃ script s lexemes line numbers names rest, lex text = .ok script ∧
    Reaches script.lexemes s lexemes ∧
    takeStatement? s.names lexemes = some (.ok (.pins line numbers names, rest)) ∧
    numbers.length = names.length ∧
    ∃ front entry back declared, numbers.zip names = front ++ entry :: back ∧
      front.foldlM State.declare s.names = .ok declared ∧ entry.1.IsTooLong

section
variable {text : String} {e : SyntaxError}

/-- A text that comes to a statement that is too large fails there. -/
theorem parse_of_exceeds {script : Script} {s : State} {lexemes rest : List Lexeme}
    {statement : Statement} {f : Failure} (hlex : lex text = .ok script)
    (hreached : Reaches script.lexemes s lexemes)
    (htake : takeStatement? s.names lexemes = some (.ok (statement, rest)))
    (h : Exceeds s statement f) : parse text = .error (f.locate script.lastLine) := by
  have hread : readAll {} script.lexemes = .error f := by
    rw [readAll_of_reaches hreached, readAll_of_taken htake, h.execute]
    rfl
  have hscript := ofScript_eq_error_iff.2 ⟨f, hread, rfl⟩
  exact bind_eq_error_iff.2 (.inr ⟨script, hlex, hscript⟩)

/-- A fault that is not reported is found at a statement that is too large. -/
theorem excess_of_parse (h : parse text = .error e) (hfault : e.fault.isReported = false) :
    (e.fault = .tableTooLarge ∧ Overflows text) ∨
      (e.fault = .numberTooLong ∧ DeclaresLongNumber text) := by
  rcases bind_eq_error_iff.1 h with hlex | ⟨script, hlex, h⟩
  · exact nomatch (failsOnly_lexFrom _ _ _ _ _ hlex).1.symm.trans hfault
  · obtain ⟨f, hread, rfl⟩ := ofScript_eq_error_iff.1 h
    have hfinishes := finishes_of_reaches (.start : Reaches script.lexemes _ _)
    rw [hread] at hfinishes
    cases hfinishes with
    | refused _ htake => exact nomatch (spares_takeStatement htake f rfl).1.symm.trans hfault
    | @rejected s lexemes rest statement _ hreached htake hexecute =>
      cases exceeds_of_execute hexecute hfault with
      | table hlarge => exact .inl ⟨rfl, script, s, lexemes, _, rest, hlex, hreached, htake, hlarge⟩
      | number hlength hzip hfront hlong =>
        exact .inr ⟨rfl, script, s, lexemes, _, _, _, rest, hlex, hreached, htake, hlength, _, _, _,
          _, hzip, hfront, hlong⟩

/-- The texts with a fault that is not reported. -/
theorem unreported_iff : (∃ e, parse text = .error e ∧ (Error.design e).isReported = false) ↔
    Overflows text ∨ DeclaresLongNumber text := by
  constructor
  · rintro ⟨e, h, hfault⟩
    exact (excess_of_parse h hfault).imp And.right And.right
  · rintro (⟨script, s, lexemes, t, rest, hlex, hreached, htake, hlarge⟩ |
      ⟨script, s, lexemes, line, numbers, names, rest, hlex, hreached, htake, hlength, front, entry,
        back, declared, hzip, hfront, hlong⟩)
    · exact ⟨_, parse_of_exceeds hlex hreached htake (.table hlarge), rfl⟩
    · have hexceeds : Exceeds s (.pins line numbers names) _ := .number hlength hzip hfront hlong
      exact ⟨_, parse_of_exceeds hlex hreached htake hexceeds, rfl⟩

end

/-- The characters that declare a pin with a number of the given digits. -/
def declarationChars (digits : List Char) : List Char :=
  ['p', 'i', 'n', ' '] ++ digits ++ [' ', '=', ' ', 'a', ';']

theorem written_declarationChars {d : Char} {ds : List Char}
    (hdigits : ∀ c ∈ d :: ds, c.isDigit = true) (hzero : d ≠ '0') :
    Written (declarationChars (d :: ds)) [.keyword .pin, .number (String.ofList (d :: ds)),
      .symbol .equals, .identifier "a", .symbol .semicolon] := by
  have hend : Written [';'] [.symbol .semicolon] :=
    @Written.cons [';'] [] (some (.symbol .semicolon)) _ (@IsPiece.symbol _ .semicolon) .nil
  have hname : Written ['a', ';'] [.identifier "a", .symbol .semicolon] :=
    @Written.cons ['a'] _ (some (.identifier "a")) _ (.word rfl nofun (by simp [isNameChar])) hend
  have hequals : Written [' ', '=', ' ', 'a', ';']
      [.symbol .equals, .identifier "a", .symbol .semicolon] := by
    refine @Written.cons [' '] _ none _ (.space rfl) ?_
    refine @Written.cons ['='] _ (some (.symbol .equals)) _ (@IsPiece.symbol _ .equals) ?_
    exact @Written.cons [' '] _ none _ (.space rfl) hname
  have hnumber : Written ((d :: ds) ++ [' ', '=', ' ', 'a', ';']) _ :=
    .cons (.number hdigits (.inl hzero) (by simp)) hequals
  refine @Written.cons ['p', 'i', 'n'] _ (some (.keyword .pin)) _ ?_
    (@Written.cons [' '] _ none _ (.space rfl) hnumber)
  exact .word rfl (by simp [isNameChar]) (by simp [isNameChar])

/-- Every number with too many digits can be declared, and is not reported. -/
theorem declaresLongNumber_of_digits {d : Char} {ds : List Char}
    (hdigits : ∀ c ∈ d :: ds, c.isDigit = true) (hzero : d ≠ '0')
    (hlong : Text.maxDigits < (d :: ds).length) :
    DeclaresLongNumber (String.ofList (declarationChars (d :: ds))) := by
  have hwritten := written_declarationChars hdigits hzero
  rw [← @String.toList_ofList (declarationChars (d :: ds))] at hwritten
  obtain ⟨script, hlex, htokens⟩ := lex_of_written hwritten
  obtain ⟨line, _, hlexemes, hnumber⟩ := exists_of_tokens_eq_cons htokens
  obtain ⟨numberLine, _, rfl, hequals⟩ := exists_of_tokens_eq_cons hnumber
  obtain ⟨_, _, rfl, hname⟩ := exists_of_tokens_eq_cons hequals
  obtain ⟨nameLine, _, rfl, hend⟩ := exists_of_tokens_eq_cons hname
  obtain ⟨_, _, rfl, hnil⟩ := exists_of_tokens_eq_cons hend
  obtain rfl := List.map_eq_nil_iff.1 hnil
  let entry : Word × Word := (⟨String.ofList (d :: ds), numberLine⟩, ⟨"a", nameLine⟩)
  have htake : takeStatement? [] script.lexemes =
      some (.ok (.pins line [entry.1] [entry.2], [])) := by
    rw [hlexemes]
    rfl
  have hentry : entry.1.IsTooLong := by
    rwa [Word.IsTooLong, String.toList_ofList]
  exact ⟨script, {}, _, line, _, _, _, hlex, .start, htake, rfl, [], entry, [], [], rfl, rfl,
    hentry⟩

/-! ## The ending -/

/-- Reading a text gives a design, or an error in a line of the text whose wording can be made up.
The error is reported, unless a listed table has more entries than a size can tell or a pin number
more digits than can be read. Reading stops at the end of the text or at the first statement that
fails, and nothing that a statement needs is undefined. -/
theorem ending_of_parse (text : String) :
    ((∃ design, parse text = .ok design) ∨
      ∃ e, parse text = .error e ∧ IsLine 1 text.toList e.line ∧
        (Error.design e).isWritable = true) ∧
    ((∃ e, parse text = .error e ∧ (Error.design e).isReported = false) ↔
      Overflows text ∨ DeclaresLongNumber text) ∧
    (∀ script, lex text = .ok script →
      Finishes script.lexemes (readStatements script.lexemes.length {} script.lexemes) ∧
      ∀ s lexemes statement rest, Reaches script.lexemes s lexemes →
        takeStatement? s.names lexemes = some (.ok (statement, rest)) → statement.Defined) ∧
    LoopsEnd := by
  refine ⟨?_, unreported_iff, fun script hlex => ⟨finishes_of_reaches .start, ?_⟩, loopsEnd⟩
  · cases h : parse text with
    | error e => exact .inr ⟨e, rfl, isLine_of_parse h, isWritable_of_parse_error h⟩
    | ok design => exact .inl ⟨design, rfl⟩
  · intro s lexemes statement rest hreached htake
    exact defined_of_reaches hlex hreached htake

/-- The characters of a text that lists a row of a table with the inputs `x1` to `x63`. -/
def largeChars : List Char :=
  let numbers := (List.range 63).map fun i => Nat.toDigits 10 (i + 1)
  let names := [',', ' '].intercalate (numbers.map ('x' :: ·))
  "pin ".toList ++ [',', ' '].intercalate numbers ++ " = ".toList ++ names ++
    "; table(".toList ++ names ++ " -> x1).fill(0) \x7b 0 1 \x7d".toList

/-- A text that ends neither in a design nor in an error that is reported. -/
theorem not_reported_of_large : ¬ ((∃ design, parse (String.ofList largeChars) = .ok design) ∨
    ∃ e, parse (String.ofList largeChars) = .error e ∧ (Error.design e).isReported = true ∧
      IsLine 1 largeChars e.line) := by
  have hread : lexFrom 0 1 [] largeChars >>= ofScript = .error ⟨.tableTooLarge, 1⟩ := by
    decide +kernel
  have hparse : parse (String.ofList largeChars) = .error ⟨.tableTooLarge, 1⟩ := by
    rw [← hread, parse, lex, String.toList_ofList]
  rw [hparse]
  rintro (⟨design, hok⟩ | ⟨e, herror, hreported, -⟩)
  · cases hok
  · cases herror
    cases hreported

end FuseMap.Design
