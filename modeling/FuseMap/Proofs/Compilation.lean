import FuseMap.Design.Parser
import FuseMap.Proofs.FuseFile
import FuseMap.Proofs.Lexing
import FuseMap.Proofs.Meaning
import FuseMap.Proofs.Program

/-! # Compilation keeps meanings

The statements of a text are those that its tokens spell (`Reading`). Carrying them out one after
the other declares their pins and leaves a table for each output that has the entries its statement
gives (`Executed`). Since an array computes its tables and a file holds its array, the fuses in the
file of a text compute what the text says (`realizes_of_compiled`).
-/

namespace FuseMap.Design

/-- The text consists of the given statements. -/
def Reading (text : String) (ss : List Sentence) : Prop :=
  ∃ ts, Written text.toList ts ∧ SpellsAll ts ss

/-- The value of a name when the pins have the given values. -/
def Names.values (names : Names) (pins : Int → Bool) (name : String) : Bool :=
  (names.pin? name).any pins

/-- The fuses make the output of a statement have the value that the statement gives it. -/
def Realizes (d : Device) (names : Names) (fuses : List Fuse) (s : Sentence) : Prop :=
  ∀ y, s.output? = some y → ∃ pin o, names.pin? y = some pin ∧ d.output pin = .ok o ∧
    ∀ pins, s.value? (names.values pins) = some (d.outputValue fuses pins o)

/-! ## Tables of statements -/

section
variable {names : Names} {pins : Int → Bool} {w : String → Bool}

/-- Later declarations do not change the pin of a name. -/
theorem Names.pin?_append {name : String} {pin : Int} (h : names.pin? name = some pin)
    (more : Names) : (names ++ more).pin? name = some pin := by
  obtain ⟨entry, hentry, rfl⟩ := Option.map_eq_some_iff.1 h
  rw [Names.pin?, List.find?_append, hentry, Option.some_or, Option.map_some]

/-- The names have the values of their pins. -/
def Agree (names : Names) (pins : Int → Bool) (w : String → Bool) : Prop :=
  ∀ {name pin}, names.pin? name = some pin → w name = pins pin

theorem agree_values (names : Names) (pins : Int → Bool) : Agree names pins (names.values pins) :=
  fun h => by rw [Names.values, h, Option.any_some]

/-- The values of the input pins are those of their names. -/
theorem Agree.map_eq {inputs : List String} {inputPins : List Int} (hagree : Agree names pins w)
    (h : List.Forall₂ (fun name pin => names.pin? name = some pin) inputs inputPins) :
    inputPins.map pins = inputs.map w := by
  induction h with
  | nil => rfl
  | cons hpin _ ih => rw [List.map_cons, List.map_cons, ih, hagree hpin]

/-- The table of an output has the entries that a statement gives. -/
structure Computes (names : Names) (t : TruthTable) (y : String) (s : Sentence) : Prop where
  output : names.pin? y = some t.outputPin
  value : ∀ {pins w}, Agree names pins w → t.entries[t.index pins]? = s.value? w

/-- A table computes its statement also after further declarations. -/
theorem Computes.append {t : TruthTable} {y : String} {s : Sentence} (h : Computes names t y s)
    (more : Names) : Computes (names ++ more) t y s where
  output := Names.pin?_append h.output more
  value hagree := h.value fun hpin => hagree (Names.pin?_append hpin more)

/-- The table of a table statement has the entries that its rows say. -/
theorem computes_table {t : TableStatement} {inputs : List String} {output : String}
    {modifiers : List Modifier} {entries : List Bool}
    (hinputs : List.Forall₂ (fun name pin => names.pin? name = some pin) inputs t.inputPins)
    (houtput : names.pin? output = some t.outputPin)
    (hform : t.form = (Modifiers.ofList modifiers).form) (h : t.entries = .ok entries) :
    Computes names ⟨t.outputPin, t.registered, t.inputPins, entries⟩ output
      (.table inputs output modifiers (t.rows.map (·.text))) where
  output := houtput
  value {pins w} hagree := by
    have hlen : (inputs.map w).length = t.inputPins.length := by
      rw [List.length_map, hinputs.length_eq]
    rw [TableStatement.entries] at h
    simp only [TruthTable.index, Sentence.value?, ← hform, hagree.map_eq hinputs]
    cases hrows : t.form with
    | counting =>
      rw [hrows] at h
      rw [countedEntries_ok h]
    | listed fill =>
      rw [hrows] at h
      exact listedEntries_ok h hlen

theorem computes_function {f : FunctionStatement} {outputPin : Int} {inputPins : List Int}
    (houtput : names.pin? f.output.text = some outputPin)
    (hinputs : List.Forall₂ (fun name pin => names.pin? name = some pin) f.formula.inputs
      inputPins) :
    Computes names ⟨outputPin, f.registered, inputPins, f.formula.tabulate⟩ f.output.text
      (.function f.output.text f.registered f.formula) where
  output := houtput
  value {pins w} hagree := by
    simp only [TruthTable.index, Sentence.value?, hagree.map_eq hinputs]
    exact f.formula.getElem?_tabulate w

end

/-! ## Carrying out statements -/

/-- What carrying out statements does to a state. -/
structure Executed (s : State) (ss : List Sentence) (s' : State) : Prop where
  names : s'.names = s.names ++ ss.flatMap Sentence.declarations
  tables : s.tables ⊆ s'.tables
  computes : ∀ sentence ∈ ss, ∀ y, sentence.output? = some y →
    ∃ t ∈ s'.tables, Computes s'.names t y sentence

section
variable {s s' s'' : State} {sentence : Sentence} {statement : Statement}

theorem Executed.refl (s : State) : Executed s [] s :=
  ⟨(List.append_nil _).symm, List.Subset.refl _, by simp⟩

theorem Executed.trans {ss ss' : List Sentence} (h : Executed s ss s')
    (h' : Executed s' ss' s'') : Executed s (ss ++ ss') s'' := by
  refine ⟨?_, List.Subset.trans h.tables h'.tables, fun sentence hmem y hy => ?_⟩
  · rw [h'.names, h.names, List.flatMap_append, List.append_assoc]
  · obtain hmem | hmem := List.mem_append.1 hmem
    · obtain ⟨t, ht, hcomputes⟩ := h.computes sentence hmem y hy
      exact ⟨t, h'.tables ht, h'.names ▸ hcomputes.append _⟩
    · exact h'.computes sentence hmem y hy

/-- A pin is declared if its number can be read, and neither its name nor its number has been
declared before. -/
theorem declare_eq_ok_iff {names names' : Names} {entry : Word × Word} :
    State.declare names entry = .ok names' ↔
      entry.1.text.toList.length ≤ Text.maxDigits ∧ ¬ (names.pin? entry.2.text).isSome ∧
      ¬ names.any (·.1 == (Text.digitsValue entry.1.text.toList : Int)) ∧
      names' = names ++ [((Text.digitsValue entry.1.text.toList : Int), entry.2.text)] := by
  simp only [State.declare, ite_error_eq_ok_iff, Except.ok.injEq, Nat.not_lt, eq_comm (a := names')]

theorem foldlM_declare_ok {names names' : Names} {entries : List (Word × Word)}
    (h : entries.foldlM State.declare names = .ok names') :
    names' = names ++ entries.map fun entry =>
      ((Text.digitsValue entry.1.text.toList : Int), entry.2.text) := by
  induction entries generalizing names with
  | nil =>
    cases h
    rw [List.map_nil, List.append_nil]
  | cons entry entries ih =>
    rw [List.foldlM_cons, bind_eq_ok_iff] at h
    obtain ⟨names₁, hentry, hentries⟩ := h
    obtain ⟨-, -, -, rfl⟩ := declare_eq_ok_iff.1 hentry
    rw [ih hentries, List.append_assoc, List.singleton_append, List.map_cons]

theorem configure_ok {line : Nat} {t : TruthTable} (h : s.configure line t = .ok s') :
    s'.names = s.names ∧ s'.tables = s.tables ++ [t] := by
  rw [State.configure] at h
  split at h
  · cases h
  · cases h
    exact ⟨rfl, rfl⟩

/-- A statement that adds the table it gives. -/
theorem executed_of_configure {line : Nat} {t : TruthTable} {y : String}
    (h : s.configure line t = .ok s') (hdecl : sentence.declarations = [])
    (hy : sentence.output? = some y) (hcomputes : Computes s.names t y sentence) :
    Executed s [sentence] s' := by
  obtain ⟨hnames, htables⟩ := configure_ok h
  refine ⟨by simp [hnames, hdecl], by simp [htables], fun sentence' hmem y' hy' => ?_⟩
  obtain rfl := List.mem_singleton.1 hmem
  cases hy.symm.trans hy'
  exact ⟨t, by simp [htables], hnames ▸ hcomputes⟩

/-- The step lemma: one statement does to the state what its sentence says. -/
theorem executed_of_execute (hreads : statement.Reads s.names sentence)
    (h : s.execute statement = .ok s') : Executed s [sentence] s' := by
  cases hreads with
  | @pins line numbers words =>
    simp only [State.execute, throw_eq_error, error_bind, bind_eq_ok_iff, ite_error_eq_ok_iff,
      pure_eq_ok_iff] at h
    obtain ⟨-, names, hnames, rfl⟩ := h
    refine ⟨?_, List.Subset.refl _, by simp [Sentence.output?]⟩
    simp [foldlM_declare_ok hnames, Sentence.declarations, List.zip_map, Function.comp_def]
  | @table t inputs output modifiers hinputs houtput hregistered hform =>
    simp only [State.execute, bind_eq_ok_iff] at h
    obtain ⟨entries, hentries, h⟩ := h
    exact executed_of_configure h rfl rfl (computes_table hinputs houtput hform hentries)
  | @function f =>
    simp only [State.execute, bind_eq_ok_iff] at h
    obtain ⟨outputPin, houtput, inputPins, hinputs, -, -, h⟩ := h
    have hpins := (mapM_eq_ok_iff.1 hinputs).imp fun _ _ => pin_eq_ok_iff.1
    exact executed_of_configure h rfl rfl (computes_function (pin_eq_ok_iff.1 houtput) hpins)

theorem eq_nil_of_takeStatement? {names : Names} {lexemes : List Lexeme}
    (h : takeStatement? names lexemes = none) : lexemes = [] := by
  unfold takeStatement? at h
  split at h
  · rfl
  all_goals cases h

/-- The run lemma: statements one after the other do to the state what their sentences say. -/
theorem executed_of_readStatements {n : Nat} {lexemes : List Lexeme} (hlen : lexemes.length ≤ n)
    (h : readStatements n s lexemes = .ok s') :
    ∃ ss, SpellsAll (tokens lexemes) ss ∧ Executed s ss s' := by
  induction n generalizing s lexemes with
  | zero =>
    cases h
    obtain rfl := List.length_eq_zero_iff.1 (Nat.le_zero.1 hlen)
    exact ⟨[], .nil, .refl _⟩
  | succ n ih =>
    rw [readStatements] at h
    split at h
    · next hnone =>
      cases h
      obtain rfl := eq_nil_of_takeStatement? hnone
      exact ⟨[], .nil, .refl _⟩
    · next result hresult =>
      simp only [bind_eq_ok_iff] at h
      obtain ⟨⟨statement, rest⟩, rfl, s₁, hexecute, h⟩ := h
      -- a statement has a token, so that the bound leaves enough for those after it
      have hrest : rest.length ≤ n :=
        Nat.lt_succ_iff.1 (Nat.lt_of_lt_of_le (length_lt_of_takeStatement? hresult) hlen)
      obtain ⟨ss, hss, hexecuted⟩ := ih hrest h
      obtain ⟨front, sentence, rfl, hspells, hreads⟩ := takeStatement?_sound hresult
      have hfirst := executed_of_execute hreads hexecute
      refine ⟨sentence :: ss, by simpa using .cons hspells hss, ?_⟩
      exact hfirst.trans ⟨hexecuted.names, hexecuted.tables, hexecuted.computes⟩

end

/-! ## From the text to the file -/

/-- A text that is accepted is made up of statements, each of which has a table that computes it. -/
theorem reading_of_parse {text : String} {design : Design} (h : parse text = .ok design) :
    ∃ ss, Reading text ss ∧ design.names = ss.flatMap Sentence.declarations ∧
      ∀ s ∈ ss, ∀ y, s.output? = some y → ∃ t ∈ design.tables, Computes design.names t y s := by
  rw [parse, bind_eq_ok_iff] at h
  obtain ⟨script, hlex, h⟩ := h
  rw [ofScript] at h
  split at h
  · next s hread =>
    cases h
    obtain ⟨ss, hss, hexecuted⟩ := executed_of_readStatements (Nat.le_refl _) hread
    exact ⟨ss, ⟨_, written_of_lex hlex, hss⟩, by simpa using hexecuted.names, hexecuted.computes⟩
  · cases h

/-- A text has one reading: the lexer is a function, and tokens spell statements in one way. -/
theorem Reading.unique {text : String} {ss ss' : List Sentence} (h : Reading text ss)
    (h' : Reading text ss') : ss = ss' := by
  obtain ⟨ts, hts, hspells⟩ := h
  obtain ⟨ts', hts', hspells'⟩ := h'
  obtain ⟨script, hlex, rfl⟩ := lex_of_written hts
  obtain ⟨script', hlex', rfl⟩ := lex_of_written hts'
  cases hlex.symm.trans hlex'
  exact hspells.unique hspells'

/-- The fuses of a design are those that are read back from its file. -/
theorem readFuses_of_render {d : Device} {tables : List TruthTable} {a : FuseArray} {file : String}
    (hshared : ∀ row ∈ d.profile.sharedRows, 0 ≤ row.2) (hprogram : d.program tables = .ok a)
    (hrender : Jedec.render d a.fuses = .ok file) :
    Jedec.readFuses d.profile.deviceName file.toList = a.fuses := by
  obtain ⟨start, blocks, hprogrammed⟩ := Device.program_ok hprogram
  obtain ⟨hlen, -, rfl⟩ := Jedec.render_eq_ok_iff.1 hrender
  have hrecords := Jedec.FuseFile.records_ofFuses hshared hlen hprogrammed.bits
  rw [String.toList_ofList]
  exact (hrecords.readFuses_text _).trans hrecords.rebuilt

/-- The fuses in the file that is made of a text compute what the text says: the text is a sequence
of statements in exactly one way, and the output of each function and each table has the value that
the statement gives it, whatever the values of the pins are. -/
theorem realizes_of_compiled {d : Device} {text file : String} {design : Design} {a : FuseArray}
    (hcols : d.profile.columnPins ≠ []) (hshared : ∀ row ∈ d.profile.sharedRows, 0 ≤ row.2)
    (hparse : parse text = .ok design) (hprogram : d.program design.tables = .ok a)
    (hrender : Jedec.render d a.fuses = .ok file) :
    ∃ ss, Reading text ss ∧ (∀ ss', Reading text ss' → ss' = ss) ∧
      design.names = ss.flatMap Sentence.declarations ∧
      ∀ s ∈ ss, Realizes d design.names (Jedec.readFuses d.profile.deviceName file.toList) s := by
  obtain ⟨ss, hss, hnames, hcomputes⟩ := reading_of_parse hparse
  refine ⟨ss, hss, fun ss' hss' => hss'.unique hss, hnames, fun s hs y hy => ?_⟩
  obtain ⟨t, ht, hvalue⟩ := hcomputes s hs y hy
  obtain ⟨start, blocks, hprogrammed⟩ := Device.program_ok hprogram
  obtain ⟨o, ho, houtput⟩ := hprogrammed.outputValue_eq hcols ht
  refine ⟨t.outputPin, o, hvalue.output, ho, fun pins => ?_⟩
  rw [readFuses_of_render hshared hprogram hrender, ← houtput pins]
  exact (hvalue.value (agree_values design.names pins)).symm

/-- A text for the small device, whose tables are `Device.smallTables`. -/
def smallText : String :=
  "pin 1, 2 = a, b; pin 3, 4 = x, y; x.dff = a ? b; table(b, a -> y).fill(0) \x7b 11 1 \x7d"

/-- The statements of the text. -/
def smallSentences : List Sentence :=
  [.pins ["1", "2"] ["a", "b"], .pins ["3", "4"] ["x", "y"],
    .function "x" true (.xor (.pin "a") (.pin "b")),
    .table ["b", "a"] "y" [.fill false] ["11", "1"]]

theorem reading_smallText : Reading smallText smallSentences := by
  have hformula : Formula (.chain .or) [.identifier "a", .symbol .xor, .identifier "b"]
      (.xor (.pin "a") (.pin "b")) :=
    .single (@Formula.join .xor _ _ _ _ (.single (.single .pin)) (.single .pin))
  have hspells : SpellsAll _ smallSentences :=
    .cons (.pins (by simp) (by simp)) <| .cons (.pins (by simp) (by simp)) <|
      .cons (.function hformula) <| .cons (.table (by simp)) .nil
  obtain ⟨script, hlex, htokens⟩ : ∃ script, lex smallText = .ok script ∧
      SpellsAll (tokens script.lexemes) smallSentences := ⟨_, rfl, hspells⟩
  exact ⟨_, written_of_lex hlex, htokens⟩

theorem realizes_smallText : ∃ design a file, parse smallText = .ok design ∧
    Device.small.program design.tables = .ok a ∧ Jedec.render .small a.fuses = .ok file ∧
    ∀ s ∈ smallSentences,
      Realizes .small design.names (Jedec.readFuses "SMALL" file.toList) s := by
  obtain ⟨design, a, file, hparse, hprogram, hrender⟩ : ∃ design a file,
    parse smallText = .ok design ∧ Device.small.program design.tables = .ok a ∧
      Jedec.render .small a.fuses = .ok file := ⟨_, _, _, rfl, rfl, rfl⟩
  obtain ⟨ss, -, hunique, -, hrealizes⟩ :=
    realizes_of_compiled (d := .small) (by decide) (by decide) hparse hprogram hrender
  cases hunique _ reading_smallText
  exact ⟨design, a, file, hparse, hprogram, hrender, hrealizes⟩

end FuseMap.Design
