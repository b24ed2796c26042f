import FuseMap.Proofs.Compilation
import FuseMap.Proofs.Failure
import FuseMap.TruthTable.File

/-! # Well-formed tables

Tables come from design texts and from JSON. Both give tables that are complete
(`TruthTable.Complete`), and those have a sum of products. The tables of a design text moreover have
different outputs, different inputs and declared pins (`Design.WellFormed`): this holds of the state
between two statements (`Design.State.Inv`), and every statement keeps it.
-/

namespace FuseMap

/-- A table with an entry for each combination of its inputs, which are not too many. -/
structure TruthTable.Complete (t : TruthTable) : Prop where
  inputs : t.inputPins.length ≤ maxInputs
  entries : t.entries.length = combinations t.inputPins.length

theorem SumOfProducts.exists_ofTables {tables : List TruthTable}
    (h : ∀ t ∈ tables, t.Complete) : ∃ sums, ofTables tables = .ok sums := by
  apply exists_mapM_eq_ok
  intro t ht
  exact ⟨_, ofTable_eq_ok_iff.2 ⟨(h t ht).inputs, (h t ht).entries, rfl⟩⟩

/-! ## Tables in JSON -/

namespace TruthTable

/-- A table in a file is taken only if it is complete. -/
theorem complete_of_ofJson {index : Nat} {entry : Json.Value} {t : TruthTable}
    (h : ofJson index entry = .ok t) : t.Complete := by
  simp only [ofJson, throw_eq_error, error_bind, bind_eq_ok_iff, ite_error_eq_ok_iff,
    pure_eq_ok_iff, Nat.not_lt, ne_eq, not_not] at h
  obtain ⟨fields, -, -, outputPin, -, inputPins, -, entries, -, registered, -, hinputs, hentries,
    rfl⟩ := h
  exact ⟨hinputs, hentries⟩

theorem complete_of_listOfJson {v : Json.Value} {tables : List TruthTable}
    (h : listOfJson v = .ok tables) : ∀ t ∈ tables, t.Complete := by
  intro t ht
  rw [listOfJson.eq_def] at h
  split at h
  · obtain ⟨⟨entry, index⟩, -, hentry⟩ := (mem_iff_of_mapM_eq_ok h).1 ht
    exact complete_of_ofJson hentry
  · cases h

end TruthTable

/-! ## Tables of designs -/

namespace Design

/-- Names of pins and tables over them: pins and names determine each other, and the tables are
complete, have different outputs, different inputs and no other pins than the declared ones. -/
structure WellFormed (names : Names) (tables : List TruthTable) : Prop where
  pins : (names.map (·.1)).Nodup
  unique : (names.map (·.2)).Nodup
  complete : ∀ t ∈ tables, t.Complete
  inputs : ∀ t ∈ tables, t.inputPins.Nodup
  outputs : (tables.map (·.outputPin)).Nodup
  declared : ∀ t ∈ tables, ∀ pin ∈ t.outputPin :: t.inputPins, pin ∈ names.map (·.1)

section
variable {names names' : Names} {name : String} {pin : Int}

theorem mem_of_pin? (h : names.pin? name = some pin) : (pin, name) ∈ names := by
  obtain ⟨⟨pin', name'⟩, hfind, rfl⟩ := Option.map_eq_some_iff.1 h
  have hname : name' = name := by simpa using List.find?_some hfind
  exact hname ▸ List.mem_of_find?_eq_some hfind

theorem not_mem_of_pin?_isNone (h : ¬ (names.pin? name).isSome) : name ∉ names.map (·.2) := by
  rw [Names.pin?, Option.isSome_map, List.find?_isSome] at h
  intro hmem
  obtain ⟨entry, hentry, hname⟩ := List.mem_map.1 hmem
  exact h ⟨entry, hentry, by simpa using hname⟩

/-- Declaring a pin keeps pins and names apart. -/
theorem nodup_of_declare {entry : Word × Word} (h : State.declare names entry = .ok names')
    (hpins : (names.map (·.1)).Nodup) (hnames : (names.map (·.2)).Nodup) :
    (names'.map (·.1)).Nodup ∧ (names'.map (·.2)).Nodup := by
  obtain ⟨-, hname, hpin, rfl⟩ := declare_eq_ok_iff.1 h
  rw [List.map_append, List.map_append]
  constructor
  · refine List.nodup_append.2 ⟨hpins, List.nodup_singleton _, fun pin hmem pin' hmem' => ?_⟩
    rintro rfl
    obtain ⟨entry', hentry', rfl⟩ := List.mem_map.1 hmem
    exact hpin (List.any_eq_true.2 ⟨entry', hentry', by simpa using hmem'⟩)
  · refine List.nodup_append.2 ⟨hnames, List.nodup_singleton _, fun name hmem name' hmem' => ?_⟩
    rintro rfl
    have hentry : name = entry.2.text := by simpa using hmem'
    exact not_mem_of_pin?_isNone hname (hentry ▸ hmem)

theorem nodup_of_foldlM_declare {entries : List (Word × Word)}
    (h : entries.foldlM State.declare names = .ok names') (hpins : (names.map (·.1)).Nodup)
    (hnames : (names.map (·.2)).Nodup) :
    (names'.map (·.1)).Nodup ∧ (names'.map (·.2)).Nodup := by
  induction entries generalizing names with
  | nil =>
    cases h
    exact ⟨hpins, hnames⟩
  | cons entry entries ih =>
    rw [List.foldlM_cons, bind_eq_ok_iff] at h
    obtain ⟨names₁, hentry, hentries⟩ := h
    obtain ⟨hpins₁, hnames₁⟩ := nodup_of_declare hentry hpins hnames
    exact ih hentries hpins₁ hnames₁

end

/-! ## The inputs of functions -/

theorem nodup_eraseDups (l : List String) : l.eraseDups.Nodup := by
  -- what is left of the tail after a repetition is removed is no longer than the tail
  induction h : l.length using Nat.strongRecOn generalizing l with
  | ind n ih =>
    cases l with
    | nil => simp
    | cons a l =>
      rw [List.eraseDups_cons, List.nodup_cons]
      constructor
      · simp [List.mem_eraseDups]
      · refine ih _ ?_ _ rfl
        have := List.length_filter_le (fun b => !b == a) l
        simp only [List.length_cons] at h
        omega

theorem nodup_of_forall₂ {α β : Type} {R : α → β → Prop} {l : List α} {r : List β}
    (h : List.Forall₂ R l r) (hinj : ∀ {a a' b}, R a b → R a' b → a = a') (hl : l.Nodup) :
    r.Nodup := by
  induction h with
  | nil => exact List.nodup_nil
  | @cons a b l r hab h ih =>
    rw [List.nodup_cons] at hl ⊢
    refine ⟨fun hmem => ?_, ih hl.2⟩
    obtain ⟨i, hi, rfl⟩ := List.mem_iff_getElem.1 hmem
    have hR := h.get (by rw [h.length_eq]; exact hi) hi
    exact hl.1 (hinj hab hR ▸ List.get_mem _ _)

/-- Different names have different pins. -/
theorem nodup_inputPins {names : Names} {inputs : List String} {inputPins : List Int}
    (hpins : (names.map (·.1)).Nodup)
    (h : List.Forall₂ (fun name pin => names.pin? name = some pin) inputs inputPins)
    (hinputs : inputs.Nodup) : inputPins.Nodup := by
  refine nodup_of_forall₂ h (fun hname hname' => ?_) hinputs
  have hentries := List.inj_on_of_nodup_map hpins (mem_of_pin? hname) (mem_of_pin? hname') rfl
  exact congrArg Prod.snd hentries

theorem mem_pins_of_forall₂ {names : Names} {inputs : List String} {inputPins : List Int}
    (h : List.Forall₂ (fun name pin => names.pin? name = some pin) inputs inputPins) :
    ∀ pin ∈ inputPins, pin ∈ names.map (·.1) := by
  induction h with
  | nil => simp
  | cons hpin _ ih => exact List.forall_mem_cons.2 ⟨List.mem_map_of_mem (mem_of_pin? hpin), ih⟩

/-- A function has as many entries as its inputs have combinations. -/
theorem length_tabulate (e : Expr) :
    e.tabulate.length = TruthTable.combinations e.inputs.length := by
  rw [Expr.tabulate, List.length_map, List.length_range]

/-! ## The entries of tables -/

/-- A table statement that is accepted has as many entries as its inputs have combinations. -/
theorem length_of_entries {t : TableStatement} {entries : List Bool} (h : t.entries = .ok entries) :
    entries.length = TruthTable.combinations t.inputPins.length := by
  rw [TableStatement.entries] at h
  split at h
  · exact (countedEntries_eq_ok_iff.1 h).2.1
  · exact length_listedEntries h

theorem le_of_checkInputCount {output : String} {inputs line : Nat}
    (h : checkInputCount output inputs line = .ok ()) : inputs ≤ TruthTable.maxInputs := by
  rw [checkInputCount, ite_error_eq_ok_iff] at h
  exact Nat.not_lt.1 h.1

/-- What has been checked of a table when its statement has been read. -/
structure TableStatement.Checked (names : Names) (t : TableStatement) : Prop where
  nodup : t.inputPins.Nodup
  inputs : t.inputPins.length ≤ TruthTable.maxInputs
  declared : ∀ pin ∈ t.outputPin :: t.inputPins, pin ∈ names.map (·.1)

theorem checked_of_tableStatement {names : Names} {line : Nat} {lexemes rest : List Lexeme}
    {statement : Statement} (h : tableStatement names line lexemes = .ok (statement, rest)) :
    ∃ t, statement = .table t ∧ t.Checked names := by
  simp only [tableStatement, throw_eq_error, error_bind, bind_eq_ok_iff, ite_error_eq_ok_iff,
    pure_eq_ok_iff] at h
  obtain ⟨_, -, ⟨inputs, _⟩, -, _, -, ⟨output, _⟩, -, _, -, inputPins, hinputPins, outputPin,
    houtputPin, hnodup, _, hcount, ⟨m, _⟩, -, -, _, -, ⟨rows, _⟩, -, h⟩ := h
  cases h
  have hpins := (mapM_eq_ok_iff.1 hinputPins).imp fun _ _ => pin_eq_ok_iff.1
  refine ⟨_, rfl, not_not.1 hnodup, le_of_checkInputCount hcount, List.forall_mem_cons.2 ⟨?_, ?_⟩⟩
  · exact List.mem_map_of_mem (mem_of_pin? (pin_eq_ok_iff.1 houtputPin))
  · exact mem_pins_of_forall₂ (List.forall₂_map_left_iff.2 hpins)

theorem checked_of_takeStatement? {names : Names} {lexemes rest : List Lexeme} {t : TableStatement}
    (h : takeStatement? names lexemes = some (.ok (.table t, rest))) : t.Checked names := by
  unfold takeStatement? at h
  split at h
  · cases h
  · have hpins := Option.some.inj h
    simp only [pinStatement, bind_eq_ok_iff, pure_eq_ok_iff] at hpins
    obtain ⟨_, -, _, -, _, -, _, -, heq⟩ := hpins
    cases heq
  · obtain ⟨t', ht', hchecked⟩ := checked_of_tableStatement (Option.some.inj h)
    cases ht'
    exact hchecked
  · have hfunction := Option.some.inj h
    simp only [functionStatement, bind_eq_ok_iff, pure_eq_ok_iff] at hfunction
    obtain ⟨_, -, _, -, _, -, _, -, heq⟩ := hfunction
    cases heq
  · cases h

/-! ## The state between two statements -/

/-- The tables of a state are well formed, and the configured outputs are theirs. -/
structure State.Inv (s : State) : Prop where
  wellFormed : WellFormed s.names s.tables
  configured : s.configured.map (·.1) = s.tables.map (·.outputPin)

section
variable {s s' : State}

theorem State.Inv.initial : State.Inv {} where
  wellFormed := ⟨List.nodup_nil, List.nodup_nil, by simp, by simp, List.nodup_nil, by simp⟩
  configured := rfl

/-- New pins keep the invariant: tables have the pins that they had. -/
theorem State.Inv.declare (h : s.Inv) {entries : List (Word × Word)} {names : Names}
    (hnames : entries.foldlM State.declare s.names = .ok names) :
    State.Inv { s with names } where
  wellFormed := by
    obtain ⟨hpins, hunique⟩ :=
      nodup_of_foldlM_declare hnames h.wellFormed.pins h.wellFormed.unique
    refine ⟨hpins, hunique, h.wellFormed.complete, h.wellFormed.inputs, h.wellFormed.outputs, ?_⟩
    intro t ht pin hpin
    have hmem := h.wellFormed.declared t ht pin hpin
    rw [foldlM_declare_ok hnames, List.map_append]
    exact List.mem_append_left _ hmem
  configured := h.configured

/-- A table that is added keeps the invariant if its pins are declared and its inputs differ. -/
theorem State.Inv.configure (h : s.Inv) {line : Nat} {t : TruthTable}
    (hs : s.configure line t = .ok s') (hcomplete : t.Complete) (hinputs : t.inputPins.Nodup)
    (hdeclared : ∀ pin ∈ t.outputPin :: t.inputPins, pin ∈ s.names.map (·.1)) : s'.Inv := by
  rw [State.configure] at hs
  split at hs
  · cases hs
  next hnew =>
  cases hs
  have hwf := h.wellFormed
  have houtput : t.outputPin ∉ s.tables.map (·.outputPin) := by
    rw [← h.configured]
    intro hmem
    obtain ⟨entry, hentry, hpin⟩ := List.mem_map.1 hmem
    simpa [hpin] using List.lookup_eq_none_iff.1 hnew entry hentry
  refine ⟨⟨hwf.pins, hwf.unique, ?_, ?_, ?_, ?_⟩, ?_⟩
  · exact List.forall_mem_append.2 ⟨hwf.complete, by simpa using hcomplete⟩
  · exact List.forall_mem_append.2 ⟨hwf.inputs, by simpa using hinputs⟩
  · rw [List.map_append, List.map_singleton]
    refine List.nodup_append.2 ⟨hwf.outputs, List.nodup_singleton _, fun pin hpin pin' hpin' => ?_⟩
    rintro rfl
    exact houtput (List.mem_singleton.1 hpin' ▸ hpin)
  · exact List.forall_mem_append.2 ⟨hwf.declared, by simpa using hdeclared⟩
  · rw [List.map_append, List.map_append, h.configured]
    rfl

/-- The step lemma of the invariant. -/
theorem State.Inv.execute (h : s.Inv) {statement : Statement}
    (hchecked : ∀ t, statement = .table t → t.Checked s.names)
    (hs : s.execute statement = .ok s') : s'.Inv := by
  cases statement with
  | pins line numbers words =>
    simp only [State.execute, throw_eq_error, error_bind, bind_eq_ok_iff, ite_error_eq_ok_iff,
      pure_eq_ok_iff] at hs
    obtain ⟨-, names, hnames, rfl⟩ := hs
    exact h.declare hnames
  | table t =>
    simp only [State.execute, bind_eq_ok_iff] at hs
    obtain ⟨entries, hentries, hs⟩ := hs
    have ht := hchecked t rfl
    exact h.configure hs ⟨ht.inputs, length_of_entries hentries⟩ ht.nodup ht.declared
  | function f =>
    simp only [State.execute, bind_eq_ok_iff] at hs
    obtain ⟨outputPin, houtput, inputPins, hinputs, _, hcount, hs⟩ := hs
    have hpins : List.Forall₂ (fun name pin => s.names.pin? name = some pin) f.formula.inputs
        inputPins := (mapM_eq_ok_iff.1 hinputs).imp fun _ _ => pin_eq_ok_iff.1
    have hcomplete : f.formula.tabulate.length = TruthTable.combinations inputPins.length := by
      rw [length_tabulate, hpins.length_eq]
    have hnodup := nodup_inputPins h.wellFormed.pins hpins (nodup_eraseDups _)
    refine h.configure hs ⟨le_of_checkInputCount hcount, hcomplete⟩ hnodup ?_
    refine List.forall_mem_cons.2 ⟨?_, mem_pins_of_forall₂ hpins⟩
    exact List.mem_map_of_mem (mem_of_pin? (pin_eq_ok_iff.1 houtput))

/-- The run lemma of the invariant. -/
theorem State.Inv.readStatements (h : s.Inv) {n : Nat} {lexemes : List Lexeme}
    (hs : readStatements n s lexemes = .ok s') : s'.Inv := by
  induction n generalizing s lexemes with
  | zero =>
    cases hs
    exact h
  | succ n ih =>
    rw [Design.readStatements] at hs
    split at hs
    · cases hs
      exact h
    · next result hresult =>
      simp only [bind_eq_ok_iff] at hs
      obtain ⟨⟨statement, rest⟩, rfl, s₁, hexecute, hs⟩ := hs
      have h₁ : s₁.Inv := by
        refine h.execute (fun t ht => ?_) hexecute
        subst ht
        exact checked_of_takeStatement? hresult
      refine ih (s := { s₁ with statements := s₁.statements ++ [statement] }) ?_ hs
      exact ⟨h₁.wellFormed, h₁.configured⟩

end

theorem wellFormed_of_parse {text : String} {design : Design} (h : parse text = .ok design) :
    WellFormed design.names design.tables := by
  rw [parse, bind_eq_ok_iff] at h
  obtain ⟨script, -, h⟩ := h
  rw [ofScript] at h
  split at h
  · next s hread =>
    cases h
    exact (State.Inv.initial.readStatements hread).wellFormed
  · cases h

/-- Both ways to tables give well-formed ones, and these have sums of products. -/
theorem wellFormed_of_source :
    (∀ {text : String} {design : Design}, parse text = .ok design →
      WellFormed design.names design.tables ∧
        ∃ sums, SumOfProducts.ofTables design.tables = .ok sums) ∧
    (∀ {v : Json.Value} {tables : List TruthTable}, TruthTable.listOfJson v = .ok tables →
      (∀ t ∈ tables, t.Complete) ∧ ∃ sums, SumOfProducts.ofTables tables = .ok sums) := by
  constructor
  · intro text design h
    have hdesign := wellFormed_of_parse h
    exact ⟨hdesign, SumOfProducts.exists_ofTables hdesign.complete⟩
  · intro v tables h
    have htables := TruthTable.complete_of_listOfJson h
    exact ⟨htables, SumOfProducts.exists_ofTables htables⟩

theorem wellFormed_smallText : ∃ design, parse smallText = .ok design ∧
    WellFormed design.names design.tables ∧
    TruthTable.listOfJson (TruthTable.listToJson design.tables) = .ok design.tables ∧
    ∃ sums, SumOfProducts.ofTables design.tables = .ok sums := by
  obtain ⟨design, hparse, hload⟩ : ∃ design, parse smallText = .ok design ∧
    TruthTable.listOfJson (TruthTable.listToJson design.tables) = .ok design.tables := ⟨_, rfl, rfl⟩
  obtain ⟨hdesign, -⟩ := wellFormed_of_source.1 hparse
  obtain ⟨-, hsums⟩ := wellFormed_of_source.2 hload
  exact ⟨design, hparse, hdesign, hload, hsums⟩

end Design

end FuseMap
