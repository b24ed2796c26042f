import FuseMap.Proofs.CanonicalSum
import FuseMap.Proofs.Totality

/-! # Functions and their tables

A function statement is evaluated in two ways: as a tree, with values for names, and through the sum
of products of its table, with values for pins. Both give the same value for all values of the
declared pins, and neither asks for a name or a pin that has none (`tabulates_of_execute`).
-/

namespace FuseMap.Design

variable {names : Names} {pins : Int → Bool} {e : Expr} {ts : List Token} {inputPins : List Int}

/-! ## Values of declared pins -/

/-- The values of the declared pins, by pin. -/
def Names.byPin (names : Names) (pins : Int → Bool) (pin : Int) : Option Bool :=
  if pin ∈ names.map (·.1) then some (pins pin) else none

/-- The values of the declared pins, by name. -/
def Names.byName (names : Names) (pins : Int → Bool) (name : String) : Option Bool :=
  (names.pin? name).map pins

theorem Names.byName_eq_some {name : String} {pin : Int} (h : names.pin? name = some pin)
    (pins : Int → Bool) : names.byName pins name = some (names.values pins name) := by
  rw [byName, values, h]
  rfl

/-- The tree of a function has a value if its inputs are declared. -/
theorem value_tree_byName
    (h : List.Forall₂ (fun name pin => names.pin? name = some pin) e.inputs inputPins)
    (pins : Int → Bool) :
    e.tree.value (names.byName pins) = .ok (e.value (names.values pins)) := by
  refine Expr.value_tree fun name hname => ?_
  obtain ⟨i, hi, rfl⟩ := List.mem_iff_getElem.1 (List.mem_eraseDups.2 hname : name ∈ e.inputs)
  exact Names.byName_eq_some (h.get hi (h.length_eq ▸ hi)) pins

/-- The sum of a table has a value if the inputs of the table are declared. -/
theorem value?_byPin {t : TruthTable} {s : SumOfProducts} (h : SumOfProducts.ofTable t = .ok s)
    (hdeclared : ∀ pin ∈ t.inputPins, pin ∈ names.map (·.1)) (pins : Int → Bool) :
    s.value? (names.byPin pins) = .ok (s.holds pins) := by
  obtain ⟨-, -, rfl⟩ := SumOfProducts.ofTable_eq_ok_iff.1 h
  refine SumOfProducts.value?_eq_ok fun term hterm l hl => if_pos (hdeclared l.pin ?_)
  rw [← SumOfProducts.pins_of_mem_minterms hterm]
  exact List.mem_map_of_mem hl

/-! ## The table of a statement -/

/-- The table of a function that is spelled by the given tokens. -/
structure Tabulates (names : Names) (ts : List Token) (e : Expr) (t : TruthTable) : Prop where
  /-- The inputs are the pins of the names in the tokens, in the order of first use. -/
  inputs : ∃ inputs, FirstUses (ts.filterMap Token.identifier?) inputs ∧
    List.Forall₂ (fun name pin => names.pin? name = some pin) inputs t.inputPins
  entries : t.entries.length = TruthTable.combinations t.inputPins.length
  /-- The sum of the table and the tree of the function have one value. -/
  value : ∃ s, SumOfProducts.ofTable t = .ok s ∧ ∀ pins : Int → Bool, ∃ b,
    s.value? (names.byPin pins) = .ok b ∧ e.tree.value (names.byName pins) = .ok b

theorem tabulates_of_forall₂ (outputPin : Int) (registered : Bool)
    (he : Formula (.chain .or) ts e)
    (hinputs : List.Forall₂ (fun name pin => names.pin? name = some pin) e.inputs inputPins)
    (hcount : inputPins.length ≤ TruthTable.maxInputs) :
    Tabulates names ts e ⟨outputPin, registered, inputPins, e.tabulate⟩ := by
  have hlength : e.tabulate.length = TruthTable.combinations inputPins.length := by
    rw [length_tabulate, hinputs.length_eq]
  refine ⟨⟨e.inputs, he.firstUses_inputs, hinputs⟩, hlength, ?_⟩
  have hsum := SumOfProducts.ofTable_eq_ok_iff (t := ⟨outputPin, registered, inputPins, e.tabulate⟩)
    |>.2 ⟨hcount, hlength, rfl⟩
  refine ⟨_, hsum, fun pins => ⟨_, value?_byPin hsum (mem_pins_of_forall₂ hinputs) pins, ?_⟩⟩
  -- both values are the entry for the values of the inputs
  have hsumValue := SumOfProducts.getElem?_index_of_ofTable hsum pins
  have htreeValue := e.getElem?_tabulate (names.values pins)
  rw [← Agree.map_eq (agree_values names pins) hinputs] at htreeValue
  rw [value_tree_byName hinputs pins, Option.some.inj (hsumValue.symm.trans htreeValue)]

/-- The tokens of a function statement. -/
theorem spells_of_function {lexemes rest : List Lexeme} {f : FunctionStatement}
    (h : takeStatement? names lexemes = some (.ok (.function f, rest))) :
    ∃ front ts, lexemes = front ++ rest ∧ Formula (.chain .or) ts f.formula ∧
      tokens front = .identifier f.output.text :: (registeredMark f.registered ++
        .symbol .equals :: (ts ++ [.symbol .semicolon])) := by
  obtain ⟨front, sentence, hlexemes, hspells, hreads⟩ := takeStatement?_sound h
  cases hreads
  generalize htokens : tokens front = us at hspells
  cases hspells with
  | @function _ _ ts _ he => exact ⟨front, ts, hlexemes, he, htokens⟩

/-- A function statement that is read and carried out adds the table of its function: the inputs are
the pins of the names in the expression, in the order of first use, there is an entry for each of
their combinations, and the sum of the table has the value of the tree. -/
theorem tabulates_of_execute {s s' : State} {lexemes rest : List Lexeme} {f : FunctionStatement}
    (htake : takeStatement? s.names lexemes = some (.ok (.function f, rest)))
    (hexecute : s.execute (.function f) = .ok s') :
    ∃ front ts t, lexemes = front ++ rest ∧ Formula (.chain .or) ts f.formula ∧
      tokens front = .identifier f.output.text :: (registeredMark f.registered ++
        .symbol .equals :: (ts ++ [.symbol .semicolon])) ∧
      s'.tables = s.tables ++ [t] ∧ s.names.pin? f.output.text = some t.outputPin ∧
      t.registered = f.registered ∧ Tabulates s.names ts f.formula t := by
  obtain ⟨front, ts, hlexemes, he, htokens⟩ := spells_of_function htake
  simp only [State.execute, bind_eq_ok_iff] at hexecute
  obtain ⟨outputPin, houtput, inputPins, hinputs, _, hcount, hconfigure⟩ := hexecute
  have hpins := (mapM_eq_ok_iff.1 hinputs).imp fun _ _ => pin_eq_ok_iff.1
  exact ⟨front, ts, _, hlexemes, he, htokens, (configure_ok hconfigure).2,
    pin_eq_ok_iff.1 houtput, rfl,
    tabulates_of_forall₂ _ _ he hpins (le_of_checkInputCount hcount)⟩

/-- Names for the function of `sampleLexemes`, and one that it does not use. -/
def sampleNames : Names := [(9, "b"), (2, "c"), (4, "a"), (7, "y")]

theorem tabulates_sample : ∃ s' ts t,
    takeStatement? sampleNames sampleLexemes =
      some (.ok (.function ⟨⟨"y", 1⟩, false, sampleFormula⟩, [])) ∧
    State.execute { names := sampleNames } (.function ⟨⟨"y", 1⟩, false, sampleFormula⟩) = .ok s' ∧
    tokens sampleLexemes = .identifier "y" :: .symbol .equals :: (ts ++ [.symbol .semicolon]) ∧
    s'.tables = [t] ∧ t.inputPins = [4, 9] ∧ Tabulates sampleNames ts sampleFormula t := by
  have htake : takeStatement? sampleNames sampleLexemes =
      some (.ok (.function ⟨⟨"y", 1⟩, false, sampleFormula⟩, [])) := rfl
  obtain ⟨s', hexecute, hinputs⟩ : ∃ s' : State,
    State.execute { names := sampleNames } (.function ⟨⟨"y", 1⟩, false, sampleFormula⟩) = .ok s' ∧
      s'.tables.map (·.inputPins) = [[4, 9]] := ⟨_, rfl, rfl⟩
  obtain ⟨front, ts, t, hfront, -, htokens, htables, -, -, htabulates⟩ :=
    tabulates_of_execute (s := { names := sampleNames }) htake hexecute
  rw [List.append_nil] at hfront
  rw [htables] at hinputs
  exact ⟨s', ts, t, htake, hexecute, hfront ▸ htokens, htables, by simpa using hinputs, htabulates⟩

end FuseMap.Design
