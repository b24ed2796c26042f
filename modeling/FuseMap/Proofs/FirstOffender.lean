import FuseMap.Proofs.ValidTables
import Mathlib.Data.List.Duplicate

/-! # The table that validation points at

Validation goes through the tables and remembers the output pins that it has seen, and in each table
it goes through the input pins in the same way. What it decides in the end has no such order: all
tables pass exactly if their pins are valid and no output is configured twice. If they do not pass,
the error belongs to the first table with a fault (`FirstOffender`), counted from the front of the
list, and says what the fault is (`PinFault`).
-/

namespace FuseMap.Device

variable {d : Device} {e : Error} {configured : List Int} {t : TruthTable}
  {tables : List TruthTable}

/-- What can be wrong with the pins of a table if the given output pins are configured before it,
and the error that says so. -/
inductive PinFault (d : Device) (configured : List Int) (t : TruthTable) : Error → Prop
  | illegalOutput : t.outputPin ∉ d.profile.outputPins →
    PinFault d configured t (.illegalOutput t.outputPin d.identifier)
  | repeatedOutput : t.outputPin ∈ configured →
    PinFault d configured t (.repeatedOutput t.outputPin)
  | illegalInput {pin : Int} : pin ∈ t.inputPins → pin ∉ d.profile.inputPins →
    PinFault d configured t (.illegalInput pin t.outputPin d.identifier)
  | repeatedInput {pin : Int} : List.Duplicate pin t.inputPins →
    PinFault d configured t (.repeatedInput pin t.outputPin)

/-- A table with a fault, while the tables before it have none. -/
structure FirstOffender (d : Device) (tables : List TruthTable) (i : Nat) (t : TruthTable)
    (e : Error) : Prop where
  table : tables[i]? = some t
  fault : d.PinFault ((tables.take i).map (·.outputPin)) t e
  first : ∀ j < i, ∀ t', tables[j]? = some t' →
    ∀ e', ¬ d.PinFault ((tables.take j).map (·.outputPin)) t' e'

/-! ## Faults -/

theorem PinFault.outputPin (h : d.PinFault configured t e) : e.outputPin? = some t.outputPin := by
  cases h <;> rfl

theorem PinFault.congr {configured' : List Int} (h : d.PinFault configured t e)
    (hmem : t.outputPin ∈ configured → t.outputPin ∈ configured') :
    d.PinFault configured' t e := by
  cases h with
  | illegalOutput houtput => exact .illegalOutput houtput
  | repeatedOutput houtput => exact .repeatedOutput (hmem houtput)
  | illegalInput hpin hinput => exact .illegalInput hpin hinput
  | repeatedInput hpin => exact .repeatedInput hpin

theorem ValidPins.not_pinFault (h : d.ValidPins t) (hnew : t.outputPin ∉ configured) :
    ¬ d.PinFault configured t e := by
  intro hfault
  cases hfault with
  | illegalOutput houtput => exact houtput h.output
  | repeatedOutput houtput => exact hnew houtput
  | illegalInput hpin hinput => exact hinput (h.inputs _ hpin)
  | repeatedInput hpin => exact hpin.not_nodup h.nodup

/-- Tables with valid pins and different outputs are at fault nowhere. -/
theorem not_pinFault_of_valid (hvalid : ∀ t ∈ tables, d.ValidPins t)
    (hnodup : (tables.map (·.outputPin)).Nodup) {j : Nat} (hj : tables[j]? = some t) :
    ¬ d.PinFault ((tables.take j).map (·.outputPin)) t e := by
  refine (hvalid t (List.mem_of_getElem? hj)).not_pinFault fun hmem => ?_
  obtain ⟨hlt, rfl⟩ := List.getElem?_eq_some_iff.1 hj
  rw [← List.take_append_drop j tables, List.drop_eq_getElem_cons hlt, List.map_append,
    List.nodup_append] at hnodup
  exact hnodup.2.2 _ hmem _ (List.mem_map_of_mem List.mem_cons_self) rfl

/-! ## Where validation stops -/

theorem validateInputs_error {outputPin : Int} {seen inputPins : List Int}
    (h : d.validateInputs outputPin seen inputPins = .error e) :
    (∃ pin ∈ inputPins, pin ∉ d.profile.inputPins ∧
        e = .illegalInput pin outputPin d.identifier) ∨
      ∃ pin ∈ inputPins, (pin ∈ seen ∨ List.Duplicate pin inputPins) ∧
        e = .repeatedInput pin outputPin := by
  induction inputPins generalizing seen with
  | nil => cases h
  | cons pin inputPins ih =>
    simp only [validateInputs, ite_error_eq_error_iff] at h
    rcases h with ⟨hinput, rfl⟩ | ⟨-, ⟨hseen, rfl⟩ | ⟨-, h⟩⟩
    · exact .inl ⟨pin, List.mem_cons_self, hinput, rfl⟩
    · exact .inr ⟨pin, List.mem_cons_self, .inl hseen, rfl⟩
    · rcases ih h with ⟨pin', hpin', hinput, rfl⟩ | ⟨pin', hpin', hrepeated, rfl⟩
      · exact .inl ⟨pin', List.mem_cons_of_mem _ hpin', hinput, rfl⟩
      · refine .inr ⟨pin', List.mem_cons_of_mem _ hpin', ?_, rfl⟩
        rcases hrepeated with hseen | hlater
        · rcases List.mem_cons.1 hseen with rfl | hseen
          · exact .inr (List.Duplicate.cons_mem hpin')
          · exact .inl hseen
        · exact .inr (hlater.duplicate_cons pin)

/-- Validation goes through valid tables up to one with a fault. -/
theorem validateFrom_error (h : d.validateFrom configured tables = .error e) :
    ∃ front t back, tables = front ++ t :: back ∧ d.validateFrom configured front = .ok () ∧
      d.PinFault (front.map (·.outputPin) ++ configured) t e := by
  induction tables generalizing configured with
  | nil => cases h
  | cons t tables ih =>
    simp only [validateFrom, throw_eq_error, error_bind, ite_error_eq_error_iff,
      bind_eq_error_iff, not_not] at h
    rcases h with ⟨houtput, rfl⟩ | ⟨houtput, ⟨hrepeated, rfl⟩ | ⟨hnew, h⟩⟩
    · exact ⟨[], t, tables, rfl, rfl, .illegalOutput houtput⟩
    · exact ⟨[], t, tables, rfl, rfl, .repeatedOutput hrepeated⟩
    rcases h with h | ⟨⟨⟩, hinputs, h⟩
    · refine ⟨[], t, tables, rfl, rfl, ?_⟩
      rcases validateInputs_error h with ⟨pin, hpin, hinput, rfl⟩ | ⟨pin, hpin, hrepeated, rfl⟩
      · exact .illegalInput hpin hinput
      · exact .repeatedInput (hrepeated.resolve_left List.not_mem_nil)
    · obtain ⟨front, t', back, rfl, hfront, hfault⟩ := ih h
      refine ⟨t :: front, t', back, rfl, ?_, hfault.congr fun hmem => ?_⟩
      · simp only [validateFrom, if_neg (not_not.2 houtput), if_neg hnew, hinputs]
        exact hfront
      · simpa [or_left_comm] using hmem

theorem firstOffender_of_validate (h : d.validate tables = .error e) :
    ∃ i t, d.FirstOffender tables i t e := by
  obtain ⟨front, t, back, rfl, hfront, hfault⟩ := validateFrom_error h
  obtain ⟨hvalid, hnodup⟩ := validate_eq_ok_iff.1 hfront
  refine ⟨front.length, t, by simp, by simpa using hfault, fun j hj t' ht' e' => ?_⟩
  rw [List.getElem?_append_left hj] at ht'
  rw [List.take_append_of_le_length (Nat.le_of_lt hj)]
  exact not_pinFault_of_valid hvalid hnodup ht'

/-- Tables pass exactly if their output pins and the input pins of each of them are legal and
different from each other. Otherwise the error is that of the first table with a fault, and names
its output pin. -/
theorem validate_exact (d : Device) (tables : List TruthTable) :
    (d.validate tables = .ok () ↔
      ((∀ t ∈ tables, t.outputPin ∈ d.profile.outputPins) ∧ (tables.map (·.outputPin)).Nodup) ∧
        ∀ t ∈ tables, (∀ pin ∈ t.inputPins, pin ∈ d.profile.inputPins) ∧ t.inputPins.Nodup) ∧
    (d.validate tables ≠ .ok () → ∃ i t e, d.validate tables = .error e ∧
      d.FirstOffender tables i t e ∧ e.outputPin? = some t.outputPin) := by
  constructor
  · rw [validate_eq_ok_iff]
    constructor
    · rintro ⟨hvalid, hnodup⟩
      exact ⟨⟨fun t ht => (hvalid t ht).output, hnodup⟩,
        fun t ht => ⟨(hvalid t ht).inputs, (hvalid t ht).nodup⟩⟩
    · rintro ⟨⟨houtputs, hnodup⟩, hinputs⟩
      exact ⟨fun t ht => ⟨houtputs t ht, (hinputs t ht).1, (hinputs t ht).2⟩, hnodup⟩
  · intro hrefused
    cases hresult : d.validate tables with
    | ok => exact absurd hresult hrefused
    | error e =>
      obtain ⟨i, t, hfirst⟩ := firstOffender_of_validate hresult
      exact ⟨i, t, e, rfl, hfirst, hfirst.fault.outputPin⟩

/-- The second table lists an input twice, and the third one shares the output of the first. -/
def smallOffenders : List TruthTable := [follows 3 false 1, ⟨4, true, [1, 2, 1], []⟩, never 3]

theorem validate_smallOffenders : small.validate smallOffenders ≠ .ok () ∧
    ∃ i t e, small.validate smallOffenders = .error e ∧
      small.FirstOffender smallOffenders i t e ∧ e.outputPin? = some t.outputPin ∧
        e = .repeatedInput 1 4 := by
  have hrefused : small.validate smallOffenders = .error (.repeatedInput 1 4) := rfl
  obtain ⟨i, t, e, he, hfirst, hpin⟩ :=
    (validate_exact small smallOffenders).2 (by rw [hrefused]; nofun)
  refine ⟨by rw [hrefused]; nofun, i, t, e, he, hfirst, hpin, ?_⟩
  exact Except.error.inj (he.symm.trans hrefused)

end FuseMap.Device
