import FuseMap.Design.Statement
import FuseMap.Proofs.Success
import FuseMap.SumOfProducts.Basic

/-! # Minterms

The values of the input pins, read as a binary number, are the index of an entry of a truth table
(`TruthTable.index`). The minterm of an index is true for the values that make up this index and
for no others (`ProductTerm.holds_ofBits`), so that the sum of a table has the value of the entry
(`SumOfProducts.getElem?_index_of_ofTable`).
-/

namespace FuseMap

/-! ## Binary numbers -/

theorem TruthTable.combinations_succ (n : Nat) : combinations (n + 1) = combinations n * 2 := rfl

theorem TruthTable.combinations_pos (n : Nat) : 0 < combinations n := Nat.two_pow_pos n

namespace Design

theorem bitsValue_cons (b : Bool) (bits : List Bool) :
    bitsValue (b :: bits) = b.toNat * TruthTable.combinations bits.length + bitsValue bits := by
  -- every further digit doubles what stands before it
  suffices h : ∀ value, bits.foldl (fun value bit => 2 * value + bit.toNat) value =
      value * TruthTable.combinations bits.length + bitsValue bits by
    simpa [bitsValue] using h b.toNat
  induction bits with
  | nil => simp [bitsValue, TruthTable.combinations]
  | cons c bits ih =>
    intro value
    have hc : bitsValue (c :: bits) = _ := ih (2 * 0 + c.toNat)
    rw [List.foldl_cons, ih, hc, List.length_cons, TruthTable.combinations_succ]
    grind

theorem bitsValue_lt (bits : List Bool) :
    bitsValue bits < TruthTable.combinations bits.length := by
  induction bits with
  | nil => decide
  | cons b bits ih =>
    rw [bitsValue_cons, List.length_cons, TruthTable.combinations_succ]
    cases b <;> simp only [Bool.toNat_false, Bool.toNat_true] <;> omega

end Design

/-! ## The entry for an assignment -/

/-- The index of the entry of a table for given values of the pins: the number whose binary digits
they are, that of the first input pin being the most significant one. -/
def TruthTable.index (t : TruthTable) (pins : Int → Bool) : Nat :=
  Design.bitsValue (t.inputPins.map pins)

/-- The first literal of a minterm belongs to the most significant digit of its index. -/
theorem ProductTerm.ofBits_cons (k : Nat) (pin : Int) (rest : List Int) :
    ofBits k (pin :: rest) =
      ⟨pin, k / TruthTable.combinations rest.length % 2 == 0⟩ :: ofBits k rest := by
  have hbit : ((k : Int) / TruthTable.combinations rest.length % 2 == 0) =
      (k / TruthTable.combinations rest.length % 2 == 0) := by
    rw [← Int.natCast_ediv, beq_eq_beq]
    omega
  rw [ofBits, hbit]

/-- A term with all inputs is true for one combination of them. -/
theorem ProductTerm.holds_ofBits (pins : Int → Bool) (k : Nat) (inputPins : List Int) :
    (ofBits k inputPins).holds pins = true ↔
      k % TruthTable.combinations inputPins.length = Design.bitsValue (inputPins.map pins) := by
  induction inputPins with
  | nil => simp [ofBits, holds, Design.bitsValue, TruthTable.combinations, Nat.mod_one]
  | cons pin rest ih =>
    have hlt := Design.bitsValue_lt (rest.map pins)
    have hmod := Nat.mod_lt k (TruthTable.combinations_pos rest.length)
    rw [List.length_map] at hlt
    rw [List.map_cons, Design.bitsValue_cons, List.length_map, List.length_cons,
      TruthTable.combinations_succ, Nat.mod_mul, ofBits_cons, holds, List.all_cons,
      Bool.and_eq_true, ← holds, ih, Literal.holds]
    -- the first digit is the quotient, the others are the remainder
    rcases Nat.mod_two_eq_zero_or_one (k / TruthTable.combinations rest.length) with h | h <;>
      cases pins pin <;> simp [h] <;> omega

/-- A minterm names the input pins in their order. -/
theorem ProductTerm.pins_ofBits (bits : Int) (inputPins : List Int) :
    (ofBits bits inputPins).pins = inputPins := by
  induction inputPins with
  | nil => rfl
  | cons pin inputPins ih => rw [ofBits, pins, List.map_cons, ← pins, ih]

namespace SumOfProducts

/-- The terms are the minterms of the places of true entries. -/
theorem minterms_eq_map (inputPins : List Int) (entries : List Bool) :
    minterms inputPins entries =
      (entries.findIdxs id).map fun k : Nat => ProductTerm.ofBits k inputPins := by
  rw [minterms, List.findIdxs_eq_filterMap_zipIdx, List.map_filterMap]
  refine List.filterMap_congr fun ⟨value, k⟩ _ => ?_
  cases value <;> rfl

theorem length_minterms (inputPins : List Int) (entries : List Bool) :
    (minterms inputPins entries).length = entries.count true := by
  rw [minterms_eq_map, List.length_map, List.length_findIdxs, List.count]
  congr 1
  funext value
  cases value <;> rfl

theorem pins_of_mem_minterms {inputPins : List Int} {entries : List Bool} {t : ProductTerm}
    (ht : t ∈ minterms inputPins entries) : t.pins = inputPins := by
  rw [minterms_eq_map] at ht
  obtain ⟨k, -, rfl⟩ := List.mem_map.1 ht
  exact ProductTerm.pins_ofBits k inputPins

/-- The entry of a combination says whether one of the terms holds. -/
theorem holds_minterms (pins : Int → Bool) (inputPins : List Int) (entries : List Bool)
    (hlen : entries.length = TruthTable.combinations inputPins.length) :
    entries[Design.bitsValue (inputPins.map pins)]? =
      some ((minterms inputPins entries).any (ProductTerm.holds pins)) := by
  have hlt := Design.bitsValue_lt (inputPins.map pins)
  rw [List.length_map, ← hlen] at hlt
  rw [List.getElem?_eq_getElem hlt, Option.some.injEq, Bool.eq_iff_iff]
  simp only [minterms, List.any_filterMap, List.any_eq_true, Prod.exists,
    List.mk_mem_zipIdx_iff_getElem?]
  constructor
  · intro h
    refine ⟨true, _, h ▸ List.getElem?_eq_getElem hlt, ?_⟩
    simpa [ProductTerm.holds_ofBits, ← hlen] using Nat.mod_eq_of_lt hlt
  · rintro ⟨value, index, hvalue, h⟩
    have hindex := (List.getElem?_eq_some_iff.1 hvalue).1
    cases value with
    | false => simp at h
    | true =>
      simp only [if_true, ProductTerm.holds_ofBits, ← hlen,
        Nat.mod_eq_of_lt hindex] at h
      subst h
      exact (List.getElem?_eq_some_iff.1 hvalue).2

/-- A table has a sum if it has not too many inputs and an entry for each combination. -/
theorem ofTable_eq_ok_iff {t : TruthTable} {s : SumOfProducts} :
    ofTable t = .ok s ↔
      t.inputPins.length ≤ TruthTable.maxInputs ∧
        t.entries.length = TruthTable.combinations t.inputPins.length ∧
        s = ⟨t.outputPin, t.registered, minterms t.inputPins t.entries⟩ := by
  simp only [ofTable, ite_error_eq_ok_iff, Nat.not_lt, ne_eq, not_not, Except.ok.injEq,
    eq_comm (a := s)]

/-- The sum of a table has the value of the entry. -/
theorem getElem?_index_of_ofTable {t : TruthTable} {s : SumOfProducts} (h : ofTable t = .ok s)
    (pins : Int → Bool) : t.entries[t.index pins]? = some (s.holds pins) := by
  obtain ⟨-, hlen, rfl⟩ := ofTable_eq_ok_iff.1 h
  exact holds_minterms pins t.inputPins t.entries hlen

end SumOfProducts

end FuseMap
