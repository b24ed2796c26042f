import FuseMap.Proofs.CanonicalSum
import Mathlib.Data.Int.ModEq

/-! # Digits of minterms

The minterm of an integer of any size and sign depends on its residue modulo the number of
combinations only (`ProductTerm.ofBits_congr`), and the residue is the index of the term
(`ProductTerm.natCast_index_ofBits`). So integers with one minterm have one residue, and the
literals are the binary digits of the residue.
-/

namespace FuseMap

open TruthTable (combinations)

namespace TruthTable

theorem natCast_combinations (n : Nat) : (combinations n : Int) = 2 ^ n := by
  rw [combinations, Nat.pow_eq, Nat.cast_pow, Nat.cast_ofNat]

theorem natCast_combinations_ne_zero (n : Nat) : (combinations n : Int) ≠ 0 :=
  Int.natCast_ne_zero.2 (combinations_pos n).ne'

theorem toNat_emod_combinations (bits : Int) (n : Nat) :
    ((bits % combinations n).toNat : Int) = bits % combinations n :=
  Int.toNat_of_nonneg (Int.emod_nonneg _ (natCast_combinations_ne_zero n))

end TruthTable

namespace ProductTerm

variable {b c : Int} {pins : List Int}

/-! ## Residues -/

/-- A term depends on the last digits of its number only. -/
theorem ofBits_congr (h : b ≡ c [ZMOD combinations pins.length]) :
    ofBits b pins = ofBits c pins := by
  induction pins with
  | nil => rfl
  | cons pin pins ih =>
    rw [List.length_cons, TruthTable.combinations_succ, Nat.cast_mul] at h
    -- the integers differ by an even multiple of the weight of the first digit
    obtain ⟨q, hq⟩ := h.dvd
    have hc : c = b + combinations pins.length * (2 * q) := by
      rw [← Int.mul_assoc]
      exact eq_add_of_sub_eq' hq
    have hdigit : c / combinations pins.length % 2 = b / combinations pins.length % 2 := by
      rw [hc, Int.add_mul_ediv_left _ _ (TruthTable.natCast_combinations_ne_zero _)]
      omega
    rw [ofBits, ofBits, hdigit, ih h.of_mul_right]

/-- The minterm of an integer is that of its residue. -/
theorem ofBits_toNat_emod (b : Int) (pins : List Int) :
    ofBits (b % combinations pins.length).toNat pins = ofBits b pins := by
  apply ofBits_congr
  rw [TruthTable.toNat_emod_combinations]
  exact Int.mod_modEq _ _

theorem natCast_index_ofBits (b : Int) (pins : List Int) :
    ((ofBits b pins).index : Int) = b % combinations pins.length := by
  rw [← ofBits_toNat_emod, index_ofBits, Int.natCast_emod, TruthTable.toNat_emod_combinations,
    Int.emod_emod]

theorem ofBits_eq_iff : ofBits b pins = ofBits c pins ↔ b ≡ c [ZMOD combinations pins.length] := by
  refine ⟨fun h => ?_, ofBits_congr⟩
  have hindex : ((ofBits b pins).index : Int) = (ofBits c pins).index := by rw [h]
  rwa [natCast_index_ofBits, natCast_index_ofBits] at hindex

/-! ## Digits -/

/-- The literal of a pin is the digit at its place. -/
theorem getElem?_ofBits (k : Nat) (pins : List Int) (j : Nat) :
    (ofBits k pins)[j]? =
      pins[j]?.map fun pin => ⟨pin, !k.testBit (pins.length - 1 - j)⟩ := by
  induction pins generalizing j with
  | nil => rfl
  | cons pin pins ih =>
    rw [ofBits_cons]
    cases j with
    | zero =>
      have hdigit : (k / combinations pins.length % 2 == 0) = !k.testBit pins.length := by
        rw [Nat.testBit_eq_decide_div_mod_eq, combinations, Nat.pow_eq]
        rcases Nat.mod_two_eq_zero_or_one (k / 2 ^ pins.length) with h | h <;> rw [h] <;> rfl
      rw [hdigit]
      rfl
    | succ j =>
      have hplace : (pin :: pins).length - 1 - (j + 1) = pins.length - 1 - j := by
        rw [List.length_cons]
        omega
      rw [List.getElem?_cons_succ, List.getElem?_cons_succ, ih, hplace]

/-- A minterm depends on the last digits of its integer, as many as there are pins, and on all of
them: a literal is inverted if its digit is 0. -/
theorem ofBits_reads_last_digits (pins : List Int) :
    (∀ b c : Int, ofBits b pins = ofBits c pins ↔ b ≡ c [ZMOD 2 ^ pins.length]) ∧
    (∀ (b : Int) (j : Nat), (ofBits b pins)[j]? = pins[j]?.map fun pin =>
      ⟨pin, !(b % 2 ^ pins.length).toNat.testBit (pins.length - 1 - j)⟩) := by
  rw [← TruthTable.natCast_combinations]
  refine ⟨fun _ _ => ofBits_eq_iff, fun b j => ?_⟩
  rw [← ofBits_toNat_emod, getElem?_ofBits]

example : ofBits (-3) [7, 8, 9] = ofBits 13 [7, 8, 9] := rfl

end ProductTerm

end FuseMap
