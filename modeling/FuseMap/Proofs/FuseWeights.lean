import FuseMap.Jedec.File
import Mathlib.Algebra.BigOperators.Intervals
import Mathlib.Algebra.BigOperators.Ring.Finset

/-! # The checksum of fuses

Fuse `i` is bit `i % 8` of its byte, so its weight in the checksum is `2 ^ (i % 8)`, and the
checksum is the sum of the weights of the fuses that are set (`weightSum`), modulo 2 ^ 16. No weight
is a multiple of 2 ^ 16, so that a change of one fuse shows.
-/

namespace FuseMap.Jedec

variable {a b bits : List Bool} {i n : Nat}

/-! ## Weights of fuses -/

/-- The places of the fuses that are set. -/
def setFuses (bits : List Bool) : Finset Nat :=
  {i ∈ Finset.range bits.length | bits[i]? = some true}

/-- The sum of the weights of the fuses that are set. -/
def weightSum (bits : List Bool) : Nat := ∑ i ∈ setFuses bits, 2 ^ (i % 8)

theorem mem_setFuses : i ∈ setFuses bits ↔ bits[i]? = some true := by
  rw [setFuses, Finset.mem_filter, Finset.mem_range, and_iff_right_iff_imp]
  intro h
  exact (List.getElem?_eq_some_iff.1 h).1

/-- Behind whole bytes the weights start over. -/
theorem weightSum_append (h : 8 ∣ a.length) :
    weightSum (a ++ b) = weightSum a + weightSum b := by
  simp only [weightSum, setFuses, Finset.sum_filter, List.length_append, Finset.sum_range_add]
  congr 1
  · refine Finset.sum_congr rfl fun i hi => ?_
    rw [List.getElem?_append_left (Finset.mem_range.1 hi)]
  · refine Finset.sum_congr rfl fun i _ => ?_
    have hweight : (a.length + i) % 8 = i % 8 := by omega
    rw [List.getElem?_append_right (Nat.le_add_right _ _), Nat.add_sub_cancel_left, hweight]

theorem byteValue_eq_sum (bits : List Bool) :
    byteValue bits = ∑ i ∈ setFuses bits, 2 ^ i := by
  rw [setFuses, Finset.sum_filter]
  induction bits with
  | nil => rfl
  | cons bit bits ih =>
    rw [byteValue, ih, List.length_cons, Finset.sum_range_succ', Finset.mul_sum, Nat.add_comm]
    congr 1
    · refine Finset.sum_congr rfl fun i _ => ?_
      rw [List.getElem?_cons_succ, mul_ite, Nat.mul_zero, Nat.pow_succ']
    · cases bit <;> rfl

theorem weightSum_of_length_le (h : bits.length ≤ 8) : weightSum bits = byteValue bits := by
  rw [byteValue_eq_sum]
  refine Finset.sum_congr rfl fun i hi => ?_
  have hlt := (List.getElem?_eq_some_iff.1 (mem_setFuses.1 hi)).1
  rw [Nat.mod_eq_of_lt (by omega)]

/-- The bytes that fuses are packed into have the weights of the fuses. -/
theorem sum_packBytes (h : bits.length ≤ n) : (packBytes n bits).sum = weightSum bits := by
  induction n generalizing bits with
  | zero =>
    rw [List.length_eq_zero_iff.1 (Nat.le_zero.1 h)]
    rfl
  | succ n ih =>
    cases bits with
    | nil => rfl
    | cons bit rest =>
      have hrest : ((bit :: rest).drop 8).length ≤ n := by
        rw [List.length_drop]
        rw [List.length_cons] at h ⊢
        omega
      rw [packBytes, List.sum_cons, ih hrest, ← weightSum_of_length_le (List.length_take_le _ _)]
      -- only the last byte may have fewer than eight fuses
      rcases Nat.lt_or_ge (bit :: rest).length 8 with hlt | hge
      · rw [List.take_of_length_le hlt.le, List.drop_of_length_le hlt.le]
        rfl
      · have hbyte : ((bit :: rest).take 8).length = 8 := List.length_take_of_le hge
        rw [← weightSum_append (Dvd.intro_left 1 (by omega)), List.take_append_drop]

theorem fuseChecksum_eq (bits : List Bool) : fuseChecksum bits = weightSum bits % 65536 := by
  rw [fuseChecksum, sum16, ← sum_packBytes (Nat.le_refl _), List.sum]

/-! ## Changes of one fuse -/

theorem setFuses_set_true (hi : i < bits.length) :
    setFuses (bits.set i true) = insert i (setFuses (bits.set i false)) := by
  ext j
  rw [Finset.mem_insert, mem_setFuses, mem_setFuses]
  by_cases hj : j = i
  · subst hj
    simp [List.getElem?_set_self hi]
  · simp [List.getElem?_set_ne (Ne.symm hj), hj]

theorem weightSum_set_true (hi : i < bits.length) :
    weightSum (bits.set i true) = 2 ^ (i % 8) + weightSum (bits.set i false) := by
  have hnew : i ∉ setFuses (bits.set i false) := by
    simp [mem_setFuses, List.getElem?_set_self hi]
  rw [weightSum, setFuses_set_true hi, Finset.sum_insert hnew, weightSum]

/-- The weight of a fuse does not vanish modulo 2 ^ 16. -/
theorem fuseChecksum_set_true_ne (hi : i < bits.length) :
    fuseChecksum (bits.set i true) ≠ fuseChecksum (bits.set i false) := by
  have hpos : 0 < 2 ^ (i % 8) := Nat.two_pow_pos _
  have hlt : 2 ^ (i % 8) < 2 ^ 8 := Nat.pow_lt_pow_right (by omega) (Nat.mod_lt _ (by omega))
  rw [fuseChecksum_eq, fuseChecksum_eq, weightSum_set_true hi]
  omega

/-- The checksum tells a fuse that is set from one that is not. -/
theorem fuseChecksum_ne_of_set (ha : a[i]? = some true) (hb : b[i]? = some false)
    (hsame : ∀ j, j ≠ i → a[j]? = b[j]?) : fuseChecksum a ≠ fuseChecksum b := by
  obtain ⟨hi, hoff⟩ := List.getElem?_eq_some_iff.1 hb
  have hleft : a = b.set i true := by
    refine List.ext_getElem? fun j => ?_
    by_cases hj : j = i
    · rw [hj, ha, List.getElem?_set_self hi]
    · rw [hsame j hj, List.getElem?_set_ne (Ne.symm hj)]
  have hright : b = b.set i false := by
    rw [← hoff, List.set_getElem_self]
  rw [hleft, hright, List.set_set]
  exact fuseChecksum_set_true_ne hi

/-- Fuses of which exactly one is different have different checksums. -/
theorem fuseChecksum_ne (hlength : a.length = b.length) (h : ∃! i : Nat, a[i]? ≠ b[i]?) :
    fuseChecksum a ≠ fuseChecksum b := by
  obtain ⟨i, hi, hunique⟩ := h
  have hsame : ∀ j, j ≠ i → a[j]? = b[j]? := fun j hj => not_not.1 (mt (hunique j) hj)
  have hlt : i < a.length := by
    refine Nat.lt_of_not_le fun hle => hi ?_
    rw [List.getElem?_eq_none hle, List.getElem?_eq_none (hlength ▸ hle)]
  obtain ⟨x, ha⟩ : ∃ x, a[i]? = some x := ⟨_, List.getElem?_eq_getElem hlt⟩
  obtain ⟨y, hb⟩ : ∃ y, b[i]? = some y := ⟨_, List.getElem?_eq_getElem (hlength ▸ hlt)⟩
  match x, y, ha, hb with
  | true, false, ha, hb => exact fuseChecksum_ne_of_set ha hb hsame
  | false, true, ha, hb =>
    exact (fuseChecksum_ne_of_set hb ha fun j hj => (hsame j hj).symm).symm
  | true, true, ha, hb | false, false, ha, hb => exact absurd (ha.trans hb.symm) hi

/-- The checksum is the sum of the weights of the fuses that are set, modulo 2 ^ 16. It shows a
change of one fuse, and whole bytes of fuses can be summed on their own. -/
theorem fuseChecksum_sums_weights :
    (∀ bits, fuseChecksum bits =
      (∑ i ∈ Finset.range bits.length with bits[i]? = some true, 2 ^ (i % 8)) % 65536) ∧
    (∀ a b : List Bool, a.length = b.length → (∃! i : Nat, a[i]? ≠ b[i]?) →
      fuseChecksum a ≠ fuseChecksum b) ∧
    (∀ a b : List Bool, 8 ∣ a.length →
      fuseChecksum (a ++ b) = (fuseChecksum a + fuseChecksum b) % 65536) := by
  refine ⟨fuseChecksum_eq, fun _ _ => fuseChecksum_ne, fun a b h => ?_⟩
  rw [fuseChecksum_eq, fuseChecksum_eq, fuseChecksum_eq, weightSum_append h, Nat.add_mod]

/-- Fuses whose bytes add up to 2 ^ 16 - 1, the greatest checksum. -/
def fullFuses : List Bool := List.replicate (257 * 8) true

/-- One more fuse wraps the sum around, and still shows. -/
theorem fuseChecksum_fullFuses :
    fuseChecksum fullFuses = 65535 ∧ fuseChecksum (fullFuses ++ [true]) = 0 ∧
      fuseChecksum (fullFuses ++ [true]) ≠ fuseChecksum (fullFuses ++ [false]) := by
  obtain ⟨-, hchange, hbytes⟩ := fuseChecksum_sums_weights
  have hfull : fuseChecksum fullFuses = 65535 := by decide +kernel
  have hlength : fullFuses.length = 2056 := List.length_replicate
  refine ⟨hfull, ?_, hchange _ _ (by simp) ⟨2056, ?_, fun j hj => ?_⟩⟩
  · rw [hbytes _ _ ⟨257, hlength⟩, hfull]
    rfl
  · simp [hlength]
  · refine Classical.byContradiction fun hne => hj ?_
    rcases Nat.lt_or_gt_of_ne hne with hlt | hgt
    · rw [List.getElem?_append_left (by omega), List.getElem?_append_left (by omega)]
    · have hend : ∀ bit, (fullFuses ++ [bit])[j]? = none := fun bit =>
        List.getElem?_eq_none (by rw [List.length_append, hlength]; exact hgt)
      rw [hend, hend]

end FuseMap.Jedec
