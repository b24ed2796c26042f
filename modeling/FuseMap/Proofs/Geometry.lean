import FuseMap.Device.Basic
import FuseMap.Proofs.Success
import Mathlib.Data.List.Nodup

/-! # Sound geometry

`Profile.Sound` lists what holds of a profile that `Profile.check` accepts, and `Device.geometry`
gives it for every device. The matrix ends after the last row that has an owner, so that it holds
the rows of all outputs (`Profile.stop_le_matrixRows`). That everything lies where it should
(`Profile.Fits`) does not follow for shared rows with a negative number and regions with a negative
width, which are accepted too (`Profile.fits_iff_of_check`).
-/

namespace FuseMap.Device

/-! ## Rows -/

namespace RowRange

/-- Whether a row is one of a range. -/
def Contains (r : RowRange) (row : Int) : Prop := r.first ≤ row ∧ row < r.stop

/-- Ranges without a common row. -/
def Apart (a b : RowRange) : Prop := ∀ row, a.Contains row → ¬ b.Contains row

theorem Apart.symm {a b : RowRange} (h : a.Apart b) : b.Apart a :=
  fun row hb ha => h row ha hb

theorem meet?_eq_none_iff {a b : RowRange} : a.meet? b = none ↔ b.Apart a := by
  simp only [meet?, Apart, Contains]
  constructor
  · intro h row hb ha
    split at h
    · cases h
    · omega
  · intro h
    split
    · have := h (max a.first b.first)
      omega
    · rfl

/-- A fold that only replaces what it has found finds nothing if no item gives it anything. -/
theorem foldl_eq_none_iff {α β : Type} {step : Option β → α → Option β} {P : α → Prop}
    (h : ∀ best a, step best a = none ↔ best = none ∧ P a) {l : List α} {best : Option β} :
    l.foldl step best = none ↔ best = none ∧ ∀ a ∈ l, P a := by
  induction l generalizing best with
  | nil => simp
  | cons a l ih => rw [List.foldl_cons, ih, h, List.forall_mem_cons, and_assoc]

theorem firstShared?_eq_none_iff {r : RowRange} {others : List RowRange} :
    r.firstShared? others = none ↔ ∀ other ∈ others, other.Apart r := by
  rw [firstShared?, foldl_eq_none_iff (P := fun other => other.Apart r)]
  · exact and_iff_right rfl
  · intro best other
    rw [← meet?_eq_none_iff]
    cases r.meet? other <;> cases best <;> grind

theorem claim_eq_ok_iff {owned result : List RowRange} {r : RowRange} :
    claim owned r = .ok result ↔
      True ∧ (∀ other ∈ owned, other.Apart r) ∧ result = owned ++ [r] := by
  rw [claim, true_and, ← firstShared?_eq_none_iff]
  split
  · next h => simp [h]
  · next h => simp [h, eq_comm (a := result)]

end RowRange

theorem OutputCell.rowCount_eq (o : OutputCell) : o.rowCount = o.enableRow.toNat + o.termRows := by
  rw [rowCount, Int.add_comm]
  cases o.enableRow <;> rfl

theorem OutputCell.rowCount_nonneg {o : OutputCell} (h : 0 ≤ o.termRows) : 0 ≤ o.rowCount := by
  rw [rowCount_eq]
  omega

namespace Profile

variable {p : Profile}

/-- The conditions on one output, in the order in which they are checked. -/
theorem claimOutput_eq_ok_iff {owned result : List RowRange} {o : OutputCell} :
    p.claimOutput owned o = .ok result ↔
      (o.pin ∈ p.outputPins ∧ 0 ≤ o.termRows ∧ 0 ≤ o.firstRow) ∧
        (∀ other ∈ owned, other.Apart o.rows) ∧ result = owned ++ [o.rows] := by
  simp only [claimOutput, ite_error_eq_ok_iff, RowRange.claim_eq_ok_iff]
  grind

theorem claimModeBit_eq_ok_iff {taken result : List ModeBit} {b : ModeBit} :
    p.claimModeBit taken b = .ok result ↔
      (p.matrixFuses ≤ b.offset ∧ b.offset < p.fuseCount) ∧
        (∀ other ∈ taken, other.offset ≠ b.offset) ∧ result = taken ++ [b] := by
  simp only [claimModeBit, ite_error_eq_ok_iff]
  split
  · next other h =>
    have hmem := List.mem_of_find?_eq_some h
    have heq := List.find?_some h
    grind
  · next h =>
    simp only [List.find?_eq_none, beq_iff_eq] at h
    grind

/-! ## Accepted profiles -/

/-- What `Profile.check` finds. -/
structure Sound (p : Profile) : Prop where
  connected : p.connectedFuse = 0 ∨ p.connectedFuse = 1
  columns : p.columnPins.Nodup
  outputs : (p.outputs.map (·.pin)).Nodup
  modeValues : ∀ name ∈ requiredModeValues,
    ∃ value, p.modeValue? name = some value ∧ isBit value = true
  cells : ∀ o ∈ p.outputs, o.pin ∈ p.outputPins ∧ 0 ≤ o.termRows ∧ 0 ≤ o.firstRow
  rows : p.ownedRows.Pairwise RowRange.Apart
  matrix : p.matrixFuses ≤ p.fuseCount
  modeBits : ∀ b ∈ p.modeBits, p.matrixFuses ≤ b.offset ∧ b.offset < p.fuseCount
  offsets : p.modeBits.Pairwise fun a b => a.offset ≠ b.offset
  regions : ∀ r ∈ p.regions, p.matrixFuses ≤ r.offset ∧ r.offset + r.width ≤ p.fuseCount

theorem checkRows_eq_ok (h : p.checkRows = .ok ()) :
    (∀ o ∈ p.outputs, o.pin ∈ p.outputPins ∧ 0 ≤ o.termRows ∧ 0 ≤ o.firstRow) ∧
      p.ownedRows.Pairwise RowRange.Apart := by
  simp only [checkRows, bind_eq_ok_iff] at h
  obtain ⟨owned, houtputs, _, hshared, -⟩ := h
  obtain ⟨hcells, -, hrows, rfl⟩ := (foldlM_claim_eq_ok_iff OutputCell.rows
    (fun o => o.pin ∈ p.outputPins ∧ 0 ≤ o.termRows ∧ 0 ≤ o.firstRow) RowRange.Apart
    fun _ _ _ => claimOutput_eq_ok_iff).1 houtputs
  obtain ⟨-, hboth, hglobal, -⟩ := (foldlM_claim_eq_ok_iff id (fun _ => True) RowRange.Apart
    fun _ _ _ => RowRange.claim_eq_ok_iff).1 hshared
  refine ⟨hcells, List.pairwise_append.2 ⟨hrows, by simpa using hglobal, ?_⟩⟩
  simpa using hboth

/-- A profile that is accepted is sound. -/
theorem sound_of_check (h : p.check = .ok ()) : p.Sound := by
  simp only [check, bind_eq_ok_iff] at h
  obtain ⟨_, hpins, _, hvalues, _, hrows, _, hmatrix, _, hbits, hregions⟩ := h
  simp only [checkPins, ite_error_eq_ok_iff, not_and_or, not_not] at hpins
  simp only [checkMatrix, ite_error_eq_ok_iff] at hmatrix
  simp only [checkModeBits, bind_eq_ok_iff] at hbits
  obtain ⟨_, hbits, -⟩ := hbits
  obtain ⟨harea, -, hoffsets, -⟩ := (foldlM_claim_eq_ok_iff id
    (fun b => p.matrixFuses ≤ b.offset ∧ b.offset < p.fuseCount)
    (fun a b => a.offset ≠ b.offset) fun _ _ _ => claimModeBit_eq_ok_iff).1 hbits
  obtain ⟨hcells, howned⟩ := checkRows_eq_ok hrows
  refine ⟨hpins.1, hpins.2.1, hpins.2.2.1, fun name hname => ?_, hcells, howned, by omega, harea,
    by simpa using hoffsets, fun r hr => ?_⟩
  · have := forM_eq_ok_iff.1 hvalues name hname
    exact (Option.any_eq_true _ _).1 (by grind)
  · have := forM_eq_ok_iff.1 hregions r hr
    grind

/-! ## The size of the matrix -/

/-- The matrix goes as far as the last row with an owner. -/
theorem stop_le_matrixRows {r : RowRange} (h : r ∈ p.ownedRows) (hne : r.first < r.stop) :
    r.stop ≤ p.matrixRows := by
  have hmem : r.stop ∈ (p.ownedRows.filter fun r => r.first < r.stop).map (·.stop) :=
    List.mem_map.2 ⟨r, List.mem_filter.2 ⟨h, by simpa using hne⟩, rfl⟩
  rw [matrixRows]
  cases hm : ((p.ownedRows.filter fun r => r.first < r.stop).map (·.stop)).max? with
  | none => rw [List.max?_eq_none_iff.1 hm] at hmem; cases hmem
  | some stop => exact (List.max?_le_iff hm).1 (Int.le_refl stop) _ hmem

/-- A row of an output is a row of the matrix. -/
theorem lt_matrixRows {o : OutputCell} {row : Int} (ho : o ∈ p.outputs)
    (h : o.rows.Contains row) : row < p.matrixRows :=
  Int.lt_of_lt_of_le h.2 <| stop_le_matrixRows
    (List.mem_append_left _ (List.mem_map_of_mem ho)) (Int.lt_of_le_of_lt h.1 h.2)

/-- Without negative rows the matrix has no negative size. -/
theorem Sound.matrixRows_nonneg (hp : p.Sound) (h : ∀ row ∈ p.sharedRows, 0 ≤ row.2) :
    0 ≤ p.matrixRows := by
  cases hm : ((p.ownedRows.filter fun r => r.first < r.stop).map (·.stop)).max? with
  | none => simp [matrixRows, hm]
  | some stop =>
    rw [matrixRows, hm, Option.getD_some]
    obtain ⟨r, hr, rfl⟩ := List.mem_map.1 (List.max?_mem hm)
    simp only [ownedRows, List.mem_filter, List.mem_append, List.mem_map,
      decide_eq_true_eq] at hr
    obtain ⟨⟨o, ho, rfl⟩ | ⟨row, hrow, rfl⟩, hne⟩ := hr
    · have := hp.cells o ho
      simp only [OutputCell.rows] at hne ⊢
      omega
    · have := h row hrow
      simp only [sharedRow] at hne ⊢
      omega

theorem Sound.matrixFuses_nonneg (hp : p.Sound) (h : ∀ row ∈ p.sharedRows, 0 ≤ row.2) :
    0 ≤ p.matrixFuses :=
  Int.mul_nonneg (hp.matrixRows_nonneg h) (Int.natCast_nonneg _)

/-! ## Profiles that fit -/

/-- The geometry that a profile should have: every row with an owner is one of the matrix and has no
second owner, the matrix is a part of the fuses, and mode bits and regions are parts of what follows
it. -/
structure Fits (p : Profile) : Prop where
  outputRows : ∀ o ∈ p.outputs, ∀ row, o.rows.Contains row → 0 ≤ row ∧ row < p.matrixRows
  sharedRows : ∀ entry ∈ p.sharedRows, 0 ≤ entry.2 ∧ entry.2 < p.matrixRows
  owners : p.ownedRows.Pairwise RowRange.Apart
  matrix : 0 ≤ p.matrixFuses ∧ p.matrixFuses ≤ p.fuseCount
  offsets : (p.modeBits.map (·.offset)).Nodup
  modeBits : ∀ b ∈ p.modeBits, p.matrixFuses ≤ b.offset ∧ b.offset < p.fuseCount
  regions : ∀ r ∈ p.regions,
    0 ≤ r.width ∧ p.matrixFuses ≤ r.offset ∧ r.offset + r.width ≤ p.fuseCount

theorem Sound.outputRow_mem (hp : p.Sound) {o : OutputCell} (ho : o ∈ p.outputs) {row : Int}
    (h : o.rows.Contains row) : 0 ≤ row ∧ row < p.matrixRows := by
  obtain ⟨-, -, hfirst⟩ := hp.cells o ho
  exact ⟨Int.le_trans hfirst h.1, lt_matrixRows ho h⟩

theorem sharedRow_lt_matrixRows {entry : String × Int} (h : entry ∈ p.sharedRows) :
    entry.2 < p.matrixRows := by
  have hmem : sharedRow entry ∈ p.ownedRows :=
    List.mem_append_right _ (List.mem_map_of_mem h)
  have hstop := stop_le_matrixRows hmem (Int.lt_succ entry.2)
  exact Int.lt_of_lt_of_le (Int.lt_succ entry.2) hstop

/-- An accepted profile fits unless a shared row or the width of a region is negative: these two are
not looked at. -/
theorem fits_iff_of_check (h : p.check = .ok ()) :
    p.Fits ↔ (∀ entry ∈ p.sharedRows, 0 ≤ entry.2) ∧ ∀ r ∈ p.regions, 0 ≤ r.width := by
  have hp := sound_of_check h
  constructor
  · intro hfits
    exact ⟨fun entry hentry => (hfits.sharedRows entry hentry).1,
      fun r hr => (hfits.regions r hr).1⟩
  · rintro ⟨hrows, hwidths⟩
    exact {
      outputRows := fun o ho row hrow => hp.outputRow_mem ho hrow
      sharedRows := fun entry hentry => ⟨hrows entry hentry, sharedRow_lt_matrixRows hentry⟩
      owners := hp.rows
      matrix := ⟨hp.matrixFuses_nonneg hrows, hp.matrix⟩
      offsets := List.pairwise_map.2 hp.offsets
      modeBits := hp.modeBits
      regions := fun r hr => ⟨hwidths r hr, hp.regions r hr⟩ }

end Profile

variable {d : Device}

theorem geometry (d : Device) : d.profile.Sound := Profile.sound_of_check d.sound

/-- The cell of a pin is the only one with it, since pins are not repeated. -/
theorem output_eq_ok_iff {pin : Int} {o : OutputCell} :
    d.output pin = .ok o ↔ o ∈ d.profile.outputs ∧ o.pin = pin := by
  rw [output]
  constructor
  · intro h
    split at h
    · next o' ho =>
      cases h
      exact ⟨List.mem_of_find?_eq_some ho, by simpa using List.find?_some ho⟩
    · cases h
  · rintro ⟨ho, rfl⟩
    split
    · next o' ho' =>
      have hpin : o'.pin = o.pin := by simpa using List.find?_some ho'
      have := List.inj_on_of_nodup_map d.geometry.outputs (List.mem_of_find?_eq_some ho') ho hpin
      rw [this]
    · next h => simp [List.find?_eq_none] at h; exact absurd rfl (h o ho)

/-! ## A small device -/

/-- A device with two inputs and two outputs. Its regions overlap, one has a negative width, and
the last two fuses are in none of them. -/
def small : Device where
  identifier := "small"
  profile :=
    { deviceName := "SMALL"
      pinCount := 4
      fuseCount := 30
      columnPins := [1, 2]
      inputPins := [1, 2]
      outputPins := [3, 4]
      connectedFuse := 0
      modeValues := [("polarity_active_high", .integer 1), ("combinatorial", .integer 1),
        ("registered", .integer 0)]
      outputs :=
        [⟨3, 1, 2, true, [("polarity", 24), ("combinatorial", 25)]⟩,
          ⟨4, 4, 2, false, [("polarity", 26), ("combinatorial", 27)]⟩]
      sharedRows := [("reset", 0)]
      regions := [⟨.string "modes", 24, 3⟩, ⟨.string "late", 25, 3⟩, ⟨.string "turned", 26, -28⟩] }
  sound := by rfl

/-- The profile of the small device with one region for all of its mode bits. -/
def smallTidy : Profile := { small.profile with regions := [⟨.string "modes", 24, 4⟩] }

theorem smallTidy_fits : smallTidy.check = .ok () ∧ smallTidy.Fits :=
  ⟨by rfl, (Profile.fits_iff_of_check (p := smallTidy) (by rfl)).2 (by decide)⟩

/-- The tidy profile with its shared row before the first row of the matrix. -/
def smallBelow : Profile := { smallTidy with sharedRows := [("reset", -1)] }

/-- A profile without outputs, whose matrix has a negative number of fuses. -/
def smallHollow : Profile := { smallTidy with outputs := [], sharedRows := [("reset", -2)] }

theorem not_fits_of_accepted :
    (smallBelow.check = .ok () ∧ ¬ smallBelow.Fits) ∧
      (smallHollow.check = .ok () ∧ ¬ smallHollow.Fits) ∧
      (small.profile.check = .ok () ∧ ¬ small.profile.Fits) := by
  refine ⟨⟨by rfl, fun h => ?_⟩, ⟨by rfl, fun h => ?_⟩, ⟨by rfl, fun h => ?_⟩⟩
  · exact absurd (h.sharedRows ("reset", -1) (by decide)).1 (by decide)
  · exact absurd h.matrix.1 (by decide)
  · have hturned : ∃ r ∈ small.profile.regions, r.width < 0 := by decide
    obtain ⟨r, hr, hwidth⟩ := hturned
    exact absurd (h.regions r hr).1 (Int.not_le.2 hwidth)

end FuseMap.Device
