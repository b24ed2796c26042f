import FuseMap.Fuse.Block
import FuseMap.Proofs.Geometry

/-! # The value of the matrix

A row of the matrix is the conjunction of the columns that its fuses connect (`Device.rowValue`),
and an output the disjunction of its term rows (`Device.outputValue`). The rows that are laid out
have the values that they should have: `rowValue_trueRow`, `rowValue_falseRow` and
`rowValue_termRow`.
-/

namespace FuseMap.Device

/-! ## Values -/

/-- The value on a column of a row: that of a column pin in its first column, the complement in its
second. -/
def signal (d : Device) (pins : Int → Bool) (column : Nat) : Bool :=
  match d.profile.columnPins[column / 2]? with
  | some pin => pins pin != (column % 2 == 1)
  | none => true

/-- The value of a row: the conjunction of the columns that it connects. -/
def rowValue (d : Device) (pins : Int → Bool) (row : List Fuse) : Bool :=
  row.zipIdx.all fun (fuse, column) => fuse != d.connected || d.signal pins column

def matrixRow (d : Device) (fuses : List Fuse) (row : Nat) : List Fuse :=
  (fuses.drop (row * d.profile.rowLength)).take d.profile.rowLength

/-- The rows of the terms of an output: those after its enable row. -/
def OutputCell.termRowNumbers (o : OutputCell) : List Nat :=
  (List.range o.termRows.toNat).map (o.firstRow.toNat + o.enableRow.toNat + ·)

/-- The value of an output: the disjunction of its term rows. -/
def outputValue (d : Device) (fuses : List Fuse) (pins : Int → Bool) (o : OutputCell) : Bool :=
  o.termRowNumbers.any fun row => d.rowValue pins (d.matrixRow fuses row)

variable {d : Device} {pins : Int → Bool}

/-! ## Rows -/

/-- A row is true if all columns that it connects are. -/
theorem rowValue_eq_true_iff {row : List Fuse} :
    d.rowValue pins row = true ↔
      ∀ column, row[column]? = some d.connected → d.signal pins column = true := by
  simp only [rowValue, List.all_eq_true, Prod.forall, List.mk_mem_zipIdx_iff_getElem?,
    Bool.or_eq_true, bne_iff_ne]
  grind

theorem disconnected_ne_connected (d : Device) : d.disconnected ≠ d.connected := by
  rw [disconnected, connected, Profile.disconnectedFuse]
  rcases d.geometry.connected with h | h <;> rw [h] <;> decide

/-- The column of a pin carries its value, and the next one the complement. -/
theorem signal_column {pin : Int} {inverted : Bool} {column : Nat}
    (h : d.column pin inverted = .ok column) :
    column < d.profile.rowLength ∧ d.signal pins column = (pins pin != inverted) := by
  rw [Device.column] at h
  split at h
  · next i hi =>
    cases h
    obtain ⟨hlt, hpin⟩ : i < d.profile.columnPins.length ∧ d.profile.columnPins[i]? = some pin := by
      obtain ⟨hlt, hpin, -⟩ := List.idxOf?_eq_some_iff.1 hi
      exact ⟨hlt, List.getElem?_eq_some_iff.2 ⟨hlt, hpin⟩⟩
    have hb : inverted.toNat < 2 := by cases inverted <;> decide
    refine ⟨by rw [Profile.rowLength]; omega, ?_⟩
    rw [signal, show (2 * i + inverted.toNat) / 2 = i by omega, hpin]
    cases inverted <;> simp [Nat.add_mod]
  · cases h

/-- The enable row is always true. -/
theorem rowValue_trueRow : d.rowValue pins d.trueRow = true := by
  rw [rowValue_eq_true_iff]
  intro column h
  rw [trueRow, List.getElem?_replicate] at h
  split at h
  · exact absurd (Option.some.inj h) (disconnected_ne_connected d)
  · cases h

/-- A row left over is always false: it connects a pin and its complement. -/
theorem rowValue_falseRow (hcols : d.profile.columnPins ≠ []) :
    d.rowValue pins d.falseRow = false := by
  rw [Bool.eq_false_iff, ne_eq, rowValue_eq_true_iff]
  intro h
  obtain ⟨pin, rest, hpins⟩ := List.exists_cons_of_ne_nil hcols
  have hlen : 1 < d.profile.rowLength := by simp [Profile.rowLength, hpins]; omega
  have h0 := h 0 (by simp [falseRow, List.getElem?_replicate]; omega)
  have h1 := h 1 (by simp [falseRow, hlen])
  simp [signal, hpins] at h0 h1
  simp [h0] at h1

theorem length_termRow {t : ProductTerm} {row : List Fuse} (h : d.termRow t = .ok row) :
    row.length = d.profile.rowLength := by
  simp only [termRow, bind_eq_ok_iff, pure_eq_ok_iff] at h
  obtain ⟨columns, -, rfl⟩ := h
  simp

/-- The row of a term has the value of the term. -/
theorem rowValue_termRow {t : ProductTerm} {row : List Fuse} (h : d.termRow t = .ok row) :
    d.rowValue pins row = t.holds pins := by
  simp only [termRow, bind_eq_ok_iff, pure_eq_ok_iff] at h
  obtain ⟨columns, hcolumns, rfl⟩ := h
  rw [Bool.eq_iff_iff, rowValue_eq_true_iff, ProductTerm.holds, List.all_eq_true]
  constructor
  · intro h l hl
    obtain ⟨column, hmem, hcolumn⟩ := exists_of_mapM_eq_ok hcolumns hl
    obtain ⟨hlt, hsignal⟩ := signal_column hcolumn
    rw [Literal.holds, ← hsignal]
    exact h column (by simp [hlt, hmem])
  · intro h column hconnected
    obtain ⟨hlt, hfuse⟩ := List.getElem?_eq_some_iff.1 hconnected
    have hmem : column ∈ columns := by
      by_contra hmem
      simp [hmem] at hfuse
      exact disconnected_ne_connected d hfuse
    obtain ⟨l, hl, hcolumn⟩ := (mem_iff_of_mapM_eq_ok hcolumns).1 hmem
    rw [(signal_column hcolumn).2]
    exact h l hl

end FuseMap.Device
