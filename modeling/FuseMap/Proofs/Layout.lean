import FuseMap.Proofs.Matrix
import FuseMap.Proofs.Placement

/-! # The rows of a block

The fuses of a block are those of its rows (`Device.blockRows`). Where an array holds them, the
rows of the output are rows of the matrix (`LaidOut.matrixRow_eq`), and the output has the value of
the sum that was laid out (`LaidOut.outputValue_eq`).
-/

namespace FuseMap

/-- Where a fuse of a list of rows of one length stands. -/
theorem getElem?_flatten_rows {α : Type} {rows : List (List α)} {length : Nat}
    (h : ∀ row ∈ rows, row.length = length) {n column : Nat} (hcolumn : column < length) :
    rows.flatten[n * length + column]? = rows[n]?.bind (·[column]?) := by
  induction rows generalizing n with
  | nil => simp
  | cons row rows ih =>
    have ⟨hrow, hrows⟩ := List.forall_mem_cons.1 h
    cases n with
    | zero => simp [List.getElem?_append_left (hrow ▸ hcolumn)]
    | succ n =>
      rw [List.flatten_cons, List.getElem?_append_right (by rw [hrow]; grind), hrow,
        show (n + 1) * length + column - length = n * length + column by grind, ih hrows]
      simp

theorem length_flatten_rows {α : Type} {rows : List (List α)} {length : Nat}
    (h : ∀ row ∈ rows, row.length = length) : rows.flatten.length = rows.length * length := by
  induction rows with
  | nil => simp
  | cons row rows ih =>
    have ⟨hrow, hrows⟩ := List.forall_mem_cons.1 h
    rw [List.flatten_cons, List.length_append, ih hrows, hrow, List.length_cons, Nat.succ_mul,
      Nat.add_comm]

namespace Device

variable {d : Device} {s : SumOfProducts} {b : FuseBlock} {o : OutputCell}
  {rows : List (List Fuse)} {fuses : List Fuse} {pins : Int → Bool}

/-- The rows of an output whose terms have the given rows. -/
def blockRows (d : Device) (o : OutputCell) (rows : List (List Fuse)) : List (List Fuse) :=
  (if o.enableRow then [d.trueRow] else []) ++ rows ++
    List.replicate (o.rowCount.toNat - ((if o.enableRow then [d.trueRow] else []) ++ rows).length)
      d.falseRow

theorem length_of_mem_blockRows (h : s.terms.mapM d.termRow = .ok rows) {row : List Fuse}
    (hrow : row ∈ d.blockRows o rows) : row.length = d.profile.rowLength := by
  rw [blockRows, List.mem_append, List.mem_append] at hrow
  rcases hrow with (hrow | hrow) | hrow
  · split at hrow
    · simp [List.mem_singleton.1 hrow, trueRow]
    · cases hrow
  · obtain ⟨t, -, ht⟩ := (mem_iff_of_mapM_eq_ok h).1 hrow
    exact length_termRow ht
  · simp [List.eq_of_mem_replicate hrow, falseRow]

/-- After the enable row there are the rows of the terms and then false rows. -/
theorem drop_blockRows (h : (rows.length : Int) ≤ o.termRows) :
    (d.blockRows o rows).drop o.enableRow.toNat =
      rows ++ List.replicate (o.termRows.toNat - rows.length) d.falseRow := by
  rw [blockRows, OutputCell.rowCount]
  cases o.enableRow with
  | false => simp
  | true =>
    simp only [if_true, Bool.toNat_true, List.cons_append, List.nil_append, List.drop_succ_cons,
      List.drop_zero, List.length_cons]
    congr 2
    omega

theorem length_blockRows (h : (rows.length : Int) ≤ o.termRows) :
    (d.blockRows o rows).length = o.rowCount.toNat := by
  rw [blockRows, OutputCell.rowCount, List.length_append, List.length_replicate]
  cases o.enableRow <;> simp <;> omega

theorem any_rowValue {terms : List ProductTerm}
    (h : List.Forall₂ (fun t row => d.termRow t = .ok row) terms rows) :
    rows.any (d.rowValue pins) = terms.any (ProductTerm.holds pins) := by
  induction h with
  | nil => rfl
  | cons ht _ ih => rw [List.any_cons, List.any_cons, rowValue_termRow ht, ih]

/-! ## Blocks in an array -/

/-- A block that was laid out, with its output and the rows of its terms. -/
structure LaidOut (d : Device) (s : SumOfProducts) (o : OutputCell) (rows : List (List Fuse))
    (b : FuseBlock) : Prop where
  output : d.output s.outputPin = .ok o
  capacity : s.terms.length ≤ o.termRows
  terms : s.terms.mapM d.termRow = .ok rows
  block : b = ⟨s.outputPin, o.firstRow * d.profile.rowLength, (d.blockRows o rows).flatten,
    d.modeBits o s.registered⟩

namespace LaidOut

theorem length_rows (h : d.LaidOut s o rows b) : rows.length ≤ o.termRows := by
  rw [← (mapM_eq_ok_iff.1 h.terms).length_eq]
  exact h.capacity

theorem cell (h : d.LaidOut s o rows b) : o ∈ d.profile.outputs ∧ o.pin = s.outputPin :=
  output_eq_ok_iff.1 h.output

theorem firstRow_nonneg (h : d.LaidOut s o rows b) : 0 ≤ o.firstRow :=
  (d.geometry.cells o h.cell.1).2.2

/-- A fuse of a row of the block. -/
theorem gives (h : d.LaidOut s o rows b) {n column : Nat} {row : List Fuse} {f : Fuse}
    (hrow : (d.blockRows o rows)[n]? = some row) (hf : row[column]? = some f) :
    b.Gives ((o.firstRow.toNat + n) * d.profile.rowLength + column) f := by
  have hlen : ∀ row ∈ d.blockRows o rows, row.length = d.profile.rowLength :=
    fun _ => length_of_mem_blockRows h.terms
  have hcolumn : column < d.profile.rowLength := by
    rw [← hlen row (List.mem_of_getElem? hrow)]
    exact (List.getElem?_eq_some_iff.1 hf).1
  have hfirst := h.firstRow_nonneg
  rw [h.block]
  refine .matrix (k := n * d.profile.rowLength + column) ?_ ?_
  · rw [getElem?_flatten_rows hlen hcolumn, hrow]
    exact hf
  · simp only [Int.natCast_add, Int.natCast_mul, Int.toNat_of_nonneg hfirst]
    grind

/-- The rows of the output are those of the block. -/
theorem matrixRow_eq (h : d.LaidOut s o rows b) (hb : ∀ {i f}, b.Gives i f → fuses[i]? = some f)
    {n : Nat} {row : List Fuse} (hrow : (d.blockRows o rows)[n]? = some row) :
    d.matrixRow fuses (o.firstRow.toNat + n) = row := by
  have hlen := length_of_mem_blockRows h.terms (List.mem_of_getElem? hrow)
  refine List.ext_getElem? fun column => ?_
  rw [matrixRow, List.getElem?_take, List.getElem?_drop]
  split
  · next hcolumn =>
    have hf := List.getElem?_eq_getElem (hlen ▸ hcolumn)
    rw [hb (h.gives hrow hf), hf]
  · next hcolumn =>
    rw [List.getElem?_eq_none]
    omega

/-- Rows that hold those of the block have the value of the sum from the first term row on. -/
theorem any_rowValue_termRows (h : d.LaidOut s o rows b) (hcols : d.profile.columnPins ≠ [])
    {row : Nat → List Fuse} (hrow : ∀ {n r}, (d.blockRows o rows)[n]? = some r → row n = r) :
    ((List.range o.termRows.toNat).any fun i => d.rowValue pins (row (o.enableRow.toNat + i))) =
      s.holds pins := by
  have hterms := h.length_rows
  have hlen : (d.blockRows o rows).length = o.enableRow.toNat + o.termRows.toNat := by
    rw [length_blockRows hterms, OutputCell.rowCount_eq]
    omega
  have hmap : (List.range o.termRows.toNat).map (fun i => row (o.enableRow.toNat + i)) =
      rows ++ List.replicate (o.termRows.toNat - rows.length) d.falseRow := by
    rw [← drop_blockRows hterms]
    refine List.ext_getElem (by simp [hlen]) fun n _ _ => ?_
    rw [List.getElem_map, List.getElem_range, List.getElem_drop]
    exact hrow (List.getElem?_eq_getElem _)
  calc ((List.range o.termRows.toNat).any fun i => d.rowValue pins (row (o.enableRow.toNat + i)))
      = ((List.range o.termRows.toNat).map fun i => row (o.enableRow.toNat + i)).any
          (d.rowValue pins) := by
        rw [List.any_map]; rfl
    _ = rows.any (d.rowValue pins) := by
        rw [hmap, List.any_append]
        simp [rowValue_falseRow hcols]
    _ = s.holds pins := any_rowValue (mapM_eq_ok_iff.1 h.terms)

/-- The output has the value of the sum. -/
theorem outputValue_eq (h : d.LaidOut s o rows b) (hcols : d.profile.columnPins ≠ [])
    (hb : ∀ {i f}, b.Gives i f → fuses[i]? = some f) :
    d.outputValue fuses pins o = s.holds pins := by
  rw [← h.any_rowValue_termRows hcols (h.matrixRow_eq hb), outputValue, OutputCell.termRowNumbers,
    List.any_map]
  simp only [Function.comp_def, Nat.add_assoc]

/-- The enable row is always true. -/
theorem rowValue_enableRow (h : d.LaidOut s o rows b)
    (hb : ∀ {i f}, b.Gives i f → fuses[i]? = some f) (henable : o.enableRow = true) :
    d.rowValue pins (d.matrixRow fuses o.firstRow.toNat) = true := by
  have hrow : (d.blockRows o rows)[0]? = some d.trueRow := by simp [blockRows, henable]
  rw [← Nat.add_zero o.firstRow.toNat, h.matrixRow_eq hb hrow, rowValue_trueRow]

end LaidOut

/-- What laying out a sum does. -/
theorem laidOut_of_layout (h : d.layout s = .ok b) : ∃ o rows, d.LaidOut s o rows b := by
  simp only [layout, bind_eq_ok_iff, throw_eq_error, error_bind, ite_error_eq_ok_iff,
    pure_eq_ok_iff, Int.not_lt] at h
  obtain ⟨o, ho, hcapacity, rows, hrows, rfl⟩ := h
  exact ⟨o, rows, ho, hcapacity, hrows, rfl⟩

end Device

end FuseMap
