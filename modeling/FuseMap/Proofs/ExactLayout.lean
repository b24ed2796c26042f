import FuseMap.Proofs.CanonicalSum
import FuseMap.Proofs.Program

/-! # Exact layouts

`Device.Exact` says of every fuse of a block whether it connects its column: in the enable row none
does, in the row of a term those of its literals do, and in a row left over all do. Whatever the
literals of a sum are, its block is exact (`exact_of_layout`), and its term rows have the value of
the sum.
-/

namespace FuseMap.Device

variable {d : Device} {s : SumOfProducts} {b : FuseBlock} {o : OutputCell}
  {rows : List (List Fuse)} {row : List Fuse} {t : ProductTerm}

/-! ## Connected columns -/

/-- A row that connects the given columns and no others. -/
structure Connects (d : Device) (columns : Nat → Prop) (row : List Fuse) : Prop where
  length_eq : row.length = d.profile.rowLength
  connected : ∀ column < d.profile.rowLength, columns column → row[column]? = some d.connected
  disconnected : ∀ column < d.profile.rowLength, ¬ columns column →
    row[column]? = some d.disconnected

/-- Whether a column is that of a literal of a term. -/
def IsColumnOf (d : Device) (t : ProductTerm) (column : Nat) : Prop :=
  ∃ l ∈ t, d.column l.pin l.inverted = .ok column

theorem connects_trueRow : d.Connects (fun _ => False) d.trueRow where
  length_eq := List.length_replicate
  connected _ _ h := h.elim
  disconnected _ hcolumn _ := List.getElem?_replicate_of_lt hcolumn

theorem connects_falseRow : d.Connects (fun _ => True) d.falseRow where
  length_eq := List.length_replicate
  connected _ hcolumn _ := List.getElem?_replicate_of_lt hcolumn
  disconnected _ _ h := (h trivial).elim

/-- A term connects the columns of its literals. -/
theorem connects_termRow (h : d.termRow t = .ok row) : d.Connects (d.IsColumnOf t) row := by
  have hlength := length_termRow h
  simp only [termRow, bind_eq_ok_iff, pure_eq_ok_iff] at h
  obtain ⟨columns, hcolumns, rfl⟩ := h
  have hmem : ∀ {column}, column ∈ columns ↔ d.IsColumnOf t column :=
    mem_iff_of_mapM_eq_ok hcolumns
  refine ⟨hlength, fun column hcolumn hconnected => ?_, fun column hcolumn hfree => ?_⟩
  · simp [hcolumn, hmem.2 hconnected]
  · simp [hcolumn, mt hmem.1 hfree]

/-! ## The rows of a block -/

/-- The rows of a block are those that were laid out. -/
theorem LaidOut.blockRow_eq (h : d.LaidOut s o rows b) {n : Nat}
    (hrow : (d.blockRows o rows)[n]? = some row) : d.matrixRow b.fuses n = row := by
  have hlen : ∀ row ∈ d.blockRows o rows, row.length = d.profile.rowLength :=
    fun _ => length_of_mem_blockRows h.terms
  rw [h.block]
  refine List.ext_getElem? fun column => ?_
  rw [matrixRow, List.getElem?_take, List.getElem?_drop]
  split
  · next hcolumn => rw [getElem?_flatten_rows hlen hcolumn, hrow, Option.bind_some]
  · next hcolumn =>
    have := hlen row (List.mem_of_getElem? hrow)
    rw [List.getElem?_eq_none]
    omega

theorem LaidOut.getElem?_blockRows (h : d.LaidOut s o rows b) (i : Nat) :
    (d.blockRows o rows)[o.enableRow.toNat + i]? =
      (rows ++ List.replicate (o.termRows.toNat - rows.length) d.falseRow)[i]? := by
  rw [← drop_blockRows h.length_rows, List.getElem?_drop]

/-- A block that shows a sum in the rows of its output, fuse by fuse. -/
structure Exact (d : Device) (s : SumOfProducts) (o : OutputCell) (b : FuseBlock) : Prop where
  output : d.output s.outputPin = .ok o
  outputPin : b.outputPin = s.outputPin
  block : d.block s.outputPin = .ok (b.firstFuse, o.rowCount)
  length_fuses : (b.fuses.length : Int) = o.rowCount * d.profile.rowLength
  capacity : (o.enableRow.toNat + s.terms.length : Nat) ≤ o.rowCount
  /-- The enable row connects nothing. -/
  enable : o.enableRow = true → d.Connects (fun _ => False) (d.matrixRow b.fuses 0)
  /-- The row of a term connects the columns of its literals. -/
  term : ∀ {i t}, s.terms[i]? = some t →
    d.Connects (d.IsColumnOf t) (d.matrixRow b.fuses (o.enableRow.toNat + i))
  /-- The rows left over connect everything. -/
  unused : ∀ {n : Nat}, o.enableRow.toNat + s.terms.length ≤ n → n < o.rowCount →
    d.Connects (fun _ => True) (d.matrixRow b.fuses n)

/-- The value of the term rows of a block: those after its enable row. -/
def blockValue (d : Device) (o : OutputCell) (b : FuseBlock) (pins : Int → Bool) : Bool :=
  (List.range o.termRows.toNat).any fun i =>
    d.rowValue pins (d.matrixRow b.fuses (o.enableRow.toNat + i))

/-- Row by row, a block is the enable row, the terms and rows that are false. -/
theorem LaidOut.exact (h : d.LaidOut s o rows b) : d.Exact s o b := by
  have hrows := mapM_eq_ok_iff.1 h.terms
  have hlength := hrows.length_eq
  have hcapacity := h.capacity
  have hcount := o.rowCount_eq
  refine ⟨h.output, by rw [h.block], ?_, ?_, by omega, fun henable => ?_, fun {i t} ht => ?_,
    fun {n} hle hlt => ?_⟩
  · simp only [Device.block, h.output, h.block]
    rfl
  · rw [h.length_fuses, Int.natCast_mul, Int.toNat_of_nonneg (by omega)]
  · have hrow : (d.blockRows o rows)[0]? = some d.trueRow := by simp [blockRows, henable]
    rw [h.blockRow_eq hrow]
    exact connects_trueRow
  · obtain ⟨row, hrow, htermRow⟩ := getElem?_of_mapM_eq_ok h.terms ht
    have hi := (List.getElem?_eq_some_iff.1 hrow).1
    have hblock : (d.blockRows o rows)[o.enableRow.toNat + i]? = some row := by
      rw [h.getElem?_blockRows, List.getElem?_append_left hi, hrow]
    rw [h.blockRow_eq hblock]
    exact connects_termRow htermRow
  · obtain ⟨i, rfl⟩ := Nat.exists_eq_add_of_le (Nat.le_trans (Nat.le_add_right _ _) hle)
    have hblock : (d.blockRows o rows)[o.enableRow.toNat + i]? = some d.falseRow := by
      rw [h.getElem?_blockRows, List.getElem?_append_right (by omega),
        List.getElem?_replicate_of_lt (by omega)]
    rw [h.blockRow_eq hblock]
    exact connects_falseRow

/-! ## Every block is exact -/

/-- The block of a sum is exact, and its term rows have the value of the sum. -/
theorem exact_of_layout (h : d.layout s = .ok b) :
    ∃ o, d.Exact s o b ∧ (d.profile.columnPins ≠ [] → ∀ pins : Int → Bool,
      s.value? (fun pin => some (pins pin)) = .ok (d.blockValue o b pins)) := by
  obtain ⟨o, rows, hlaid⟩ := laidOut_of_layout h
  refine ⟨o, hlaid.exact, fun hcols pins => ?_⟩
  rw [SumOfProducts.value?_eq_ok fun _ _ _ _ => rfl, blockValue,
    hlaid.any_rowValue_termRows hcols hlaid.blockRow_eq]

/-- A sum with a literal that is repeated, next to a term that contradicts itself. -/
def smallSum : SumOfProducts :=
  ⟨3, false, [[⟨2, true⟩, ⟨1, false⟩, ⟨2, true⟩], [⟨1, false⟩, ⟨1, true⟩]]⟩

theorem exact_smallSum : ∃ b o, small.layout smallSum = .ok b ∧ small.Exact smallSum o b ∧
    ∀ pins : Int → Bool,
      smallSum.value? (fun pin => some (pins pin)) = .ok (small.blockValue o b pins) := by
  obtain ⟨b, hb⟩ : ∃ b, small.layout smallSum = .ok b := ⟨_, rfl⟩
  obtain ⟨o, hexact, hvalue⟩ := exact_of_layout hb
  exact ⟨b, o, hb, hexact, hvalue (by decide)⟩

end FuseMap.Device
