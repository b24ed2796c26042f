import FuseMap.Proofs.Failure
import FuseMap.Proofs.TableOrder
import FuseMap.Validation

/-! # Programming valid tables

Tables whose pins are valid on a device can be programmed unless one of them is too large, or the
profile of the device does not keep what it promises: a pin that it lists has no output cell or no
column, an output has no row, a value for mode bits is no integer, or there are more fuses than an
array can have. `Refuses` lists these reasons, and `program_of_validate` says that there are no
others.
-/

namespace FuseMap

/-! ## Tables without a sum -/

namespace SumOfProducts

/-- The two faults that a table can have on every device. -/
theorem ofTable_error {t : TruthTable} {e : Error} (h : ofTable t = .error e) :
    (TruthTable.maxInputs < t.inputPins.length ∧
        e = .tooManyInputs t.outputPin t.inputPins.length) ∨
      (t.entries.length ≠ TruthTable.combinations t.inputPins.length ∧
        e = .wrongTableLength t.outputPin t.entries.length t.inputPins.length) := by
  simp only [ofTable, ite_error_eq_error_iff, reduceCtorEq, and_false, or_false] at h
  rcases h with h | ⟨-, h⟩
  · exact .inl h
  · exact .inr h

end SumOfProducts

/-! ## Refused ranges -/

namespace FuseArray

variable {a : FuseArray} {b : FuseBlock} {e : Error}

/-- The two reasons why a range is refused. -/
theorem claim_error {size : Nat} {taken : List Placement} {r : Placement}
    (h : claim size taken r = .error e) :
    ((r.first < 0 ∨ size < r.stop) ∧ e = .fusesOutside r.first r.stop r.outputPin) ∨
      ∃ other ∈ taken, r.meets other = true ∧
        e = .fusesTaken r.first r.stop r.outputPin other.outputPin := by
  rw [claim, ite_error_eq_error_iff] at h
  rcases h with h | ⟨-, h⟩
  · exact .inl h
  · split at h
    · next other hother =>
      cases h
      exact .inr ⟨other, List.mem_of_find?_eq_some hother, List.find?_some hother, rfl⟩
    · cases h

theorem storeModeBits_error {bits : List (Int × Json.Value)} {f : PlaceFailure}
    (h : storeModeBits a bits = .error f) : ∃ bit ∈ bits, Fuse.ofJson bit.2 = .error f.error := by
  induction bits generalizing a with
  | nil => cases h
  | cons bit bits ih =>
    rw [storeModeBits] at h
    split at h
    · obtain ⟨bit', hmem, herror⟩ := ih h
      exact ⟨bit', List.mem_cons_of_mem _ hmem, herror⟩
    · next e he =>
      cases h
      exact ⟨bit, List.mem_cons_self, he⟩

/-- A block is refused at one of its ranges, the ones before it being claimed, or for the value of a
mode bit. -/
theorem place_error {f : PlaceFailure} (h : a.place b = .error f) :
    (∃ front r back, b.ranges = front ++ r :: back ∧
        claim a.fuses.length (a.placed ++ front) r = .error f.error) ∨
      ∃ bit ∈ b.modeBits, Fuse.ofJson bit.2 = .error f.error := by
  rw [place] at h
  split at h
  · next e hclaim =>
    cases h
    obtain ⟨front, r, back, taken, hranges, hfront, hr⟩ := foldlM_eq_error_iff.1 hclaim
    obtain ⟨-, -, -, rfl⟩ := (foldlM_claim_eq_ok_iff id
      (fun r : Placement => 0 ≤ r.first ∧ r.stop ≤ (a.fuses.length : Int))
      (fun r s => r.meets s = false) fun _ _ _ => claim_eq_ok_iff).1 hfront
    rw [List.map_id] at hr
    exact .inl ⟨front, r, back, hranges, hr⟩
  · exact .inr (storeModeBits_error h)

theorem place_eq_error_of_claim {r : Placement} {rest : List Placement} {e : Error}
    (hranges : b.ranges = r :: rest) (h : claim a.fuses.length a.placed r = .error e) :
    a.place b = .error ⟨e, a⟩ := by
  rw [place, hranges, List.foldlM_cons, h]
  rfl

end FuseArray

namespace Device

variable {d : Device} {e : Error}

/-! ## Failures of the layout -/

theorem output_error {pin : Int} (h : d.output pin = .error e) :
    pin ∉ d.outputOrder ∧ e = .unknownPin pin .output d.identifier := by
  rw [output] at h
  split at h
  · cases h
  · next hnone =>
    cases h
    refine ⟨fun hmem => ?_, rfl⟩
    obtain ⟨o, ho, hpin⟩ := List.mem_map.1 hmem
    exact List.find?_eq_none.1 hnone o ho (by simpa using hpin)

theorem column_error {pin : Int} {inverted : Bool} (h : d.column pin inverted = .error e) :
    pin ∉ d.profile.columnPins ∧ e = .unknownPin pin .input d.identifier := by
  rw [column] at h
  split at h
  · cases h
  · next hnone =>
    cases h
    exact ⟨List.idxOf?_eq_none_iff.1 hnone, rfl⟩

theorem termRow_error {t : ProductTerm} (h : d.termRow t = .error e) :
    ∃ l ∈ t, l.pin ∉ d.profile.columnPins ∧ e = .unknownPin l.pin .input d.identifier := by
  rw [termRow, bind_eq_error_iff] at h
  rcases h with h | ⟨columns, -, h⟩
  · obtain ⟨front, l, back, rfl, -, hl⟩ := mapM_eq_error_iff.1 h
    exact ⟨l, by simp, column_error hl⟩
  · cases h

/-- The three reasons why a sum cannot be laid out. -/
theorem layout_error {s : SumOfProducts} (h : d.layout s = .error e) :
    (s.outputPin ∉ d.outputOrder ∧ e = .unknownPin s.outputPin .output d.identifier) ∨
      (∃ o, d.output s.outputPin = .ok o ∧ o.termRows < s.terms.length ∧
        e = .tooManyTerms s.outputPin s.terms.length o.termRows) ∨
      ∃ t ∈ s.terms, ∃ l ∈ t, l.pin ∉ d.profile.columnPins ∧
        e = .unknownPin l.pin .input d.identifier := by
  simp only [layout, throw_eq_error, error_bind, bind_eq_error_iff, ite_error_eq_error_iff] at h
  rcases h with h | ⟨o, ho, ⟨hterms, rfl⟩ | ⟨-, h | ⟨rows, -, h⟩⟩⟩
  · exact .inl (output_error h)
  · exact .inr (.inl ⟨o, ho, hterms, rfl⟩)
  · obtain ⟨front, t, back, hs, -, ht⟩ := mapM_eq_error_iff.1 h
    exact .inr (.inr ⟨t, by simp [hs], termRow_error ht⟩)
  · cases h

/-- Only the size of the array can be wrong. -/
theorem blank_error (h : d.blank = .error e) :
    isSize d.profile.fuseCount = false ∧ e = .arrayTooLarge := by
  rw [blank, bind_eq_error_iff] at h
  rcases h with h | ⟨zeros, -, h⟩
  · rw [FuseArray.filled] at h
    split at h
    · cases h
    · next hsize =>
      cases h
      exact ⟨by simpa using hsize, rfl⟩
  · cases h

/-- A bit that cannot be stored is a number with a point. -/
theorem real_of_ofJson_error {value : Json.Value} (h : Fuse.ofJson value = .error e)
    (hbit : Profile.isBit value = true) : (∃ x, value = .real x) ∧ e = .fuseValueKind := by
  cases value with
  | integer n =>
    simp only [Profile.isBit, Json.Value.equalsInteger, Bool.or_eq_true, beq_iff_eq] at hbit
    rcases hbit with rfl | rfl <;> cases h
  | real x =>
    cases h
    exact ⟨⟨x, rfl⟩, rfl⟩
  | bool b => cases h
  | null | string s | broken b | array items | record fields => cases hbit

/-! ## The ranges of outputs -/

instance : Std.Symm RowRange.Apart where
  symm _ _ := RowRange.Apart.symm

namespace Profile

variable {p : Profile}

/-- Outputs share no rows. -/
theorem Sound.rows_apart (hp : p.Sound) {o o' : OutputCell} (ho : o ∈ p.outputs)
    (ho' : o' ∈ p.outputs) (hne : o ≠ o') : o.rows.Apart o'.rows := by
  have hrows := List.pairwise_map.1 (List.pairwise_append.1 hp.rows).1
  have hsymm : Std.Symm fun o o' : OutputCell => o.rows.Apart o'.rows := ⟨fun _ _ h => h.symm⟩
  exact hrows.forall ho ho' hne

theorem Sound.offset_ne (hp : p.Sound) {m m' : ModeBit} (hm : m ∈ p.modeBits)
    (hm' : m' ∈ p.modeBits) (hne : m ≠ m') : m.offset ≠ m'.offset := by
  have hsymm : Std.Symm fun m m' : ModeBit => m.offset ≠ m'.offset := ⟨fun _ _ h => h.symm⟩
  exact hp.offsets.forall hm hm' hne

/-- The matrix holds the rows of an output that has some. -/
theorem Sound.rows_le_matrixFuses (hp : p.Sound) {o : OutputCell} (ho : o ∈ p.outputs)
    (hpos : 0 < o.rowCount) : 0 ≤ o.firstRow * p.rowLength ∧
      (o.firstRow + o.rowCount) * p.rowLength ≤ p.matrixFuses := by
  obtain ⟨-, -, hfirst⟩ := hp.cells o ho
  have hstop : o.firstRow + o.rowCount ≤ p.matrixRows :=
    stop_le_matrixRows (r := o.rows) (List.mem_append_left _ (List.mem_map_of_mem ho))
      (by simp only [OutputCell.rows]; omega)
  exact ⟨Int.mul_nonneg hfirst (Int.natCast_nonneg _),
    Int.mul_le_mul_of_nonneg_right hstop (Int.natCast_nonneg _)⟩

/-- The fuses of the rows of an output. -/
def matrixRange (p : Profile) (o : OutputCell) : Placement :=
  ⟨o.firstRow * p.rowLength, (o.firstRow + o.rowCount) * p.rowLength, o.pin⟩

/-- The fuse of a mode bit. -/
def ModeBit.range (m : ModeBit) : Placement := ⟨m.offset, m.offset + 1, m.pin⟩

/-- Rows of the matrix end before the mode bits, and the range of an output without rows holds no
fuse that could be one. -/
theorem Sound.matrixRange_not_meets_range (hp : p.Sound) {o : OutputCell} (ho : o ∈ p.outputs)
    {m : ModeBit} (hm : m ∈ p.modeBits) : (p.matrixRange o).meets m.range = false := by
  have hoffset := (hp.modeBits m hm).1
  have hcount := OutputCell.rowCount_nonneg (hp.cells o ho).2.1
  rw [Placement.meets_eq_false_iff, matrixRange, ModeBit.range]
  obtain hpos | hzero := Int.lt_or_eq_of_le hcount
  · exact .inr (Int.le_trans (hp.rows_le_matrixFuses ho hpos).2 hoffset)
  · rw [← hzero, Int.add_zero]
    show m.offset + 1 ≤ o.firstRow * p.rowLength ∨ o.firstRow * p.rowLength ≤ m.offset
    omega

theorem Sound.range_not_meets_range (hp : p.Sound) {m m' : ModeBit} (hm : m ∈ p.modeBits)
    (hm' : m' ∈ p.modeBits) (hne : m ≠ m') : m.range.meets m'.range = false := by
  have := hp.offset_ne hm hm' hne
  simp only [Placement.meets_eq_false_iff, ModeBit.range]
  omega

/-- Only an output without rows can have its range inside that of another. -/
theorem Sound.matrixRange_not_meets (hp : p.Sound) {o o' : OutputCell} (ho : o ∈ p.outputs)
    (ho' : o' ∈ p.outputs) (hne : o ≠ o') (hpos : 0 < o.rowCount) (hpos' : 0 < o'.rowCount) :
    (p.matrixRange o).meets (p.matrixRange o') = false := by
  have hapart := hp.rows_apart ho ho' hne
  have hrows : o.firstRow + o.rowCount ≤ o'.firstRow ∨ o'.firstRow + o'.rowCount ≤ o.firstRow := by
    have hfirst := hapart (max o.firstRow o'.firstRow)
    simp only [RowRange.Contains, OutputCell.rows] at hfirst
    omega
  have hscale : ∀ {x y : Int}, x ≤ y → x * p.rowLength ≤ y * p.rowLength := fun h =>
    Int.mul_le_mul_of_nonneg_right h (Int.natCast_nonneg _)
  rw [Placement.meets_eq_false_iff]
  exact hrows.symm.imp hscale hscale

end Profile

section
variable {s s' : SumOfProducts} {o o' : OutputCell} {rows rows' : List (List Fuse)}
  {b c : FuseBlock} {r r' : Placement}

theorem mem_modeBits_of_lookup {name : String} {offset : Int} (ho : o ∈ d.profile.outputs)
    (h : o.modeBits.lookup name = some offset) : ⟨o.pin, name, offset⟩ ∈ d.profile.modeBits := by
  obtain ⟨before, after, hbits, -⟩ := List.lookup_eq_some_iff.1 h
  refine List.mem_flatMap.2 ⟨o, ho, ?_⟩
  exact List.mem_map.2 ⟨(name, offset), by simp [hbits], rfl⟩

/-- The ranges of a block: the rows of its output, and some of its mode bits. -/
theorem LaidOut.ranges_eq_cons (h : d.LaidOut s o rows b) : ∃ bits : List Profile.ModeBit,
    b.ranges = d.profile.matrixRange o :: bits.map Profile.ModeBit.range ∧
      (∀ m ∈ bits, m ∈ d.profile.modeBits ∧ m.pin = o.pin) ∧ bits.Nodup := by
  have ho := h.cell.1
  have hcount := OutputCell.rowCount_nonneg (d.geometry.cells o ho).2.1
  have hstop : o.firstRow * d.profile.rowLength + (o.rowCount.toNat * d.profile.rowLength : Nat) =
      (o.firstRow + o.rowCount) * d.profile.rowLength := by
    rw [Int.natCast_mul, Int.toNat_of_nonneg hcount, Int.add_mul]
  refine ⟨["combinatorial", "polarity"].filterMap fun name =>
    (o.modeBits.lookup name).map (⟨o.pin, name, ·⟩), ?_, ?_, ?_⟩
  · rw [h.ranges_eq, hstop, Profile.matrixRange, List.map_filterMap, List.map_filterMap]
    congr 2
    funext name
    cases o.modeBits.lookup name <;> rfl
  · intro m hm
    obtain ⟨name, -, hname⟩ := List.mem_filterMap.1 hm
    obtain ⟨offset, hoffset, rfl⟩ := Option.map_eq_some_iff.1 hname
    exact ⟨mem_modeBits_of_lookup ho hoffset, rfl⟩
  · refine List.Nodup.filterMap (fun name name' m hm hm' => ?_) (by decide)
    obtain ⟨offset, -, rfl⟩ := Option.map_eq_some_iff.1 hm
    obtain ⟨offset', -, heq⟩ := Option.map_eq_some_iff.1 hm'
    exact (congrArg Profile.ModeBit.name heq).symm

/-- The ranges of a block are its rows and its mode bits. -/
theorem LaidOut.mem_ranges (h : d.LaidOut s o rows b) (hr : r ∈ b.ranges) :
    r = d.profile.matrixRange o ∨
      ∃ m ∈ d.profile.modeBits, m.pin = o.pin ∧ r = m.range := by
  obtain ⟨bits, hranges, hbits, -⟩ := h.ranges_eq_cons
  rw [hranges] at hr
  rcases List.mem_cons.1 hr with hr | hr
  · exact .inl hr
  · obtain ⟨m, hm, rfl⟩ := List.mem_map.1 hr
    exact .inr ⟨m, (hbits m hm).1, (hbits m hm).2, rfl⟩

theorem LaidOut.outputPin_of_mem_ranges (h : d.LaidOut s o rows b) (hr : r ∈ b.ranges) :
    r.outputPin = o.pin := by
  rcases h.mem_ranges hr with rfl | ⟨m, -, hpin, rfl⟩
  · rfl
  · exact hpin

/-- The ranges of one block do not meet, since mode bits lie after the matrix. -/
theorem LaidOut.ranges_apart (h : d.LaidOut s o rows b) :
    b.ranges.Pairwise fun r r' => r.meets r' = false := by
  obtain ⟨bits, hranges, hbits, hnodup⟩ := h.ranges_eq_cons
  rw [hranges, List.pairwise_cons, List.pairwise_map]
  constructor
  · intro r hr
    obtain ⟨m, hm, rfl⟩ := List.mem_map.1 hr
    exact d.geometry.matrixRange_not_meets_range h.cell.1 (hbits m hm).1
  · refine hnodup.imp_of_mem fun hm hm' hne => ?_
    exact d.geometry.range_not_meets_range (hbits _ hm).1 (hbits _ hm').1 hne

/-- The block of an output with rows lies inside the fuses of the device. -/
theorem LaidOut.inside (h : d.LaidOut s o rows b) (hpos : 0 < o.rowCount) (hr : r ∈ b.ranges) :
    0 ≤ r.first ∧ r.stop ≤ d.profile.fuseCount := by
  have hrows := d.geometry.rows_le_matrixFuses h.cell.1 hpos
  have hmatrix := d.geometry.matrix
  rcases h.mem_ranges hr with rfl | ⟨m, hm, -, rfl⟩
  · exact ⟨hrows.1, Int.le_trans hrows.2 hmatrix⟩
  · have hoffset := d.geometry.modeBits m hm
    have hle : o.firstRow * d.profile.rowLength ≤
        (o.firstRow + o.rowCount) * d.profile.rowLength :=
      Int.mul_le_mul_of_nonneg_right (by omega) (Int.natCast_nonneg _)
    simp only [Profile.ModeBit.range]
    omega

/-- The blocks of two outputs with rows do not meet. -/
theorem LaidOut.not_meets (h : d.LaidOut s o rows b) (h' : d.LaidOut s' o' rows' c)
    (hne : o.pin ≠ o'.pin) (hpos : 0 < o.rowCount) (hpos' : 0 < o'.rowCount) (hr : r ∈ b.ranges)
    (hr' : r' ∈ c.ranges) : r.meets r' = false := by
  have hgeometry := d.geometry
  rcases h.mem_ranges hr with rfl | ⟨m, hm, hpin, rfl⟩ <;>
    rcases h'.mem_ranges hr' with rfl | ⟨m', hm', hpin', rfl⟩
  · have hcells : o ≠ o' := fun heq => hne (congrArg (·.pin) heq)
    exact hgeometry.matrixRange_not_meets h.cell.1 h'.cell.1 hcells hpos hpos'
  · exact hgeometry.matrixRange_not_meets_range h.cell.1 hm'
  · rw [Placement.meets_comm]
    exact hgeometry.matrixRange_not_meets_range h'.cell.1 hm
  · have hbits : m ≠ m' := fun heq => hne (hpin ▸ hpin' ▸ congrArg (·.pin) heq)
    exact hgeometry.range_not_meets_range hm hm' hbits

end

/-! ## Validity -/

theorem validateInputs_eq_ok_iff {outputPin : Int} {seen inputPins : List Int} :
    d.validateInputs outputPin seen inputPins = .ok () ↔
      (∀ pin ∈ inputPins, pin ∈ d.profile.inputPins) ∧ inputPins.Nodup ∧
        ∀ pin ∈ inputPins, pin ∉ seen := by
  induction inputPins generalizing seen with
  | nil => simp [validateInputs]
  | cons pin inputPins ih =>
    rw [List.forall_mem_cons, List.forall_mem_cons, List.nodup_cons]
    simp only [validateInputs, ite_error_eq_ok_iff, not_not, ih]
    constructor
    · rintro ⟨hlegal, hnew, hlegals, hnodup, hrest⟩
      refine ⟨⟨hlegal, hlegals⟩, ⟨fun hmem => ?_, hnodup⟩, hnew, fun pin' hpin' => ?_⟩
      · exact hrest pin hmem List.mem_cons_self
      · exact List.not_mem_of_not_mem_cons (hrest pin' hpin')
    · rintro ⟨⟨hlegal, hlegals⟩, ⟨hpin, hnodup⟩, hnew, hrest⟩
      refine ⟨hlegal, hnew, hlegals, hnodup, fun pin' hpin' => ?_⟩
      refine List.not_mem_cons_of_ne_of_not_mem ?_ (hrest pin' hpin')
      rintro rfl
      exact hpin hpin'

/-- The pins of a table are ones that a device has for its output and its inputs. -/
structure ValidPins (d : Device) (t : TruthTable) : Prop where
  output : t.outputPin ∈ d.profile.outputPins
  inputs : ∀ pin ∈ t.inputPins, pin ∈ d.profile.inputPins
  nodup : t.inputPins.Nodup

theorem validateFrom_eq_ok_iff {configured : List Int} {tables : List TruthTable} :
    d.validateFrom configured tables = .ok () ↔
      (∀ t ∈ tables, d.ValidPins t) ∧ (tables.map (·.outputPin)).Nodup ∧
        ∀ t ∈ tables, t.outputPin ∉ configured := by
  induction tables generalizing configured with
  | nil => simp [validateFrom]
  | cons t tables ih =>
    rw [List.forall_mem_cons, List.forall_mem_cons, List.map_cons, List.nodup_cons]
    simp only [validateFrom, throw_eq_error, error_bind, bind_eq_ok_iff, ite_error_eq_ok_iff,
      not_not, ih]
    constructor
    · rintro ⟨houtput, hnew, ⟨⟩, hpins, hvalid, houtputs, hrest⟩
      obtain ⟨hinputs, hnodup, -⟩ := validateInputs_eq_ok_iff.1 hpins
      refine ⟨⟨⟨houtput, hinputs, hnodup⟩, hvalid⟩, ⟨fun hmem => ?_, houtputs⟩, hnew,
        fun t' ht' => List.not_mem_of_not_mem_cons (hrest t' ht')⟩
      obtain ⟨t', ht', hpin⟩ := List.mem_map.1 hmem
      exact hrest t' ht' (hpin ▸ List.mem_cons_self)
    · rintro ⟨⟨hpins, hvalid⟩, ⟨hpin, houtputs⟩, hnew, hrest⟩
      refine ⟨hpins.output, hnew, (), ?_, hvalid, houtputs, fun t' ht' => ?_⟩
      · exact validateInputs_eq_ok_iff.2 ⟨hpins.inputs, hpins.nodup, by simp⟩
      refine List.not_mem_cons_of_ne_of_not_mem (fun heq => ?_) (hrest t' ht')
      exact hpin (List.mem_map.2 ⟨t', ht', heq⟩)

theorem validate_eq_ok_iff {tables : List TruthTable} :
    d.validate tables = .ok () ↔
      (∀ t ∈ tables, d.ValidPins t) ∧ (tables.map (·.outputPin)).Nodup := by
  simp [validate, validateFrom_eq_ok_iff]

/-! ## Why valid tables are refused -/

/-- The reasons why tables with valid pins cannot be programmed. -/
inductive Refuses (d : Device) (tables : List TruthTable) : Error → Prop
  | tooManyInputs {t : TruthTable} : t ∈ tables → TruthTable.maxInputs < t.inputPins.length →
    Refuses d tables (.tooManyInputs t.outputPin t.inputPins.length)
  | wrongTableLength {t : TruthTable} : t ∈ tables →
    t.entries.length ≠ TruthTable.combinations t.inputPins.length →
    Refuses d tables (.wrongTableLength t.outputPin t.entries.length t.inputPins.length)
  | tooManyTerms {t : TruthTable} {o : OutputCell} : t ∈ tables →
    d.output t.outputPin = .ok o → o.termRows < t.trueCount →
    Refuses d tables (.tooManyTerms t.outputPin t.trueCount o.termRows)
  /-- A pin is listed as an output, but the profile has no output cell for it. -/
  | noCell {t : TruthTable} : t ∈ tables → t.outputPin ∈ d.profile.outputPins →
    t.outputPin ∉ d.outputOrder →
    Refuses d tables (.unknownPin t.outputPin .output d.identifier)
  /-- A pin is listed as an input, but has no column. -/
  | noColumn {t : TruthTable} {pin : Int} : t ∈ tables → pin ∈ t.inputPins →
    pin ∈ d.profile.inputPins → pin ∉ d.profile.columnPins →
    Refuses d tables (.unknownPin pin .input d.identifier)
  /-- An output has no row, and its place is not looked at before. -/
  | noRows {t : TruthTable} {o : OutputCell} {first stop : Int} : t ∈ tables →
    d.output t.outputPin = .ok o → o.rowCount = 0 →
    Refuses d tables (.fusesOutside first stop t.outputPin)
  /-- One of two outputs has no row, and its place is not looked at before. -/
  | noRowsBetween {t t' : TruthTable} {o o' : OutputCell} {first stop : Int} : t ∈ tables →
    t' ∈ tables → d.output t.outputPin = .ok o → d.output t'.outputPin = .ok o' →
    o.rowCount = 0 ∨ o'.rowCount = 0 →
    Refuses d tables (.fusesTaken first stop t.outputPin t'.outputPin)
  /-- A value for mode bits equals 0 or 1, but is written with a point. -/
  | modeValue {name : String} {x : Decimal.Binary64} : name ∈ Profile.requiredModeValues →
    d.profile.modeValue? name = some (.real x) → Refuses d tables .fuseValueKind
  | fuseCount : isSize d.profile.fuseCount = false → Refuses d tables .arrayTooLarge

section
variable {tables : List TruthTable}

theorem refuses_of_ofTables (h : SumOfProducts.ofTables tables = .error e) :
    d.Refuses tables e := by
  obtain ⟨front, t, back, rfl, -, ht⟩ := mapM_eq_error_iff.1 h
  have hmem : t ∈ front ++ t :: back := by simp
  obtain ⟨hinputs, rfl⟩ | ⟨hlength, rfl⟩ := SumOfProducts.ofTable_error ht
  · exact .tooManyInputs hmem hinputs
  · exact .wrongTableLength hmem hlength

/-- Valid pins leave two reasons: too many terms, and a profile that offers a pin it has no cell or
column for. -/
theorem refuses_of_layouts (hvalid : ∀ t ∈ tables, d.ValidPins t) {sums : List SumOfProducts}
    (hsums : SumOfProducts.ofTables tables = .ok sums) (h : d.layouts sums = .error e) :
    d.Refuses tables e := by
  obtain ⟨front, s, back, rfl, -, hs⟩ := mapM_eq_error_iff.1 h
  obtain ⟨t, ht, hts⟩ := (mem_iff_of_mapM_eq_ok hsums (b := s)).1 (by simp)
  obtain ⟨-, -, rfl⟩ := SumOfProducts.ofTable_eq_ok_iff.1 hts
  obtain ⟨hcell, rfl⟩ | ⟨o, ho, hterms, rfl⟩ | ⟨term, hterm, l, hl, hcolumn, rfl⟩ := layout_error hs
  · exact .noCell ht (hvalid t ht).output hcell
  · rw [SumOfProducts.length_minterms] at hterms ⊢
    exact .tooManyTerms ht ho hterms
  · have hpin : l.pin ∈ t.inputPins :=
      SumOfProducts.pins_of_mem_minterms hterm ▸ List.mem_map_of_mem hl
    exact .noColumn ht hpin ((hvalid t ht).inputs _ hpin) hcolumn

theorem BlockOf.outputPin_eq {t : TruthTable} {o : OutputCell} {b : FuseBlock}
    (h : d.BlockOf t o b) : o.pin = t.outputPin :=
  (output_eq_ok_iff.1 h.output).2

theorem rowCount_eq_zero_or_pos {t : TruthTable} {o : OutputCell} {b : FuseBlock}
    (h : d.BlockOf t o b) : o.rowCount = 0 ∨ 0 < o.rowCount := by
  obtain ⟨ho, -⟩ := output_eq_ok_iff.1 h.output
  have := OutputCell.rowCount_nonneg (d.geometry.cells o ho).2.1
  omega

/-- A range of a block that cannot be claimed after those of other blocks belongs to an output
without rows, or meets a block of the same output or of one without rows. -/
theorem BlockOf.claim_error {size : Nat} {front : List FuseBlock} {b : FuseBlock}
    {ranges back : List Placement} {r : Placement} {t : TruthTable} {o : OutputCell}
    (hsize : (size : Int) = d.profile.fuseCount.toNat) (hb : d.BlockOf t o b)
    (hfront : ∀ c ∈ front, ∃ t' ∈ tables, ∃ o', d.BlockOf t' o' c)
    (hranges : b.ranges = ranges ++ r :: back)
    (h : FuseArray.claim size (front.flatMap FuseBlock.ranges ++ ranges) r = .error e) :
    (o.rowCount = 0 ∧ e = .fusesOutside r.first r.stop t.outputPin) ∨
      ∃ c ∈ front, ∃ t' ∈ tables, ∃ o', d.BlockOf t' o' c ∧
        (t.outputPin = t'.outputPin ∨ o.rowCount = 0 ∨ o'.rowCount = 0) ∧
        e = .fusesTaken r.first r.stop t.outputPin t'.outputPin := by
  have hr : r ∈ b.ranges := by simp [hranges]
  have hzero := rowCount_eq_zero_or_pos hb
  have hpin := hb.outputPin_eq
  obtain ⟨s, rows, -, hlaid⟩ := hb
  have hrpin : r.outputPin = t.outputPin := (hlaid.outputPin_of_mem_ranges hr).trans hpin
  obtain ⟨houtside, rfl⟩ | ⟨other, hother, hmeets, rfl⟩ := FuseArray.claim_error h
  · refine .inl ⟨hzero.resolve_right fun hpos => ?_, by rw [hrpin]⟩
    have hinside := hlaid.inside hpos hr
    omega
  · rcases List.mem_append.1 hother with hother | hother
    · obtain ⟨c, hc, hother⟩ := List.mem_flatMap.1 hother
      obtain ⟨t', ht', o', hblock'⟩ := hfront c hc
      have hzero' := rowCount_eq_zero_or_pos hblock'
      have hpin' := hblock'.outputPin_eq
      refine .inr ⟨c, hc, t', ht', o', hblock', ?_⟩
      obtain ⟨s', rows', -, hlaid'⟩ := hblock'
      have hopin : other.outputPin = t'.outputPin :=
        (hlaid'.outputPin_of_mem_ranges hother).trans hpin'
      refine ⟨?_, by rw [hrpin, hopin]⟩
      by_contra hrows
      rw [not_or, not_or] at hrows
      rw [hlaid.not_meets hlaid' (hpin ▸ hpin' ▸ hrows.1) (hzero.resolve_left hrows.2.1)
        (hzero'.resolve_left hrows.2.2) hr hother] at hmeets
      cases hmeets
    · -- the ranges of one block never meet
      have hapart := hranges ▸ hlaid.ranges_apart
      have hfalse := (List.pairwise_append.1 hapart).2.2 other hother r List.mem_cons_self
      rw [Placement.meets_comm, hfalse] at hmeets
      cases hmeets

/-- A range that is refused has to do with an output without rows: a sound profile keeps all others
inside the array and apart. -/
theorem refuses_of_claim {size : Nat} {front : List FuseBlock} {b : FuseBlock}
    {ranges back : List Placement} {r : Placement} {t : TruthTable} {o : OutputCell}
    (hsize : (size : Int) = d.profile.fuseCount.toNat) (ht : t ∈ tables) (hb : d.BlockOf t o b)
    (hfront : ∀ c ∈ front, ∃ t' ∈ tables, ∃ o', d.BlockOf t' o' c)
    (hne : ∀ c ∈ front, c.outputPin ≠ b.outputPin) (hranges : b.ranges = ranges ++ r :: back)
    (h : FuseArray.claim size (front.flatMap FuseBlock.ranges ++ ranges) r = .error e) :
    d.Refuses tables e := by
  obtain ⟨hzero, rfl⟩ | ⟨c, hc, t', ht', o', hc', hcause, rfl⟩ :=
    hb.claim_error hsize hfront hranges h
  · exact .noRows ht hb.output hzero
  · refine .noRowsBetween ht ht' hb.output hc'.output (hcause.resolve_left fun heq => ?_)
    apply hne c hc
    rw [← hb.outputPin.2, ← hc'.outputPin.2, hb.outputPin_eq, hc'.outputPin_eq, heq]

/-- A mode bit that cannot be stored has a value with a point. -/
theorem exists_real_of_modeBit {o : OutputCell} {registered : Bool} {bit : Int × Json.Value}
    (hbit : bit ∈ d.modeBits o registered) (h : Fuse.ofJson bit.2 = .error e) :
    (∃ name ∈ Profile.requiredModeValues, ∃ x, d.profile.modeValue? name = some (.real x)) ∧
      e = .fuseValueKind := by
  obtain ⟨name, -, -, hvalue⟩ := mem_modeBits.1 hbit
  obtain ⟨⟨x, hx⟩, rfl⟩ := real_of_ofJson_error h (modeBitValue_bit hvalue)
  refine ⟨?_, rfl⟩
  rw [hx, modeBitValue] at hvalue
  split at hvalue
  · exact ⟨_, by simp [Profile.requiredModeValues], x, hvalue⟩
  · split at hvalue
    · refine ⟨_, ?_, x, hvalue⟩
      cases registered <;> simp [Profile.requiredModeValues]
    · cases hvalue

theorem refuses_of_modeBit {t : TruthTable} {o : OutputCell} {b : FuseBlock}
    (hb : d.BlockOf t o b) {bit : Int × Json.Value} (hbit : bit ∈ b.modeBits)
    (h : Fuse.ofJson bit.2 = .error e) : d.Refuses tables e := by
  rw [hb.modeBits] at hbit
  obtain ⟨⟨name, hname, x, hx⟩, rfl⟩ := exists_real_of_modeBit hbit h
  exact .modeValue hname hx

theorem map_outputPin_layouts {sums : List SumOfProducts} {blocks : List FuseBlock}
    (hsums : SumOfProducts.ofTables tables = .ok sums) (hblocks : d.layouts sums = .ok blocks) :
    blocks.map (·.outputPin) = tables.map (·.outputPin) := by
  have hlayout : blocks.map (·.outputPin) = sums.map (·.outputPin) :=
    map_eq_of_mapM_eq_ok hblocks fun h => by
      obtain ⟨o, rows, hlaid⟩ := laidOut_of_layout h
      rw [hlaid.block]
  have hsum : sums.map (·.outputPin) = tables.map (·.outputPin) :=
    map_eq_of_mapM_eq_ok hsums fun h => by
      obtain ⟨-, -, rfl⟩ := SumOfProducts.ofTable_eq_ok_iff.1 h
      rfl
  exact hlayout.trans hsum

/-- Blocks are placed in the order of the outputs; the first that is refused gives the reason. -/
theorem refuses_of_placeAll (hnodup : (tables.map (·.outputPin)).Nodup)
    {sums : List SumOfProducts} {blocks : List FuseBlock}
    (hsums : SumOfProducts.ofTables tables = .ok sums) (hblocks : d.layouts sums = .ok blocks)
    (h : d.placeAll blocks = .error e) : d.Refuses tables e := by
  rw [placeAll, bind_eq_error_iff] at h
  rcases h with h | ⟨start, hstart, h⟩
  · obtain ⟨hsize, rfl⟩ := blank_error h
    exact .fuseCount hsize
  · obtain ⟨front, b, back, a, horder, hfront, hfailed⟩ := foldlM_eq_error_iff.1 h
    obtain ⟨f, hplace, rfl⟩ := mapError_eq_error_iff.1 hfailed
    have hblank := blank_ok hstart
    have hplaced := FuseArray.placeAll_ok hfront
    have hof : ∀ c ∈ front ++ b :: back, ∃ t ∈ tables, ∃ o, d.BlockOf t o c := fun c hc =>
      exists_table hsums hblocks (mem_inOutputOrder.1 (horder ▸ hc))
    have hpins : ((front ++ b :: back).map (·.outputPin)).Nodup := by
      have hperm : (front ++ b :: back).Perm blocks := horder ▸ inOrder_perm _ _
      rwa [(hperm.map _).nodup_iff, map_outputPin_layouts hsums hblocks]
    obtain ⟨t, ht, o, hb⟩ := hof b (by simp)
    obtain ⟨ranges, r, rest, hranges, hclaim⟩ | ⟨bit, hbit, hvalue⟩ := FuseArray.place_error hplace
    · rw [hplaced.placed, hblank.placed, List.nil_append] at hclaim
      refine refuses_of_claim ?_ ht hb (fun c hc => hof c (List.mem_append_left _ hc))
        (fun c hc heq => ?_) hranges hclaim
      · rw [hplaced.writes.length_eq, hblank.length_eq]
      · rw [List.map_append, List.nodup_append] at hpins
        exact hpins.2.2 c.outputPin (List.mem_map_of_mem hc) b.outputPin (by simp) heq
    · exact refuses_of_modeBit hb hbit hvalue

/-- Tables with valid pins are programmed or refused for one of the reasons of `Refuses`. -/
theorem program_of_validate (h : d.validate tables = .ok ()) :
    (∃ a, d.program tables = .ok a) ∨ ∃ e, d.program tables = .error e ∧ d.Refuses tables e := by
  obtain ⟨hvalid, hnodup⟩ := validate_eq_ok_iff.1 h
  cases hresult : d.program tables with
  | ok a => exact .inl ⟨a, rfl⟩
  | error e =>
    refine .inr ⟨e, rfl, ?_⟩
    simp only [program, bind_eq_error_iff] at hresult
    rcases hresult with hsums | ⟨sums, hsums, hlayouts | ⟨blocks, hblocks, hplace⟩⟩
    · exact refuses_of_ofTables hsums
    · exact refuses_of_layouts hvalid hsums hlayouts
    · exact refuses_of_placeAll hnodup hsums hblocks hplace

end

theorem program_of_validate_smallTables : small.validate smallTables = .ok () ∧
    ((∃ a, small.program smallTables = .ok a) ∨
      ∃ e, small.program smallTables = .error e ∧ small.Refuses smallTables e) :=
  ⟨rfl, program_of_validate rfl⟩

/-- The small device with a pin 5 that is listed as an output and has no cell, a pin 9 that is
listed as an input and has no column, two outputs without rows, one after the last fuse and one
inside the rows of output 3, and a mode value with a point. -/
def smallLoose : Device where
  identifier := "loose"
  profile :=
    { small.profile with
      inputPins := [1, 2, 9]
      outputPins := [3, 4, 5, 6, 7]
      modeValues := [("polarity_active_high", .integer 1), ("combinatorial", .integer 1),
        ("registered", .real (.finite false 4503599627370496 (-52)))]
      outputs := small.profile.outputs ++ [⟨6, 40, 0, false, []⟩, ⟨7, 2, 0, false, []⟩] }
  sound := by rfl

/-- The small device with more fuses than an array can have. -/
def smallVast : Device where
  identifier := "vast"
  profile := { small.profile with fuseCount := sizeBound }
  sound := by rfl

/-- A table that is true if its only input is. -/
def follows (outputPin : Int) (registered : Bool) (inputPin : Int) : TruthTable :=
  ⟨outputPin, registered, [inputPin], [false, true]⟩

/-- A table without inputs that is false. -/
def never (outputPin : Int) : TruthTable := ⟨outputPin, false, [], [false]⟩

theorem valid_tables_refused :
    (smallLoose.validate [follows 5 false 1] = .ok () ∧
      smallLoose.program [follows 5 false 1] = .error (.unknownPin 5 .output "loose")) ∧
    (smallLoose.validate [follows 3 false 9] = .ok () ∧
      smallLoose.program [follows 3 false 9] = .error (.unknownPin 9 .input "loose")) ∧
    (smallLoose.validate [never 6] = .ok () ∧
      smallLoose.program [never 6] = .error (.fusesOutside 160 160 6)) ∧
    (smallLoose.validate [never 7, follows 3 false 1] = .ok () ∧
      smallLoose.program [never 7, follows 3 false 1] = .error (.fusesTaken 8 8 7 3)) ∧
    (smallLoose.validate [follows 3 true 1] = .ok () ∧
      smallLoose.program [follows 3 true 1] = .error .fuseValueKind) ∧
    (smallVast.validate [] = .ok () ∧ smallVast.program [] = .error .arrayTooLarge) :=
  ⟨⟨rfl, rfl⟩, ⟨rfl, rfl⟩, ⟨rfl, rfl⟩, ⟨rfl, rfl⟩, ⟨rfl, rfl⟩, rfl, rfl⟩

end Device

end FuseMap
