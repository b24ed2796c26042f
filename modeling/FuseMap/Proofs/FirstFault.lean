import FuseMap.Proofs.ValidTables

/-! # The first fault

Programming looks for faults in a fixed order: first at each table alone, then at each table on the
device, then at the size of the fuse array, and last for outputs that two tables configure.
`Device.firstFault?` says which fault is found first, and on a regular device programming ends in
this fault, or in an array if there is none (`program_ends_in_firstFault`). On any device, the error
comes from a step for one of the tables (`Device.FailsAt`), or from the size of the array. It names
the output of this table, unless an input pin has no column (`outputPin_of_program_error`).
-/

namespace FuseMap

/-! ## Failures -/

section
variable {ε α β : Type}

/-- The error of a computation that fails. -/
def failure? : Except ε α → Option ε
  | .ok _ => none
  | .error e => some e

theorem failure?_eq_some_iff {step : Except ε α} {e : ε} :
    failure? step = some e ↔ step = .error e := by
  cases step <;> simp [failure?]

theorem failure?_eq_none_iff {step : Except ε α} :
    failure? step = none ↔ ∃ a, step = .ok a := by
  cases step <;> simp [failure?]

theorem failure?_map (f : α → β) (step : Except ε α) :
    failure? (step >>= fun a => pure (f a)) = failure? step := by
  cases step <;> rfl

theorem failure?_ite {p : Prop} [Decidable p] {e : ε} {step : Except ε α} :
    failure? (if p then .error e else step) = if p then some e else failure? step := by
  split <;> rfl

/-- The error for a list is that of its first item with one. -/
theorem failure?_mapM (f : α → Except ε β) (l : List α) :
    failure? (l.mapM f) = l.findSome? fun a => failure? (f a) := by
  induction l with
  | nil => rfl
  | cons a l ih =>
    rw [List.mapM_cons, List.findSome?_cons, ← ih]
    cases f a with
    | error e => rfl
    | ok b => exact failure?_map (b :: ·) (l.mapM f)

end

/-! ## Faults of single tables -/

/-- What is wrong with a table on any device. -/
def TruthTable.fault? (t : TruthTable) : Option Error :=
  if maxInputs < t.inputPins.length then some (.tooManyInputs t.outputPin t.inputPins.length)
  else if t.entries.length ≠ combinations t.inputPins.length then
    some (.wrongTableLength t.outputPin t.entries.length t.inputPins.length)
  else none

/-- The fault of a table is the error of its sum. -/
theorem SumOfProducts.failure?_ofTable (t : TruthTable) : failure? (ofTable t) = t.fault? := by
  rw [ofTable, failure?_ite, failure?_ite]
  rfl

namespace Device

variable {d : Device} {t : TruthTable} {tables : List TruthTable}

/-- The first of some input pins that has no column. -/
def columnFault? (d : Device) (inputPins : List Int) : Option Error :=
  (inputPins.find? (· ∉ d.profile.columnPins)).map (.unknownPin · .input d.identifier)

/-- What is wrong with a table on a device. The columns of the input pins are asked for only if a
row is to be written. -/
def tableFault? (d : Device) (t : TruthTable) : Option Error :=
  match d.profile.outputs.find? (·.pin == t.outputPin) with
  | none => some (.unknownPin t.outputPin .output d.identifier)
  | some o =>
    if o.termRows < t.trueCount then some (.tooManyTerms t.outputPin t.trueCount o.termRows)
    else if 0 < t.trueCount then d.columnFault? t.inputPins
    else none

theorem failure?_column (pin : Int) (inverted : Bool) :
    failure? (d.column pin inverted) =
      if pin ∈ d.profile.columnPins then none else some (.unknownPin pin .input d.identifier) := by
  cases h : d.column pin inverted with
  | error e =>
    obtain ⟨hpin, rfl⟩ := column_error h
    rw [if_neg hpin, failure?]
  | ok column =>
    rw [Device.column] at h
    split at h
    · next i hi =>
      obtain ⟨hlt, hpin, -⟩ := List.idxOf?_eq_some_iff.1 hi
      rw [if_pos (hpin ▸ List.getElem_mem hlt), failure?]
    · cases h

/-- The first pin without a column is the error of a row. -/
theorem failure?_termRow (term : ProductTerm) :
    failure? (d.termRow term) = d.columnFault? term.pins := by
  rw [termRow, failure?_map, failure?_mapM, columnFault?, ProductTerm.pins]
  induction term with
  | nil => rfl
  | cons l term ih =>
    rw [List.findSome?_cons, failure?_column, List.map_cons, List.find?_cons]
    by_cases hpin : l.pin ∈ d.profile.columnPins
    · simp [hpin, ih]
    · simp [hpin]

/-- All rows of a sum fail for the same pin, if they fail. -/
theorem failure?_mapM_termRow {terms : List ProductTerm} {inputPins : List Int}
    (h : ∀ term ∈ terms, term.pins = inputPins) :
    failure? (terms.mapM d.termRow) =
      if 0 < terms.length then d.columnFault? inputPins else none := by
  rw [failure?_mapM]
  induction terms with
  | nil => rfl
  | cons term terms ih =>
    have ⟨hterm, hterms⟩ := List.forall_mem_cons.1 h
    have hpos : 0 < (term :: terms).length := Nat.succ_pos _
    rw [List.findSome?_cons, failure?_termRow, hterm, ih hterms, if_pos hpos]
    cases d.columnFault? inputPins with
    | none => exact ite_self _
    | some e => rfl

/-- The fault of a table on a device is the error of its block. -/
theorem failure?_layout {s : SumOfProducts} (h : SumOfProducts.ofTable t = .ok s) :
    failure? (d.layout s) = d.tableFault? t := by
  obtain ⟨-, -, rfl⟩ := SumOfProducts.ofTable_eq_ok_iff.1 h
  have hlength : (SumOfProducts.minterms t.inputPins t.entries).length = t.trueCount :=
    SumOfProducts.length_minterms _ _
  have hrows : failure? ((SumOfProducts.minterms t.inputPins t.entries).mapM d.termRow) =
      if 0 < t.trueCount then d.columnFault? t.inputPins else none := by
    rw [failure?_mapM_termRow fun _ => SumOfProducts.pins_of_mem_minterms, hlength]
  simp only [layout, throw_eq_error, error_bind, hlength]
  rw [tableFault?, output]
  cases d.profile.outputs.find? (·.pin == t.outputPin) with
  | none => rfl
  | some o =>
    refine failure?_ite.trans ?_
    rw [failure?_map, hrows]

/-! ## Placing the blocks of tables -/

/-- No value for mode bits is a number with a point. -/
def Profile.HasIntegerModeValues (p : Profile) : Prop :=
  ∀ name ∈ requiredModeValues, ∀ x, p.modeValue? name ≠ some (.real x)

/-- A device with columns, whose outputs have rows and whose mode bits can be stored. -/
structure Regular (d : Device) : Prop where
  columns : d.profile.columnPins ≠ []
  rows : ∀ o ∈ d.profile.outputs, 0 < o.rowCount
  modeValues : d.profile.HasIntegerModeValues

/-- A blank array in which blocks of tables have been placed. -/
structure Holds (d : Device) (tables : List TruthTable) (blocks : List FuseBlock)
    (a : FuseArray) : Prop where
  length_eq : a.fuses.length = d.profile.fuseCount.toNat
  placed : a.placed = blocks.flatMap FuseBlock.ranges
  blockOf : ∀ b ∈ blocks, ∃ t ∈ tables, ∃ o, d.BlockOf t o b
  apart : blocks.Pairwise FuseBlock.Apart

section
variable {o : OutputCell} {blocks : List FuseBlock} {b : FuseBlock} {start a : FuseArray}

/-- The run lemma: after all blocks are placed, the array holds them. -/
theorem holds_of_foldlM (hstart : d.blank = .ok start)
    (hof : ∀ b ∈ blocks, ∃ t ∈ tables, ∃ o, d.BlockOf t o b)
    (h : blocks.foldlM (fun a b => (a.place b).mapError (·.error)) start = .ok a) :
    d.Holds tables blocks a := by
  have hblank := blank_ok hstart
  have hplaces := FuseArray.placeAll_ok h
  refine ⟨?_, ?_, hof, hplaces.apart⟩
  · rw [hplaces.writes.length_eq, hblank.length_eq]
  · rw [hplaces.placed, hblank.placed, List.nil_append]

/-- A block is refused for its own place if its output has no rows, or for that of another block
of the same output or one without rows. -/
theorem Holds.place_error (h : d.Holds tables blocks a) (hmode : d.profile.HasIntegerModeValues)
    (hb : d.BlockOf t o b) {f : FuseArray.PlaceFailure} (hf : a.place b = .error f) :
    ∃ r : Placement, (o.rowCount = 0 ∧ f.error = .fusesOutside r.first r.stop t.outputPin) ∨
      ∃ c ∈ blocks, ∃ t' ∈ tables, ∃ o', d.BlockOf t' o' c ∧
        (t.outputPin = t'.outputPin ∨ o.rowCount = 0 ∨ o'.rowCount = 0) ∧
        f.error = .fusesTaken r.first r.stop t.outputPin t'.outputPin := by
  have hsize : (a.fuses.length : Int) = d.profile.fuseCount.toNat := by rw [h.length_eq]
  obtain ⟨ranges, r, back, hranges, hclaim⟩ | ⟨bit, hbit, hvalue⟩ := FuseArray.place_error hf
  · rw [h.placed] at hclaim
    exact ⟨r, hb.claim_error hsize h.blockOf hranges hclaim⟩
  · rw [hb.modeBits] at hbit
    obtain ⟨⟨name, hname, x, hx⟩, -⟩ := exists_real_of_modeBit hbit hvalue
    exact absurd hx (hmode name hname x)

/-- An output of a regular device has rows, which meet themselves. -/
theorem Regular.matrixRange_meets_self (hd : d.Regular) (ho : o ∈ d.profile.outputs) :
    (d.profile.matrixRange o).meets (d.profile.matrixRange o) = true := by
  have hlength : 0 < d.profile.rowLength :=
    Nat.mul_pos Nat.two_pos (List.length_pos_iff.2 hd.columns)
  have hlt : o.firstRow * d.profile.rowLength <
      (o.firstRow + o.rowCount) * d.profile.rowLength := by
    apply Int.mul_lt_mul_of_pos_right
    · have := hd.rows o ho
      omega
    · exact Int.natCast_pos.2 hlength
  rw [Placement.meets, Bool.and_self]
  exact decide_eq_true hlt

theorem BlockOf.exists_ranges_eq (hb : d.BlockOf t o b) :
    ∃ rest, b.ranges = d.profile.matrixRange o :: rest := by
  obtain ⟨s, rows, -, hlaid⟩ := hb
  obtain ⟨bits, hranges, -⟩ := hlaid.ranges_eq_cons
  exact ⟨_, hranges⟩

/-- The output of a block is fixed by its pin. -/
theorem BlockOf.cell_eq {t' : TruthTable} {o' : OutputCell} {c : FuseBlock}
    (hb : d.BlockOf t o b) (hc : d.BlockOf t' o' c) (h : b.outputPin = c.outputPin) : o = o' := by
  obtain ⟨ho, hpin⟩ := hb.outputPin
  obtain ⟨ho', hpin'⟩ := hc.outputPin
  apply List.inj_on_of_nodup_map d.geometry.outputs ho ho'
  rw [hpin, hpin', h]

/-- Two blocks of one output meet in its rows. -/
theorem Regular.not_apart (hd : d.Regular) {t' : TruthTable} {o' : OutputCell} {c : FuseBlock}
    (hb : d.BlockOf t o b) (hc : d.BlockOf t' o' c) (h : b.outputPin = c.outputPin) :
    ¬ b.Apart c := by
  obtain rfl := hb.cell_eq hc h
  obtain ⟨rest, hranges⟩ := hb.exists_ranges_eq
  obtain ⟨rest', hranges'⟩ := hc.exists_ranges_eq
  intro hapart
  have hfalse := hapart (d.profile.matrixRange o) (hranges ▸ List.mem_cons_self)
    (d.profile.matrixRange o) (hranges' ▸ List.mem_cons_self)
  rw [hd.matrixRange_meets_self hb.outputPin.1] at hfalse
  cases hfalse

/-- Blocks that have been placed belong to different outputs. -/
theorem Holds.nodup (h : d.Holds tables blocks a) (hd : d.Regular) :
    (blocks.map (·.outputPin)).Nodup := by
  rw [List.Nodup, List.pairwise_map]
  refine h.apart.imp_of_mem fun {b c} hb hc hapart heq => ?_
  obtain ⟨t, -, o, hbt⟩ := h.blockOf b hb
  obtain ⟨t', -, o', hct⟩ := h.blockOf c hc
  exact hd.not_apart hbt hct heq hapart

/-- Outputs with rows are only in each other's way if they are the same. -/
theorem Regular.outputPin_eq (hd : d.Regular) {t' : TruthTable} {o' : OutputCell} {c : FuseBlock}
    (hb : d.BlockOf t o b) (hc : d.BlockOf t' o' c)
    (h : t.outputPin = t'.outputPin ∨ o.rowCount = 0 ∨ o'.rowCount = 0) :
    t.outputPin = t'.outputPin := by
  have hpos := hd.rows o hb.outputPin.1
  have hpos' := hd.rows o' hc.outputPin.1
  apply h.resolve_right
  omega

/-- A block that is refused belongs to an output that has been placed before. -/
theorem Holds.outputPin_mem_of_place_error (h : d.Holds tables blocks a) (hd : d.Regular)
    (hb : d.BlockOf t o b) {f : FuseArray.PlaceFailure} (hf : a.place b = .error f) :
    b.outputPin ∈ blocks.map (·.outputPin) := by
  obtain ⟨r, ⟨hrows, -⟩ | ⟨c, hc, t', -, o', hct, hcause, -⟩⟩ := h.place_error hd.modeValues hb hf
  · exact absurd hrows (Int.ne_of_gt (hd.rows o hb.outputPin.1))
  · have hpin : c.outputPin = b.outputPin := by
      rw [← hb.outputPin.2, ← hct.outputPin.2, hb.outputPin_eq, hct.outputPin_eq]
      exact (hd.outputPin_eq hb hct hcause).symm
    exact List.mem_map.2 ⟨c, hc, hpin⟩

/-- The rows of an output that has been placed before cannot be claimed again. -/
theorem Holds.claim_matrixRange (h : d.Holds tables blocks a) (hd : d.Regular)
    (hb : d.BlockOf t o b) (hmem : b.outputPin ∈ blocks.map (·.outputPin)) :
    FuseArray.claim a.fuses.length a.placed (d.profile.matrixRange o) =
      .error (.fusesTaken (d.profile.matrixRange o).first (d.profile.matrixRange o).stop
        o.pin o.pin) := by
  obtain ⟨c, hc, hpin⟩ := List.mem_map.1 hmem
  obtain ⟨t', -, o', hct⟩ := h.blockOf c hc
  cases hclaim : FuseArray.claim a.fuses.length a.placed (d.profile.matrixRange o) with
  | ok taken =>
    obtain ⟨rest, hranges⟩ := hct.exists_ranges_eq
    rw [hct.cell_eq hb hpin] at hranges
    have hplaced : d.profile.matrixRange o ∈ a.placed := by
      rw [h.placed]
      exact List.mem_flatMap.2 ⟨c, hc, hranges ▸ List.mem_cons_self⟩
    have hfree := (FuseArray.claim_eq_ok_iff.1 hclaim).2.1 _ hplaced
    rw [hd.matrixRange_meets_self hb.outputPin.1] at hfree
    cases hfree
  | error e =>
    have hsize : (a.fuses.length : Int) = d.profile.fuseCount.toNat := by rw [h.length_eq]
    obtain ⟨rest, hranges⟩ := hb.exists_ranges_eq
    rw [h.placed, ← List.append_nil (blocks.flatMap FuseBlock.ranges)] at hclaim
    -- nothing of the block itself has been claimed before its rows
    obtain ⟨hrows, -⟩ | ⟨c, -, t', -, o', hct, hcause, rfl⟩ :=
      hb.claim_error hsize h.blockOf (hranges.trans (List.nil_append _).symm) hclaim
    · exact absurd hrows (Int.ne_of_gt (hd.rows o hb.outputPin.1))
    · rw [← hd.outputPin_eq hb hct hcause, hb.outputPin_eq]

/-- The error for a block is that for its rows, which it claims first. -/
theorem Holds.place_error_eq (h : d.Holds tables blocks a) (hd : d.Regular)
    (hb : d.BlockOf t o b) {f : FuseArray.PlaceFailure} (hf : a.place b = .error f) :
    f.error = .fusesTaken (d.profile.matrixRange o).first (d.profile.matrixRange o).stop
      o.pin o.pin := by
  have hclaim := h.claim_matrixRange hd hb (h.outputPin_mem_of_place_error hd hb hf)
  obtain ⟨rest, hranges⟩ := hb.exists_ranges_eq
  cases (FuseArray.place_eq_error_of_claim hranges hclaim).symm.trans hf
  rfl

end

/-! ## Outputs that two tables configure -/

/-- The first output, in the order of the device, that two tables configure. -/
def sharedOutput? (d : Device) (tables : List TruthTable) : Option OutputCell :=
  d.profile.outputs.find? fun o => 1 < (tables.map (·.outputPin)).count o.pin

/-- The fault of tables for one output: the second of them finds its rows taken by the first. -/
def sharedFault? (d : Device) (tables : List TruthTable) : Option Error :=
  (d.sharedOutput? tables).map fun o =>
    .fusesTaken (d.profile.matrixRange o).first (d.profile.matrixRange o).stop o.pin o.pin

theorem sharedOutput?_eq_none_of_nodup (h : (tables.map (·.outputPin)).Nodup) :
    d.sharedOutput? tables = none := by
  rw [sharedOutput?, List.find?_eq_none]
  intro o _
  have := List.nodup_iff_count_le_one.1 h o.pin
  simpa using this

theorem idxOf_lt_of_mem {o o' : OutputCell} {before after : List OutputCell}
    (houtputs : d.profile.outputs = before ++ o :: after) (ho' : o' ∈ before) :
    d.outputOrder.idxOf o'.pin < d.outputOrder.idxOf o.pin := by
  have hnodup := d.geometry.outputs
  rw [outputOrder]
  rw [houtputs, List.map_append, List.map_cons] at hnodup ⊢
  have hmem : o'.pin ∈ before.map (·.pin) := List.mem_map_of_mem ho'
  have hnotMem : o.pin ∉ before.map (·.pin) := fun hpin =>
    (List.nodup_append.1 hnodup).2.2 o.pin hpin o.pin List.mem_cons_self rfl
  rw [List.idxOf_append_of_mem hmem, List.idxOf_append_of_notMem hnotMem, List.idxOf_cons_self]
  exact Nat.lt_of_lt_of_le (List.idxOf_lt_length_of_mem hmem) (Nat.le_add_right _ _)

/-- Blocks are placed in the order of the outputs. -/
theorem pairwise_inOutputOrder (blocks : List FuseBlock) :
    (d.inOutputOrder (·.outputPin) blocks).Pairwise fun b c =>
      d.outputOrder.idxOf b.outputPin ≤ d.outputOrder.idxOf c.outputPin := by
  refine (inOrder_pairwise (fun _ _ _ hab hbc => ?_) (fun _ _ => ?_) blocks).imp of_decide_eq_true
  · exact decide_eq_true (Nat.le_trans (of_decide_eq_true hab) (of_decide_eq_true hbc))
  · simpa using Nat.le_total _ _

/-- In the order of the outputs, the first block whose output has been placed before belongs to the
first output that two tables configure. -/
theorem sharedOutput?_eq_some {o : OutputCell} {b : FuseBlock} {front back : List FuseBlock}
    (hb : d.BlockOf t o b)
    (hperm : ((front ++ b :: back).map (·.outputPin)).Perm (tables.map (·.outputPin)))
    (horder : (front ++ b :: back).Pairwise fun b c =>
      d.outputOrder.idxOf b.outputPin ≤ d.outputOrder.idxOf c.outputPin)
    (hnodup : (front.map (·.outputPin)).Nodup) (hmem : b.outputPin ∈ front.map (·.outputPin)) :
    d.sharedOutput? tables = some o := by
  obtain ⟨ho, hpin⟩ := hb.outputPin
  obtain ⟨before, after, houtputs⟩ := List.append_of_mem ho
  have hcount : ∀ pin, (tables.map (·.outputPin)).count pin =
      (front.map (·.outputPin)).count pin + ((b :: back).map (·.outputPin)).count pin := by
    intro pin
    rw [← hperm.count_eq, List.map_append, List.count_append]
  rw [sharedOutput?, List.find?_eq_some_iff_append]
  refine ⟨decide_eq_true ?_, before, after, houtputs, fun o' ho' => ?_⟩
  · have hfront := List.one_le_count_iff.2 hmem
    have hrest : 1 ≤ ((b :: back).map (·.outputPin)).count b.outputPin :=
      List.one_le_count_iff.2 (List.mem_map_of_mem List.mem_cons_self)
    rw [hcount, hpin]
    omega
  · -- no block from `b` on belongs to an output before that of `b`
    have hrest : ((b :: back).map (·.outputPin)).count o'.pin = 0 := by
      rw [List.count_eq_zero]
      intro hmem'
      obtain ⟨c, hc, hcpin⟩ := List.mem_map.1 hmem'
      have hlt := idxOf_lt_of_mem houtputs ho'
      have hle : d.outputOrder.idxOf b.outputPin ≤ d.outputOrder.idxOf c.outputPin := by
        obtain rfl | hc := List.mem_cons.1 hc
        · exact Nat.le_refl _
        · exact (List.pairwise_cons.1 (List.pairwise_append.1 horder).2.1).1 c hc
      rw [hpin, ← hcpin] at hlt
      omega
    have hfront := List.nodup_iff_count_le_one.1 hnodup o'.pin
    rw [hcount, hrest]
    simpa using hfront

/-! ## The size of the array -/

/-- The fault of a device with a number of fuses that is no size of an array. -/
def sizeFault? (d : Device) : Option Error :=
  if isSize d.profile.fuseCount then none else some .arrayTooLarge

theorem failure?_blank : failure? d.blank = d.sizeFault? := by
  rw [blank, failure?_map, FuseArray.filled, sizeFault?]
  split <;> rfl

/-- Placing fails for the size of the array, or for the first output that is used twice. -/
theorem failure?_placeAll (hd : d.Regular) {sums : List SumOfProducts} {blocks : List FuseBlock}
    (hsums : SumOfProducts.ofTables tables = .ok sums) (hblocks : d.layouts sums = .ok blocks) :
    failure? (d.placeAll blocks) = d.sizeFault?.or (d.sharedFault? tables) := by
  rw [placeAll, ← failure?_blank]
  cases hstart : d.blank with
  | error e => rfl
  | ok start =>
    show failure? (List.foldlM _ start _) = d.sharedFault? tables
    have hof : ∀ b ∈ d.inOutputOrder (·.outputPin) blocks, ∃ t ∈ tables, ∃ o, d.BlockOf t o b :=
      fun b hb => exists_table hsums hblocks (mem_inOutputOrder.1 hb)
    have hperm : ((d.inOutputOrder (·.outputPin) blocks).map (·.outputPin)).Perm
        (tables.map (·.outputPin)) := by
      rw [← map_outputPin_layouts hsums hblocks]
      exact (inOrder_perm _ blocks).map _
    have horder := pairwise_inOutputOrder (d := d) blocks
    generalize d.inOutputOrder (·.outputPin) blocks = ordered at hof hperm horder ⊢
    cases hfold : ordered.foldlM (fun a b => (a.place b).mapError (·.error)) start with
    | ok a =>
      have hnodup := (holds_of_foldlM hstart hof hfold).nodup hd
      rw [hperm.nodup_iff] at hnodup
      rw [sharedFault?, sharedOutput?_eq_none_of_nodup hnodup]
      rfl
    | error e =>
      obtain ⟨front, b, back, a, rfl, hfront, hfailed⟩ := foldlM_eq_error_iff.1 hfold
      obtain ⟨f, hplace, rfl⟩ := mapError_eq_error_iff.1 hfailed
      have hholds := holds_of_foldlM hstart (fun c hc => hof c (List.mem_append_left _ hc)) hfront
      obtain ⟨t, -, o, hb⟩ := hof b (by simp)
      have hmem := hholds.outputPin_mem_of_place_error hd hb hplace
      rw [sharedFault?, sharedOutput?_eq_some hb hperm horder (hholds.nodup hd) hmem,
        hholds.place_error_eq hd hb hplace]
      rfl

/-! ## All faults in their order -/

/-- The first fault of tables on a device. -/
def firstFault? (d : Device) (tables : List TruthTable) : Option Error :=
  (tables.findSome? TruthTable.fault?).or <| (tables.findSome? d.tableFault?).or <|
    d.sizeFault?.or (d.sharedFault? tables)

theorem failure?_ofTables :
    failure? (SumOfProducts.ofTables tables) = tables.findSome? TruthTable.fault? := by
  rw [SumOfProducts.ofTables, failure?_mapM]
  simp only [SumOfProducts.failure?_ofTable]

theorem failure?_layouts {sums : List SumOfProducts}
    (h : SumOfProducts.ofTables tables = .ok sums) :
    failure? (d.layouts sums) = tables.findSome? d.tableFault? := by
  rw [layouts, failure?_mapM]
  rw [SumOfProducts.ofTables, mapM_eq_ok_iff] at h
  induction h with
  | nil => rfl
  | cons hs _ ih => rw [List.findSome?_cons, List.findSome?_cons, failure?_layout hs, ih]

/-- The stages are gone through in order, each for all tables. -/
theorem failure?_program (hd : d.Regular) (tables : List TruthTable) :
    failure? (d.program tables) = d.firstFault? tables := by
  rw [program, firstFault?, ← failure?_ofTables]
  cases hsums : SumOfProducts.ofTables tables with
  | error e => rfl
  | ok sums =>
    rw [← failure?_layouts hsums]
    show failure? (d.layouts sums >>= _) = (failure? (d.layouts sums)).or _
    cases hblocks : d.layouts sums with
    | error e => rfl
    | ok blocks => exact failure?_placeAll hd hsums hblocks

/-- Programming ends in the first fault of the tables, and in an array if they have none. -/
theorem program_ends_in_firstFault (hd : d.Regular) (tables : List TruthTable) :
    (∀ e, d.program tables = .error e ↔ d.firstFault? tables = some e) ∧
      ((∃ a, d.program tables = .ok a) ↔ d.firstFault? tables = none) := by
  rw [← failure?_program hd]
  exact ⟨fun e => failure?_eq_some_iff.symm, failure?_eq_none_iff.symm⟩

theorem regular_small : small.Regular := by
  refine ⟨by decide, by decide, fun name hname x h => ?_⟩
  simp only [Profile.requiredModeValues, List.mem_cons, List.not_mem_nil, or_false] at hname
  obtain rfl | rfl | rfl := hname <;> cases h

/-- Two outputs are configured twice. The one that comes first on the device is reported, although
the other one comes first in the list. -/
theorem program_small_shared :
    small.Regular ∧ small.firstFault? [never 4, never 3, never 4, never 3] =
        some (.fusesTaken 4 16 3 3) ∧
      small.program [never 4, never 3, never 4, never 3] = .error (.fusesTaken 4 16 3 3) :=
  ⟨regular_small, rfl, ((program_ends_in_firstFault regular_small _).1 _).2 rfl⟩

/-- The size of the array comes before outputs that are shared. -/
theorem program_smallVast_shared :
    smallVast.Regular ∧ [never 3, never 3].findSome? TruthTable.fault? = none ∧
      [never 3, never 3].findSome? smallVast.tableFault? = none ∧
      smallVast.sharedFault? [never 3, never 3] = some (.fusesTaken 4 16 3 3) ∧
      smallVast.program [never 3, never 3] = .error .arrayTooLarge ∧
      smallVast.sharedFault? [] = none ∧ smallVast.program [] = .error .arrayTooLarge :=
  ⟨⟨regular_small.columns, regular_small.rows, regular_small.modeValues⟩, rfl, rfl, rfl, rfl, rfl,
    rfl⟩

/-! ## The table that an error belongs to -/

/-- A step for a table fails: it has no sum, its sum has no block, or its block is refused in an
array that holds blocks of other tables. -/
inductive FailsAt (d : Device) (tables : List TruthTable) (t : TruthTable) : Error → Prop
  | sum {e : Error} : SumOfProducts.ofTable t = .error e → FailsAt d tables t e
  | layout {s : SumOfProducts} {e : Error} : SumOfProducts.ofTable t = .ok s →
    d.layout s = .error e → FailsAt d tables t e
  | placing {o : OutputCell} {b : FuseBlock} {blocks : List FuseBlock} {a : FuseArray}
    {f : FuseArray.PlaceFailure} : d.BlockOf t o b → d.Holds tables blocks a →
    a.place b = .error f → FailsAt d tables t f.error

/-- The error of a step for a table names its output, unless an input pin has no column. -/
theorem FailsAt.outputPin {e : Error} (h : d.FailsAt tables t e)
    (hmode : d.profile.HasIntegerModeValues) :
    e.outputPin? = some t.outputPin ∨
      ∃ pin ∈ t.inputPins, pin ∉ d.profile.columnPins ∧
        e = .unknownPin pin .input d.identifier := by
  cases h with
  | sum h =>
    obtain ⟨-, rfl⟩ | ⟨-, rfl⟩ := SumOfProducts.ofTable_error h
    · exact .inl rfl
    · exact .inl rfl
  | layout hs h =>
    obtain ⟨-, -, rfl⟩ := SumOfProducts.ofTable_eq_ok_iff.1 hs
    obtain ⟨-, rfl⟩ | ⟨o, -, -, rfl⟩ | ⟨term, hterm, l, hl, hcolumn, rfl⟩ := layout_error h
    · exact .inl rfl
    · exact .inl rfl
    · refine .inr ⟨l.pin, ?_, hcolumn, rfl⟩
      rw [← SumOfProducts.pins_of_mem_minterms hterm]
      exact List.mem_map_of_mem hl
  | placing hb hholds h =>
    obtain ⟨r, ⟨-, herror⟩ | ⟨c, -, t', -, o', -, -, herror⟩⟩ := hholds.place_error hmode hb h
    · exact .inl (by rw [herror]; rfl)
    · exact .inl (by rw [herror]; rfl)

/-- Programming fails at a step for a table, or for the size of the array. -/
theorem failsAt_of_program {e : Error} (h : d.program tables = .error e) :
    (∃ t ∈ tables, d.FailsAt tables t e) ∨
      (isSize d.profile.fuseCount = false ∧ e = .arrayTooLarge) := by
  simp only [program, placeAll, bind_eq_error_iff] at h
  rcases h with hsums | ⟨sums, hsums, hlayouts | ⟨blocks, hblocks, hblank | ⟨start, hstart, h⟩⟩⟩
  · obtain ⟨front, t, back, rfl, -, ht⟩ := mapM_eq_error_iff.1 hsums
    exact .inl ⟨t, by simp, .sum ht⟩
  · obtain ⟨front, s, back, rfl, -, hs⟩ := mapM_eq_error_iff.1 hlayouts
    obtain ⟨t, ht, hts⟩ := (mem_iff_of_mapM_eq_ok hsums (b := s)).1 (by simp)
    exact .inl ⟨t, ht, .layout hts hs⟩
  · exact .inr (blank_error hblank)
  · obtain ⟨front, b, back, a, horder, hfront, hfailed⟩ := foldlM_eq_error_iff.1 h
    obtain ⟨f, hplace, rfl⟩ := mapError_eq_error_iff.1 hfailed
    have hof : ∀ c ∈ front ++ b :: back, ∃ t ∈ tables, ∃ o, d.BlockOf t o c := fun c hc =>
      exists_table hsums hblocks (mem_inOutputOrder.1 (horder ▸ hc))
    obtain ⟨t, ht, o, hb⟩ := hof b (by simp)
    have hholds := holds_of_foldlM hstart (fun c hc => hof c (List.mem_append_left _ hc)) hfront
    exact .inl ⟨t, ht, .placing hb hholds hplace⟩

/-- The error of programming names the output of the table that it comes from, unless it is that of
an input pin without a column, or the device has no array at all. -/
theorem outputPin_of_program_error {e : Error} (hmode : d.profile.HasIntegerModeValues)
    (h : d.program tables = .error e) :
    (∃ t ∈ tables, d.FailsAt tables t e ∧
        (e.outputPin? = some t.outputPin ∨
          ∃ pin ∈ t.inputPins, pin ∉ d.profile.columnPins ∧
            e = .unknownPin pin .input d.identifier)) ∨
      (isSize d.profile.fuseCount = false ∧ e = .arrayTooLarge) := by
  refine (failsAt_of_program h).imp_left fun ⟨t, ht, hfails⟩ => ?_
  exact ⟨t, ht, hfails, hfails.outputPin hmode⟩

/-- The second of two tables for one output fails at its place, and the error names the output. -/
theorem outputPin_of_small_shared :
    small.profile.HasIntegerModeValues ∧
      small.program [follows 4 false 1, never 4] = .error (.fusesTaken 16 24 4 4) ∧
      ∃ t ∈ [follows 4 false 1, never 4],
        small.FailsAt [follows 4 false 1, never 4] t (.fusesTaken 16 24 4 4) ∧
          t.outputPin = 4 := by
  have hprogram : small.program [follows 4 false 1, never 4] = .error (.fusesTaken 16 24 4 4) := rfl
  refine ⟨regular_small.modeValues, hprogram, ?_⟩
  obtain ⟨t, ht, hfails, hpin | ⟨_, -, -, h⟩⟩ | ⟨-, h⟩ :=
    outputPin_of_program_error regular_small.modeValues hprogram
  · exact ⟨t, ht, hfails, (Option.some.inj hpin).symm⟩
  · cases h
  · cases h

/-- The error of an input pin without a column names no output. -/
theorem outputPin_missing_of_small :
    small.profile.HasIntegerModeValues ∧
      small.program [follows 3 false 9] = .error (.unknownPin 9 .input "small") ∧
      ¬ ∃ t ∈ [follows 3 false 9],
        (Error.unknownPin 9 .input "small").outputPin? = some t.outputPin :=
  ⟨regular_small.modeValues, rfl, fun ⟨_, _, h⟩ => nomatch h⟩

end Device

end FuseMap
