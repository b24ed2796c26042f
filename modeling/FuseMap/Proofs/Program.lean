import FuseMap.Fuse.Program
import FuseMap.Proofs.Layout
import FuseMap.Proofs.Minterm

/-! # Programmed devices

A programmed array holds the block of every table (`Programmed.block`) and is blank elsewhere
(`Programmed.blank_of_unused`). Hence the outputs compute the tables, the other rows of the matrix
are false, and the fuses after the matrix are 0 unless they are mode bits of a configured output
(`Implements`).
-/

namespace FuseMap.Device

variable {d : Device} {tables : List TruthTable} {a : FuseArray}

/-! ## Mode bits -/

theorem mem_modeBits {o : OutputCell} {registered : Bool} {offset : Int} {value : Json.Value} :
    (offset, value) ∈ d.modeBits o registered ↔ ∃ name ∈ ["combinatorial", "polarity"],
      o.modeBits.lookup name = some offset ∧ d.modeBitValue registered name = some value := by
  simp [modeBits, List.mem_filterMap, Option.bind_eq_some_iff]

theorem offset_of_lookup {o : OutputCell} (ho : o ∈ d.profile.outputs) {name : String}
    {offset : Int} (h : o.modeBits.lookup name = some offset) :
    d.profile.matrixFuses ≤ offset ∧ offset < d.profile.fuseCount := by
  obtain ⟨before, after, hbits, -⟩ := List.lookup_eq_some_iff.1 h
  refine d.geometry.modeBits ⟨o.pin, name, offset⟩ (List.mem_flatMap.2 ⟨o, ho, ?_⟩)
  exact List.mem_map.2 ⟨(name, offset), by simp [hbits], rfl⟩

/-- A bit that can be stored is stored as itself. -/
theorem equalsInteger_of_ofJson {value : Json.Value} {f : Fuse} (h : Fuse.ofJson value = .ok f) :
    value.equalsInteger f.toNat = true := by
  cases value with
  | bool b =>
    cases h
    cases b <;> rfl
  | integer n =>
    simp only [Fuse.ofJson, Fuse.ofInt] at h
    split at h
    · next hn =>
      cases h
      simp [Json.Value.equalsInteger]
      omega
    · cases h
  | _ => cases h

theorem bit_of_ofJson {value : Json.Value} {f : Fuse} (h : Fuse.ofJson value = .ok f)
    (hbit : Profile.isBit value = true) : f = 0 ∨ f = 1 := by
  cases value with
  | bool b =>
    cases h
    cases b <;> simp
  | integer n =>
    simp only [Profile.isBit, Json.Value.equalsInteger, Bool.or_eq_true, beq_iff_eq] at hbit
    rcases hbit with rfl | rfl <;> cases h <;> simp
  | _ => cases h

/-! ## Blank arrays -/

/-- An array with nothing programmed: the matrix connects everything, the other fuses are 0. -/
structure Blank (d : Device) (a : FuseArray) : Prop where
  placed : a.placed = []
  length_eq : a.fuses.length = d.profile.fuseCount.toNat
  matrix : ∀ {i : Nat}, i < d.profile.matrixFuses → a.fuses[i]? = some d.connected
  rest : ∀ {i : Nat}, d.profile.matrixFuses ≤ i → i < a.fuses.length → a.fuses[i]? = some 0

theorem overwrite_replicate {m n : Nat} {f g : Fuse} :
    FuseArray.overwrite (List.replicate n f) 0 (List.replicate m g) =
      List.replicate m g ++ List.replicate (n - m) f := by
  simp [FuseArray.overwrite]

/-- Before anything is placed, the matrix is connected and all other fuses are 0. -/
theorem fuses_of_blank (h : d.blank = .ok a) : a.placed = [] ∧
    a.fuses = List.replicate d.profile.matrixFuses.toNat d.connected ++
      List.replicate (d.profile.fuseCount.toNat - d.profile.matrixFuses.toNat) 0 := by
  have hle := Int.toNat_le_toNat d.geometry.matrix
  simp only [blank, FuseArray.filled, bind_eq_ok_iff, pure_eq_ok_iff] at h
  obtain ⟨zeros, hzeros, rfl⟩ := h
  split at hzeros
  · cases hzeros
    refine ⟨rfl, ?_⟩
    rcases d.geometry.connected with hc | hc
    · have hconnected : d.connected = 0 := by rw [connected, hc]; rfl
      rw [if_pos hc, overwrite_replicate, hconnected, List.replicate_append_replicate,
        List.replicate_zero, List.nil_append, Nat.sub_zero, Nat.add_sub_cancel' hle]
    · have hconnected : d.connected = 1 := by rw [connected, hc]; rfl
      rw [if_neg (by simp [hc]), overwrite_replicate, hconnected]
  · cases hzeros

theorem blank_ok (h : d.blank = .ok a) : d.Blank a := by
  obtain ⟨hplaced, hfuses⟩ := fuses_of_blank h
  have hmatrix := d.geometry.matrix
  have hlen : a.fuses.length = d.profile.fuseCount.toNat := by
    rw [hfuses, List.length_append, List.length_replicate, List.length_replicate]
    omega
  refine ⟨hplaced, hlen, fun hi => ?_, fun hi hlt => ?_⟩
  · rw [hfuses, List.getElem?_append_left (by rw [List.length_replicate]; omega),
      List.getElem?_replicate_of_lt (by omega)]
  · rw [hfuses, List.getElem?_append_right (by rw [List.length_replicate]; omega),
      List.length_replicate, List.getElem?_replicate_of_lt (by omega)]

/-! ## The fuses of a block -/

section
variable {s : SumOfProducts} {o : OutputCell} {rows : List (List Fuse)} {b : FuseBlock}
  {i : Nat} {f : Fuse}

theorem LaidOut.length_fuses (h : d.LaidOut s o rows b) :
    b.fuses.length = o.rowCount.toNat * d.profile.rowLength := by
  rw [h.block]
  exact (length_flatten_rows fun _ => length_of_mem_blockRows h.terms).trans
    (by rw [length_blockRows h.length_rows])

/-- A fuse of a block is in one of its rows or one of its mode bits. -/
theorem LaidOut.gives_cases (h : d.LaidOut s o rows b) (hf : b.Gives i f) :
    (i < d.profile.matrixFuses ∧ o.rows.Contains (i / d.profile.rowLength : Nat)) ∨
      (d.profile.matrixFuses ≤ i ∧ ∃ name ∈ ["combinatorial", "polarity"],
        o.modeBits.lookup name = some (i : Int)) := by
  have hlen := h.length_fuses
  cases hf with
  | @matrix k hf hi =>
    have hk := (List.getElem?_eq_some_iff.1 hf).1
    rw [hlen] at hk
    have hpos : 0 < d.profile.rowLength := Nat.pos_of_lt_mul_left hk
    have hfirst := Int.toNat_of_nonneg h.firstRow_nonneg
    have hi : i = o.firstRow.toNat * d.profile.rowLength + k := by
      rw [h.block, ← hfirst] at hi
      simp only at hi
      omega
    have hrow : o.rows.Contains (i / d.profile.rowLength : Nat) := by
      have hk := Nat.div_lt_of_lt_mul (Nat.mul_comm _ _ ▸ hk)
      rw [hi, Nat.mul_comm, Nat.mul_add_div hpos]
      generalize k / d.profile.rowLength = n at hk
      simp only [RowRange.Contains, OutputCell.rows]
      omega
    refine .inl ⟨?_, hrow⟩
    have hlt := Profile.lt_matrixRows h.cell.1 hrow
    have hmod : i < (i / d.profile.rowLength + 1) * d.profile.rowLength :=
      Nat.lt_mul_of_div_lt (Nat.lt_succ_self _) hpos
    calc (i : Int) < ((i / d.profile.rowLength : Nat) + 1) * d.profile.rowLength := by
          exact_mod_cast hmod
      _ ≤ d.profile.matrixRows * d.profile.rowLength :=
          Int.mul_le_mul_of_nonneg_right hlt (Int.natCast_nonneg _)
  | mode hbit _ =>
    rw [h.block] at hbit
    obtain ⟨name, hname, hlookup, -⟩ := mem_modeBits.1 hbit
    exact .inr ⟨(offset_of_lookup h.cell.1 hlookup).1, name, hname, hlookup⟩

theorem connected_bit (d : Device) : d.connected = 0 ∨ d.connected = 1 := by
  rw [connected]
  rcases d.geometry.connected with h | h <;> rw [h] <;> decide

theorem disconnected_bit (d : Device) : d.disconnected = 0 ∨ d.disconnected = 1 := by
  rw [disconnected, Profile.disconnectedFuse]
  rcases d.geometry.connected with h | h <;> rw [h] <;> decide

theorem modeBitValue_bit {registered : Bool} {name : String} {value : Json.Value}
    (h : d.modeBitValue registered name = some value) : Profile.isBit value = true := by
  have hbit : ∀ {name}, name ∈ Profile.requiredModeValues →
      d.profile.modeValue? name = some value → Profile.isBit value = true := by
    intro name hname h
    obtain ⟨value', hvalue', hbit⟩ := d.geometry.modeValues name hname
    cases h.symm.trans hvalue'
    exact hbit
  rw [modeBitValue] at h
  split at h
  · exact hbit (by simp [Profile.requiredModeValues]) h
  · split at h
    · exact hbit (by cases registered <;> simp [Profile.requiredModeValues]) h
    · cases h

/-- A block writes nothing but bits. -/
theorem LaidOut.gives_bit (h : d.LaidOut s o rows b) (hf : b.Gives i f) : f = 0 ∨ f = 1 := by
  rw [h.block] at hf
  cases hf with
  | matrix hf _ =>
    obtain ⟨row, hrow, hf⟩ := List.mem_flatten.1 (List.mem_of_getElem? hf)
    suffices f = d.connected ∨ f = d.disconnected by
      rcases this with rfl | rfl
      · exact connected_bit d
      · exact disconnected_bit d
    rw [blockRows, List.mem_append, List.mem_append] at hrow
    rcases hrow with (hrow | hrow) | hrow
    · split at hrow
      · rw [List.mem_singleton.1 hrow, trueRow] at hf
        exact .inr (List.eq_of_mem_replicate hf)
      · cases hrow
    · obtain ⟨t, -, ht⟩ := (mem_iff_of_mapM_eq_ok h.terms).1 hrow
      simp only [termRow, bind_eq_ok_iff, pure_eq_ok_iff] at ht
      obtain ⟨columns, -, rfl⟩ := ht
      grind
    · rw [List.eq_of_mem_replicate hrow, falseRow] at hf
      exact .inl (List.eq_of_mem_replicate hf)
  | mode hbit hf =>
    obtain ⟨name, -, -, hvalue⟩ := mem_modeBits.1 hbit
    exact bit_of_ofJson hf (modeBitValue_bit hvalue)

end

/-! ## Blocks of tables -/

/-- The block of a table in the rows of its output. -/
def BlockOf (d : Device) (t : TruthTable) (o : OutputCell) (b : FuseBlock) : Prop :=
  ∃ s rows, SumOfProducts.ofTable t = .ok s ∧ d.LaidOut s o rows b

section
variable {t : TruthTable} {o : OutputCell} {b : FuseBlock}

theorem BlockOf.output (h : d.BlockOf t o b) : d.output t.outputPin = .ok o := by
  obtain ⟨s, rows, hs, hb⟩ := h
  obtain ⟨-, -, rfl⟩ := SumOfProducts.ofTable_eq_ok_iff.1 hs
  exact hb.output

theorem BlockOf.modeBits (h : d.BlockOf t o b) : b.modeBits = d.modeBits o t.registered := by
  obtain ⟨s, rows, hs, hb⟩ := h
  obtain ⟨-, -, rfl⟩ := SumOfProducts.ofTable_eq_ok_iff.1 hs
  rw [hb.block]

end

/-- An array that was made from blank fuses by placing the blocks of tables. -/
structure Programmed (d : Device) (tables : List TruthTable) (start : FuseArray)
    (blocks : List FuseBlock) (a : FuseArray) : Prop where
  blank : d.Blank start
  block : ∀ t ∈ tables, ∃ o, ∃ b ∈ blocks, d.BlockOf t o b
  table : ∀ b ∈ blocks, ∃ t ∈ tables, ∃ o, d.BlockOf t o b
  places : start.PlacesAll blocks a

theorem exists_block {sums : List SumOfProducts} {blocks : List FuseBlock}
    (hsums : SumOfProducts.ofTables tables = .ok sums) (hblocks : d.layouts sums = .ok blocks)
    {t : TruthTable} (ht : t ∈ tables) : ∃ o, ∃ b ∈ blocks, d.BlockOf t o b := by
  obtain ⟨s, hs, hts⟩ := exists_of_mapM_eq_ok hsums ht
  obtain ⟨b, hb, hsb⟩ := exists_of_mapM_eq_ok hblocks hs
  obtain ⟨o, rows, h⟩ := laidOut_of_layout hsb
  exact ⟨o, b, hb, s, rows, hts, h⟩

theorem exists_table {sums : List SumOfProducts} {blocks : List FuseBlock}
    (hsums : SumOfProducts.ofTables tables = .ok sums) (hblocks : d.layouts sums = .ok blocks)
    {b : FuseBlock} (hb : b ∈ blocks) : ∃ t ∈ tables, ∃ o, d.BlockOf t o b := by
  obtain ⟨s, hs, hsb⟩ := (mem_iff_of_mapM_eq_ok hblocks).1 hb
  obtain ⟨t, ht, hts⟩ := (mem_iff_of_mapM_eq_ok hsums).1 hs
  obtain ⟨o, rows, h⟩ := laidOut_of_layout hsb
  exact ⟨t, ht, o, s, rows, hts, h⟩

theorem mem_inOutputOrder {blocks : List FuseBlock} {b : FuseBlock} :
    b ∈ d.inOutputOrder (·.outputPin) blocks ↔ b ∈ blocks :=
  (inOrder_perm _ _).mem_iff

/-- What a program that succeeds has done, stage by stage. -/
theorem program_ok (h : d.program tables = .ok a) :
    ∃ start blocks, d.Programmed tables start blocks a := by
  simp only [program, placeAll, bind_eq_ok_iff] at h
  obtain ⟨sums, hsums, blocks, hblocks, start, hblank, hplace⟩ := h
  refine ⟨start, _, blank_ok hblank, fun t ht => ?_, fun b hb => ?_, FuseArray.placeAll_ok hplace⟩
  · obtain ⟨o, b, hb, hblock⟩ := exists_block hsums hblocks ht
    exact ⟨o, b, mem_inOutputOrder.2 hb, hblock⟩
  · exact exists_table hsums hblocks (mem_inOutputOrder.1 hb)

namespace Programmed

variable {start : FuseArray} {blocks : List FuseBlock}

/-- A fuse that a block gives has the value from that block, since no other one gives it. -/
theorem given (h : d.Programmed tables start blocks a) {b : FuseBlock} (hb : b ∈ blocks) {i : Nat}
    {f : Fuse} (hf : b.Gives i f) : a.fuses[i]? = some f :=
  h.places.writes.given ⟨b, hb, hf⟩

/-- A fuse that is neither in a row nor a mode bit of a configured output is blank. -/
theorem blank_of_unused (h : d.Programmed tables start blocks a) {i : Nat}
    (hrow : i < d.profile.matrixFuses → ∀ t ∈ tables, ∀ o, d.output t.outputPin = .ok o →
      ¬ o.rows.Contains (i / d.profile.rowLength : Nat))
    (hmode : d.profile.matrixFuses ≤ i → ∀ t ∈ tables, ∀ o, d.output t.outputPin = .ok o →
      ∀ name ∈ ["combinatorial", "polarity"], o.modeBits.lookup name ≠ some (i : Int)) :
    a.fuses[i]? = start.fuses[i]? := by
  refine h.places.writes.kept ?_
  rintro f ⟨b, hb, hf⟩
  obtain ⟨t, ht, o, hblock⟩ := h.table b hb
  have ho := hblock.output
  obtain ⟨s, rows, -, hlaid⟩ := hblock
  obtain ⟨hi, hcontains⟩ | ⟨hi, name, hname, hlookup⟩ := hlaid.gives_cases hf
  · exact hrow hi t ht o ho hcontains
  · exact hmode hi t ht o ho name hname hlookup

/-- An output computes its table. -/
theorem outputValue_eq (h : d.Programmed tables start blocks a)
    (hcols : d.profile.columnPins ≠ []) {t : TruthTable} (ht : t ∈ tables) :
    ∃ o, d.output t.outputPin = .ok o ∧
      ∀ pins, t.entries[t.index pins]? = some (d.outputValue a.fuses pins o) := by
  obtain ⟨o, b, hb, hblock⟩ := h.block t ht
  refine ⟨o, hblock.output, fun pins => ?_⟩
  obtain ⟨s, rows, hs, hlaid⟩ := hblock
  rw [hlaid.outputValue_eq hcols (h.given hb)]
  exact SumOfProducts.getElem?_index_of_ofTable hs pins

/-- All fuses of a program are bits. -/
theorem bits (h : d.Programmed tables start blocks a) : ∀ f ∈ a.fuses, f = 0 ∨ f = 1 := by
  intro f hmem
  obtain ⟨i, hf⟩ := List.mem_iff_getElem?.1 hmem
  by_cases hgiven : ∃ b ∈ blocks, ∃ g, b.Gives i g
  · obtain ⟨b, hb, g, hg⟩ := hgiven
    obtain ⟨t, -, o, s, rows, -, hlaid⟩ := h.table b hb
    rw [h.given hb hg] at hf
    cases hf
    exact hlaid.gives_bit hg
  · rw [h.places.writes.kept fun g ⟨b, hb, hg⟩ => hgiven ⟨b, hb, g, hg⟩] at hf
    by_cases hi : i < d.profile.matrixFuses
    · rw [h.blank.matrix hi] at hf
      cases hf
      exact connected_bit d
    · rw [h.blank.rest (Int.not_lt.1 hi) (List.getElem?_eq_some_iff.1 hf).1] at hf
      cases hf
      exact .inl rfl

theorem length_eq (h : d.Programmed tables start blocks a) :
    a.fuses.length = d.profile.fuseCount.toNat :=
  h.places.writes.length_eq.trans h.blank.length_eq

/-- The enable row of a used output is always true. -/
theorem rowValue_enableRow (h : d.Programmed tables start blocks a) {t : TruthTable}
    (ht : t ∈ tables) {o : OutputCell} (ho : d.output t.outputPin = .ok o)
    (henable : o.enableRow = true) (pins : Int → Bool) :
    d.rowValue pins (d.matrixRow a.fuses o.firstRow.toNat) = true := by
  obtain ⟨o', b, hb, hblock⟩ := h.block t ht
  cases hblock.output.symm.trans ho
  obtain ⟨s, rows, -, hlaid⟩ := hblock
  exact hlaid.rowValue_enableRow (h.given hb) henable

/-- A row of the matrix that is not one of a configured output connects everything. -/
theorem matrixRow_of_unused (h : d.Programmed tables start blocks a) {row : Nat}
    (hrow : row < d.profile.matrixRows)
    (hunused : ∀ t ∈ tables, ∀ o, d.output t.outputPin = .ok o → ¬ o.rows.Contains row) :
    d.matrixRow a.fuses row = d.falseRow := by
  refine List.ext_getElem? fun column => ?_
  rw [matrixRow, List.getElem?_take, List.getElem?_drop, falseRow, List.getElem?_replicate]
  split
  · next hcolumn =>
    have hi : ((row * d.profile.rowLength + column : Nat) : Int) < d.profile.matrixFuses := by
      calc ((row * d.profile.rowLength + column : Nat) : Int)
          < (row + 1) * d.profile.rowLength := by grind
        _ ≤ d.profile.matrixFuses :=
          Int.mul_le_mul_of_nonneg_right hrow (Int.natCast_nonneg _)
    have hdiv : (row * d.profile.rowLength + column) / d.profile.rowLength = row := by
      rw [Nat.mul_comm, Nat.mul_add_div (by omega), Nat.div_eq_of_lt hcolumn, Nat.add_zero]
    rw [h.blank_of_unused (fun _ => hdiv.symm ▸ hunused)
      fun hle => absurd hi (Int.not_lt.2 hle), h.blank.matrix hi]
  · rfl

end Programmed

/-! ## What a programmed device does -/

/-- Whether a fuse holds a value of the profile. -/
def FuseHolds (fuses : List Fuse) (offset : Int) (value : Json.Value) : Prop :=
  ∃ (i : Nat) (f : Fuse), offset = i ∧ fuses[i]? = some f ∧ value.equalsInteger f.toNat = true

/-- The fuses implement truth tables on a device. -/
structure Implements (d : Device) (tables : List TruthTable) (fuses : List Fuse) : Prop where
  /-- Every output has the value of the entry of its table for the values of the pins. -/
  values : ∀ t ∈ tables, ∃ o, d.output t.outputPin = .ok o ∧
    ∀ pins, t.entries[t.index pins]? = some (d.outputValue fuses pins o)
  /-- Every configured output drives its pin. -/
  enabled : ∀ t ∈ tables, ∀ o, d.output t.outputPin = .ok o → o.enableRow = true →
    ∀ pins, d.rowValue pins (d.matrixRow fuses o.firstRow.toNat) = true
  /-- All other rows of the matrix are false. -/
  disabled : ∀ row : Nat, row < d.profile.matrixRows →
    (∀ t ∈ tables, ∀ o, d.output t.outputPin = .ok o → ¬ o.rows.Contains row) →
    ∀ pins, d.rowValue pins (d.matrixRow fuses row) = false
  /-- Every configured output is active high. -/
  polarity : ∀ t ∈ tables, ∀ o, d.output t.outputPin = .ok o →
    ∀ offset, o.modeBits.lookup "polarity" = some offset →
      ∃ value, d.profile.modeValue? "polarity_active_high" = some value ∧
        FuseHolds fuses offset value
  /-- Every configured output is registered if its table says so. -/
  registered : ∀ t ∈ tables, ∀ o, d.output t.outputPin = .ok o →
    ∀ offset, o.modeBits.lookup "combinatorial" = some offset →
      ∃ value, d.profile.modeValue? (if t.registered then "registered" else "combinatorial") =
        some value ∧ FuseHolds fuses offset value
  /-- All other fuses after the matrix are 0. -/
  zero : ∀ i : Nat, d.profile.matrixFuses ≤ i → i < fuses.length →
    (∀ t ∈ tables, ∀ o, d.output t.outputPin = .ok o → ∀ name ∈ ["combinatorial", "polarity"],
      o.modeBits.lookup name ≠ some (i : Int)) → fuses[i]? = some 0
  /-- There is a fuse for each of the device, and each is a bit. -/
  length : fuses.length = d.profile.fuseCount.toNat
  bits : ∀ f ∈ fuses, f = 0 ∨ f = 1

/-- A mode bit holds the value that the profile has for it. -/
theorem Programmed.fuseHolds {start : FuseArray} {blocks : List FuseBlock}
    (h : d.Programmed tables start blocks a) {t : TruthTable} (ht : t ∈ tables) {o : OutputCell}
    (ho : d.output t.outputPin = .ok o) {name : String}
    (hname : name ∈ ["combinatorial", "polarity"])
    {offset : Int} (hoffset : o.modeBits.lookup name = some offset) {value : Json.Value}
    (hvalue : d.modeBitValue t.registered name = some value) :
    FuseHolds a.fuses offset value := by
  obtain ⟨o', b, hb, hblock⟩ := h.block t ht
  cases hblock.output.symm.trans ho
  have hbit : (offset, value) ∈ b.modeBits :=
    hblock.modeBits ▸ mem_modeBits.2 ⟨name, hname, hoffset, hvalue⟩
  obtain ⟨f, hf⟩ := h.places.storable b hb _ hbit
  obtain ⟨hoff, -⟩ := h.places.inside b hb _ (List.mem_cons_of_mem _ (List.mem_map_of_mem hbit))
  have hnat := Int.toNat_of_nonneg hoff
  refine ⟨offset.toNat, f, hnat.symm, h.given hb (.mode ?_ hf), equalsInteger_of_ofJson hf⟩
  simpa only [hnat] using hbit

/-- A program implements its tables, for every device with a column. -/
theorem implements_of_program (hcols : d.profile.columnPins ≠ [])
    (h : d.program tables = .ok a) : d.Implements tables a.fuses := by
  obtain ⟨start, blocks, h⟩ := program_ok h
  refine ⟨fun t ht => h.outputValue_eq hcols ht, fun t ht o ho => h.rowValue_enableRow ht ho, ?_,
    ?_, ?_, ?_, h.length_eq, h.bits⟩
  · intro row hrow hunused pins
    rw [h.matrixRow_of_unused hrow hunused, rowValue_falseRow hcols]
  · intro t ht o ho offset hoffset
    obtain ⟨value, hvalue, -⟩ := d.geometry.modeValues "polarity_active_high"
      (by simp [Profile.requiredModeValues])
    exact ⟨value, hvalue, h.fuseHolds ht ho (by simp) hoffset (by simp [modeBitValue, hvalue])⟩
  · intro t ht o ho offset hoffset
    obtain ⟨value, hvalue, -⟩ := d.geometry.modeValues
      (if t.registered then "registered" else "combinatorial")
      (by split <;> simp [Profile.requiredModeValues])
    exact ⟨value, hvalue, h.fuseHolds ht ho (by simp) hoffset (by simp [modeBitValue, hvalue])⟩
  · intro i hi hlt hunused
    rw [h.blank_of_unused (fun hi' => absurd hi (Int.not_le.2 hi')) fun _ => hunused]
    exact h.blank.rest hi (h.places.writes.length_eq ▸ hlt)

/-- Tables for the small device: a registered output that tells whether the inputs differ, and one
that is true if both of them are. -/
def smallTables : List TruthTable :=
  [⟨3, true, [1, 2], [false, true, true, false]⟩, ⟨4, false, [2, 1], [false, false, false, true]⟩]

theorem implements_smallTables :
    ∃ a, small.program smallTables = .ok a ∧ small.Implements smallTables a.fuses :=
  ⟨_, rfl, implements_of_program (by decide) rfl⟩

end FuseMap.Device
