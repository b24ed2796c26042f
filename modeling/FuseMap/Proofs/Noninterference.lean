import FuseMap.Proofs.ValidTables

/-! # Outputs do not interfere

The tables of an output decide about the fuses of that output and about no others: arrays that are
programmed from lists which differ in the tables of one output agree everywhere else
(`program_agree`). A fuse that neither list gives a value is blank in both arrays, and a value that
one of them gives comes from the table of another output, which is in both.
-/

namespace FuseMap.Device

variable {d : Device} {pin : Int} {tables tables' : List TruthTable} {a a' : FuseArray}

/-- Lists of tables that have the same tables for all outputs but one. -/
def DifferAt (pin : Int) (tables tables' : List TruthTable) : Prop :=
  ∀ t, t.outputPin ≠ pin → (t ∈ tables ↔ t ∈ tables')

section
variable {t t' : TruthTable} (front back : List TruthTable)

theorem DifferAt.symm (h : DifferAt pin tables tables') : DifferAt pin tables' tables :=
  fun t ht => (h t ht).symm

/-- A table of the output may be added, or removed. -/
theorem differAt_insert (ht : t.outputPin = pin) :
    DifferAt pin (front ++ back) (front ++ t :: back) := by
  intro u hu
  have hne : u ≠ t := fun h => hu (h ▸ ht)
  simp [hne]

/-- A table of the output may be changed. -/
theorem differAt_replace (ht : t.outputPin = pin) (ht' : t'.outputPin = pin) :
    DifferAt pin (front ++ t :: back) (front ++ t' :: back) := fun u hu =>
  (differAt_insert front back ht u hu).symm.trans (differAt_insert front back ht' u hu)

end

/-- A fuse of an output pin: in its block, or one of its mode bits. -/
def IsFuseOf (d : Device) (pin i : Int) : Prop :=
  (∃ first rows, d.block pin = .ok (first, rows) ∧
    first ≤ i ∧ i < first + rows * d.profile.rowLength) ∨
  ∃ m ∈ d.profile.modeBits, m.pin = pin ∧ m.offset = i

section
variable {t : TruthTable} {o o' : OutputCell} {b b' : FuseBlock} {i : Nat} {f : Fuse}

/-- A block gives values to the fuses of its output only. -/
theorem BlockOf.isFuseOf (h : d.BlockOf t o b) (hf : b.Gives i f) :
    d.IsFuseOf t.outputPin i := by
  have hblock : d.block t.outputPin = .ok (o.firstRow * d.profile.rowLength, o.rowCount) := by
    rw [block, h.output]
    rfl
  have hpin : o.pin = t.outputPin := (output_eq_ok_iff.1 h.output).2
  obtain ⟨s, rows, -, hlaid⟩ := h
  obtain ⟨r, hr, hfirst, hstop⟩ := hf.covered
  obtain rfl | ⟨m, hm, hmpin, rfl⟩ := hlaid.mem_ranges hr
  · refine .inl ⟨_, _, hblock, hfirst, ?_⟩
    rwa [← Int.add_mul]
  · refine .inr ⟨m, hm, hmpin.trans hpin, ?_⟩
    simp only [Profile.ModeBit.range] at hfirst hstop
    omega

/-- A table has one block. -/
theorem BlockOf.unique (h : d.BlockOf t o b) (h' : d.BlockOf t o' b') : b = b' := by
  obtain ⟨s, rows, hs, hlaid⟩ := h
  obtain ⟨s', rows', hs', hlaid'⟩ := h'
  cases hs.symm.trans hs'
  cases hlaid.output.symm.trans hlaid'.output
  cases hlaid.terms.symm.trans hlaid'.terms
  rw [hlaid.block, hlaid'.block]

end

theorem Blank.unique {start start' : FuseArray} (h : d.Blank start) (h' : d.Blank start') :
    start.fuses = start'.fuses := by
  have hlength := h.length_eq.trans h'.length_eq.symm
  refine List.ext_getElem? fun i => ?_
  by_cases hi : i < d.profile.matrixFuses
  · rw [h.matrix hi, h'.matrix hi]
  · by_cases hlt : i < start.fuses.length
    · rw [h.rest (Int.not_lt.1 hi) hlt, h'.rest (Int.not_lt.1 hi) (hlength ▸ hlt)]
    · rw [List.getElem?_eq_none (Nat.not_lt.1 hlt),
        List.getElem?_eq_none (hlength ▸ Nat.not_lt.1 hlt)]

/-- The block that gives a value to a fuse outside the output is placed in both arrays. -/
theorem Programmed.mem_of_gives {start start' : FuseArray} {blocks blocks' : List FuseBlock}
    (h : d.Programmed tables start blocks a) (h' : d.Programmed tables' start' blocks' a')
    (hdiffer : DifferAt pin tables tables') {i : Nat} (hi : ¬ d.IsFuseOf pin i) {b : FuseBlock}
    (hb : b ∈ blocks) {f : Fuse} (hf : b.Gives i f) : b ∈ blocks' := by
  obtain ⟨t, ht, o, hblock⟩ := h.table b hb
  have hpin : t.outputPin ≠ pin := fun hpin => hi (hpin ▸ hblock.isFuseOf hf)
  obtain ⟨o', b', hb', hblock'⟩ := h'.block t ((hdiffer t hpin).1 ht)
  rwa [hblock.unique hblock']

/-- Arrays of designs that differ in the table of one output agree on all fuses but those of the
output. -/
theorem program_agree (hdiffer : DifferAt pin tables tables') (h : d.program tables = .ok a)
    (h' : d.program tables' = .ok a') {i : Nat} (hi : ¬ d.IsFuseOf pin i) :
    a.fuses[i]? = a'.fuses[i]? := by
  obtain ⟨start, blocks, h⟩ := program_ok h
  obtain ⟨start', blocks', h'⟩ := program_ok h'
  by_cases hgiven : ∃ b ∈ blocks, ∃ f, b.Gives i f
  · obtain ⟨b, hb, f, hf⟩ := hgiven
    rw [h.given hb hf, h'.given (h.mem_of_gives h' hdiffer hi hb hf) hf]
  · have hgiven' : ¬ ∃ b ∈ blocks', ∃ f, b.Gives i f := by
      rintro ⟨b, hb, f, hf⟩
      exact hgiven ⟨b, h'.mem_of_gives h hdiffer.symm hi hb hf, f, hf⟩
    rw [h.places.writes.kept fun f ⟨b, hb, hf⟩ => hgiven ⟨b, hb, f, hf⟩,
      h'.places.writes.kept fun f ⟨b, hb, hf⟩ => hgiven' ⟨b, hb, f, hf⟩,
      h.blank.unique h'.blank]

/-- Another table for the first output of the small device. -/
def smallChange : TruthTable := ⟨3, false, [2], [true, false]⟩

/-- The first fuse after the block of the first output is the same, whether the table of this output
is as it was, changed or removed. -/
theorem program_agree_smallChange : ∃ a a' a'', small.program smallTables = .ok a ∧
    small.program (smallChange :: smallTables.tail) = .ok a' ∧
    small.program smallTables.tail = .ok a'' ∧ a.fuses ≠ a'.fuses ∧ a.fuses ≠ a''.fuses ∧
    ¬ small.IsFuseOf 3 16 ∧ a.fuses[16]? = a'.fuses[16]? ∧ a.fuses[16]? = a''.fuses[16]? := by
  have hchange : DifferAt 3 smallTables (smallChange :: smallTables.tail) :=
    differAt_replace [] smallTables.tail rfl rfl
  have hremove : DifferAt 3 smallTables smallTables.tail := by
    apply DifferAt.symm
    exact differAt_insert [] smallTables.tail rfl
  have hoffset : ∀ m ∈ small.profile.modeBits, m.pin = 3 → m.offset ≠ 16 := by decide
  have hfuse : ¬ small.IsFuseOf 3 (16 : Nat) := by
    rintro (⟨first, rows, hblock, -, hlt⟩ | ⟨m, hm, hpin, hm16⟩)
    · cases hblock
      exact absurd hlt (by decide)
    · exact hoffset m hm hpin hm16
  refine ⟨_, _, _, rfl, rfl, rfl, by decide, by decide, hfuse, ?_, ?_⟩
  · exact program_agree hchange rfl rfl hfuse
  · exact program_agree hremove rfl rfl hfuse

end FuseMap.Device
