import FuseMap.Proofs.Program
import Mathlib.Data.List.Pairwise
import Mathlib.Data.List.Perm.Basic

/-! # The order of tables

Blocks are placed in the order of the device's outputs, whatever the order of the tables. Only the
blocks of one output stay in the order of their tables; if they can all be placed, they are empty
and equal (`BlockOf.eq_of_apart`).
-/

namespace FuseMap

/-- The items of a list in order are the same for every order of the list, if items that may stand
either way are equal. -/
theorem inOrder_eq_of_perm {α : Type} {le : α → α → Bool}
    (trans : ∀ a b c, le a b → le b c → le a c) (total : ∀ a b, le a b ∨ le b a)
    {l l' : List α} (h : l.Perm l')
    (anti : ∀ a ∈ l, ∀ b ∈ l, le a b → le b a → a = b) : inOrder le l = inOrder le l' := by
  have hl := inOrder_perm le l
  have hl' := inOrder_perm le l'
  refine List.Perm.eq_of_pairwise (fun a b ha hb => ?_) (inOrder_pairwise trans total l)
    (inOrder_pairwise trans total l') ((hl.trans h).trans hl'.symm)
  exact anti a (hl.mem_iff.1 ha) b (h.mem_iff.2 (hl'.mem_iff.1 hb))

theorem mapM_eq_ok_of_perm {ε α β : Type} {f : α → Except ε β} {l l' : List α} {r : List β}
    (h : l.Perm l') (hr : l.mapM f = .ok r) : ∃ r', l'.mapM f = .ok r' ∧ r.Perm r' := by
  obtain ⟨r', hr', hperm⟩ := List.perm_comp_forall₂ h.symm (mapM_eq_ok_iff.1 hr)
  exact ⟨r', mapM_eq_ok_iff.2 hr', hperm.symm⟩

namespace Device

variable {d : Device} {tables tables' : List TruthTable} {a a' : FuseArray}

/-! ## Blocks of one output -/

theorem exists_modeBitValue (d : Device) (registered : Bool) {name : String}
    (h : name ∈ ["combinatorial", "polarity"]) :
    ∃ value, d.modeBitValue registered name = some value := by
  have hvalue : ∀ name ∈ Profile.requiredModeValues,
      ∃ value, d.profile.modeValue? name = some value := fun name hname =>
    let ⟨value, hvalue, _⟩ := d.geometry.modeValues name hname
    ⟨value, hvalue⟩
  rw [modeBitValue]
  split
  · exact hvalue _ (by simp [Profile.requiredModeValues])
  · split
    · exact hvalue _ (by cases registered <;> simp [Profile.requiredModeValues])
    · simp_all

/-- Which fuses are mode bits depends on the output alone. -/
theorem map_fst_modeBits (d : Device) (o : OutputCell) (registered : Bool) :
    (d.modeBits o registered).map (·.1) =
      ["combinatorial", "polarity"].filterMap fun name => o.modeBits.lookup name := by
  rw [modeBits, List.map_filterMap]
  refine List.filterMap_congr fun name hname => ?_
  obtain ⟨value, hvalue⟩ := exists_modeBitValue d registered hname
  cases o.modeBits.lookup name <;> simp [hvalue]

theorem LaidOut.ranges_eq {s : SumOfProducts} {o : OutputCell} {rows : List (List Fuse)}
    {b : FuseBlock} (h : d.LaidOut s o rows b) :
    b.ranges = ⟨o.firstRow * d.profile.rowLength,
      o.firstRow * d.profile.rowLength + (o.rowCount.toNat * d.profile.rowLength : Nat), o.pin⟩ ::
        (["combinatorial", "polarity"].filterMap fun name => o.modeBits.lookup name).map
          fun offset => ⟨offset, offset + 1, o.pin⟩ := by
  rw [FuseBlock.ranges, h.length_fuses, ← map_fst_modeBits d o s.registered, List.map_map, h.block,
    h.cell.2]
  rfl

/-- Two blocks of one output can only be placed together if they are empty. -/
theorem BlockOf.eq_of_apart {t t' : TruthTable} {o : OutputCell} {b c : FuseBlock}
    (hb : d.BlockOf t o b) (hc : d.BlockOf t' o c)
    (apart : b.Apart c) : b = c := by
  obtain ⟨s, rows, -, hb⟩ := hb
  obtain ⟨s', rows', -, hc⟩ := hc
  have hempty : ∀ r ∈ b.ranges, r.stop ≤ r.first := by
    intro r hr
    have := apart r hr r (by rwa [hc.ranges_eq, ← hb.ranges_eq])
    simpa [Placement.meets] using this
  have hempty' : ∀ r ∈ c.ranges, r.stop ≤ r.first := by
    rwa [hc.ranges_eq, ← hb.ranges_eq]
  have hnil : ∀ {e : FuseBlock}, (∀ r ∈ e.ranges, r.stop ≤ r.first) →
      e.fuses = [] ∧ e.modeBits = [] := by
    intro e he
    obtain ⟨hmatrix, hmode⟩ := List.forall_mem_cons.1 he
    refine ⟨List.length_eq_zero_iff.1 (by simp only at hmatrix; omega), ?_⟩
    rw [List.eq_nil_iff_forall_not_mem]
    intro bit hbit
    have := hmode _ (List.mem_map_of_mem hbit)
    simp only at this
    omega
  have hpin : s.outputPin = s'.outputPin := hb.cell.2.symm.trans hc.cell.2
  obtain ⟨hf, hm⟩ := hnil hempty
  obtain ⟨hf', hm'⟩ := hnil hempty'
  rw [hb.block] at hf hm ⊢
  rw [hc.block] at hf' hm' ⊢
  simp only at hf hm hf' hm'
  rw [hf, hm, hf', hm', hpin]

/-! ## Programming in any order -/

theorem BlockOf.outputPin {t : TruthTable} {o : OutputCell} {b : FuseBlock}
    (h : d.BlockOf t o b) : o ∈ d.profile.outputs ∧ o.pin = b.outputPin := by
  obtain ⟨s, rows, -, h⟩ := h
  rw [h.block]
  exact h.cell

/-- Blocks that stand at one place of the order are equal if they can be placed together. -/
theorem eq_of_idxOf_eq {t t' : TruthTable} {o o' : OutputCell} {b c : FuseBlock}
    (hb : d.BlockOf t o b) (hc : d.BlockOf t' o' c)
    (apart : b ≠ c → b.Apart c)
    (hidx : d.outputOrder.idxOf b.outputPin = d.outputOrder.idxOf c.outputPin) : b = c := by
  by_contra hne
  obtain ⟨ho, hpin⟩ := hb.outputPin
  obtain ⟨ho', hpin'⟩ := hc.outputPin
  have hmem : b.outputPin ∈ d.outputOrder := List.mem_map.2 ⟨o, ho, hpin⟩
  have hpins : o.pin = o'.pin := by
    rw [hpin, hpin']
    exact (List.idxOf_inj hmem).1 hidx
  obtain rfl := List.inj_on_of_nodup_map d.geometry.outputs ho ho' hpins
  exact hne (hb.eq_of_apart hc (apart hne))

/-- The blocks are sorted by output, and outputs are not repeated, so that their order is fixed. -/
theorem program_ok_of_perm (hperm : tables.Perm tables') (h : d.program tables = .ok a) :
    d.program tables' = .ok a := by
  simp only [program, placeAll, bind_eq_ok_iff] at h ⊢
  obtain ⟨sums, hsums, blocks, hblocks, start, hblank, hplace⟩ := h
  obtain ⟨sums', hsums', hsumsPerm⟩ := mapM_eq_ok_of_perm hperm hsums
  obtain ⟨blocks', hblocks', hblocksPerm⟩ := mapM_eq_ok_of_perm hsumsPerm hblocks
  refine ⟨sums', hsums', blocks', hblocks', start, hblank, ?_⟩
  have apart : ∀ b ∈ blocks, ∀ c ∈ blocks, b ≠ c → b.Apart c := fun b hb c hc =>
    (FuseArray.placeAll_ok hplace).apart.forall (mem_inOutputOrder.2 hb) (mem_inOutputOrder.2 hc)
  have horder : d.inOutputOrder (·.outputPin) blocks = d.inOutputOrder (·.outputPin) blocks' := by
    refine inOrder_eq_of_perm ?_ ?_ hblocksPerm fun b hb c hc hle hge => ?_
    · simp only [decide_eq_true_eq]
      exact fun _ _ _ => Nat.le_trans
    · simp only [decide_eq_true_eq]
      exact fun _ _ => Nat.le_total _ _
    · obtain ⟨t, -, o, hbt⟩ := exists_table hsums hblocks hb
      obtain ⟨t', -, o', hct⟩ := exists_table hsums hblocks hc
      exact eq_of_idxOf_eq hbt hct (apart b hb c hc)
        (Nat.le_antisymm (of_decide_eq_true hle) (of_decide_eq_true hge))
  rwa [← horder]

/-- The order of the tables does not matter. -/
theorem program_perm (d : Device) (hperm : tables.Perm tables') :
    ((∃ a, d.program tables = .ok a) ↔ ∃ a', d.program tables' = .ok a') ∧
      ∀ a a', d.program tables = .ok a → d.program tables' = .ok a' →
        a.fuses = a'.fuses ∧ a.placed = a'.placed := by
  refine ⟨⟨fun ⟨a, h⟩ => ⟨a, program_ok_of_perm hperm h⟩,
    fun ⟨a, h⟩ => ⟨a, program_ok_of_perm hperm.symm h⟩⟩, fun a a' h h' => ?_⟩
  rw [program_ok_of_perm hperm h] at h'
  cases h'
  exact ⟨rfl, rfl⟩

theorem program_reverse_smallTables : ∃ a a', small.program smallTables = .ok a ∧
    small.program smallTables.reverse = .ok a' ∧ a.fuses = a'.fuses ∧ a.placed = a'.placed := by
  obtain ⟨hiff, heq⟩ := program_perm small (List.reverse_perm smallTables).symm
  obtain ⟨a, ha⟩ : ∃ a, small.program smallTables = .ok a := ⟨_, rfl⟩
  obtain ⟨a', ha'⟩ := hiff.1 ⟨a, ha⟩
  exact ⟨a, a', ha, ha', heq a a' ha ha'⟩

end Device

end FuseMap
