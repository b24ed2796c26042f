import FuseMap.Jedec.Field
import FuseMap.Proofs.Geometry
import FuseMap.Proofs.Placement

/-! # The fields of a device cover its fuses

Regions may overlap, leave gaps or have no positive width. Whatever they are, each fuse of the
device is in one of the fields of a fuse file (`Jedec.exists_field_contains`), because the gaps are
measured against the furthest end of the fields before them.
-/

namespace FuseMap

/-! ## Windows -/

section window

variable {α : Type} {l : List α} {first stop : Int}

theorem window_of_nonneg (hfirst : 0 ≤ first) : window l first stop =
    (l.take (if stop < 0 then (stop + l.length).toNat else stop.toNat)).drop first.toNat := by
  simp only [window, if_neg (Int.not_lt.2 hfirst)]

/-- A window from a position on holds what the list holds there. Its end may be counted from the
end of the list. -/
theorem getElem?_of_window {k : Nat} {a : α} (hfirst : 0 ≤ first)
    (h : (window l first stop)[k]? = some a) : l[first.toNat + k]? = some a := by
  rw [window_of_nonneg hfirst, List.getElem?_drop] at h
  obtain ⟨hk, rfl⟩ := List.getElem?_eq_some_iff.1 h
  rw [List.getElem_take, List.getElem?_eq_getElem]

theorem getElem?_window {i : Nat} (hfirst : 0 ≤ first) (hlow : first ≤ i) (hhigh : i < stop) :
    (window l first stop)[i - first.toNat]? = l[i]? := by
  have hi : first.toNat + (i - first.toNat) = i := by omega
  have hstop : i < stop.toNat := by omega
  rw [window_of_nonneg hfirst, if_neg (by omega), List.getElem?_drop, hi,
    List.getElem?_take_of_lt hstop]

theorem add_length_window_le (hfirst : 0 ≤ first) (hne : window l first stop ≠ []) :
    first.toNat + (window l first stop).length ≤ l.length := by
  have hpos := List.length_pos_iff.2 hne
  rw [window_of_nonneg hfirst, List.length_drop, List.length_take] at hpos ⊢
  omega

end window

namespace Jedec

open Device

/-- Whether a fuse is one of a field. -/
def Field.Contains (f : Field) (i : Int) : Prop := f.first ≤ i ∧ i < f.first + f.length

variable {p : Profile} {fs : List Field} {stop position i : Int}

/-! ## Gaps -/

/-- Gaps begin where the fuses that are covered end. -/
theorem le_first_of_mem_gaps {f : Field} (h : f ∈ gaps stop position fs) : position ≤ f.first := by
  induction fs generalizing position with
  | nil =>
    rw [gaps] at h
    split at h
    · cases List.mem_singleton.1 h
      exact Int.le_refl position
    · cases h
  | cons g fs ih =>
    have hmax : position ≤ max position (g.first + g.length) := by omega
    rw [gaps] at h
    split at h
    · rcases List.mem_cons.1 h with rfl | h
      · exact Int.le_refl position
      · exact Int.le_trans hmax (ih h)
    · exact Int.le_trans hmax (ih h)

/-- A fuse from `position` on is in one of the fields or in one of the gaps between them. The
fields need not be in order for this: a field only moves the position over fuses of its own. -/
theorem exists_contains_of_gaps (fs : List Field) (hlow : position ≤ i) (hhigh : i < stop) :
    ∃ f ∈ fs ++ gaps stop position fs, f.Contains i := by
  induction fs generalizing position with
  | nil =>
    refine ⟨⟨position, stop - position⟩, ?_, hlow, by simp only; omega⟩
    simp [gaps, Int.lt_of_le_of_lt hlow hhigh]
  | cons g fs ih =>
    by_cases hbefore : i < g.first
    · refine ⟨⟨position, g.first - position⟩, ?_, hlow, by simp only; omega⟩
      simp [gaps, Int.lt_of_le_of_lt hlow hbefore]
    by_cases hin : i < g.first + g.length
    · exact ⟨g, List.mem_cons_self, by omega, hin⟩
    have hafter : max position (g.first + g.length) ≤ i := by omega
    obtain ⟨f, hf, hi⟩ := ih hafter
    refine ⟨f, ?_, hi⟩
    have hsub : gaps stop (max position (g.first + g.length)) fs ⊆
        gaps stop position (g :: fs) := by
      rw [gaps]
      split
      · exact List.subset_cons_self _ _
      · exact List.Subset.refl _
    rcases List.mem_append.1 hf with hf | hf
    · exact List.mem_append_left _ (List.mem_cons_of_mem _ hf)
    · exact List.mem_append_right _ (hsub hf)

/-! ## All fields -/

theorem mem_fields {f : Field} : f ∈ fields p ↔
    f ∈ Field.sort (rowFields p ++ regionFields p) ++
      gaps p.fuseCount 0 (Field.sort (rowFields p ++ regionFields p)) :=
  (inOrder_perm _ _).mem_iff

/-- Every fuse is in a field. -/
theorem exists_field_contains (hlow : 0 ≤ i) (hhigh : i < p.fuseCount) :
    ∃ f ∈ fields p, f.Contains i := by
  obtain ⟨f, hf, hi⟩ := exists_contains_of_gaps (Field.sort (rowFields p ++ regionFields p))
    hlow hhigh
  exact ⟨f, mem_fields.2 hf, hi⟩

theorem first_nonneg_of_mem_fields (hp : p.Sound) (hshared : ∀ row ∈ p.sharedRows, 0 ≤ row.2)
    {f : Field} (h : f ∈ fields p) : 0 ≤ f.first := by
  rcases List.mem_append.1 (mem_fields.1 h) with h | h
  · rw [Field.sort, (inOrder_perm _ _).mem_iff, List.mem_append, rowFields, regionFields,
      List.mem_map, List.mem_map] at h
    rcases h with ⟨row, -, rfl⟩ | ⟨r, hr, rfl⟩
    · exact Int.mul_nonneg (Int.natCast_nonneg _) (Int.natCast_nonneg _)
    · exact Int.le_trans (hp.matrixFuses_nonneg hshared) (hp.regions r hr).1
  · exact le_first_of_mem_gaps h

end Jedec

end FuseMap
