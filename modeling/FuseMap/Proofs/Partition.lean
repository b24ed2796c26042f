import FuseMap.Proofs.Coverage
import Mathlib.Algebra.BigOperators.Group.List.Basic
import Mathlib.Algebra.Ring.Int.Defs

/-! # Fields that divide the fuses among them

The fields of a device are in order, and they cover its fuses whatever its regions are. If the
regions share no fuse, the fields do not either, so that each fuse is in one of them and their
lengths add up (`Divides`). The reason is that rows, regions and gaps then follow one another:
`Follow` is the invariant of the loop that looks for gaps, and holds of fields in order without
common fuses, also if some have no fuses at all and stand inside others.
-/

namespace FuseMap.Jedec

open Device

variable {p : Profile} {d : Device} {fs : List Field} {f g : Field} {stop position i : Int}

namespace Field

/-- Fields without a common fuse. -/
def Apart (a b : Field) : Prop := ∀ i, a.Contains i → ¬ b.Contains i

theorem Apart.symm {a b : Field} (h : a.Apart b) : b.Apart a := fun i hb ha => h i ha hb

/-! ## Order -/

theorem le_iff {a b : Field} :
    a.le b = true ↔ a.first < b.first ∨ (a.first = b.first ∧ a.length ≤ b.length) := by
  simp [le]

theorem pairwise_sort (fs : List Field) : (sort fs).Pairwise fun a b => a.le b = true := by
  refine inOrder_pairwise (fun a b c => ?_) (fun a b => ?_) fs
  · simp only [le_iff]
    omega
  · simp only [le_iff]
    omega

end Field

/-! ## Fields that follow one another -/

/-- The fuses of the fields follow one another from `position` on. A field without fuses may stand
anywhere. -/
inductive Follow : Int → List Field → Prop
  | nil {position : Int} : Follow position []
  | cons {position : Int} {f : Field} {fs : List Field} : 0 ≤ f.length →
    (0 < f.length → position ≤ f.first) → Follow (max position (f.first + f.length)) fs →
    Follow position (f :: fs)

/-- In order, fields that are apart follow each other. -/
theorem follow_of_apart (hsorted : fs.Pairwise fun a b => a.first ≤ b.first)
    (hapart : fs.Pairwise Field.Apart) (hlength : ∀ f ∈ fs, 0 ≤ f.length)
    (hfirst : ∀ f ∈ fs, 0 < f.length → position ≤ f.first) : Follow position fs := by
  induction fs generalizing position with
  | nil => exact .nil
  | cons f fs ih =>
    rw [List.pairwise_cons] at hsorted hapart
    rw [List.forall_mem_cons] at hlength hfirst
    refine .cons hlength.1 hfirst.1 (ih hsorted.2 hapart.2 hlength.2 fun g hg hpos => ?_)
    have hposition := hfirst.2 g hg hpos
    have hle := hsorted.1 g hg
    have hshared := hapart.1 g hg g.first
    simp only [Field.Contains] at hshared
    omega

theorem Follow.le_of_contains (h : Follow position fs) (hf : f ∈ fs) (hi : f.Contains i) :
    position ≤ i := by
  obtain ⟨hlow, hhigh⟩ := hi
  induction h with
  | nil => cases hf
  | cons hlength hfirst _ ih =>
    rcases List.mem_cons.1 hf with rfl | hf
    · have := hfirst (by omega)
      omega
    · have := ih hf
      omega

/-- Neither the fields nor the gaps between them have fuses before the position. -/
theorem Follow.le_of_mem (h : Follow position fs) (hf : f ∈ fs ++ gaps stop position fs)
    (hi : f.Contains i) : position ≤ i := by
  rcases List.mem_append.1 hf with hf | hf
  · exact h.le_of_contains hf hi
  · exact Int.le_trans (le_first_of_mem_gaps hf) hi.1

/-- The gaps fill what the fields leave and meet none of them. -/
theorem Follow.apart (h : Follow position fs) :
    (fs ++ gaps stop position fs).Pairwise Field.Apart := by
  induction h with
  | nil =>
    rw [gaps]
    split
    · exact List.pairwise_singleton _ _
    · exact .nil
  | @cons position f fs hlength hfirst hrest ih =>
    have hlater : ∀ g ∈ fs ++ gaps stop (max position (f.first + f.length)) fs, ∀ i,
        g.Contains i → f.first + f.length ≤ i := fun g hg i hi =>
      Int.le_trans (Int.le_max_right _ _) (hrest.le_of_mem hg hi)
    have hfield : (f :: (fs ++ gaps stop (max position (f.first + f.length)) fs)).Pairwise
        Field.Apart :=
      List.pairwise_cons.2 ⟨fun g hg i hf hi => Int.not_lt.2 (hlater g hg i hi) hf.2, ih⟩
    rw [gaps]
    split
    · -- the gap ends where the field begins
      refine (List.perm_middle.pairwise_iff Field.Apart.symm).2 (List.pairwise_cons.2 ⟨?_, hfield⟩)
      intro g hg i hgap hi
      simp only [Field.Contains] at hgap
      rcases List.mem_cons.1 hg with rfl | hg
      · exact absurd hi.1 (by omega)
      · have := hlater g hg i hi
        omega
    · exact hfield

theorem stop_of_mem_gaps (hlength : ∀ f ∈ fs, 0 ≤ f.length)
    (hstop : ∀ f ∈ fs, f.first + f.length ≤ stop) (hg : g ∈ gaps stop position fs) :
    g.first + g.length ≤ stop := by
  induction fs generalizing position with
  | nil =>
    rw [gaps] at hg
    split at hg
    · cases List.mem_singleton.1 hg
      simp only
      omega
    · cases hg
  | cons f fs ih =>
    rw [List.forall_mem_cons] at hlength hstop
    rw [gaps] at hg
    split at hg
    · rcases List.mem_cons.1 hg with rfl | hg
      · simp only
        omega
      · exact ih hlength.2 hstop.2 hg
    · exact ih hlength.2 hstop.2 hg

/-- Fields that follow one another and the gaps between them have all fuses up to the end. -/
theorem Follow.sum_length (h : Follow position fs) (hposition : position ≤ stop)
    (hstop : ∀ f ∈ fs, f.first + f.length ≤ stop) :
    ((fs ++ gaps stop position fs).map (·.length)).sum = stop - position := by
  induction h with
  | nil =>
    rw [gaps]
    split
    · simp
    · simp only [List.append_nil, List.map_nil, List.sum_nil]
      omega
  | @cons position f fs hlength hfirst _ ih =>
    rw [List.forall_mem_cons] at hstop
    have hsum := ih (by omega) hstop.2
    rw [List.map_append, List.sum_append] at hsum ⊢
    rw [gaps]
    split
    · simp only [List.map_cons, List.sum_cons]
      omega
    · simp only [List.map_cons, List.sum_cons]
      omega

/-! ## The fields of a device -/

/-- Regions of which none has a negative width and no two have a common fuse. -/
structure TidyRegions (p : Profile) : Prop where
  width : ∀ r ∈ p.regions, 0 ≤ r.width
  apart : p.regions.Pairwise fun r r' => ∀ i,
    r.offset ≤ i ∧ i < r.offset + r.width → ¬ (r'.offset ≤ i ∧ i < r'.offset + r'.width)

/-- The fields of a device have each of its fuses once, and no others. -/
structure Divides (p : Profile) : Prop where
  once : ∀ i, 0 ≤ i → i < p.fuseCount →
    ∃! k : Nat, ∃ f, (fields p)[k]? = some f ∧ f.Contains i
  inside : ∀ f ∈ fields p, f.first + f.length ≤ p.fuseCount
  total : ((fields p).map (·.length)).sum = p.fuseCount

theorem row_stop (p : Profile) (row : Nat) :
    (row : Int) * p.rowLength + p.rowLength = (row + 1 : Nat) * p.rowLength := by
  rw [Int.natCast_succ, Int.add_mul, Int.one_mul]

theorem apart_rowFields (p : Profile) : (rowFields p).Pairwise Field.Apart := by
  refine List.pairwise_map.2 (List.pairwise_lt_range.imp fun {row row'} hlt i hrow hrow' => ?_)
  have hle : ((row + 1 : Nat) : Int) * p.rowLength ≤ row' * p.rowLength :=
    Int.mul_le_mul_of_nonneg_right (by omega) (Int.natCast_nonneg _)
  have hstop := row_stop p row
  simp only [Field.Contains] at hrow hrow'
  omega

theorem of_mem_rowFields (hf : f ∈ rowFields p) :
    0 ≤ f.first ∧ 0 ≤ f.length ∧ f.first + f.length ≤ p.matrixFuses := by
  obtain ⟨row, hrow, rfl⟩ := List.mem_map.1 hf
  refine ⟨Int.mul_nonneg (Int.natCast_nonneg _) (Int.natCast_nonneg _), Int.natCast_nonneg _, ?_⟩
  rw [row_stop]
  have hlt := List.mem_range.1 hrow
  exact Int.mul_le_mul_of_nonneg_right (by omega) (Int.natCast_nonneg _)

/-- The fields of rows and regions, each with its place among the fuses. -/
theorem of_mem_listed (hp : p.Sound) (hshared : ∀ row ∈ p.sharedRows, 0 ≤ row.2)
    (htidy : TidyRegions p) (hf : f ∈ rowFields p ++ regionFields p) :
    0 ≤ f.first ∧ 0 ≤ f.length ∧ f.first + f.length ≤ p.fuseCount := by
  have hmatrix := hp.matrix
  rcases List.mem_append.1 hf with hf | hf
  · have := of_mem_rowFields hf
    omega
  · obtain ⟨r, hr, rfl⟩ := List.mem_map.1 hf
    have hregion := hp.regions r hr
    have hwidth := htidy.width r hr
    have hnonneg := hp.matrixFuses_nonneg hshared
    simp only
    omega

/-- Rows come before the matrix ends and regions after it. -/
theorem apart_listed (hp : p.Sound) (htidy : TidyRegions p) :
    (rowFields p ++ regionFields p).Pairwise Field.Apart := by
  refine List.pairwise_append.2 ⟨apart_rowFields p, List.pairwise_map.2 htidy.apart, ?_⟩
  intro f hf g hg i hi hi'
  obtain ⟨r, hr, rfl⟩ := List.mem_map.1 hg
  have hrow := of_mem_rowFields hf
  have hregion := hp.regions r hr
  simp only [Field.Contains] at hi hi'
  omega

theorem follow_listed (hp : p.Sound) (hshared : ∀ row ∈ p.sharedRows, 0 ≤ row.2)
    (htidy : TidyRegions p) : Follow 0 (Field.sort (rowFields p ++ regionFields p)) := by
  have hperm := inOrder_perm Field.le (rowFields p ++ regionFields p)
  refine follow_of_apart ?_ ?_ ?_ ?_
  · refine (Field.pairwise_sort _).imp fun {a b} hle => ?_
    rw [Field.le_iff] at hle
    omega
  · exact (hperm.pairwise_iff Field.Apart.symm).2 (apart_listed hp htidy)
  · exact fun f hf => (of_mem_listed hp hshared htidy (hperm.mem_iff.1 hf)).2.1
  · exact fun f hf _ => (of_mem_listed hp hshared htidy (hperm.mem_iff.1 hf)).1

/-- One of several fields without a common fuse is the only one that has a fuse. -/
theorem existsUnique_of_apart (hapart : fs.Pairwise Field.Apart) (h : ∃ f ∈ fs, f.Contains i) :
    ∃! k : Nat, ∃ f, fs[k]? = some f ∧ f.Contains i := by
  obtain ⟨f, hf, hi⟩ := h
  obtain ⟨k, hk⟩ := List.getElem?_of_mem hf
  refine ⟨k, ⟨f, hk, hi⟩, ?_⟩
  rintro k' ⟨f', hk', hi'⟩
  obtain ⟨hlt, rfl⟩ := List.getElem?_eq_some_iff.1 hk
  obtain ⟨hlt', rfl⟩ := List.getElem?_eq_some_iff.1 hk'
  rw [List.pairwise_iff_getElem] at hapart
  obtain hbefore | rfl | hafter := Nat.lt_trichotomy k' k
  · exact absurd hi (hapart k' k hlt' hlt hbefore i hi')
  · rfl
  · exact absurd hi' (hapart k k' hlt hlt' hafter i hi)

/-- Every fuse of the device is in just one field. -/
theorem divides_of_tidy (hp : p.Sound) (hshared : ∀ row ∈ p.sharedRows, 0 ≤ row.2)
    (htidy : TidyRegions p) : Divides p := by
  have hfollow := follow_listed hp hshared htidy
  have hlisted := inOrder_perm Field.le (rowFields p ++ regionFields p)
  have hplace : ∀ f ∈ Field.sort (rowFields p ++ regionFields p),
      0 ≤ f.first ∧ 0 ≤ f.length ∧ f.first + f.length ≤ p.fuseCount :=
    fun f hf => of_mem_listed hp hshared htidy (hlisted.mem_iff.1 hf)
  have hfields : (fields p).Perm (Field.sort (rowFields p ++ regionFields p) ++
      gaps p.fuseCount 0 (Field.sort (rowFields p ++ regionFields p))) := inOrder_perm _ _
  refine ⟨fun i hlow hhigh => ?_, fun f hf => ?_, ?_⟩
  · exact existsUnique_of_apart ((hfields.pairwise_iff Field.Apart.symm).2 hfollow.apart)
      (exists_field_contains hlow hhigh)
  · rcases List.mem_append.1 (hfields.mem_iff.1 hf) with hf | hf
    · exact (hplace f hf).2.2
    · exact stop_of_mem_gaps (fun f hf => (hplace f hf).2.1) (fun f hf => (hplace f hf).2.2) hf
  · have hcount : 0 ≤ p.fuseCount := Int.le_trans (hp.matrixFuses_nonneg hshared) hp.matrix
    rw [(hfields.map _).sum_eq, hfollow.sum_length hcount fun f hf => (hplace f hf).2.2,
      Int.sub_zero]

/-- The fields of a device are in ascending order and cover its fuses; if no two of its regions have
a common fuse, they divide the fuses among them. -/
theorem fields_cover_and_divide (hshared : ∀ row ∈ d.profile.sharedRows, 0 ≤ row.2) :
    ((fields d.profile).Pairwise fun a b =>
      a.first < b.first ∨ (a.first = b.first ∧ a.length ≤ b.length)) ∧
    (∀ i, 0 ≤ i → i < d.profile.fuseCount → ∃ f ∈ fields d.profile, f.Contains i) ∧
    (TidyRegions d.profile → Divides d.profile) :=
  ⟨(Field.pairwise_sort _).imp Field.le_iff.1, fun _ => exists_field_contains,
    divides_of_tidy d.geometry hshared⟩

/-- The small device with regions that are not in order. One has no fuses and stands inside another,
and fuses 26 and 29 are in none. -/
def smallApart : Device where
  identifier := "apart"
  profile :=
    { small.profile with
      regions := [⟨.string "late", 27, 2⟩, ⟨.string "modes", 24, 2⟩, ⟨.string "none", 25, 0⟩] }
  sound := by rfl

theorem fields_divide_smallApart : TidyRegions smallApart.profile ∧ Divides smallApart.profile ∧
    (fields smallApart.profile).drop 6 = [⟨24, 2⟩, ⟨25, 0⟩, ⟨26, 1⟩, ⟨27, 2⟩, ⟨29, 1⟩] := by
  have htidy : TidyRegions smallApart.profile := by
    refine ⟨by decide, ?_⟩
    simp only [smallApart, List.pairwise_cons, List.forall_mem_cons]
    grind
  obtain ⟨-, -, hdivides⟩ := fields_cover_and_divide (d := smallApart) (by decide)
  exact ⟨htidy, hdivides htidy, by decide⟩

end FuseMap.Jedec
