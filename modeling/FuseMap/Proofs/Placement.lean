import FuseMap.Fuse.Array
import FuseMap.Proofs.Success

/-! # Placing blocks

A block that is placed writes the fuses of its ranges and no others (`FuseArray.Places`). Blocks
that are placed one after the other have ranges that do not meet, and in the end each of them is
found as it was written (`FuseArray.PlacesAll`).
-/

namespace FuseMap

/-! ## Writing fuses -/

/-- The fuses `new` are the fuses `old` with the values that `W` gives to some of them. -/
structure Writes (W : Nat → Fuse → Prop) (old new : List Fuse) : Prop where
  length_eq : new.length = old.length
  given : ∀ {i f}, W i f → new[i]? = some f
  kept : ∀ {i}, (∀ f, ¬ W i f) → new[i]? = old[i]?

namespace Writes

variable {V W : Nat → Fuse → Prop} {l l' l'' : List Fuse}

protected theorem refl : Writes (fun _ _ => False) l l := ⟨rfl, False.elim, fun _ => rfl⟩

protected theorem congr (h : Writes V l l') (hiff : ∀ i f, V i f ↔ W i f) : Writes W l l' where
  length_eq := h.length_eq
  given hw := h.given ((hiff _ _).2 hw)
  kept hw := h.kept fun f hv => hw f ((hiff _ _).1 hv)

/-- A second writing may touch the same fuses if it gives them the same values. -/
protected theorem trans (h : Writes V l l') (h' : Writes W l' l'')
    (agree : ∀ {i f g}, V i f → W i g → f = g) : Writes (fun i f => V i f ∨ W i f) l l'' where
  length_eq := h'.length_eq.trans h.length_eq
  given := by
    intro i f hf
    by_cases hw : ∃ g, W i g
    · obtain ⟨g, hg⟩ := hw
      rw [h'.given hg]
      rcases hf with hf | hf
      · rw [agree hf hg]
      · rw [← h'.given hg, h'.given hf]
    · rw [h'.kept fun g hg => hw ⟨g, hg⟩]
      exact h.given (hf.resolve_right fun hg => hw ⟨f, hg⟩)
  kept hn := by
    rw [h'.kept fun f hf => hn f (.inr hf), h.kept fun f hf => hn f (.inl hf)]

protected theorem set {i : Nat} {f : Fuse} (hi : i < l.length) :
    Writes (fun j g => j = i ∧ g = f) l (l.set i f) where
  length_eq := List.length_set
  given := by
    rintro _ _ ⟨rfl, rfl⟩
    simp [hi]
  kept hn := by
    rw [List.getElem?_set_ne]
    rintro rfl
    exact hn f ⟨rfl, rfl⟩

protected theorem overwrite {first : Nat} {new : List Fuse} (h : first + new.length ≤ l.length) :
    Writes (fun i f => ∃ k, new[k]? = some f ∧ i = first + k) l
      (FuseArray.overwrite l first new) where
  length_eq := by
    simp only [FuseArray.overwrite, List.length_append, List.length_take, List.length_drop]
    omega
  given := by
    rintro _ f ⟨k, hk, rfl⟩
    have : k < new.length := (List.getElem?_eq_some_iff.1 hk).1
    grind [FuseArray.overwrite]
  kept := by
    intro i hn
    have : ¬ (first ≤ i ∧ i < first + new.length) := by
      rintro ⟨hlow, hhigh⟩
      exact hn new[i - first] ⟨i - first, by grind, by omega⟩
    grind [FuseArray.overwrite]

end Writes

/-! ## Ranges -/

namespace Placement

/-- Whether a fuse is one of a range. -/
def Contains (r : Placement) (i : Int) : Prop := r.first ≤ i ∧ i < r.stop

theorem meets_comm (r s : Placement) : r.meets s = s.meets r := by
  simp [meets, Bool.and_comm]

theorem meets_eq_false_iff {r s : Placement} :
    r.meets s = false ↔ s.stop ≤ r.first ∨ r.stop ≤ s.first := by
  rw [meets, Bool.and_eq_false_iff, decide_eq_false_iff_not, decide_eq_false_iff_not, Int.not_lt,
    Int.not_lt]

theorem meets_of_contains {r s : Placement} {i : Int} (hr : r.Contains i) (hs : s.Contains i) :
    r.meets s = true := by
  simp only [meets, Bool.and_eq_true, decide_eq_true_eq]
  exact ⟨Int.lt_of_le_of_lt hr.1 hs.2, Int.lt_of_le_of_lt hs.1 hr.2⟩

end Placement

namespace FuseBlock

/-- The value that a block gives to a fuse. -/
inductive Gives (b : FuseBlock) (i : Nat) (f : Fuse) : Prop
  | matrix {k : Nat} (hf : b.fuses[k]? = some f) (hi : (i : Int) = b.firstFuse + k)
  | mode {value : Json.Value} (hbit : ((i : Int), value) ∈ b.modeBits)
    (hf : Fuse.ofJson value = .ok f)

variable {b : FuseBlock} {i : Nat} {f : Fuse}

/-- A block gives no fuse outside of its ranges. -/
theorem Gives.covered (h : b.Gives i f) : ∃ r ∈ b.ranges, r.Contains i := by
  cases h with
  | matrix hf hi =>
    have := (List.getElem?_eq_some_iff.1 hf).1
    exact ⟨_, List.mem_cons_self, by simp only [Placement.Contains]; omega⟩
  | mode hbit hf =>
    refine ⟨_, List.mem_cons_of_mem _ (List.mem_map_of_mem hbit), ?_⟩
    simp only [Placement.Contains]; omega

/-- Blocks whose ranges do not meet. -/
def Apart (b c : FuseBlock) : Prop := ∀ r ∈ b.ranges, ∀ s ∈ c.ranges, r.meets s = false

instance : Std.Symm Apart where
  symm _ _ h r hr s hs := (Placement.meets_comm r s).trans (h s hs r hr)

end FuseBlock

/-! ## Placing one block -/

namespace FuseArray

variable {a a' : FuseArray} {b : FuseBlock}

theorem claim_eq_ok_iff {size : Nat} {taken result : List Placement} {r : Placement} :
    claim size taken r = .ok result ↔
      (0 ≤ r.first ∧ r.stop ≤ size) ∧ (∀ other ∈ taken, other.meets r = false) ∧
        result = taken ++ [r] := by
  simp only [claim, ite_error_eq_ok_iff]
  split
  · next other h =>
    have hmem := List.mem_of_find?_eq_some h
    have hmeets := List.find?_some h
    rw [Placement.meets_comm] at hmeets
    grind
  · next h =>
    simp only [List.find?_eq_none, Bool.not_eq_true, Placement.meets_comm r] at h
    grind

/-- What a block needs to be placed, and what its placing does to the array. -/
structure Places (a : FuseArray) (b : FuseBlock) (a' : FuseArray) : Prop where
  inside : ∀ r ∈ b.ranges, 0 ≤ r.first ∧ r.stop ≤ a.fuses.length
  free : ∀ taken ∈ a.placed, ∀ r ∈ b.ranges, taken.meets r = false
  apart : b.ranges.Pairwise fun r s => r.meets s = false
  storable : ∀ bit ∈ b.modeBits, ∃ f, Fuse.ofJson bit.2 = .ok f
  placed : a'.placed = a.placed ++ b.ranges
  rowLength : a'.rowLength = a.rowLength
  writes : Writes b.Gives a.fuses a'.fuses

/-- The mode bits have to be inside the array and at different fuses. -/
theorem storeModeBits_ok {bits : List (Int × Json.Value)} (h : storeModeBits a bits = .ok a')
    (inside : ∀ bit ∈ bits, 0 ≤ bit.1 ∧ bit.1 < a.fuses.length)
    (distinct : bits.Pairwise fun x y => x.1 ≠ y.1) :
    (∀ bit ∈ bits, ∃ f, Fuse.ofJson bit.2 = .ok f) ∧ a'.placed = a.placed ∧
      a'.rowLength = a.rowLength ∧
      Writes (fun i f => ∃ value, ((i : Int), value) ∈ bits ∧ Fuse.ofJson value = .ok f)
        a.fuses a'.fuses := by
  induction bits generalizing a with
  | nil =>
    cases h
    exact ⟨by simp, rfl, rfl, Writes.refl.congr (by simp)⟩
  | cons bit bits ih =>
    obtain ⟨offset, value⟩ := bit
    have ⟨hoffset, hinside⟩ := List.forall_mem_cons.1 inside
    have ⟨hother, hdistinct⟩ := List.pairwise_cons.1 distinct
    rw [storeModeBits] at h
    split at h
    · next f hf =>
      have hset : Writes _ a.fuses (a.fuses.set offset.toNat f) := .set (by omega)
      obtain ⟨hstore, hplaced, hrow, hwrites⟩ := ih h (by simpa using hinside) hdistinct
      refine ⟨List.forall_mem_cons.2 ⟨⟨f, hf⟩, hstore⟩, hplaced, hrow,
        (hset.trans hwrites ?_).congr ?_⟩
      · rintro i g g' ⟨rfl, rfl⟩ ⟨value', hmem, -⟩
        have := hother _ hmem
        omega
      · intro i g
        constructor
        · rintro (⟨rfl, rfl⟩ | ⟨value', hmem, hg⟩)
          · exact ⟨value, by rw [Int.toNat_of_nonneg hoffset.1]; exact List.mem_cons_self, hf⟩
          · exact ⟨value', List.mem_cons_of_mem _ hmem, hg⟩
        · rintro ⟨value', hmem, hg⟩
          obtain heq | hmem := List.mem_cons.1 hmem
          · cases heq
            exact .inl ⟨by omega, Except.ok.inj (hg.symm.trans hf)⟩
          · exact .inr ⟨value', hmem, hg⟩
    · cases h

/-- What placing a block does: its fuses are written and its ranges taken. -/
theorem place_ok (h : a.place b = .ok a') : a.Places b a' := by
  rw [place] at h
  split at h
  · cases h
  next placed hclaim =>
  obtain ⟨inside, free, apart, rfl⟩ := (foldlM_claim_eq_ok_iff id
    (fun r : Placement => 0 ≤ r.first ∧ r.stop ≤ (a.fuses.length : Int))
    (fun r s => r.meets s = false) fun _ _ _ => claim_eq_ok_iff).1 hclaim
  simp only [List.map_id, id_eq] at free apart h
  have hrange := inside _ List.mem_cons_self
  obtain ⟨hfirst, hbits⟩ := List.pairwise_cons.1 apart
  simp only [Placement.meets, Bool.and_eq_false_iff, decide_eq_false_iff_not] at hrange hfirst hbits
  have hblock : Writes _ a.fuses (overwrite a.fuses b.firstFuse.toNat b.fuses) :=
    .overwrite (by omega)
  have hinside : ∀ bit ∈ b.modeBits, 0 ≤ bit.1 ∧
      bit.1 < (overwrite a.fuses b.firstFuse.toNat b.fuses).length := by
    intro bit hbit
    have := inside _ (List.mem_cons_of_mem _ (List.mem_map_of_mem hbit))
    rw [hblock.length_eq]
    simp only at this
    omega
  have hdistinct : b.modeBits.Pairwise fun x y => x.1 ≠ y.1 :=
    (List.pairwise_map.1 hbits).imp fun hxy => by simp only at hxy; omega
  obtain ⟨hstore, hplaced, hrow, hwrites⟩ := storeModeBits_ok h hinside hdistinct
  refine ⟨inside, free, apart, hstore, hplaced, hrow, (hblock.trans hwrites ?_).congr ?_⟩
  · -- the fuses of the matrix are none of the mode bits
    rintro i f g ⟨k, hk, rfl⟩ ⟨value, hbit, -⟩
    have hk := (List.getElem?_eq_some_iff.1 hk).1
    have := hfirst _ (List.mem_map_of_mem hbit)
    simp only at this
    omega
  · intro i f
    constructor
    · rintro (⟨k, hk, rfl⟩ | ⟨value, hbit, hf⟩)
      · exact .matrix hk (by omega)
      · exact .mode hbit hf
    · rintro (⟨hk, hi⟩ | ⟨hbit, hf⟩)
      · exact .inl ⟨_, hk, by omega⟩
      · exact .inr ⟨_, hbit, hf⟩

/-! ## Placing several blocks -/

/-- What blocks need to be placed one after the other, and what their placing does to the array. -/
structure PlacesAll (a : FuseArray) (blocks : List FuseBlock) (a' : FuseArray) : Prop where
  storable : ∀ b ∈ blocks, ∀ bit ∈ b.modeBits, ∃ f, Fuse.ofJson bit.2 = .ok f
  inside : ∀ b ∈ blocks, ∀ r ∈ b.ranges, 0 ≤ r.first ∧ r.stop ≤ a.fuses.length
  free : ∀ taken ∈ a.placed, ∀ b ∈ blocks, ∀ r ∈ b.ranges, taken.meets r = false
  apart : blocks.Pairwise FuseBlock.Apart
  placed : a'.placed = a.placed ++ blocks.flatMap FuseBlock.ranges
  writes : Writes (fun i f => ∃ b ∈ blocks, b.Gives i f) a.fuses a'.fuses

theorem placeAll_ok {blocks : List FuseBlock}
    (h : blocks.foldlM (fun a b => (a.place b).mapError (·.error)) a = .ok a') :
    a.PlacesAll blocks a' := by
  induction blocks generalizing a with
  | nil =>
    cases h
    exact ⟨by simp, by simp, by simp, .nil, by simp, Writes.refl.congr (by simp)⟩
  | cons b blocks ih =>
    simp only [List.foldlM_cons, bind_eq_ok_iff, mapError_eq_ok_iff] at h
    obtain ⟨a₁, hb, hblocks⟩ := h
    have one := place_ok hb
    have rest := ih hblocks
    have hapart : ∀ c ∈ blocks, b.Apart c := fun c hc r hr =>
      rest.free r (one.placed ▸ List.mem_append_right _ hr) c hc
    refine ⟨?_, ?_, ?_, List.pairwise_cons.2 ⟨hapart, rest.apart⟩, ?_,
      (one.writes.trans rest.writes ?_).congr (by simp)⟩
    · exact List.forall_mem_cons.2 ⟨one.storable, rest.storable⟩
    · exact List.forall_mem_cons.2 ⟨one.inside, one.writes.length_eq ▸ rest.inside⟩
    · intro taken htaken
      refine List.forall_mem_cons.2 ⟨one.free taken htaken, ?_⟩
      exact rest.free taken (one.placed ▸ List.mem_append_left _ htaken)
    · rw [rest.placed, one.placed, List.flatMap_cons, List.append_assoc]
    · rintro i f g hf ⟨c, hc, hg⟩
      obtain ⟨r, hr, hri⟩ := hf.covered
      obtain ⟨s, hs, hsi⟩ := hg.covered
      have := hapart c hc r hr s hs
      rw [Placement.meets_of_contains hri hsi] at this
      cases this

end FuseArray

end FuseMap
