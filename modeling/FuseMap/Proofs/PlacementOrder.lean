import FuseMap.Proofs.Offers
import Mathlib.Data.List.Flatten

/-! # The order of placements

Blocks can be placed one after the other if their ranges, taken together, lie in the array and meet
neither each other nor a range that is taken (`FuseArray.Accepts`). This says nothing about the
order of the blocks, and since no two blocks give a value to one fuse, the array in the end does not
depend on it either (`foldlM_place_perm`).
-/

namespace FuseMap

/-- The errors of the steps may be described in any way. -/
theorem foldlM_mapError_eq_ok_iff {α β δ ε : Type} {step : β → α → Except ε β} {describe : ε → δ}
    {l : List α} {b b' : β} :
    l.foldlM (fun b a => (step b a).mapError describe) b = .ok b' ↔ l.foldlM step b = .ok b' := by
  induction l generalizing b with
  | nil => exact pure_eq_ok_iff.trans pure_eq_ok_iff.symm
  | cons a l ih => simp only [List.foldlM_cons, bind_eq_ok_iff, mapError_eq_ok_iff, ih]

theorem Writes.unique {W : Nat → Fuse → Prop} {old new new' : List Fuse} (h : Writes W old new)
    (h' : Writes W old new') : new = new' := by
  refine List.ext_getElem? fun i => ?_
  by_cases hgiven : ∃ f, W i f
  · obtain ⟨f, hf⟩ := hgiven
    rw [h.given hf, h'.given hf]
  · have hkept : ∀ f, ¬ W i f := fun f hf => hgiven ⟨f, hf⟩
    rw [h.kept hkept, h'.kept hkept]

namespace FuseArray

variable {a a' : FuseArray} {b : FuseBlock} {blocks blocks' : List FuseBlock}

/-- What blocks need to be placed one after the other, whatever the order. -/
structure Accepts (a : FuseArray) (blocks : List FuseBlock) : Prop where
  storable : ∀ b ∈ blocks, b.Storable
  inside : ∀ r ∈ blocks.flatMap FuseBlock.ranges, 0 ≤ r.first ∧ r.stop ≤ a.fuses.length
  free : ∀ taken ∈ a.placed, ∀ r ∈ blocks.flatMap FuseBlock.ranges, taken.meets r = false
  apart : (blocks.flatMap FuseBlock.ranges).Pairwise fun r s => r.meets s = false

/-! ## One block -/

theorem exists_storeModeBits {bits : List (Int × Json.Value)}
    (h : ∀ bit ∈ bits, ∃ f, Fuse.ofJson bit.2 = .ok f) (a : FuseArray) :
    ∃ a', storeModeBits a bits = .ok a' := by
  induction bits generalizing a with
  | nil => exact ⟨a, rfl⟩
  | cons bit bits ih =>
    have ⟨⟨f, hf⟩, hbits⟩ := List.forall_mem_cons.1 h
    obtain ⟨a', ha'⟩ := ih hbits { a with fuses := a.fuses.set bit.1.toNat f }
    exact ⟨a', by simp only [storeModeBits, hf, ha']⟩

/-- Whether a block is placed depends on the ranges that are taken and on its values. -/
theorem exists_place_iff : (∃ a', a.place b = .ok a') ↔ a.Accepts [b] := by
  constructor
  · rintro ⟨a', h⟩
    have h := place_ok h
    exact ⟨List.forall_mem_singleton.2 h.storable, by simpa using h.inside, by simpa using h.free,
      by simpa using h.apart⟩
  · rintro ⟨storable, inside, free, apart⟩
    rw [List.flatMap_singleton] at inside free apart
    have hclaim : b.ranges.foldlM (claim a.fuses.length) a.placed =
        .ok (a.placed ++ b.ranges.map id) :=
      (foldlM_claim_eq_ok_iff id
        (fun r : Placement => 0 ≤ r.first ∧ r.stop ≤ (a.fuses.length : Int))
        (fun r s => r.meets s = false) fun _ _ _ => claim_eq_ok_iff).2
        ⟨inside, free, by rwa [List.map_id], rfl⟩
    rw [place, hclaim]
    exact exists_storeModeBits (storable b List.mem_cons_self) _

/-- After a block has been placed, the others need what they needed together with it. -/
theorem Places.accepts_iff (h : a.Places b a') : a'.Accepts blocks ↔ a.Accepts (b :: blocks) := by
  have hlength := h.writes.length_eq
  constructor
  · rintro ⟨storable, inside, free, apart⟩
    rw [h.placed] at free
    refine ⟨List.forall_mem_cons.2 ⟨h.storable, storable⟩, ?_, ?_, ?_⟩
    · rw [List.flatMap_cons, List.forall_mem_append]
      exact ⟨h.inside, hlength ▸ inside⟩
    · intro taken htaken
      rw [List.flatMap_cons, List.forall_mem_append]
      exact ⟨h.free taken htaken, free taken (List.mem_append_left _ htaken)⟩
    · rw [List.flatMap_cons, List.pairwise_append]
      exact ⟨h.apart, apart, fun r hr => free r (List.mem_append_right _ hr)⟩
  · rintro ⟨storable, inside, free, apart⟩
    rw [List.flatMap_cons] at inside free apart
    rw [List.forall_mem_append] at inside
    obtain ⟨-, hblocks, hapart⟩ := List.pairwise_append.1 apart
    refine ⟨(List.forall_mem_cons.1 storable).2, hlength ▸ inside.2, ?_, hblocks⟩
    rw [h.placed, List.forall_mem_append]
    refine ⟨fun taken htaken => ?_, hapart⟩
    exact (List.forall_mem_append.1 (free taken htaken)).2

/-! ## Blocks in any order -/

theorem Accepts.sublist (h : a.Accepts blocks) (hsub : blocks'.Sublist blocks) :
    a.Accepts blocks' := by
  have hranges := hsub.flatMap FuseBlock.ranges
  refine ⟨fun b hb => h.storable b (hsub.subset hb), fun r hr => h.inside r (hranges.subset hr),
    fun taken htaken r hr => h.free taken htaken r (hranges.subset hr), ?_⟩
  exact h.apart.sublist hranges

theorem exists_foldlM_place_iff :
    (∃ a', blocks.foldlM place a = .ok a') ↔ a.Accepts blocks := by
  induction blocks generalizing a with
  | nil => exact ⟨fun _ => ⟨by simp, by simp, by simp, .nil⟩, fun _ => ⟨a, rfl⟩⟩
  | cons b blocks ih =>
    simp only [List.foldlM_cons, bind_eq_ok_iff]
    constructor
    · rintro ⟨a', a₁, hb, hblocks⟩
      exact (place_ok hb).accepts_iff.1 (ih.1 ⟨a', hblocks⟩)
    · intro h
      have hfirst : [b].Sublist (b :: blocks) := (List.nil_sublist blocks).cons_cons b
      obtain ⟨a₁, hb⟩ := exists_place_iff.2 (h.sublist hfirst)
      obtain ⟨a', hblocks⟩ := ih.2 ((place_ok hb).accepts_iff.2 h)
      exact ⟨a', a₁, hb, hblocks⟩

theorem Accepts.perm (h : a.Accepts blocks) (hperm : blocks.Perm blocks') : a.Accepts blocks' := by
  have hranges := hperm.flatMap_right FuseBlock.ranges
  refine ⟨fun b hb => h.storable b (hperm.mem_iff.2 hb),
    fun r hr => h.inside r (hranges.mem_iff.2 hr),
    fun taken htaken r hr => h.free taken htaken r (hranges.mem_iff.2 hr), ?_⟩
  exact (hranges.pairwise_iff fun {r s} hrs => (Placement.meets_comm s r).trans hrs).1 h.apart

/-- The order in which blocks are placed does not matter: they can all be placed in one order if
they can be in another, and then the fuses are the same and the same ranges are taken. -/
theorem foldlM_place_perm (a : FuseArray) (hperm : blocks.Perm blocks') :
    ((∃ r, blocks.foldlM place a = .ok r) ↔ ∃ r', blocks'.foldlM place a = .ok r') ∧
      ∀ r r', blocks.foldlM place a = .ok r → blocks'.foldlM place a = .ok r' →
        r.fuses = r'.fuses ∧ r.placed.Perm r'.placed := by
  constructor
  · rw [exists_foldlM_place_iff, exists_foldlM_place_iff]
    exact ⟨fun h => h.perm hperm, fun h => h.perm hperm.symm⟩
  · intro r r' h h'
    have hall := placeAll_ok (foldlM_mapError_eq_ok_iff.2 h)
    have hall' := placeAll_ok (foldlM_mapError_eq_ok_iff.2 h')
    constructor
    · refine hall.writes.unique (hall'.writes.congr fun i f => ?_)
      simp only [hperm.mem_iff]
    · rw [hall.placed, hall'.placed]
      exact (hperm.flatMap_right _).append_left _

/-- Three blocks for the fuses that are left of ten, the last of them with a mode bit only. -/
def looseBlocks : List FuseBlock :=
  [⟨3, 0, [1, 0, 1], [(6, .integer 255)]⟩, ⟨4, 4, [1, 1], [(9, .integer 0), (7, .integer 1)]⟩,
    ⟨5, 3, [], [(3, .integer 2)]⟩]

/-- Ten fuses, one of which is taken. -/
def partlyTaken : FuseArray := ⟨List.replicate 10 7, none, [⟨8, 9, 2⟩]⟩

theorem foldlM_place_looseBlocks : looseBlocks.reverse.Perm looseBlocks ∧
    ∃ r r', looseBlocks.foldlM place partlyTaken = .ok r ∧
      looseBlocks.reverse.foldlM place partlyTaken = .ok r' ∧
      r.fuses = r'.fuses ∧ r.placed.Perm r'.placed ∧ r.placed ≠ r'.placed := by
  have hperm := List.reverse_perm looseBlocks
  obtain ⟨hiff, heq⟩ := foldlM_place_perm partlyTaken hperm
  obtain ⟨r, hr⟩ : ∃ r, looseBlocks.foldlM place partlyTaken = .ok r := ⟨_, rfl⟩
  obtain ⟨r', hr'⟩ := hiff.2 ⟨r, hr⟩
  obtain ⟨hfuses, hplaced⟩ := heq r' r hr' hr
  refine ⟨hperm, r, r', hr, hr', hfuses.symm, hplaced.symm, ?_⟩
  cases hr
  cases hr'
  decide

end FuseArray

end FuseMap
