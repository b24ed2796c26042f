import FuseMap.Proofs.ValidTables

/-! # Offering blocks one after the other

Blocks are offered to a fuse array in a row, and the row goes on after a block that is refused. What
one offer does is said by `FuseArray.Answers`, and what holds after any number of them by
`FuseArray.Settled`.
-/

namespace FuseMap

/-- Two ranges have no fuse in common. -/
def Placement.Disjoint (r s : Placement) : Prop := ∀ i, r.Contains i → ¬ s.Contains i

theorem Placement.disjoint_of_meets_eq_false {r s : Placement} (h : r.meets s = false) :
    r.Disjoint s := by
  intro i hr hs
  rw [meets_of_contains hr hs] at h
  cases h

namespace FuseBlock

variable {b : FuseBlock} {r : Placement}

/-- The values of the mode bits are ones that fuses can hold. -/
def Storable (b : FuseBlock) : Prop := ∀ bit ∈ b.modeBits, ∃ f, Fuse.ofJson bit.2 = .ok f

theorem storable_of_integers
    (h : ∀ bit ∈ b.modeBits, ∃ n, bit.2 = .integer n ∧ 0 ≤ n ∧ n ≤ 255) : b.Storable := by
  intro bit hbit
  obtain ⟨n, hn, hrange⟩ := h bit hbit
  exact ⟨_, by rw [hn, Fuse.ofJson, Fuse.ofInt, if_pos hrange]⟩

theorem outputPin_of_mem_ranges (h : r ∈ b.ranges) : r.outputPin = b.outputPin := by
  obtain rfl | h := List.mem_cons.1 h
  · rfl
  · obtain ⟨bit, -, rfl⟩ := List.mem_map.1 h
    rfl

/-- A block gives a value to every fuse of its ranges. -/
theorem exists_gives (hb : b.Storable) (hr : r ∈ b.ranges) {i : Nat} (hi : r.Contains i) :
    ∃ f, b.Gives i f := by
  obtain rfl | hr := List.mem_cons.1 hr
  · obtain ⟨hfirst, hstop⟩ := hi
    simp only at hfirst hstop
    have hk : ((i : Int) - b.firstFuse).toNat < b.fuses.length := by omega
    exact ⟨_, .matrix (List.getElem?_eq_getElem hk) (by omega)⟩
  · obtain ⟨⟨offset, value⟩, hbit, rfl⟩ := List.mem_map.1 hr
    obtain ⟨f, hf⟩ := hb _ hbit
    obtain ⟨hfirst, hstop⟩ := hi
    simp only at hfirst hstop
    obtain rfl : offset = i := by omega
    exact ⟨f, .mode hbit hf⟩

end FuseBlock

namespace FuseArray

variable {a a' : FuseArray} {b : FuseBlock}

/-! ## One offer -/

/-- A range leaves an array, or meets a range that is taken. -/
def Blocked (size : Nat) (taken : List Placement) (r : Placement) : Prop :=
  r.first < 0 ∨ size < r.stop ∨ ∃ other ∈ taken, r.first < other.stop ∧ other.first < r.stop

/-- A range of a block is blocked, the ranges before it being taken as well. -/
def Refuses (a : FuseArray) (b : FuseBlock) : Prop :=
  ∃ front r back, b.ranges = front ++ r :: back ∧ Blocked a.fuses.length (a.placed ++ front) r

/-- The array after a block has been offered. -/
def offer (a : FuseArray) (b : FuseBlock) : FuseArray :=
  match a.place b with
  | .ok a' => a'
  | .error f => f.left

theorem blocked_of_claim_error {size : Nat} {taken : List Placement} {r : Placement} {e : Error}
    (h : claim size taken r = .error e) : Blocked size taken r := by
  obtain ⟨hfirst | hstop, -⟩ | ⟨other, hother, hmeets, -⟩ := claim_error h
  · exact .inl hfirst
  · exact .inr (.inl hstop)
  · simp only [Placement.meets, Bool.and_eq_true, decide_eq_true_eq] at hmeets
    exact .inr (.inr ⟨other, hother, hmeets⟩)

theorem Places.not_refuses (h : a.Places b a') : ¬ a.Refuses b := by
  rintro ⟨front, r, back, hranges, hblocked⟩
  have hr : r ∈ b.ranges := by simp [hranges]
  have hinside := h.inside r hr
  rcases hblocked with hfirst | hstop | ⟨other, hother, hlow, hhigh⟩
  · omega
  · omega
  · have hfalse : other.meets r = false := by
      rcases List.mem_append.1 hother with hother | hother
      · exact h.free other hother r hr
      · exact (List.pairwise_append.1 (hranges ▸ h.apart)).2.2 other hother r List.mem_cons_self
    rw [Placement.meets_eq_false_iff] at hfalse
    omega

/-- A block with storable mode bits is refused at one of its ranges. -/
theorem exists_claim_error (hb : b.Storable) {f : PlaceFailure} (h : a.place b = .error f) :
    ∃ front r back, b.ranges = front ++ r :: back ∧
      claim a.fuses.length (a.placed ++ front) r = .error f.error := by
  rcases place_error h with hclaim | ⟨bit, hbit, hvalue⟩
  · exact hclaim
  · obtain ⟨fuse, hfuse⟩ := hb bit hbit
    rw [hfuse] at hvalue
    cases hvalue

/-- The ranges are claimed before the first fuse is written, so a refusal finds the array as it
was. -/
theorem left_eq_of_place_error (hb : b.Storable) {f : PlaceFailure} (h : a.place b = .error f) :
    f.left = a := by
  rw [place] at h
  split at h
  · cases h
    rfl
  · obtain ⟨bit, hbit, hvalue⟩ := storeModeBits_error h
    obtain ⟨fuse, hfuse⟩ := hb bit hbit
    rw [hfuse] at hvalue
    cases hvalue

/-- What an array does with a block that it is offered. -/
structure Answers (a : FuseArray) (b : FuseBlock) : Prop where
  refused_iff : (∃ f, a.place b = .error f) ↔ a.Refuses b
  /-- The error names a range of the block. -/
  error : ∀ f, a.place b = .error f → ∃ r ∈ b.ranges,
    f.error = .fusesOutside r.first r.stop b.outputPin ∨
      ∃ owner, f.error = .fusesTaken r.first r.stop b.outputPin owner
  unchanged : ∀ f, a.place b = .error f → a.offer b = a

/-- The array refuses a block that does not fit and is as before, or places it. -/
theorem answers_of_storable (a : FuseArray) (hb : b.Storable) : a.Answers b where
  refused_iff := by
    constructor
    · rintro ⟨f, hf⟩
      obtain ⟨front, r, back, hranges, hclaim⟩ := exists_claim_error hb hf
      exact ⟨front, r, back, hranges, blocked_of_claim_error hclaim⟩
    · intro hrefuses
      cases hplace : a.place b with
      | ok a' => exact absurd hrefuses (place_ok hplace).not_refuses
      | error f => exact ⟨f, rfl⟩
  error := by
    intro f hf
    obtain ⟨front, r, back, hranges, hclaim⟩ := exists_claim_error hb hf
    have hr : r ∈ b.ranges := by simp [hranges]
    refine ⟨r, hr, ?_⟩
    rw [← FuseBlock.outputPin_of_mem_ranges hr]
    obtain ⟨-, he⟩ | ⟨other, -, -, he⟩ := claim_error hclaim
    · exact .inl he
    · exact .inr ⟨other.outputPin, he⟩
  unchanged := by
    intro f hf
    rw [offer, hf]
    exact left_eq_of_place_error hb hf

/-! ## Many offers -/

/-- The array after blocks have been offered one after the other. -/
def offerAll (a : FuseArray) (blocks : List FuseBlock) : FuseArray := blocks.foldl offer a

@[simp] theorem offerAll_cons (a : FuseArray) (b : FuseBlock) (blocks : List FuseBlock) :
    a.offerAll (b :: blocks) = (a.offer b).offerAll blocks := rfl

/-- The blocks that were not refused. -/
def accepted (a : FuseArray) : List FuseBlock → List FuseBlock
  | [] => []
  | b :: rest =>
    match a.place b with
    | .ok a' => b :: a'.accepted rest
    | .error f => f.left.accepted rest

/-- An array that was filled with one value holds the given blocks and nothing else. -/
structure Settled (size : Nat) (fill : Fuse) (blocks : List FuseBlock) (a : FuseArray) :
    Prop where
  length_eq : a.fuses.length = size
  placed : a.placed = blocks.flatMap FuseBlock.ranges
  inside : ∀ r ∈ a.placed, 0 ≤ r.first ∧ r.stop ≤ size
  apart : a.placed.Pairwise Placement.Disjoint
  /-- Every fuse of a block holds the one value that the block gives it. -/
  given : ∀ b ∈ blocks, ∀ r ∈ b.ranges, ∀ i : Nat, r.Contains i →
    ∃ f, a.fuses[i]? = some f ∧ ∀ g, b.Gives i g ↔ g = f
  blank : ∀ i < size, (∀ r ∈ a.placed, ¬ r.Contains i) → a.fuses[i]? = some fill

section
variable {size : Nat} {fill : Fuse} {blocks : List FuseBlock}

theorem settled_of_filled {size : Int} {rowLength : Option Int}
    (h : filled size fill rowLength = .ok a) : Settled size.toNat fill [] a := by
  rw [filled] at h
  split at h
  · cases h
    refine ⟨List.length_replicate, rfl, by simp, .nil, by simp, fun i hi _ => ?_⟩
    simp [hi]
  · cases h

/-- The step lemma: a block that is placed is held as well. -/
theorem Settled.places (h : Settled size fill blocks a) (hb : b.Storable)
    (hplaces : a.Places b a') : Settled size fill (blocks ++ [b]) a' where
  length_eq := hplaces.writes.length_eq.trans h.length_eq
  placed := by simp [hplaces.placed, h.placed]
  inside := by
    intro r hr
    rw [hplaces.placed] at hr
    rcases List.mem_append.1 hr with hr | hr
    · exact h.inside r hr
    · rw [← h.length_eq]
      exact hplaces.inside r hr
  apart := by
    rw [hplaces.placed, List.pairwise_append]
    refine ⟨h.apart, hplaces.apart.imp Placement.disjoint_of_meets_eq_false, ?_⟩
    intro taken htaken r hr
    exact Placement.disjoint_of_meets_eq_false (hplaces.free taken htaken r hr)
  given := by
    intro c hc r hr i hi
    rcases List.mem_append.1 hc with hc | hc
    · -- the fuses of earlier blocks are none of the new one
      obtain ⟨f, hf, hunique⟩ := h.given c hc r hr i hi
      refine ⟨f, ?_, hunique⟩
      rw [hplaces.writes.kept, hf]
      intro g hg
      obtain ⟨s, hs, hsi⟩ := hg.covered
      have htaken : r ∈ a.placed := by
        rw [h.placed]
        exact List.mem_flatMap.2 ⟨c, hc, hr⟩
      exact Placement.disjoint_of_meets_eq_false (hplaces.free r htaken s hs) i hi hsi
    · obtain rfl := List.mem_singleton.1 hc
      obtain ⟨f, hf⟩ := FuseBlock.exists_gives hb hr hi
      have hheld := hplaces.writes.given hf
      refine ⟨f, hheld, fun g => ⟨fun hg => ?_, fun hg => hg ▸ hf⟩⟩
      have hheld' := hplaces.writes.given hg
      rw [hheld] at hheld'
      exact (Option.some.inj hheld').symm
  blank := by
    intro i hi hfree
    rw [hplaces.placed] at hfree
    rw [hplaces.writes.kept]
    · exact h.blank i hi fun r hr => hfree r (List.mem_append_left _ hr)
    · intro f hf
      obtain ⟨r, hr, hri⟩ := hf.covered
      exact hfree r (List.mem_append_right _ hr) hri

/-- A run of offers adds the blocks that it accepts. -/
theorem Settled.offerAll {before : List FuseBlock} (h : Settled size fill before a)
    (hblocks : ∀ b ∈ blocks, b.Storable) :
    Settled size fill (before ++ a.accepted blocks) (a.offerAll blocks) := by
  induction blocks generalizing a before with
  | nil => simpa [accepted, FuseArray.offerAll] using h
  | cons b blocks ih =>
    obtain ⟨hb, hrest⟩ := List.forall_mem_cons.1 hblocks
    rw [accepted, offerAll_cons, offer]
    cases hplace : a.place b with
    | ok a' =>
      have hstep := h.places hb (place_ok hplace)
      simpa using ih hstep hrest
    | error f =>
      simp only [left_eq_of_place_error hb hplace]
      exact ih h hrest

end

/-- However blocks are offered to an array, each one is placed as a whole or refused without a
trace, and those that are placed stay apart and stay as they are. -/
theorem answers_and_settled {size : Int} {fill : Fuse} {rowLength : Option Int} {start : FuseArray}
    {blocks : List FuseBlock} (hstart : filled size fill rowLength = .ok start)
    (hblocks : ∀ b ∈ blocks, b.Storable) :
    (∀ front b back, blocks = front ++ b :: back → (start.offerAll front).Answers b) ∧
      Settled size.toNat fill (start.accepted blocks) (start.offerAll blocks) := by
  constructor
  · rintro front b back rfl
    exact answers_of_storable _ (hblocks b (by simp))
  · exact (settled_of_filled hstart).offerAll hblocks

/-- Three blocks for eight fuses: the second one has free fuses, but its last mode bit belongs to
the first. -/
def threeBlocks : List FuseBlock :=
  [⟨3, 0, [1, 0, 1], [(6, .integer 255)]⟩, ⟨4, 3, [1], [(7, .integer 1), (6, .integer 0)]⟩,
    ⟨5, 4, [1, 1], []⟩]

theorem storable_threeBlocks : ∀ b ∈ threeBlocks, b.Storable := by
  intro b hb
  refine FuseBlock.storable_of_integers ?_
  simp only [threeBlocks, List.mem_cons, List.not_mem_nil, or_false] at hb
  rcases hb with rfl | rfl | rfl <;> simp

theorem answers_and_settled_threeBlocks :
    ∃ start, filled 8 7 none = .ok start ∧ (∀ b ∈ threeBlocks, b.Storable) ∧
      (∀ front b back, threeBlocks = front ++ b :: back → (start.offerAll front).Answers b) ∧
      Settled 8 7 (start.accepted threeBlocks) (start.offerAll threeBlocks) ∧
      (start.accepted threeBlocks).map (·.outputPin) = [3, 5] ∧
      (start.offerAll threeBlocks).fuses = [1, 0, 1, 7, 1, 1, 255, 7] := by
  obtain ⟨hanswers, hsettled⟩ :=
    @answers_and_settled 8 7 none _ threeBlocks rfl storable_threeBlocks
  exact ⟨_, rfl, storable_threeBlocks, hanswers, hsettled, rfl, rfl⟩

end FuseArray

end FuseMap
