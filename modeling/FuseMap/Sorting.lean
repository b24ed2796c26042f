/-! # Sorting

A list is sorted by putting its items into place one after the other, from the last to the first.
The sorted list holds the same items (`inOrder_perm`), and each may stand before those after it
(`inOrder_pairwise`).
-/

namespace FuseMap

variable {α : Type}

/-- Puts an item in front of the first one that it may stand before. -/
def insertInOrder (le : α → α → Bool) (a : α) : List α → List α
  | [] => [a]
  | b :: l => if le a b then a :: b :: l else b :: insertInOrder le a l

/-- A list in order. Items that may stand either way keep the order they have. -/
def inOrder (le : α → α → Bool) (l : List α) : List α :=
  l.foldr (insertInOrder le) []

theorem insertInOrder_perm (le : α → α → Bool) (a : α) (l : List α) :
    (insertInOrder le a l).Perm (a :: l) := by
  induction l with
  | nil => exact .refl _
  | cons b l ih =>
    rw [insertInOrder]
    split
    · exact .refl _
    · exact (ih.cons b).trans (.swap a b l)

theorem inOrder_perm (le : α → α → Bool) (l : List α) : (inOrder le l).Perm l := by
  induction l with
  | nil => exact .refl _
  | cons a l ih => exact (insertInOrder_perm le a _).trans (ih.cons a)

theorem insertInOrder_pairwise {le : α → α → Bool}
    (trans : ∀ a b c, le a b → le b c → le a c) (total : ∀ a b, le a b ∨ le b a)
    {l : List α} (a : α) (h : l.Pairwise fun a b => le a b) :
    (insertInOrder le a l).Pairwise fun a b => le a b := by
  induction l with
  | nil => exact List.pairwise_singleton _ a
  | cons b l ih =>
    have ⟨hb, hl⟩ := List.pairwise_cons.1 h
    rw [insertInOrder]
    split
    · next hab =>
      refine List.pairwise_cons.2 ⟨fun c hc => ?_, h⟩
      obtain rfl | hc := List.mem_cons.1 hc
      · exact hab
      · exact trans a b c hab (hb c hc)
    · next hab =>
      refine List.pairwise_cons.2 ⟨fun c hc => ?_, ih hl⟩
      obtain rfl | hc := List.mem_cons.1 ((insertInOrder_perm le a l).mem_iff.1 hc)
      · exact (total c b).resolve_left hab
      · exact hb c hc

theorem inOrder_pairwise {le : α → α → Bool}
    (trans : ∀ a b c, le a b → le b c → le a c) (total : ∀ a b, le a b ∨ le b a) (l : List α) :
    (inOrder le l).Pairwise fun a b => le a b := by
  induction l with
  | nil => exact .nil
  | cons a l ih => exact insertInOrder_pairwise trans total a ih

end FuseMap
