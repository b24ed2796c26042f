import FuseMap.Proofs.Success

/-! # Failing computations

The counterpart of `FuseMap.Proofs.Success`: what an error says about the steps that led to it. A
sequence of steps fails at the first of them that does (`bind_eq_error_iff`), and so do the steps
for the items of a list (`mapM_eq_error_iff`, `foldlM_eq_error_iff`). `FailsOnly` bounds the errors
of a computation by those of its steps.
-/

namespace FuseMap

variable {ε α β : Type}

/-- The first failure is that of the whole. -/
theorem bind_eq_error_iff {step : Except ε α} {next : α → Except ε β} {e : ε} :
    step >>= next = .error e ↔ step = .error e ∨ ∃ a, step = .ok a ∧ next a = .error e := by
  cases step with
  | error e' => simp [bind, Except.bind]
  | ok a => simp [bind, Except.bind]

theorem mapError_eq_error_iff {δ : Type} {describe : ε → δ} {step : Except ε α} {e : δ} :
    step.mapError describe = .error e ↔ ∃ e', step = .error e' ∧ describe e' = e := by
  cases step with
  | error e' => simp [Except.mapError]
  | ok a => simp [Except.mapError]

theorem ite_error_eq_error_iff {p : Prop} [Decidable p] {e e' : ε} {step : Except ε α} :
    (if p then .error e' else step) = .error e ↔ (p ∧ e = e') ∨ (¬ p ∧ step = .error e) := by
  split <;> simp [*, eq_comm]

/-- The items are taken one after the other up to the first that fails. -/
theorem mapM_eq_error_iff {f : α → Except ε β} {l : List α} {e : ε} :
    l.mapM f = .error e ↔ ∃ front a back, l = front ++ a :: back ∧
      (∃ r, front.mapM f = .ok r) ∧ f a = .error e := by
  induction l with
  | nil => simp [pure, Except.pure]
  | cons b l ih =>
    rw [List.mapM_cons, bind_eq_error_iff]
    constructor
    · rintro (h | ⟨r, hr, h⟩)
      · exact ⟨[], b, l, rfl, ⟨[], rfl⟩, h⟩
      · rw [bind_eq_error_iff] at h
        obtain h | ⟨rs, -, h⟩ := h
        · obtain ⟨front, a, back, rfl, ⟨rs, hrs⟩, ha⟩ := ih.1 h
          exact ⟨b :: front, a, back, rfl, ⟨r :: rs, by simp [hr, hrs]⟩, ha⟩
        · cases h
    · rintro ⟨front, a, back, hl, ⟨rs, hrs⟩, ha⟩
      obtain _ | ⟨c, front⟩ := front
      · cases hl
        exact .inl ha
      · cases hl
        rw [List.mapM_cons] at hrs
        simp only [bind_eq_ok_iff, pure_eq_ok_iff] at hrs
        obtain ⟨r, hr, rs', hrs', -⟩ := hrs
        refine .inr ⟨r, hr, bind_eq_error_iff.2 (.inl (ih.2 ?_))⟩
        exact ⟨front, a, back, rfl, ⟨rs', hrs'⟩, ha⟩

/-- Items that all succeed one by one succeed together. -/
theorem exists_mapM_eq_ok {f : α → Except ε β} {l : List α}
    (h : ∀ a ∈ l, ∃ b, f a = .ok b) : ∃ r, l.mapM f = .ok r := by
  cases hr : l.mapM f with
  | ok r => exact ⟨r, rfl⟩
  | error e =>
    obtain ⟨front, a, back, rfl, -, ha⟩ := mapM_eq_error_iff.1 hr
    obtain ⟨b, hb⟩ := h a (by simp)
    rw [ha] at hb
    cases hb

/-- A fold fails at an item, after the items before it have been folded. -/
theorem foldlM_eq_error_iff {f : β → α → Except ε β} {l : List α} {b : β} {e : ε} :
    l.foldlM f b = .error e ↔ ∃ front a back b', l = front ++ a :: back ∧
      front.foldlM f b = .ok b' ∧ f b' a = .error e := by
  induction l generalizing b with
  | nil => simp [pure, Except.pure]
  | cons c l ih =>
    rw [List.foldlM_cons, bind_eq_error_iff]
    constructor
    · rintro (h | ⟨b₁, hb₁, h⟩)
      · exact ⟨[], c, l, b, rfl, rfl, h⟩
      · obtain ⟨front, a, back, b', rfl, hfront, ha⟩ := ih.1 h
        exact ⟨c :: front, a, back, b', rfl, by simp [hb₁, hfront], ha⟩
    · rintro ⟨front, a, back, b', hl, hfront, ha⟩
      obtain _ | ⟨d, front⟩ := front
      · cases hl
        cases hfront
        exact .inl ha
      · cases hl
        rw [List.foldlM_cons, bind_eq_ok_iff] at hfront
        obtain ⟨b₁, hb₁, hfront⟩ := hfront
        exact .inr ⟨b₁, hb₁, ih.2 ⟨front, a, back, b', rfl, hfront, ha⟩⟩

/-- Every error of a computation is one that `P` allows. -/
def FailsOnly (P : ε → Prop) (step : Except ε α) : Prop := ∀ e, step = .error e → P e

namespace FailsOnly

variable {P Q : ε → Prop} {step : Except ε α} {next : α → Except ε β}

protected theorem ok (a : α) : FailsOnly P (.ok a) := fun _ h => nomatch h

protected theorem error {e : ε} (h : P e) : FailsOnly P (.error e : Except ε α) := by
  rintro _ ⟨⟩
  exact h

protected theorem mono (h : FailsOnly P step) (hPQ : ∀ e, P e → Q e) : FailsOnly Q step :=
  fun e he => hPQ e (h e he)

protected theorem bind (h : FailsOnly P step) (hnext : ∀ a, step = .ok a → FailsOnly P (next a)) :
    FailsOnly P (step >>= next) := by
  intro e he
  rcases bind_eq_error_iff.1 he with hstep | ⟨a, hstep, he⟩
  · exact h e hstep
  · exact hnext a hstep e he

protected theorem ite {p : Prop} [Decidable p] {other : Except ε α} (h : p → FailsOnly P step)
    (hother : ¬ p → FailsOnly P other) : FailsOnly P (if p then step else other) := by
  split
  · next hp => exact h hp
  · next hp => exact hother hp

protected theorem mapM {f : α → Except ε β} {l : List α} (h : ∀ a ∈ l, FailsOnly P (f a)) :
    FailsOnly P (l.mapM f) := by
  intro e he
  obtain ⟨front, a, back, rfl, -, ha⟩ := mapM_eq_error_iff.1 he
  exact h a (by simp) e ha

protected theorem foldlM {f : β → α → Except ε β} {l : List α} {b : β}
    (h : ∀ b, ∀ a ∈ l, FailsOnly P (f b a)) : FailsOnly P (l.foldlM f b) := by
  intro e he
  obtain ⟨front, a, back, b', rfl, -, ha⟩ := foldlM_eq_error_iff.1 he
  exact h b' a (by simp) e ha

end FailsOnly

end FuseMap
