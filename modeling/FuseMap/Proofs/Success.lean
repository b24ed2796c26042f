import Mathlib.Data.List.Forall2

/-! # Successful computations

What a result says about the steps that led to it: `bind_eq_ok_iff` takes a computation apart at
its first step, `mapM_eq_ok_iff` and `forM_eq_ok_iff` do so for all items of a list, and
`foldlM_claim_eq_ok_iff` for claims, each of which has to get along with those before it.
-/

namespace FuseMap

variable {ε α β : Type}

@[simp] theorem bind_eq_ok_iff {step : Except ε α} {next : α → Except ε β} {b : β} :
    step >>= next = .ok b ↔ ∃ a, step = .ok a ∧ next a = .ok b := by
  cases step with
  | error e => simp [bind, Except.bind]
  | ok a => simp [bind, Except.bind]

@[simp] theorem map_eq_ok_iff {f : α → β} {step : Except ε α} {b : β} :
    f <$> step = .ok b ↔ ∃ a, step = .ok a ∧ f a = b := by
  cases step with
  | error e => simp [Functor.map, Except.map]
  | ok a => simp [Functor.map, Except.map]

@[simp] theorem mapError_eq_ok_iff {δ : Type} {describe : ε → δ} {step : Except ε α} {a : α} :
    step.mapError describe = .ok a ↔ step = .ok a := by
  cases step with
  | error e => simp [Except.mapError]
  | ok b => simp [Except.mapError]

@[simp] theorem pure_eq_ok_iff {a b : α} : (pure a : Except ε α) = .ok b ↔ a = b :=
  Except.ok.injEq a b ▸ Iff.rfl

@[simp] theorem throw_eq_error {e : ε} : (throw e : Except ε α) = .error e := rfl

@[simp] theorem error_bind {e : ε} {next : α → Except ε β} :
    (.error e : Except ε α) >>= next = .error e := rfl

/-- A computation with a guard succeeds if the guard lets it pass. -/
@[simp] theorem ite_error_eq_ok_iff {p : Prop} [Decidable p] {e : ε} {step : Except ε α} {a : α} :
    (if p then .error e else step) = .ok a ↔ ¬ p ∧ step = .ok a := by
  split <;> simp [*]

theorem mapM_eq_ok_iff {f : α → Except ε β} {l : List α} {r : List β} :
    l.mapM f = .ok r ↔ List.Forall₂ (fun a b => f a = .ok b) l r := by
  induction l generalizing r with
  | nil => cases r <;> simp
  | cons a l ih =>
    rw [List.mapM_cons]
    cases r with
    | nil => simp
    | cons b r => simp [ih]

theorem exists_of_mapM_eq_ok {f : α → Except ε β} {l : List α} {r : List β}
    (h : l.mapM f = .ok r) {a : α} (ha : a ∈ l) : ∃ b ∈ r, f a = .ok b := by
  rw [mapM_eq_ok_iff] at h
  induction h with
  | nil => cases ha
  | cons hab _ ih =>
    obtain rfl | ha := List.mem_cons.1 ha
    · exact ⟨_, List.mem_cons_self, hab⟩
    · obtain ⟨b, hb, hfb⟩ := ih ha
      exact ⟨b, List.mem_cons_of_mem _ hb, hfb⟩

/-- The results stand where their items do. -/
theorem getElem?_of_mapM_eq_ok {f : α → Except ε β} {l : List α} {r : List β}
    (h : l.mapM f = .ok r) {i : Nat} {a : α} (ha : l[i]? = some a) :
    ∃ b, r[i]? = some b ∧ f a = .ok b := by
  rw [mapM_eq_ok_iff] at h
  obtain ⟨hi, rfl⟩ := List.getElem?_eq_some_iff.1 ha
  have hi' : i < r.length := h.length_eq ▸ hi
  exact ⟨r[i], List.getElem?_eq_getElem hi', h.get hi hi'⟩

theorem mem_iff_of_mapM_eq_ok {f : α → Except ε β} {l : List α} {r : List β}
    (h : l.mapM f = .ok r) {b : β} : b ∈ r ↔ ∃ a ∈ l, f a = .ok b := by
  constructor
  · intro hb
    rw [mapM_eq_ok_iff] at h
    induction h with
    | nil => cases hb
    | cons hab _ ih =>
      obtain rfl | hb := List.mem_cons.1 hb
      · exact ⟨_, List.mem_cons_self, hab⟩
      · obtain ⟨a, ha, hfa⟩ := ih hb
        exact ⟨a, List.mem_cons_of_mem _ ha, hfa⟩
  · rintro ⟨a, ha, hab⟩
    obtain ⟨b', hb', hab'⟩ := exists_of_mapM_eq_ok h ha
    rwa [Except.ok.inj (hab.symm.trans hab')]

/-- What the steps keep of the items is the same for both lists. -/
theorem map_eq_of_mapM_eq_ok {γ : Type} {f : α → Except ε β} {l : List α} {r : List β}
    {ofItem : α → γ} {ofResult : β → γ} (h : l.mapM f = .ok r)
    (hf : ∀ {a b}, f a = .ok b → ofResult b = ofItem a) : r.map ofResult = l.map ofItem := by
  rw [mapM_eq_ok_iff] at h
  induction h with
  | nil => rfl
  | cons hab _ ih => rw [List.map_cons, List.map_cons, hf hab, ih]

theorem forM_eq_ok_iff {f : α → Except ε Unit} {l : List α} :
    l.forM f = .ok () ↔ ∀ a ∈ l, f a = .ok () := by
  induction l with
  | nil => exact ⟨fun _ => by simp, fun _ => rfl⟩
  | cons a l ih =>
    rw [List.forall_mem_cons, ← ih]
    exact bind_eq_ok_iff.trans ⟨fun ⟨(), h⟩ => h, fun h => ⟨(), h⟩⟩

/-- A list of claims is granted if each of them is legal and agrees with all that were made before
it. -/
theorem foldlM_claim_eq_ok_iff {claim : List β → α → Except ε (List β)} (item : α → β)
    (Legal : α → Prop) (Agree : β → β → Prop)
    (h : ∀ taken a result, claim taken a = .ok result ↔
      Legal a ∧ (∀ b ∈ taken, Agree b (item a)) ∧ result = taken ++ [item a])
    {taken result : List β} {l : List α} :
    l.foldlM claim taken = .ok result ↔
      (∀ a ∈ l, Legal a) ∧ (∀ b ∈ taken, ∀ a ∈ l, Agree b (item a)) ∧
        (l.map item).Pairwise Agree ∧ result = taken ++ l.map item := by
  induction l generalizing taken with
  | nil => simp [eq_comm (a := taken)]
  | cons a l ih =>
    simp only [List.foldlM_cons, bind_eq_ok_iff, h, ih, List.map_cons, List.pairwise_cons]
    constructor
    · rintro ⟨_, ⟨legal, agree, rfl⟩, legals, agrees, pairs, rfl⟩
      grind
    · rintro ⟨legals, agrees, pairs, rfl⟩
      refine ⟨_, ⟨?_, ?_, rfl⟩, ?_⟩ <;> grind

end FuseMap
