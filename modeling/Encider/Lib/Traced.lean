import Mathlib

/-! Computations on a state that can fail and that note what they do on the way. -/

/-- From a state, a value with the next state or a failure, and the notes up to there. -/
def Traced (σ τ α : Type) := σ → Option (α × σ) × List τ

namespace Traced

variable {σ τ α β : Type}

/-- Go on with a result, behind the notes of before. -/
def andThen (r : Option (α × σ) × List τ) (q : α → Traced σ τ β) : Option (β × σ) × List τ :=
  match r.1 with
  | none => (none, r.2)
  | some (x, s) => ((q x s).1, r.2 ++ (q x s).2)

instance : Monad (Traced σ τ) where
  pure x := fun s => (some (x, s), [])
  bind p q := fun s => andThen (p s) q

def fail : Traced σ τ α := fun _ => (none, [])

/-- One value after the other. -/
def count (p : Traced σ τ α) : ℕ → Traced σ τ (List α)
  | 0 => pure []
  | n + 1 => do
      let x ← p
      let xs ← count p n
      pure (x :: xs)

/-- From `s` the computation returns `x` in `s'`. -/
def Gives (p : Traced σ τ α) (s : σ) (x : α) (s' : σ) : Prop := (p s).1 = some (x, s')

/-- From `s` it notes something of this kind. -/
def Notes (P : τ → Prop) (p : Traced σ τ α) (s : σ) : Prop := ∃ t ∈ (p s).2, P t

variable {p : Traced σ τ α} {q : α → Traced σ τ β} {s s' : σ} {x : α} {y : β} {P : τ → Prop}

theorem gives_pure {z : α} : Gives (pure x : Traced σ τ α) s z s' ↔ x = z ∧ s = s' := by
  unfold Gives
  exact ⟨fun h => ⟨(Prod.mk.inj (Option.some.inj h)).1, (Prod.mk.inj (Option.some.inj h)).2⟩,
    fun h => by rw [← h.1, ← h.2]; rfl⟩

theorem not_notes_pure : ¬ Notes P (pure x : Traced σ τ α) s := by
  rintro ⟨t, ht, -⟩
  cases ht

theorem gives_bind : Gives (p >>= q) s y s' ↔ ∃ x s₁, Gives p s x s₁ ∧ Gives (q x) s₁ y s' := by
  change (andThen (p s) q).1 = _ ↔ _
  unfold andThen Gives
  cases h : (p s).1 with
  | none => simp
  | some r =>
    simp only [Option.some.injEq]
    constructor
    · intro hq
      exact ⟨r.1, r.2, rfl, hq⟩
    · rintro ⟨x, s₁, rfl, hq⟩
      exact hq

theorem notes_bind : Notes P (p >>= q) s ↔
    Notes P p s ∨ ∃ x s₁, Gives p s x s₁ ∧ Notes P (q x) s₁ := by
  change (∃ t ∈ (andThen (p s) q).2, P t) ↔ _
  unfold andThen Gives Notes
  cases h : (p s).1 with
  | none => simp
  | some r =>
    simp only [List.mem_append, Option.some.injEq]
    constructor
    · rintro ⟨t, ht | ht, hp⟩
      · exact .inl ⟨t, ht, hp⟩
      · exact .inr ⟨r.1, r.2, rfl, t, ht, hp⟩
    · rintro (⟨t, ht, hp⟩ | ⟨x, s₁, rfl, t, ht, hp⟩)
      · exact ⟨t, .inl ht, hp⟩
      · exact ⟨t, .inr ht, hp⟩

theorem gives_fail : ¬ Gives (fail : Traced σ τ α) s x s' := by
  intro h
  cases h

theorem not_notes_fail : ¬ Notes P (fail : Traced σ τ α) s := by
  rintro ⟨t, ht, -⟩
  cases ht

/-- The states that a number of values leaves. -/
inductive Passes (p : Traced σ τ α) : ℕ → σ → σ → Prop
  | zero (s : σ) : Passes p 0 s s
  | succ {n : ℕ} {s s₁ s' : σ} {x : α} (h : Gives p s x s₁) (t : Passes p n s₁ s') :
      Passes p (n + 1) s s'

theorem exists_gives_count {n : ℕ} : (∃ xs, Gives (count p n) s xs s') ↔ Passes p n s s' := by
  induction n generalizing s with
  | zero =>
    constructor
    · rintro ⟨xs, h⟩
      obtain ⟨-, rfl⟩ := gives_pure.mp h
      exact .zero s
    · intro h
      cases h
      exact ⟨[], gives_pure.mpr ⟨rfl, rfl⟩⟩
  | succ n ih =>
    constructor
    · rintro ⟨xs, h⟩
      obtain ⟨x, s₁, hx, h⟩ := gives_bind.mp h
      obtain ⟨ys, s₂, hys, h⟩ := gives_bind.mp h
      obtain ⟨-, rfl⟩ := gives_pure.mp h
      exact .succ hx (ih.mp ⟨ys, hys⟩)
    · intro h
      cases h with
      | succ hx ht =>
        obtain ⟨ys, hys⟩ := ih.mpr ht
        exact ⟨_, gives_bind.mpr ⟨_, _, hx, gives_bind.mpr ⟨ys, _, hys, gives_pure.mpr ⟨rfl, rfl⟩⟩⟩⟩

/-- A loop notes what one of its turns notes. -/
theorem notes_count {n : ℕ} : Notes P (count p n) s ↔
    ∃ m < n, ∃ s₁, Passes p m s s₁ ∧ Notes P p s₁ := by
  induction n generalizing s with
  | zero =>
    refine iff_of_false not_notes_pure ?_
    rintro ⟨m, hm, -⟩
    omega
  | succ n ih =>
    unfold count
    rw [notes_bind]
    constructor
    · rintro (h | ⟨x, s₁, hx, h⟩)
      · exact ⟨0, by omega, s, .zero s, h⟩
      · rcases notes_bind.mp h with h | ⟨xs, s₂, -, h⟩
        · obtain ⟨m, hm, s₂, hp, h⟩ := ih.mp h
          exact ⟨m + 1, by omega, s₂, .succ hx hp, h⟩
        · exact absurd h not_notes_pure
    · rintro ⟨m, hm, s₁, hp, h⟩
      cases hp with
      | zero => exact .inl h
      | succ hx hp => exact .inr ⟨_, _, hx, notes_bind.mpr (.inl (ih.mpr ⟨_, by omega, _, hp, h⟩))⟩

end Traced
