import Mathlib

/-! Fallible steps of a program beside those of a model: both fail, or both give related results. -/

namespace Encider.Refines

variable {σ τ α β : Type} {R : σ → τ → Prop}

theorem isSome_iff {s : Option σ} {t : Option τ} (h : Option.Rel R s t) :
    s.isSome = true ↔ t.isSome = true := by
  cases h <;> simp

theorem of_some {s : σ} {t : Option τ} (h : Option.Rel R (some s) t) : ∃ m, t = some m ∧ R s m := by
  cases h with
  | some hr => exact ⟨_, rfl, hr⟩

theorem of_model {s : Option σ} {m : τ} (h : Option.Rel R s (some m)) :
    ∃ t, s = some t ∧ R t m := by
  cases h with
  | some hr => exact ⟨_, rfl, hr⟩

theorem bind {S : α → β → Prop} {s : Option σ} {t : Option τ} {f : σ → Option α}
    {g : τ → Option β} (h : Option.Rel R s t) (hfg : ∀ s t, R s t → Option.Rel S (f s) (g t)) :
    Option.Rel S (s.bind f) (t.bind g) := by
  cases h with
  | none => exact .none
  | some hr => exact hfg _ _ hr

/-- A run, from what one step does. -/
theorem foldlM {f : σ → α → Option σ} {g : τ → α → Option τ}
    (hstep : ∀ s t a, R s t → Option.Rel R (f s a) (g t a)) {s : σ} {t : τ} (h : R s t)
    (l : List α) : Option.Rel R (l.foldlM f s) (l.foldlM g t) := by
  induction l generalizing s t with
  | nil => exact .some h
  | cons a l ih =>
    rw [List.foldlM_cons, List.foldlM_cons]
    exact bind (hstep s t a h) fun _ _ hr => ih hr

end Encider.Refines
