import Mathlib

/-! Climbing a partial parent function. `acc a e` is what the climber carries
from `a` when it came there with `e`. -/

namespace Climb

variable {α β σ : Type}

/-- Climbing from `x` with `e`, one comes to `a` with `d`. -/
inductive Reaches (up : α → Option α) (acc : α → β → β) : α → β → α → β → Prop where
  | here {x a : α} {e : β} : up x = some a → Reaches up acc x e a e
  | there {x b a : α} {e d : β} : up x = some b → Reaches up acc b (acc b e) a d →
      Reaches up acc x e a d

/-- The walk itself, with fuel; every move changes the state. -/
def climb (up : α → Option α) (step : α → α → σ → Option σ) : Nat → α → σ → Option σ
  | 0, x, s => if (up x).isSome then none else some s
  | n + 1, x, s =>
    match up x with
    | none => some s
    | some a => (step x a s).bind (climb up step n a)

variable {up : α → Option α} {acc : α → β → β}

namespace Reaches

/-- One more move at the end. -/
theorem extend {x b a : α} {e d : β} (h : Reaches up acc x e b d) (hb : up b = some a) :
    Reaches up acc x e a (acc b d) := by
  induction h with
  | here hx => exact .there hx (.here hb)
  | there hx _ ih => exact .there hx (ih hb)

/-- The last move is the first one, or starts where one came to before. -/
theorem last {x a : α} {e d : β} (h : Reaches up acc x e a d) :
    (up x = some a ∧ d = e) ∨
      ∃ b c, Reaches up acc x e b c ∧ up b = some a ∧ d = acc b c := by
  induction h with
  | here hx => exact .inl ⟨hx, rfl⟩
  | there hx _ ih =>
    right
    rcases ih with ⟨hb, rfl⟩ | ⟨b, c, hr, hb, rfl⟩
    · exact ⟨_, _, .here hx, hb, rfl⟩
    · exact ⟨b, c, .there hx hr, hb, rfl⟩

/-- Induction over the moves, the last one outermost. -/
theorem rec_last {x : α} {e : β} {P : α → β → Prop} (first : ∀ a, up x = some a → P a e)
    (next : ∀ b d a, Reaches up acc x e b d → P b d → up b = some a → P a (acc b d))
    {a : α} {d : β} (h : Reaches up acc x e a d) : P a d := by
  suffices hs : ∀ {y f a d}, Reaches up acc y f a d →
      (∀ b, up y = some b → P b f ∧ Reaches up acc x e b f) → P a d from
    hs h fun b hb => ⟨first b hb, .here hb⟩
  intro y f a d hr
  induction hr with
  | here hy => exact fun hp => (hp _ hy).1
  | there hy _ ih =>
    intro hp
    obtain ⟨h1, h2⟩ := hp _ hy
    exact ih fun c hc => ⟨next _ _ _ h2 h1 hc, h2.extend hc⟩

variable {rank : α → Nat} (hrank : ∀ x a, up x = some a → rank a < rank x)
include hrank

theorem rank_lt {x a : α} {e d : β} (h : Reaches up acc x e a d) : rank a < rank x := by
  induction h with
  | here hx => exact hrank _ _ hx
  | there hx _ ih => exact ih.trans (hrank _ _ hx)

theorem rank_le {x b a : α} {e d : β} (h : Reaches up acc x e b d) (hx : up x = some a) :
    rank b ≤ rank a := by
  cases h with
  | here hb =>
    rw [hx] at hb
    cases hb
    exact le_refl _
  | there hb ht =>
    rw [hx] at hb
    cases hb
    exact (ht.rank_lt hrank).le

/-- One comes to a place with one value only. -/
theorem unique {x a : α} {e d d' : β} (h : Reaches up acc x e a d)
    (h' : Reaches up acc x e a d') : d = d' := by
  induction h with
  | here hx =>
    cases h' with
    | here _ => rfl
    | there hb ht =>
      rw [hx] at hb
      cases hb
      exact absurd (ht.rank_lt hrank) (lt_irrefl _)
  | there hx ht ih =>
    cases h' with
    | here hb =>
      rw [hx] at hb
      cases hb
      exact absurd (ht.rank_lt hrank) (lt_irrefl _)
    | there hb ht' =>
      rw [hx] at hb
      cases hb
      exact ih ht'

/-- A place is entered by the first move or by a later one, not both. -/
theorem not_first {x b a : α} {e d : β} (h : Reaches up acc x e b d) (hb : up b = some a) :
    up x ≠ some a := by
  intro hx
  have h1 := h.rank_le hrank hx
  have h2 := hrank _ _ hb
  omega

/-- A place is entered from one place only. -/
theorem last_unique {x b b' a : α} {e d d' : β} (h : Reaches up acc x e b d)
    (h' : Reaches up acc x e b' d') (hb : up b = some a) (hb' : up b' = some a) : b = b' := by
  induction h with
  | here hx =>
    cases h' with
    | here hy =>
      rw [hx] at hy
      exact Option.some.inj hy
    | there hy ht =>
      rw [hx] at hy
      cases hy
      exact absurd hb (ht.not_first hrank hb')
  | there hx ht ih =>
    cases h' with
    | here hy =>
      rw [hx] at hy
      cases hy
      exact absurd hb' (ht.not_first hrank hb)
    | there hy ht' =>
      rw [hx] at hy
      cases hy
      exact ih ht' hb

end Reaches

/-- The walk ends at once where there is no way up. -/
theorem climb_top {step : α → α → σ → Option σ} {n : Nat} {x : α} {s : σ} (h : up x = none) :
    climb up step n x s = some s := by
  cases n with
  | zero => simp [climb, h]
  | succ n => simp [climb, h]

/-- The rule of the walk: what every move carries along holds at the top. -/
theorem climb_rule (acc : α → β → β) {step : α → α → σ → Option σ} {rank : α → Nat}
    (hrank : ∀ x a, up x = some a → rank a < rank x) (P : α → β → σ → Prop)
    (hstep : ∀ x a e s, up x = some a → P x e s →
      ∃ s', step x a s = some s' ∧ P a (acc a e) s')
    {n : Nat} {x : α} {e : β} {s : σ} (hn : rank x ≤ n) (hx : P x e s) :
    ∃ y d s', climb up step n x s = some s' ∧ up y = none ∧ P y d s' := by
  induction n generalizing x e s with
  | zero =>
    have hu : up x = none := by
      cases h : up x with
      | none => rfl
      | some a =>
        have := hrank _ _ h
        omega
    exact ⟨x, e, s, by simp [climb, hu], hu, hx⟩
  | succ n ih =>
    cases h : up x with
    | none => exact ⟨x, e, s, by simp [climb, h], h, hx⟩
    | some a =>
      obtain ⟨s1, hs, ha⟩ := hstep x a e s h hx
      have hlt := hrank _ _ h
      obtain ⟨y, d, s2, hc, hy, hp⟩ := ih (by omega) ha
      exact ⟨y, d, s2, by simp [climb, h, hs, hc], hy, hp⟩

end Climb
