import Mathlib

/-! Computations with a state that may fail, and an invariant of the state. -/

namespace Encider.Guarded

variable {σ α β γ : Type}

/-- The computation keeps the invariant, if it returns. -/
def Keeps (I : σ → Prop) (m : StateT σ Option α) : Prop :=
  ∀ ⦃s a s'⦄, I s → m s = some (a, s') → I s'

/-- From a state of the invariant the computation returns this result, and keeps the invariant. -/
def Yields (I : σ → Prop) (m : StateT σ Option α) (a : α) : Prop :=
  ∀ ⦃s⦄, I s → ∃ s', m s = some (a, s') ∧ I s'

section
variable {I : σ → Prop} {m : StateT σ Option α} {f : α → StateT σ Option β} {a : α} {b : β}

theorem bind_some {s : σ} {r : β × σ} :
    (m >>= f) s = some r ↔ ∃ a s', m s = some (a, s') ∧ f a s' = some r := by
  change ((m s).bind fun p => f p.1 p.2) = some r ↔ _
  rw [Option.bind_eq_some_iff]
  exact ⟨fun ⟨p, hp, hr⟩ => ⟨p.1, p.2, hp, hr⟩, fun ⟨a, s', hm, hf⟩ => ⟨(a, s'), hm, hf⟩⟩

theorem Keeps.pure (a : α) : Keeps I (pure a) := by
  intro s b s' hs h
  cases h
  exact hs

theorem Keeps.bind (hm : Keeps I m) (hf : ∀ a, Keeps I (f a)) : Keeps I (m >>= f) := by
  intro s b s' hs h
  obtain ⟨a, s₁, hm₁, hf₁⟩ := bind_some.mp h
  exact hf a (hm hs hm₁) hf₁

theorem Keeps.lift (o : Option α) : Keeps I (StateT.lift o) := by
  intro s b s' hs h
  obtain ⟨a, -, hp⟩ := Option.bind_eq_some_iff.mp h
  cases hp
  exact hs

theorem Keeps.ite {c : Prop} [Decidable c] {n : StateT σ Option α} (hm : Keeps I m)
    (hn : Keeps I n) : Keeps I (if c then m else n) := by
  split
  · exact hm
  · exact hn

theorem Yields.pure (a : α) : Yields I (pure a) a := fun s hs => ⟨s, rfl, hs⟩

theorem Yields.bind (hm : Yields I m a) (hf : Yields I (f a) b) : Yields I (m >>= f) b := by
  intro s hs
  obtain ⟨s₁, hm₁, hs₁⟩ := hm hs
  obtain ⟨s₂, hf₂, hs₂⟩ := hf hs₁
  exact ⟨s₂, bind_some.mpr ⟨a, s₁, hm₁, hf₂⟩, hs₂⟩

theorem Yields.lift {o : Option α} (h : o = some a) : Yields I (StateT.lift o) a := by
  subst h
  exact fun s hs => ⟨s, rfl, hs⟩

/-- Computations one after the other. -/
def inTurn : List (StateT σ Option α) → StateT σ Option (List α)
  | [] => Pure.pure []
  | m :: ms => do
    let a ← m
    let as ← inTurn ms
    Pure.pure (a :: as)

theorem Keeps.inTurn {ms : List (StateT σ Option α)} (h : ∀ m ∈ ms, Keeps I m) :
    Keeps I (inTurn ms) := by
  induction ms with
  | nil => exact .pure _
  | cons m ms ih =>
    rw [List.forall_mem_cons] at h
    exact .bind h.1 fun _ => .bind (ih h.2) fun _ => .pure _

theorem Yields.inTurn {ms : List (StateT σ Option α)} {as : List α}
    (h : List.Forall₂ (Yields I) ms as) : Yields I (inTurn ms) as := by
  induction h with
  | nil => exact .pure _
  | cons h _ ih => exact .bind h (.bind ih (.pure _))

end

/-- From a state of the invariant the computation keeps the invariant, and what it returns has the
property. -/
def Returns (I : σ → Prop) (P : α → Prop) (m : StateT σ Option α) : Prop :=
  ∀ ⦃s a s'⦄, I s → m s = some (a, s') → I s' ∧ P a

section
variable {I : σ → Prop} {P P' : α → Prop} {Q : β → Prop} {m n : StateT σ Option α}
  {f : α → StateT σ Option β}

theorem Returns.mono (h : Returns I P m) (hP : ∀ a, P a → P' a) : Returns I P' m := by
  intro s a s' hs hm
  obtain ⟨hs', ha⟩ := h hs hm
  exact ⟨hs', hP a ha⟩

theorem Returns.pure {a : α} (h : P a) : Returns I P (Pure.pure a) := by
  intro s b s' hs hm
  cases hm
  exact ⟨hs, h⟩

theorem Returns.bind (hm : Returns I P m) (hf : ∀ a, P a → Returns I Q (f a)) :
    Returns I Q (m >>= f) := by
  intro s b s' hs h
  obtain ⟨a, s₁, hm₁, hf₁⟩ := bind_some.mp h
  obtain ⟨hs₁, ha⟩ := hm hs hm₁
  exact hf a ha hs₁ hf₁

theorem Returns.lift {o : Option α} (h : ∀ a, o = some a → P a) : Returns I P (StateT.lift o) := by
  intro s b s' hs hm
  obtain ⟨a, ha, hp⟩ := Option.bind_eq_some_iff.mp hm
  cases hp
  exact ⟨hs, h _ ha⟩

theorem Returns.failure : Returns I P (failure : StateT σ Option α) := by
  intro s b s' _ hm
  cases hm

theorem Returns.ite {c : Prop} [Decidable c] (hm : c → Returns I P m) (hn : ¬ c → Returns I P n) :
    Returns I P (if c then m else n) := by
  split
  · exact hm ‹_›
  · exact hn ‹_›

/-- Each of the computations returns what is said of it. -/
theorem Returns.inTurn {R : γ → α → Prop} {xs : List γ} {ms : List (StateT σ Option α)}
    (h : List.Forall₂ (fun x m => Returns I (R x) m) xs ms) :
    Returns I (List.Forall₂ R xs) (inTurn ms) := by
  induction h with
  | nil => exact .pure .nil
  | cons h _ ih => exact .bind h fun a ha => .bind ih fun as has => .pure (.cons ha has)

/-- From a state of the invariant the computation returns. -/
def Runs (I : σ → Prop) (m : StateT σ Option α) : Prop := ∀ ⦃s⦄, I s → ∃ r, m s = some r

theorem Runs.pure (a : α) : Runs I (Pure.pure a) := fun s _ => ⟨(a, s), rfl⟩

theorem Runs.bind (hm : Runs I m) (hP : Returns I P m) (hf : ∀ a, P a → Runs I (f a)) :
    Runs I (m >>= f) := by
  intro s hs
  obtain ⟨⟨a, s₁⟩, hm₁⟩ := hm hs
  obtain ⟨hs₁, ha⟩ := hP hs hm₁
  obtain ⟨r, hf₁⟩ := hf a ha hs₁
  exact ⟨r, bind_some.mpr ⟨a, s₁, hm₁, hf₁⟩⟩

theorem Runs.lift {o : Option α} (h : o.isSome) : Runs I (StateT.lift o) := by
  obtain ⟨a, rfl⟩ := Option.isSome_iff_exists.mp h
  exact fun s _ => ⟨(a, s), rfl⟩

theorem Runs.ite {c : Prop} [Decidable c] (hm : c → Runs I m) (hn : ¬ c → Runs I n) :
    Runs I (if c then m else n) := by
  split
  · exact hm ‹_›
  · exact hn ‹_›

theorem Runs.inTurn {ms : List (StateT σ Option α)}
    (h : ∀ m ∈ ms, Runs I m ∧ ∃ P, Returns I P m) : Runs I (inTurn ms) := by
  induction ms with
  | nil => exact .pure _
  | cons m ms ih =>
    rw [List.forall_mem_cons] at h
    obtain ⟨⟨hm, P, hP⟩, hms⟩ := h
    have hrest : Returns I (fun _ => True) (Guarded.inTurn ms) := by
      clear ih
      induction ms with
      | nil => exact .pure trivial
      | cons m' ms ih =>
        rw [List.forall_mem_cons] at hms
        obtain ⟨⟨-, P', hP'⟩, hms⟩ := hms
        exact .bind hP' fun _ _ => .bind (ih hms) fun _ _ => .pure trivial
    exact .bind hm hP fun _ _ => .bind (ih hms) hrest fun _ _ => .pure _

end

/-- From this state, if it is of the invariant, the computation returns. It keeps the invariant,
only extends the state, and what it returns has the property in the new state. -/
def Advances (I : σ → Prop) (E : σ → σ → Prop) (s : σ) (m : StateT σ Option α)
    (Q : σ → α → Prop) : Prop :=
  I s → ∃ a s', m s = some (a, s') ∧ I s' ∧ E s s' ∧ Q s' a

section
variable {I : σ → Prop} {E : σ → σ → Prop} {s : σ} {Q Q' : σ → α → Prop}
  {R : σ → β → Prop} {m : StateT σ Option α} {f : α → StateT σ Option β}

theorem Advances.lift {o : Option α} {P : α → Prop} (h : ∃ a, o = some a ∧ P a)
    (hf : ∀ a, P a → Advances I E s (f a) R) : Advances I E s (StateT.lift o >>= f) R := by
  intro hs
  obtain ⟨a, rfl, ha⟩ := h
  obtain ⟨b, s', hf', hs', he, hb⟩ := hf a ha hs
  exact ⟨b, s', bind_some.mpr ⟨a, s, rfl, hf'⟩, hs', he, hb⟩

theorem Advances.imp (hm : Advances I E s m Q) (h : ∀ s' a, Q s' a → Q' s' a) :
    Advances I E s m Q' := by
  intro hs
  obtain ⟨a, s', hm', hs', he, ha⟩ := hm hs
  exact ⟨a, s', hm', hs', he, h s' a ha⟩

/-- For all invariants of a family at once. -/
theorem Advances.all {ι : Type*} [Nonempty ι] {I : ι → σ → Prop} {Q : ι → σ → α → Prop}
    (h : ∀ i, Advances (I i) E s m (Q i)) :
    Advances (fun s => ∀ i, I i s) E s m fun s' a => ∀ i, Q i s' a := by
  intro hs
  obtain ⟨a, s', hm, -, he, -⟩ := h (Classical.arbitrary ι) (hs _)
  have hall : ∀ i, I i s' ∧ Q i s' a := by
    intro i
    obtain ⟨b, t, hm', hI, -, hQ⟩ := h i (hs i)
    rw [hm] at hm'
    cases hm'
    exact ⟨hI, hQ⟩
  exact ⟨a, s', hm, fun i => (hall i).1, he, fun i => (hall i).2⟩

variable [IsPreorder σ E]

theorem Advances.pure {a : α} (h : Q s a) : Advances I E s (Pure.pure a) Q :=
  fun hs => ⟨a, s, rfl, hs, refl_of E s, h⟩

theorem Advances.bind (hm : Advances I E s m Q)
    (hf : ∀ s' a, E s s' → Q s' a → Advances I E s' (f a) R) : Advances I E s (m >>= f) R := by
  intro hs
  obtain ⟨a, s₁, hm₁, hs₁, he₁, ha⟩ := hm hs
  obtain ⟨b, s₂, hf₂, hs₂, he₂, hb⟩ := hf s₁ a he₁ ha hs₁
  exact ⟨b, s₂, bind_some.mpr ⟨a, s₁, hm₁, hf₂⟩, hs₂, trans_of E he₁ he₂, hb⟩

/-- What is returned for every element of a list, where no extension of the state undoes it. -/
theorem Advances.inTurn {xs : List γ} {m : γ → StateT σ Option α} {R : σ → γ → α → Prop}
    (hmono : ∀ {s s' x a}, E s s' → R s x a → R s' x a)
    (h : ∀ x ∈ xs, ∀ s', E s s' → Advances I E s' (m x) fun s'' => R s'' x) :
    Advances I E s (Guarded.inTurn (xs.map m)) fun s' => List.Forall₂ (R s') xs := by
  induction xs generalizing s with
  | nil => exact .pure .nil
  | cons x xs ih =>
    rw [List.forall_mem_cons] at h
    refine (h.1 s (refl_of E s)).bind fun s₁ a he₁ ha => ?_
    refine (ih fun y hy s' he => h.2 y hy s' (trans_of E he₁ he)).bind fun s₂ as he₂ has => ?_
    exact .pure (.cons (hmono he₂ ha) has)

end

end Encider.Guarded
