import Mathlib

/-! The cells of a heap that several owners share: an operation of one owner writes
to its own cells only, and takes only fresh ones besides. -/

namespace Own

variable {α : Type} {own own' other : List Nat} {h h' : List α}

/-- All cells are allocated. -/
def Valid (own : List Nat) (h : List α) : Prop := ∀ a ∈ own, a < h.length

/-- An operation of the owner of `own` has turned `h` into `h'`, and left it with `own'`. -/
structure Step (own : List Nat) (h : List α) (own' : List Nat) (h' : List α) : Prop where
  grows : h.length ≤ h'.length
  kept : ∀ a, a < h.length → a ∉ own → h'[a]? = h[a]?
  taken : ∀ a ∈ own', a ∈ own ∨ h.length ≤ a
  valid : Valid own h → Valid own' h'

theorem Step.refl (own : List Nat) (h : List α) : Step own h own h :=
  ⟨Nat.le_refl _, fun _ _ _ => rfl, fun _ ha => .inl ha, id⟩

theorem Step.trans {own'' : List Nat} {h'' : List α} (s : Step own h own' h')
    (t : Step own' h' own'' h'') : Step own h own'' h'' := by
  refine ⟨s.grows.trans t.grows, ?_, ?_, fun hv => t.valid (s.valid hv)⟩
  · intro a ha hn
    have hn' : a ∉ own' := by
      intro hm
      rcases s.taken a hm with hm | hle
      · exact hn hm
      · omega
    rw [t.kept a (Nat.lt_of_lt_of_le ha s.grows) hn', s.kept a ha hn]
  · intro a ha
    rcases t.taken a ha with ha | hle
    · exact s.taken a ha
    · exact .inr (s.grows.trans hle)

theorem Step.write {a : Nat} (ha : a ∈ own) (c : α) : Step own h own (h.set a c) := by
  refine ⟨by simp, ?_, fun _ hb => .inl hb, fun hv b hb => by simpa using hv b hb⟩
  intro b _ hn
  have hne : a ≠ b := fun he => hn (he ▸ ha)
  rw [List.getElem?_set_ne hne]

theorem Step.alloc (own : List Nat) (h : List α) (c : α) :
    Step own h (h.length :: own) (h ++ [c]) := by
  refine ⟨by simp, ?_, ?_, ?_⟩
  · intro a ha _
    rw [List.getElem?_append_left ha]
  · intro a ha
    rcases List.mem_cons.mp ha with rfl | ha
    · exact .inr (Nat.le_refl _)
    · exact .inl ha
  · intro hv a ha
    rw [List.length_append, List.length_singleton]
    rcases List.mem_cons.mp ha with rfl | ha
    · exact Nat.lt_succ_self _
    · exact Nat.lt_succ_of_lt (hv a ha)

theorem Step.drop (h : List α) (hs : ∀ a ∈ own', a ∈ own) : Step own h own' h :=
  ⟨Nat.le_refl _, fun _ _ _ => rfl, fun a ha => .inl (hs a ha), fun hv a ha => hv a (hs a ha)⟩

/-- What one owner does leaves the cells of another as they are, and apart. -/
theorem Step.frame (s : Step own h own' h') (hv : Valid other h) (hd : own.Disjoint other) :
    (∀ a ∈ other, h'[a]? = h[a]?) ∧ own'.Disjoint other ∧ Valid other h' := by
  refine ⟨?_, ?_, ?_⟩
  · intro a ha
    exact s.kept a (hv a ha) fun hm => hd hm ha
  · intro a ha hb
    rcases s.taken a ha with hm | hle
    · exact hd hm hb
    · exact absurd (hv a hb) (Nat.not_lt.mpr hle)
  · intro a ha
    exact Nat.lt_of_lt_of_le (hv a ha) s.grows

end Own
