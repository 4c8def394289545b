import Mathlib

/-! A set cut into pieces by one test after another. -/

/-- The sets of `l` are disjoint, and `A` is their union. -/
structure Parts {α : Type} (A : Set α) (l : List (Set α)) : Prop where
  apart : l.Pairwise Disjoint
  covers : ∀ a, a ∈ A ↔ ∃ p ∈ l, a ∈ p

namespace Parts

variable {α : Type} {A C : Set α} {l m : List (Set α)}

theorem single (A : Set α) : Parts A [A] := by
  refine ⟨List.pairwise_singleton _ _, ?_⟩
  intro a
  simp

theorem empty : Parts (∅ : Set α) [] := by
  refine ⟨.nil, ?_⟩
  intro a
  simp

theorem subset (h : Parts A l) {p : Set α} (hp : p ∈ l) : p ⊆ A := by
  intro a ha
  exact (h.covers a).mpr ⟨p, hp, ha⟩

/-- The two sides of a test, cut further. -/
theorem append (hin : Parts (A ∩ C) l) (hout : Parts (A \ C) m) : Parts A (l ++ m) := by
  refine ⟨?_, ?_⟩
  · rw [List.pairwise_append]
    refine ⟨hin.apart, hout.apart, ?_⟩
    intro p hp q hq
    rw [Set.disjoint_left]
    intro a hap haq
    exact (hout.subset hq haq).2 (hin.subset hp hap).2
  · intro a
    simp only [List.mem_append]
    constructor
    · intro ha
      by_cases hc : a ∈ C
      · obtain ⟨p, hp, hap⟩ := (hin.covers a).mp ⟨ha, hc⟩
        exact ⟨p, .inl hp, hap⟩
      · obtain ⟨p, hp, hap⟩ := (hout.covers a).mp ⟨ha, hc⟩
        exact ⟨p, .inr hp, hap⟩
    · intro ha
      obtain ⟨p, hp | hp, hap⟩ := ha
      · exact (hin.subset hp hap).1
      · exact (hout.subset hp hap).1

/-- One side of a test is a piece of its own. -/
theorem cons (h : Parts (A \ C) l) : Parts A ((A ∩ C) :: l) :=
  append (single (A ∩ C)) h

/-- The pieces behind the first one cut what that leaves. -/
theorem tail {p : Set α} (h : Parts A (p :: l)) : Parts (A \ p) l := by
  obtain ⟨hp, hl⟩ := List.pairwise_cons.mp h.apart
  refine ⟨hl, ?_⟩
  intro a
  constructor
  · intro ha
    obtain ⟨q, hq, haq⟩ := (h.covers a).mp ha.1
    rcases List.mem_cons.mp hq with rfl | hq
    · exact absurd haq ha.2
    · exact ⟨q, hq, haq⟩
  · intro ha
    obtain ⟨q, hq, haq⟩ := ha
    refine ⟨(h.covers a).mpr ⟨q, List.mem_cons_of_mem p hq, haq⟩, ?_⟩
    exact Set.disjoint_right.mp (hp q hq) haq

theorem cons_of_subset {p : Set α} (hp : p ⊆ A) (h : Parts (A \ p) l) : Parts A (p :: l) := by
  have hcons := cons h
  rwa [Set.inter_eq_self_of_subset_right hp] at hcons

/-- An element is in one piece only. -/
theorem eq_of_mem (h : Parts A l) {i j : Nat} {p q : Set α} (hi : l[i]? = some p)
    (hj : l[j]? = some q) {a : α} (hp : a ∈ p) (hq : a ∈ q) : i = j := by
  have hapart := List.pairwise_iff_getElem.mp h.apart
  obtain ⟨hil, rfl⟩ := List.getElem?_eq_some_iff.mp hi
  obtain ⟨hjl, rfl⟩ := List.getElem?_eq_some_iff.mp hj
  rcases Nat.lt_trichotomy i j with hlt | heq | hlt
  · exact absurd hq (Set.disjoint_left.mp (hapart i j hil hjl hlt) hp)
  · exact heq
  · exact absurd hp (Set.disjoint_left.mp (hapart j i hjl hil hlt) hq)

/-- A set cut along the pieces of another one. -/
theorem inter (h : Parts C l) (A : Set α) : Parts (A ∩ C) (l.map fun p => A ∩ p) := by
  refine ⟨?_, ?_⟩
  · rw [List.pairwise_map]
    refine h.apart.imp ?_
    intro p q hpq
    exact hpq.mono Set.inter_subset_right Set.inter_subset_right
  · intro a
    rw [Set.mem_inter_iff, h.covers a]
    constructor
    · intro ha
      obtain ⟨ha, p, hp, hap⟩ := ha
      exact ⟨A ∩ p, List.mem_map_of_mem hp, ha, hap⟩
    · intro ha
      obtain ⟨q, hq, haq⟩ := ha
      obtain ⟨p, hp, rfl⟩ := List.mem_map.mp hq
      exact ⟨haq.1, p, hp, haq.2⟩

end Parts
