import Encider.Lib.Ordered

/-! Regions of the information-flow summary, and the comparisons that order its maps and sets. -/

namespace Encider

open Ordered

/-- A region whose `int`s stand for themselves: a sum that is no `int` has no defined value. -/
structure FlowRegion where
  offset : Int
  size : Int
deriving DecidableEq, Repr

/-- A region reached from an object through some pointers. -/
structure InfoFlowRegion where
  index : Int
  regions : List FlowRegion
deriving DecidableEq, Repr

def FlowRegion.lt (r1 r2 : FlowRegion) : Bool :=
  if r1.offset < r2.offset then true
  else if r1.offset = r2.offset then decide (r1.size < r2.size)
  else false

def InfoFlowRegion.lt (ifr1 ifr2 : InfoFlowRegion) : Bool :=
  if ifr1.index < ifr2.index then true
  else if ifr1.index = ifr2.index then
    if ifr1.regions.length < ifr2.regions.length then true
    else if ifr1.regions.length > ifr2.regions.length then false
    else (ifr1.regions.zip ifr2.regions).any fun p => p.1.lt p.2
  else false

namespace FlowRegion

variable {a b c : FlowRegion}

theorem lt_iff : a.lt b = true ↔ a.offset < b.offset ∨ a.offset = b.offset ∧ a.size < b.size := by
  unfold lt
  split
  · rename_i h
    simp [h]
  · rename_i h
    split
    · rename_i heq
      simp [heq]
    · rename_i hne
      simp [h, hne]

theorem lt_eq_false_iff :
    a.lt b = false ↔ b.offset < a.offset ∨ a.offset = b.offset ∧ b.size ≤ a.size := by
  rw [← Bool.not_eq_true, lt_iff]
  omega

/-- `operator<` on regions compares the offsets first. -/
theorem linear (S : Set FlowRegion) : LinearOn lt S := by
  refine ⟨⟨?_, ?_, ?_, ?_⟩, ?_⟩
  · intro a _
    rw [lt_eq_false_iff]
    omega
  · intro a _ b _ h
    rw [lt_iff] at h
    rw [lt_eq_false_iff]
    omega
  · intro a _ b _ c _ h h'
    rw [lt_iff] at h h' ⊢
    omega
  · intro a _ b _ c _ h h'
    simp only [Equivalent, lt_eq_false_iff] at h h' ⊢
    omega
  · intro a _ b _ h
    simp only [Equivalent, lt_eq_false_iff] at h
    cases a
    cases b
    simp only [mk.injEq] at h ⊢
    omega

end FlowRegion

namespace InfoFlowRegion

/-- One has a smaller region at some place, and the other at another place. -/
structure Cross (a b : InfoFlowRegion) : Prop where
  index : a.index = b.index
  length : a.regions.length = b.regions.length
  smaller : ∃ p ∈ a.regions.zip b.regions, p.1.lt p.2 = true
  greater : ∃ p ∈ a.regions.zip b.regions, p.2.lt p.1 = true

variable {a b c : InfoFlowRegion}

/-- The regions of the first come before or are those of the second, place by place. -/
def Below (xs ys : List FlowRegion) : Prop := List.Forall₂ (fun x y => y.lt x = false) xs ys

theorem zip_any_iff {xs ys : List FlowRegion} :
    ((xs.zip ys).any fun p => p.1.lt p.2) = true ↔ ∃ p ∈ xs.zip ys, p.1.lt p.2 = true :=
  List.any_eq_true

theorem lt_iff : a.lt b = true ↔ a.index < b.index ∨ a.index = b.index ∧
    (a.regions.length < b.regions.length ∨ a.regions.length = b.regions.length ∧
      ∃ p ∈ a.regions.zip b.regions, p.1.lt p.2 = true) := by
  unfold lt
  split
  · rename_i h
    simp [h]
  · rename_i h
    split
    · rename_i heq
      split
      · rename_i hlt
        simp [heq, hlt]
      · rename_i hlt
        split
        · rename_i hgt
          have hne : a.regions.length ≠ b.regions.length := by omega
          simp [heq, hlt, hne]
        · rename_i hgt
          have hlen : a.regions.length = b.regions.length := by omega
          rw [zip_any_iff]
          simp [heq, hlen]
    · rename_i hne
      simp [h, hne]

theorem zip_swap {xs ys : List FlowRegion} {p : FlowRegion × FlowRegion} :
    p ∈ ys.zip xs ↔ p.swap ∈ xs.zip ys := by
  rw [← List.zip_swap, List.mem_map]
  constructor
  · intro h
    obtain ⟨q, hq, rfl⟩ := h
    exact hq
  · intro h
    exact ⟨p.swap, h, p.swap_swap⟩

theorem not_greater {xs ys : List FlowRegion} (hlen : xs.length = ys.length)
    (h : ¬ ∃ p ∈ ys.zip xs, p.1.lt p.2 = true) : Below xs ys := by
  refine List.forall₂_iff_zip.mpr ⟨hlen, ?_⟩
  intro x y hxy
  by_contra hlt
  exact h ⟨(y, x), zip_swap.mpr hxy, by simpa using hlt⟩

theorem Below.eq {xs ys : List FlowRegion} (h : Below xs ys) (h' : Below ys xs) : xs = ys := by
  induction h with
  | nil => rfl
  | cons hxy _ ih =>
    cases h' with
    | cons hyx h' =>
      rw [ih h', (FlowRegion.linear Set.univ).eq _ trivial _ trivial ⟨hyx, hxy⟩]

theorem Below.trans {xs ys zs : List FlowRegion} (h : Below xs ys) (h' : Below ys zs) :
    Below xs zs := by
  induction h generalizing zs with
  | nil => exact h'
  | cons hxy _ ih =>
    cases h' with
    | cons hyz h' =>
      refine .cons ?_ (ih h')
      rw [FlowRegion.lt_eq_false_iff] at hxy hyz ⊢
      omega

/-- Only equal lists are place by place below one another, so one that is above another is
greater somewhere. -/
theorem Below.lt_somewhere {xs ys : List FlowRegion} (h : Below xs ys) (hne : xs ≠ ys) :
    ∃ p ∈ xs.zip ys, p.1.lt p.2 = true := by
  by_contra hnone
  exact hne (h.eq (not_greater h.length_eq.symm hnone))

/-- The comparison of two that do not cross. -/
theorem lt_below (h : ¬ a.Cross b) : a.lt b = true ↔ a.index < b.index ∨ a.index = b.index ∧
    (a.regions.length < b.regions.length ∨ Below a.regions b.regions ∧ a.regions ≠ b.regions) := by
  rw [lt_iff]
  refine or_congr_right (and_congr_right fun hindex => or_congr_right ?_)
  constructor
  · intro hsmall
    obtain ⟨hlen, p, hp, hlt⟩ := hsmall
    refine ⟨not_greater hlen ?_, ?_⟩
    · intro hgreat
      obtain ⟨q, hq, hlt'⟩ := hgreat
      exact h ⟨hindex, hlen, ⟨p, hp, hlt⟩, ⟨q.swap, zip_swap.mp hq, hlt'⟩⟩
    · intro heq
      rw [heq] at hp
      have hself := (List.forall₂_iff_zip.mp (List.forall₂_same.mpr fun x _ => Eq.refl x)).2 hp
      rw [hself, (FlowRegion.linear Set.univ).irrefl _ trivial] at hlt
      contradiction
  · intro hbelow
    exact ⟨hbelow.1.length_eq, hbelow.1.lt_somewhere hbelow.2⟩

theorem not_lt_eq (h : a.lt b = false) (h' : b.lt a = false) : a = b := by
  rw [← Bool.not_eq_true, lt_iff] at h h'
  push Not at h h'
  have hindex : a.index = b.index := by omega
  have hlen : a.regions.length = b.regions.length := by
    have := (h.2 hindex).1
    have := (h'.2 hindex.symm).1
    omega
  have hbelow : Below a.regions b.regions := by
    apply not_greater hlen
    intro hgreat
    obtain ⟨p, hp, hlt⟩ := hgreat
    exact (h'.2 hindex.symm).2 hlen.symm p hp hlt
  have hbelow' : Below b.regions a.regions := by
    apply not_greater hlen.symm
    intro hgreat
    obtain ⟨p, hp, hlt⟩ := hgreat
    exact (h.2 hindex).2 hlen p hp hlt
  cases a
  cases b
  cases hindex
  cases hbelow.eq hbelow'
  rfl

/-- Two regions that cross come each before the other. -/
theorem Cross.lt_both (h : a.Cross b) : a.lt b = true ∧ b.lt a = true := by
  obtain ⟨p, hp, hlt⟩ := h.greater
  refine ⟨lt_iff.mpr (.inr ⟨h.index, .inr ⟨h.length, h.smaller⟩⟩), ?_⟩
  exact lt_iff.mpr (.inr ⟨h.index.symm, .inr ⟨h.length.symm, p.swap, zip_swap.mpr hp, hlt⟩⟩)

/-- `operator<` orders regions of which no two cross, and no others. -/
theorem linear_iff (S : Set InfoFlowRegion) :
    LinearOn lt S ↔ ∀ a ∈ S, ∀ b ∈ S, ¬ a.Cross b := by
  constructor
  · intro h a ha b hb hcross
    obtain ⟨hlt, hgt⟩ := hcross.lt_both
    rw [h.asymm a ha b hb hlt] at hgt
    contradiction
  · intro h
    have hirrefl : ∀ a ∈ S, a.lt a = false := by
      intro a ha
      rw [← Bool.not_eq_true, lt_below (h a ha a ha)]
      simp
    refine ⟨⟨hirrefl, ?_, ?_, ?_⟩, fun a _ b _ hab => not_lt_eq hab.1 hab.2⟩
    · intro a ha b hb hlt
      rw [lt_below (h a ha b hb)] at hlt
      rw [← Bool.not_eq_true, lt_below (h b hb a ha)]
      intro hgt
      rcases hlt with hlt | ⟨_, hlt | ⟨hbelow, hne⟩⟩
      · omega
      · rcases hgt with hgt | ⟨_, hgt | ⟨hbelow', _⟩⟩
        · omega
        · omega
        · have := hbelow'.length_eq
          omega
      · rcases hgt with hgt | ⟨_, hgt | ⟨hbelow', _⟩⟩
        · omega
        · have := hbelow.length_eq
          omega
        · exact hne (hbelow.eq hbelow')
    · intro a ha b hb c hc hlt hlt'
      rw [lt_below (h a ha b hb)] at hlt
      rw [lt_below (h b hb c hc)] at hlt'
      rw [lt_below (h a ha c hc)]
      rcases hlt with hlt | ⟨hindex, hlt⟩
      · exact .inl (by omega)
      · rcases hlt' with hlt' | ⟨hindex', hlt'⟩
        · exact .inl (by omega)
        · refine .inr ⟨hindex.trans hindex', ?_⟩
          rcases hlt with hlt | ⟨hbelow, hne⟩
          · rcases hlt' with hlt' | ⟨hbelow', _⟩
            · exact .inl (by omega)
            · exact .inl (hbelow'.length_eq ▸ hlt)
          · rcases hlt' with hlt' | ⟨hbelow', hne'⟩
            · exact .inl (hbelow.length_eq ▸ hlt')
            · refine .inr ⟨hbelow.trans hbelow', ?_⟩
              intro heq
              rw [heq] at hbelow
              exact hne' (hbelow'.eq hbelow)
    · intro a _ b _ c _ hab hbc
      obtain rfl := not_lt_eq hab.1 hab.2
      exact hbc

end InfoFlowRegion

end Encider
