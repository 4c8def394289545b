import Encider.Exec.Branch

/-! A fork as a division of the assignments that a state admits. -/

namespace Encider

/-- The assignments that a state admits. -/
def PathState.models (s : PathState) : Set Assignment := {σ | s.Admits σ}

/-- Those of a successor that need not exist. -/
def PathState.modelsOf (o : Option PathState) : Set Assignment := o.elim ∅ PathState.models

theorem PathState.models_cons {s : PathState} (c : Constraint) (d : Nat) (l : Option Constraint) :
    PathState.models { s with depth := d, constraints := c :: s.constraints, lastCondition := l } =
      s.models ∩ {σ | c.Holds σ} := by
  ext σ
  unfold PathState.models PathState.Admits
  simp only [List.forall_mem_cons, Set.mem_ofPred_eq, Set.mem_inter_iff, and_comm]

/-- The successors `t` and `f` of a state divide its assignments by a condition. -/
structure PathState.Divides (s : PathState) (c : Constraint) (t f : Option PathState) : Prop where
  first : modelsOf t = s.models ∩ {σ | c.Holds σ}
  second : modelsOf f = s.models \ {σ | c.Holds σ}
  alive : s.models.Nonempty → ∀ u, t = some u ∨ f = some u → u.models.Nonempty

/-- A fork that nothing inhibits divides the assignments by the condition. -/
theorem fork_divides {S : Solver} {o : ForkOptions} (hs : o.skipFork = none) (hd : o.maxDepth = 0)
    (s : PathState) (c : Constraint) (forBranch : Bool) :
    ∃ t f, fork S o s c forBranch = some (t, f) ∧ s.Divides c t f := by
  cases he : S.evaluate s.constraints c with
  | valid =>
    have hall : s.models ⊆ {σ | c.Holds σ} := Solver.evaluate_valid.mp he
    refine ⟨some s, none, by rw [fork, he], ?_, ?_, ?_⟩
    · exact (Set.inter_eq_left.mpr hall).symm
    · exact (Set.sdiff_eq_empty.mpr hall).symm
    · intro hs u hu
      rcases hu with hu | hu
      · cases hu
        exact hs
      · cases hu
  | invalid =>
    have hnone : Disjoint s.models {σ | c.Holds σ} :=
      Set.disjoint_left.mpr fun σ hσ => Solver.evaluate_invalid he σ hσ
    refine ⟨none, some s, by rw [fork, he], ?_, ?_, ?_⟩
    · exact hnone.inter_eq.symm
    · exact hnone.sdiff_eq_left.symm
    · intro hs u hu
      rcases hu with hu | hu
      · cases hu
      · cases hu
        exact hs
  | unknown =>
    obtain ⟨hc, hz⟩ := Solver.not_constant_of_unknown he
    obtain ⟨⟨σ, hσ, hin⟩, τ, hτ, hout⟩ := Solver.evaluate_unknown.mp he
    let t := { s with
      depth := s.depth + 1
      constraints := c :: s.constraints
      lastCondition := if forBranch then some c else s.lastCondition }
    let f := { s with
      depth := s.depth + 1
      constraints := c.isZero :: s.constraints
      lastCondition := if forBranch then some c.isZero else s.lastCondition }
    have ht : t.models = s.models ∩ {σ | c.Holds σ} := PathState.models_cons c _ _
    have hf : f.models = s.models \ {σ | c.Holds σ} := by
      refine (PathState.models_cons c.isZero _ _).trans ?_
      ext σ
      simp
    refine ⟨some t, some f, ?_, ht, hf, ?_⟩
    · simp only [fork, he, hs, hd, PathState.copy_eq, PathState.addConstraint_nonconstant _ _ hc,
        PathState.addConstraint_nonconstant _ _ hz, Option.bind_some, Option.map_some, ne_eq,
        not_true_eq_false, false_and, if_false]
      rfl
    · intro _ u hu
      rcases hu with hu | hu
      · cases hu
        exact ht ▸ ⟨σ, hσ, hin⟩
      · cases hu
        exact hf ▸ ⟨τ, hτ, hout⟩

/-- A condition on what `f` gives divides the images. -/
theorem PathState.Divides.image {β : Type} {f : Assignment → β} {C : Set β} {s : PathState}
    {c : Constraint} {t u : Option PathState} (h : s.Divides c t u)
    (hc : ∀ σ, c.Holds σ ↔ f σ ∈ C) :
    f '' modelsOf t = f '' s.models ∩ C ∧ f '' modelsOf u = f '' s.models \ C := by
  have hpre : {σ | c.Holds σ} = Set.preimage f C := by
    ext σ
    exact hc σ
  rw [h.first, h.second, hpre]
  exact ⟨Set.image_inter_preimage f _ C, Set.image_sdiff_preimage⟩

end Encider
