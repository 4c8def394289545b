import Encider.Exec.Branch

namespace Encider

/-- The fork at the branch has both successors. -/
def ForksTwoWay (S : Solver) (o : ForkOptions) (state : PathState) (cond : Constraint) : Prop :=
  ∃ f s, fork S o state cond true = some (some f, some s)

/-- The recorded condition of a state follows from the constraints of its path. -/
def PathState.RecordsItsPath (s : PathState) : Prop :=
  ∃ c, s.lastCondition = some c ∧ ∀ σ, s.Admits σ → c.Holds σ

/-- Each successor that goes on records a condition that its path implies, and no
assignment satisfies the conditions of both. -/
structure LastConditionsApart (r : BrResult) : Prop where
  implied : ∀ side s, r.Survives side s → s.RecordsItsPath
  apart : ∀ f s c d, r.Survives true f → r.Survives false s → f.lastCondition = some c →
    s.lastCondition = some d → ∀ σ, ¬ (c.Holds σ ∧ d.Holds σ)

/-- The Br case leaves the condition that the fork recorded for the false successor:
no bound applies there, the false successor is cut, or the true successor is cut
without `HandleSingleSuccessors`. -/
def KeepsFalseCondition (o : ForkOptions) (excluded : String → Bool) (site : BranchSite)
    (state : PathState) : Prop :=
  site.Bounded o excluded →
    o.loopBound < state.getForkFreq site.key false + 1 ∨
      (o.loopBound < state.getForkFreq site.key true + 1 ∧ o.handleSingleSuccessors = false)

section

variable {S : Solver} {o : ForkOptions} {state f s : PathState} {cond : Constraint}

/-- The false successor has an assignment on which the condition fails, so it
cannot record the condition itself. -/
theorem forked_false_not_records (hu : S.evaluate state.constraints cond = .unknown)
    (h : (f, s) = forked state cond) :
    ¬ PathState.RecordsItsPath { s with lastCondition := some cond } := by
  cases h
  intro hr
  obtain ⟨c, hc, himp⟩ := hr
  cases hc
  obtain ⟨-, σ, hσ, hn⟩ := Solver.evaluate_unknown.mp hu
  refine hn (himp σ ?_)
  intro d hd
  rcases List.mem_cons.mp hd with rfl | hd
  · exact (cond.isZero_holds σ).mpr hn
  · exact hσ d hd

/-- Successors that keep the constraints and the conditions of the fork are told apart. -/
theorem apart_of_kept (h : (f, s) = forked state cond) {r : BrResult}
    (hfirst : ∀ f', r.Survives true f' →
      f'.constraints = f.constraints ∧ f'.lastCondition = f.lastCondition)
    (hsecond : ∀ s', r.Survives false s' →
      s'.constraints = s.constraints ∧ s'.lastCondition = s.lastCondition) :
    LastConditionsApart r := by
  cases h
  constructor
  · intro side t ht
    cases side with
    | true =>
      obtain ⟨hcs, hl⟩ := hfirst t ht
      refine ⟨cond, hl, fun σ hσ => hσ cond ?_⟩
      rw [hcs]
      exact List.mem_cons_self
    | false =>
      obtain ⟨hcs, hl⟩ := hsecond t ht
      refine ⟨cond.isZero, hl, fun σ hσ => hσ cond.isZero ?_⟩
      rw [hcs]
      exact List.mem_cons_self
  · intro f' s' c d hf' hs' hc hd σ hσ
    have hcl := hc.symm.trans (hfirst f' hf').2
    have hdl := hd.symm.trans (hsecond s' hs').2
    cases hcl
    cases hdl
    exact (cond.isZero_holds σ).mp hσ.2 hσ.1

end

/-- What the bound leaves of the conditions that the fork recorded. -/
theorem boundedBoth_apart_iff {o : ForkOptions} {S : Solver} {key : String} {cond : Constraint}
    {state f s : PathState} (hu : S.evaluate state.constraints cond = .unknown)
    (h : (f, s) = forked state cond) :
    LastConditionsApart
        (boundedBoth o key cond ((f.addForkFreq key true).addForkFreq key false) s) ↔
      o.loopBound < state.getForkFreq key false + 1 ∨
        (o.loopBound < state.getForkFreq key true + 1 ∧ o.handleSingleSuccessors = false) := by
  have hcond : f.lastCondition = some cond := by
    cases h
    rfl
  have hcount : ∀ side, f.getForkFreq key side = state.getForkFreq key side := by
    intro side
    cases h
    rfl
  have hbad : ∀ r : BrResult, r.Survives false { s with lastCondition := some cond } →
      ¬ LastConditionsApart r := fun r hr ha =>
    forked_false_not_records hu h (ha.implied false _ hr)
  unfold boundedBoth
  simp only [PathState.getForkFreq_addForkFreq, hcount, and_self, and_false, reduceCtorEq,
    ↓reduceIte, add_zero, gt_iff_lt]
  by_cases hfc : o.loopBound < state.getForkFreq key false + 1
  · by_cases htc : o.loopBound < state.getForkFreq key true + 1
    · simp only [hfc, htc, and_self, ↓reduceIte, true_or, iff_true]
      refine apart_of_kept h ?_ ?_
      · intro f' hsurv
        obtain ⟨c, hc, ht, -⟩ := hsurv
        cases hc
        cases ht
      · intro s' hsurv
        obtain ⟨c, hc, -, rfl⟩ := hsurv
        cases hc
        exact ⟨rfl, rfl⟩
    · simp only [hfc, htc, and_false, ↓reduceIte, true_or, iff_true]
      refine apart_of_kept h ?_ ?_
      · intro f' hsurv
        obtain ⟨c, hc, -, rfl⟩ := hsurv
        cases hc
        cases o.handleSingleSuccessors <;> simp [hcond]
      · intro s' hsurv
        obtain ⟨c, hc, ht, -⟩ := hsurv
        cases hc
        cases ht
  · by_cases htc : o.loopBound < state.getForkFreq key true + 1
    · simp only [hfc, htc, false_and, ↓reduceIte, false_or, true_and]
      cases hh : o.handleSingleSuccessors with
      | true =>
        simp only [reduceCtorEq, iff_false]
        exact hbad _ ⟨_, rfl, rfl, rfl⟩
      | false =>
        simp only [iff_true]
        refine apart_of_kept h ?_ ?_
        · intro f' hsurv
          obtain ⟨c, hc, ht, -⟩ := hsurv
          cases hc
          cases ht
        · intro s' hsurv
          obtain ⟨c, hc, -, rfl⟩ := hsurv
          cases hc
          exact ⟨rfl, rfl⟩
    · simp only [hfc, htc, false_and, and_false, ↓reduceIte, or_self, iff_false]
      exact hbad _ ⟨_, rfl, rfl, rfl⟩

/-- At a two-way fork the recorded conditions of the successors follow from their
paths and exclude each other if and only if the condition of the false one is kept. -/
theorem lastConditions_apart_iff (S : Solver) (o : ForkOptions) (excluded : String → Bool)
    (site : BranchSite) (state : PathState) (cond : Constraint) (h : ForksTwoWay S o state cond) :
    (∃ r, executeBr S o excluded site state cond = some r ∧ LastConditionsApart r) ↔
      KeepsFalseCondition o excluded site state := by
  obtain ⟨f, s, hfork⟩ := h
  obtain ⟨hu, hf⟩ := fork_two_way hfork
  rw [executeBr_two_way hfork]
  simp only [Option.some.injEq, exists_eq_left']
  by_cases hb : site.Bounded o excluded
  · rw [if_pos hb, boundedBoth_apart_iff hu hf]
    exact ⟨fun hk _ => hk, fun hk => hk hb⟩
  · rw [if_neg hb]
    refine iff_of_true (apart_of_kept hf ?_ ?_) fun hb' => absurd hb' hb
    · intro f' hsurv
      obtain ⟨c, hc, -, rfl⟩ := hsurv
      cases hc
      exact ⟨rfl, rfl⟩
    · intro s' hsurv
      obtain ⟨c, hc, -, rfl⟩ := hsurv
      cases hc
      exact ⟨rfl, rfl⟩

/-- The lowest bit of a byte of the input. -/
def inputBit (i : Nat) : Constraint :=
  ⟨.extract (.read { name := "input", size := 2 ^ 32 } .nil (Expr.const i 32)) 0 1,
    ⟨⟨trivial, trivial, rfl⟩, Nat.one_pos, by simp [Expr.getWidth]⟩, rfl⟩

/-- The input in which every byte is `b`. -/
def uniform (b : Bool) : Assignment := fun _ _ => BitVec.ofNat _ b.toNat

theorem inputBit_uniform (i : Nat) (b : Bool) : (inputBit i).Holds (uniform b) ↔ b = true := by
  cases b <;> simp [inputBit, Constraint.Holds, Expr.Holds, Expr.value, UpdateList.contents,
    Array.initial, uniform]

theorem inputBit_unknown (S : Solver) (i : Nat) : S.evaluate [] (inputBit i) = .unknown := by
  refine Solver.evaluate_unknown.mpr ⟨⟨uniform true, by simp, ?_⟩, uniform false, by simp, ?_⟩
  · exact (inputBit_uniform i true).mpr rfl
  · intro h
    exact absurd ((inputBit_uniform i false).mp h) (by decide)

/-- A branch in a function that is called once. -/
def loopHead : BranchSite where
  context := "main"
  location := "loop.c:1"

/-- At its first execution under a loop bound both successors record the condition. -/
theorem firstFork_conditions_equal :
    ForksTwoWay Solver.ideal { loopBound := 1 } {} (inputBit 0) ∧
      ¬ ∃ r, executeBr Solver.ideal { loopBound := 1 } (fun _ => false) loopHead {} (inputBit 0) =
        some r ∧ LastConditionsApart r := by
  have hu := inputBit_unknown Solver.ideal 0
  have hfork : fork Solver.ideal { loopBound := 1 } {} (inputBit 0) true =
      some (some (forked {} (inputBit 0)).1, some (forked {} (inputBit 0)).2) :=
    fork_unknown hu rfl (.inl rfl)
  refine ⟨⟨_, _, hfork⟩, ?_⟩
  intro h
  obtain ⟨r, hr, ha⟩ := h
  rw [executeBr_two_way hfork, if_pos (by decide)] at hr
  cases hr
  have hcount := (boundedBoth_apart_iff hu rfl).mp ha
  exact absurd hcount (by decide)

/-- Without a loop bound the conditions are those of the fork. -/
theorem firstFork_conditions_apart :
    ∃ r, executeBr Solver.ideal {} (fun _ => false) loopHead {} (inputBit 0) = some r ∧
      LastConditionsApart r :=
  (lastConditions_apart_iff Solver.ideal {} (fun _ => false) loopHead {} (inputBit 0)
    ⟨_, _, fork_unknown (inputBit_unknown Solver.ideal 0) rfl (.inl rfl)⟩).mpr
      fun hb => absurd rfl hb.1

end Encider
