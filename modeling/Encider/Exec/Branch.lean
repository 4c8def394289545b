import Encider.Expr.Constraint

namespace Encider

/-- The part of `ExecutionState` that a conditional branch reads and writes. The
maps of fork counts are keyed by the state in the source. -/
structure PathState where
  rdid : Int := -1
  depth : Nat := 0
  constraints : List Constraint := []
  lastCondition : Option Constraint := none
  forkFreqTrue : String → BitVec 32 := fun _ => 0
  forkFreqFalse : String → BitVec 32 := fun _ => 0

namespace PathState

/-- The copy constructor on these fields. -/
def copy (s : PathState) : PathState where
  rdid := s.rdid
  depth := s.depth
  constraints := s.constraints
  lastCondition := s.lastCondition
  forkFreqTrue := s.forkFreqTrue
  forkFreqFalse := s.forkFreqFalse

/-- The assignments that satisfy the constraints of the path. -/
def Admits (s : PathState) (σ : Assignment) : Prop := ∀ c ∈ s.constraints, c.Holds σ

def addForkFreq (s : PathState) (inst : String) (isTrue : Bool) : PathState :=
  if isTrue then
    { s with forkFreqTrue := Function.update s.forkFreqTrue inst (s.forkFreqTrue inst + 1) }
  else
    { s with forkFreqFalse := Function.update s.forkFreqFalse inst (s.forkFreqFalse inst + 1) }

def getForkFreq (s : PathState) (inst : String) (isTrue : Bool) : BitVec 32 :=
  if isTrue then s.forkFreqTrue inst else s.forkFreqFalse inst

@[simp] theorem addForkFreq_lastCondition (s : PathState) (inst : String) (isTrue : Bool) :
    (s.addForkFreq inst isTrue).lastCondition = s.lastCondition := by
  cases isTrue <;> rfl

@[simp] theorem addForkFreq_constraints (s : PathState) (inst : String) (isTrue : Bool) :
    (s.addForkFreq inst isTrue).constraints = s.constraints := by
  cases isTrue <;> rfl

/-- A count grows by its own branch and side only. -/
@[simp] theorem getForkFreq_addForkFreq (s : PathState) (inst k : String) (isTrue side : Bool) :
    (s.addForkFreq inst isTrue).getForkFreq k side =
      s.getForkFreq k side + if k = inst ∧ side = isTrue then 1 else 0 := by
  cases isTrue <;> cases side <;>
    simp only [addForkFreq, getForkFreq, Function.update_apply, ↓reduceIte, Bool.false_eq_true,
      and_true, reduceCtorEq, and_false, add_zero]
  all_goals
    split
    · rename_i h
      rw [h]
    · rw [add_zero]

/-- `Executor::addConstraint`; a constraint that is constantly false is fatal. -/
def addConstraint (s : PathState) (condition : Constraint) (forBranch : Bool) : Option PathState :=
  if condition.val.isConstant then
    if condition.val = Constraint.tt.val then some s else none
  else
    some { s with
      constraints := condition :: s.constraints
      lastCondition := if forBranch then some condition else s.lastCondition }

/-- Both states hold the same counts. -/
def SameCounts (s t : PathState) : Prop :=
  ∀ key side, t.getForkFreq key side = s.getForkFreq key side

theorem SameCounts.add {s t : PathState} (h : s.SameCounts t) (inst : String) (isTrue : Bool) :
    (s.addForkFreq inst isTrue).SameCounts (t.addForkFreq inst isTrue) := by
  intro key side
  simp only [getForkFreq_addForkFreq, h key side]

theorem SameCounts.trans {s t u : PathState} (h : s.SameCounts t) (h' : t.SameCounts u) :
    s.SameCounts u := fun key side => (h' key side).trans (h key side)

end PathState

/-- `solver->evaluate`. -/
def Solver.evaluate (S : Solver) (cs : List Constraint) (c : Constraint) : Validity :=
  if !S.mayBeTrue cs c.isZero then .valid
  else if !S.mayBeTrue cs c then .invalid
  else .unknown

/-- The settings that a fork and a branch depend on. `skipFork` is the random
choice made where forking is inhibited. -/
structure ForkOptions where
  skipFork : Option Bool := none
  maxDepth : Nat := 0
  loopBound : BitVec 32 := 0
  handleSingleSuccessors : Bool := false

/-- `Executor::fork` outside seeding and replay: the successors in which the
condition is true and false. -/
def fork (S : Solver) (o : ForkOptions) (current : PathState) (condition : Constraint)
    (forBranch : Bool) : Option (Option PathState × Option PathState) :=
  match S.evaluate current.constraints condition, o.skipFork with
  | .valid, _ => some (some current, none)
  | .invalid, _ => some (none, some current)
  | .unknown, some true =>
    (current.addConstraint condition forBranch).map fun s => (some s, none)
  | .unknown, some false =>
    (current.addConstraint condition.isZero forBranch).map fun s => (none, some s)
  | .unknown, none =>
    let trueState := { current with depth := current.depth + 1 }
    let falseState := trueState.copy
    (trueState.addConstraint condition forBranch).bind fun t =>
      (falseState.addConstraint condition.isZero forBranch).map fun f =>
        if o.maxDepth ≠ 0 ∧ o.maxDepth ≤ t.depth then (none, none) else (some t, some f)

@[simp] theorem PathState.copy_eq (s : PathState) : s.copy = s := rfl

theorem Solver.evaluate_unknown {S : Solver} {cs : List Constraint} {c : Constraint} :
    S.evaluate cs c = .unknown ↔
      (∃ σ, (∀ d ∈ cs, d.Holds σ) ∧ c.Holds σ) ∧ ∃ σ, (∀ d ∈ cs, d.Holds σ) ∧ ¬ c.Holds σ := by
  have ht := S.exact cs c
  have hf := S.exact cs c.isZero
  simp only [Constraint.isZero_holds] at hf
  rw [← ht, ← hf]
  unfold Solver.evaluate
  cases S.mayBeTrue cs c <;> cases S.mayBeTrue cs c.isZero <;> simp

theorem Solver.evaluate_valid {S : Solver} {cs : List Constraint} {c : Constraint} :
    S.evaluate cs c = .valid ↔ ∀ σ : Assignment, (∀ d ∈ cs, d.Holds σ) → c.Holds σ := by
  have hf := S.exact cs c.isZero
  simp only [Constraint.isZero_holds] at hf
  unfold Solver.evaluate
  cases hz : S.mayBeTrue cs c.isZero with
  | true =>
    obtain ⟨σ, hσ, hc⟩ := hf.mp hz
    have hno : ¬ ∀ σ : Assignment, (∀ d ∈ cs, d.Holds σ) → c.Holds σ := fun h => hc (h σ hσ)
    simp only [hno, iff_false]
    cases S.mayBeTrue cs c <;> simp
  | false =>
    rw [hz] at hf
    simp only [Bool.false_eq_true, false_iff, not_exists, not_and, not_not] at hf
    exact ⟨fun _ => hf, fun _ => rfl⟩

theorem Solver.evaluate_invalid {S : Solver} {cs : List Constraint} {c : Constraint}
    (h : S.evaluate cs c = .invalid) (σ : Assignment) (hσ : ∀ d ∈ cs, d.Holds σ) :
    ¬ c.Holds σ := by
  intro hc
  have hmay := (S.exact cs c).mpr ⟨σ, hσ, hc⟩
  unfold Solver.evaluate at h
  rw [hmay] at h
  cases hz : S.mayBeTrue cs c.isZero with
  | true =>
    rw [hz] at h
    cases h
  | false =>
    rw [hz] at h
    cases h

theorem Constraint.holds_of_constant {c : Constraint} (hc : c.val.isConstant = true)
    {σ : Assignment} (h : c.Holds σ) (τ : Assignment) : c.Holds τ := by
  obtain ⟨e, hty, hw⟩ := c
  cases e with
  | constant w v => exact h
  | _ => cases hc

/-- A condition that is decided neither way is no constant, and its negation is none. -/
theorem Solver.not_constant_of_unknown {S : Solver} {cs : List Constraint} {c : Constraint}
    (h : S.evaluate cs c = .unknown) :
    c.val.isConstant = false ∧ c.isZero.val.isConstant = false := by
  obtain ⟨⟨σ, -, hσ⟩, τ, -, hτ⟩ := Solver.evaluate_unknown.mp h
  refine ⟨?_, ?_⟩
  · rw [← Bool.not_eq_true]
    intro hc
    exact hτ (Constraint.holds_of_constant hc hσ τ)
  · rw [← Bool.not_eq_true]
    intro hc
    have hz := Constraint.holds_of_constant hc ((c.isZero_holds τ).mpr hτ) σ
    exact (c.isZero_holds σ).mp hz hσ

theorem PathState.addConstraint_nonconstant (s : PathState) {c : Constraint} (forBranch : Bool)
    (hc : c.val.isConstant = false) :
    s.addConstraint c forBranch = some { s with
      constraints := c :: s.constraints
      lastCondition := if forBranch then some c else s.lastCondition } := by
  rw [PathState.addConstraint, hc]
  rfl

/-- The two successors of a fork at a branch on `cond`. -/
def forked (current : PathState) (cond : Constraint) : PathState × PathState :=
  ({ current with
      depth := current.depth + 1
      constraints := cond :: current.constraints
      lastCondition := some cond },
   { current with
      depth := current.depth + 1
      constraints := cond.isZero :: current.constraints
      lastCondition := some cond.isZero })

/-- A two-way fork needs both answers, and gives each successor its condition. -/
theorem fork_two_way {S : Solver} {o : ForkOptions} {current f s : PathState} {cond : Constraint}
    (h : fork S o current cond true = some (some f, some s)) :
    S.evaluate current.constraints cond = .unknown ∧ (f, s) = forked current cond := by
  unfold fork at h
  split at h
  · cases h
  · cases h
  · rw [Option.map_eq_some_iff] at h
    obtain ⟨t, -, ht⟩ := h
    cases ht
  · rw [Option.map_eq_some_iff] at h
    obtain ⟨t, -, ht⟩ := h
    cases ht
  · rename_i hu _
    obtain ⟨hc, hz⟩ := Solver.not_constant_of_unknown hu
    refine ⟨hu, ?_⟩
    simp only [PathState.copy_eq, PathState.addConstraint_nonconstant _ true hc,
      PathState.addConstraint_nonconstant _ true hz, ↓reduceIte, Option.bind_some,
      Option.map_some, Option.some.injEq] at h
    split at h
    · cases h
    · cases h
      rfl

theorem fork_unknown {S : Solver} {o : ForkOptions} {current : PathState} {cond : Constraint}
    (hu : S.evaluate current.constraints cond = .unknown) (hs : o.skipFork = none)
    (hd : o.maxDepth = 0 ∨ current.depth + 1 < o.maxDepth) :
    fork S o current cond true =
      some (some (forked current cond).1, some (forked current cond).2) := by
  obtain ⟨hc, hz⟩ := Solver.not_constant_of_unknown hu
  have hdepth : ¬ (o.maxDepth ≠ 0 ∧ o.maxDepth ≤ current.depth + 1) := by omega
  simp only [fork, hu, hs, PathState.copy_eq, PathState.addConstraint_nonconstant _ true hc,
    PathState.addConstraint_nonconstant _ true hz, ↓reduceIte, Option.bind_some, Option.map_some,
    if_neg hdepth]
  rfl

/-- A successor of a branch: `block` is the operand it was transferred to, and
`registered` says that it was put into `successorsPaths`. -/
structure Successor where
  state : PathState
  terminated : Bool := false
  block : Option Nat := none
  registered : Bool := false

/-- A conditional branch: where it is, and in which calling context. -/
structure BranchSite where
  context : String
  location : String
deriving DecidableEq, Repr

/-- `getSouceWithContext`. -/
def BranchSite.key (b : BranchSite) : String := b.context ++ b.location

/-- `loopBound && !lbe`: the branch counts its executions towards the bound. -/
def BranchSite.Bounded (b : BranchSite) (o : ForkOptions) (excluded : String → Bool) : Prop :=
  o.loopBound ≠ 0 ∧ excluded b.location = false

instance (b : BranchSite) (o : ForkOptions) (excluded : String → Bool) :
    Decidable (b.Bounded o excluded) :=
  inferInstanceAs (Decidable (_ ∧ _))

structure BrResult where
  first : Option Successor
  second : Option Successor
  singleSuccessor : Bool := true

/-- Both successors exist; the counts of `state`, which is the first one, have
been increased. -/
def boundedBoth (o : ForkOptions) (key : String) (cond : Constraint) (first second : PathState) :
    BrResult :=
  let tc := first.getForkFreq key true
  let fc := first.getForkFreq key false
  if fc > o.loopBound ∧ tc > o.loopBound then
    { first := some { state := first, terminated := true }
      second := some { state := second } }
  else if tc > o.loopBound then
    { first := some { state := first, terminated := true }
      second := some
        { state :=
            if o.handleSingleSuccessors then { second with lastCondition := some cond } else second
          block := some 1
          registered := true } }
  else if fc > o.loopBound then
    { first := some
        { state :=
            if o.handleSingleSuccessors then { first with lastCondition := some cond } else first
          block := some 0
          registered := true }
      second := some { state := second, terminated := true } }
  else
    { first := some
        { state := { first with lastCondition := some cond }, block := some 0, registered := true }
      second := some
        { state := { second with lastCondition := some cond }, block := some 1, registered := true }
      singleSuccessor := false }

/-- Only one successor exists; past its bound it goes to the other block. -/
def boundedFirst (o : ForkOptions) (key : String) (cond : Constraint) (first : PathState) :
    Successor where
  state := if o.handleSingleSuccessors then { first with lastCondition := some cond } else first
  block := some (if first.getForkFreq key true > o.loopBound then 1 else 0)
  registered := true

def boundedSecond (o : ForkOptions) (key : String) (cond : Constraint) (second : PathState) :
    Successor where
  state :=
    if second.getForkFreq key false > o.loopBound then second
    else if o.handleSingleSuccessors then { second with lastCondition := some cond } else second
  block := some (if second.getForkFreq key false > o.loopBound then 0 else 1)
  registered := true

/-- The `Br` case of `executeInstruction` on a condition; `excluded` tells the
locations that `loopBoundExceptions` names. -/
def executeBr (S : Solver) (o : ForkOptions) (excluded : String → Bool) (site : BranchSite)
    (state : PathState) (cond : Constraint) : Option BrResult :=
  (fork S o state cond true).map fun branches =>
    if site.Bounded o excluded then
      match branches with
      | (some first, some second) =>
        boundedBoth o site.key cond ((first.addForkFreq site.key true).addForkFreq site.key false)
          second
      | (some first, none) =>
        { first := some (boundedFirst o site.key cond (first.addForkFreq site.key true))
          second := none }
      | (none, some second) =>
        { first := none
          second := some (boundedSecond o site.key cond (second.addForkFreq site.key false)) }
      | (none, none) => { first := none, second := none }
    else
      { first := branches.1.map fun s => { state := s, block := some 0, registered := true }
        second := branches.2.map fun s => { state := s, block := some 1, registered := true }
        singleSuccessor := !(branches.1.isSome && branches.2.isSome) }

theorem executeBr_two_way {S : Solver} {o : ForkOptions} {excluded : String → Bool}
    {site : BranchSite} {state : PathState} {cond : Constraint} {f s : PathState}
    (h : fork S o state cond true = some (some f, some s)) :
    executeBr S o excluded site state cond = some (
      if site.Bounded o excluded then
        boundedBoth o site.key cond ((f.addForkFreq site.key true).addForkFreq site.key false) s
      else
        { first := some { state := f, block := some 0, registered := true }
          second := some { state := s, block := some 1, registered := true }
          singleSuccessor := false }) := by
  rw [executeBr, h]
  rfl

/-- The successors that go on executing. -/
def BrResult.Survives (r : BrResult) (isTrue : Bool) (s : PathState) : Prop :=
  ∃ c, (if isTrue then r.first else r.second) = some c ∧ c.terminated = false ∧ c.state = s

end Encider
