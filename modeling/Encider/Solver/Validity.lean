import Encider.Expr.Constraint

/-! Queries, their validity, and the partial answers of an incomplete solver. -/

namespace Encider

structure Query where
  constraints : List Constraint
  expr : Constraint

inductive PartialValidity where
  | mustBeTrue
  | mustBeFalse
  | mayBeTrue
  | mayBeFalse
  | trueOrFalse
  | none
  deriving DecidableEq

namespace Query

def negateExpr (q : Query) : Query := { q with expr := q.expr.isZero }

/-- The constraints imply the expression. -/
def Valid (q : Query) : Prop := ∀ σ, (∀ c ∈ q.constraints, c.Holds σ) → q.expr.Holds σ

def Satisfiable (q : Query) : Prop := ∃ σ, ∀ c ∈ q.constraints, c.Holds σ

theorem Satisfiable.negate {q : Query} (h : q.Satisfiable) : q.negateExpr.Satisfiable := h

theorem valid_negate_negate {q : Query} : q.negateExpr.negateExpr.Valid ↔ q.Valid := by
  simp [Valid, negateExpr]

/-- Under constraints that can hold no expression is both true and false. -/
theorem Satisfiable.not_valid {q : Query} (h : q.Satisfiable) (hneg : q.negateExpr.Valid) :
    ¬ q.Valid := by
  intro hvalid
  obtain ⟨σ, hσ⟩ := h
  have hnot := hneg σ hσ
  rw [negateExpr, Constraint.isZero_holds] at hnot
  exact hnot (hvalid σ hσ)

end Query

/-- The answer that `SolverImpl::computeValidity` is documented to give. -/
def Validity.Of (q : Query) : Validity → Prop
  | .valid => q.Valid
  | .invalid => ¬ q.Valid ∧ q.negateExpr.Valid
  | .unknown => ¬ q.Valid ∧ ¬ q.negateExpr.Valid

theorem Validity.Of.unique {q : Query} {v w : Validity} (hv : v.Of q) (hw : w.Of q) : v = w := by
  cases v <;> cases w <;> simp_all [Validity.Of]

/-- A solver whose answers are right. -/
structure ExactSolver where
  computeTruth : Query → Bool
  computeValidity : Query → Validity
  truth : ∀ q, computeTruth q = true ↔ q.Valid
  validity : ∀ q, (computeValidity q).Of q

open Classical in
/-- The solver that decides every query, with `SolverImpl::computeValidity`. -/
noncomputable def ExactSolver.ideal : ExactSolver where
  computeTruth q := decide q.Valid
  computeValidity q :=
    if q.Valid then .valid else if q.negateExpr.Valid then .invalid else .unknown
  truth _ := decide_eq_true_iff
  validity q := by
    split_ifs with h h' <;> simp [Validity.Of, *]

namespace PartialValidity

/-- `none` where the assertion fails. -/
def negate : PartialValidity → Option PartialValidity
  | mustBeTrue => some mustBeFalse
  | mustBeFalse => some mustBeTrue
  | mayBeTrue => some mayBeFalse
  | mayBeFalse => some mayBeTrue
  | trueOrFalse => some trueOrFalse
  | none => Option.none

/-- What a partial validity says of a query. -/
def Sound (q : Query) : PartialValidity → Prop
  | mustBeTrue => q.Valid
  | mustBeFalse => q.negateExpr.Valid
  | mayBeTrue => ¬ q.negateExpr.Valid
  | mayBeFalse => ¬ q.Valid
  | trueOrFalse => ¬ q.Valid ∧ ¬ q.negateExpr.Valid
  | none => True

theorem Sound.negate {q : Query} {pv r : PartialValidity} (h : pv.Sound q.negateExpr)
    (hr : pv.negate = some r) : r.Sound q := by
  cases pv with
  | none => cases hr
  | _ =>
    obtain rfl := Option.some.inj hr
    simpa [Sound, Query.valid_negate_negate, and_comm] using h

theorem Sound.negate' {q : Query} {pv r : PartialValidity} (h : pv.Sound q)
    (hr : pv.negate = some r) : r.Sound q.negateExpr := by
  cases pv with
  | none => cases hr
  | _ =>
    obtain rfl := Option.some.inj hr
    simpa [Sound, Query.valid_negate_negate, and_comm] using h

end PartialValidity

/-- An `IncompleteSolver` with the `computeTruth` of a sub-class. -/
structure IncompleteSolver where
  computeTruth : Query → PartialValidity

namespace IncompleteSolver

def Sound (primary : IncompleteSolver) : Prop := ∀ q, (primary.computeTruth q).Sound q

/-- `IncompleteSolver::computeValidity`. -/
def computeValidity (primary : IncompleteSolver) (q : Query) : PartialValidity :=
  let trueResult := primary.computeTruth q
  if trueResult = .mustBeTrue then .mustBeTrue
  else
    let falseResult := primary.computeTruth q.negateExpr
    if falseResult = .mustBeTrue then .mustBeFalse
    else if trueResult ≠ .none ∧ falseResult ≠ .none then .trueOrFalse
    else if trueResult ≠ .none then .mayBeFalse
    else if falseResult ≠ .none then .mayBeTrue
    else .none

/-- What the code takes an answer to be: one that is not that the query must be true says that it
need not be. -/
def Decides (primary : IncompleteSolver) (q : Query) : Prop :=
  primary.computeTruth q ≠ .mayBeTrue

variable {primary : IncompleteSolver} {q : Query}

theorem Sound.not_valid (h : primary.Sound) (hq : q.Satisfiable) (hd : primary.Decides q)
    (hnone : primary.computeTruth q ≠ .none) (hmust : primary.computeTruth q ≠ .mustBeTrue) :
    ¬ q.Valid := by
  have hsound := h q
  cases hpv : primary.computeTruth q with
  | mustBeTrue => exact absurd hpv hmust
  | mayBeTrue => exact absurd hpv hd
  | none => exact absurd hpv hnone
  | mustBeFalse =>
    rw [hpv] at hsound
    exact hq.not_valid hsound
  | mayBeFalse =>
    rw [hpv] at hsound
    exact hsound
  | trueOrFalse =>
    rw [hpv] at hsound
    exact hsound.1

theorem Sound.valid (h : primary.Sound) (hmust : primary.computeTruth q = .mustBeTrue) :
    q.Valid := by
  have hsound := h q
  rwa [hmust] at hsound

theorem Sound.computeValidity (h : primary.Sound) (hq : q.Satisfiable) (hd : primary.Decides q)
    (hd' : primary.Decides q.negateExpr) : (primary.computeValidity q).Sound q := by
  have htrue := h.not_valid hq hd
  have hfalse := h.not_valid hq.negate hd'
  unfold IncompleteSolver.computeValidity
  dsimp only
  split_ifs with h1 h2 h3 h4 h5
  · exact h.valid h1
  · exact h.valid h2
  · exact ⟨htrue h3.1 h1, hfalse h3.2 h2⟩
  · exact htrue h4 h1
  · exact hfalse h5 h2
  · trivial

end IncompleteSolver

namespace StagedSolver

variable (primary : IncompleteSolver) (secondary : ExactSolver)

def computeTruth (q : Query) : Bool :=
  let trueResult := primary.computeTruth q
  if trueResult ≠ .none then decide (trueResult = .mustBeTrue) else secondary.computeTruth q

def computeValidity (q : Query) : Validity :=
  match primary.computeValidity q with
  | .mustBeTrue => .valid
  | .mustBeFalse => .invalid
  | .trueOrFalse => .unknown
  | .mayBeTrue => if secondary.computeTruth q then .valid else .unknown
  | .mayBeFalse => if secondary.computeTruth q.negateExpr then .invalid else .unknown
  | .none => secondary.computeValidity q

variable {primary secondary} {q : Query}

theorem computeTruth_eq (h : primary.Sound) (hq : q.Satisfiable) (hd : primary.Decides q) :
    computeTruth primary secondary q = secondary.computeTruth q := by
  unfold computeTruth
  dsimp only
  split_ifs with hnone
  · rw [Bool.eq_iff_iff, decide_eq_true_iff, secondary.truth]
    constructor
    · exact h.valid
    · intro hvalid
      by_contra hmust
      exact h.not_valid hq hd hnone hmust hvalid
  · rfl

theorem computeValidity_eq (h : primary.Sound) (hq : q.Satisfiable) (hd : primary.Decides q)
    (hd' : primary.Decides q.negateExpr) :
    computeValidity primary secondary q = secondary.computeValidity q := by
  refine Validity.Of.unique ?_ (secondary.validity q)
  have hsound := h.computeValidity hq hd hd'
  unfold computeValidity
  cases hpv : primary.computeValidity q with
  | mustBeTrue =>
    rw [hpv] at hsound
    exact hsound
  | mustBeFalse =>
    rw [hpv] at hsound
    exact ⟨hq.not_valid hsound, hsound⟩
  | trueOrFalse =>
    rw [hpv] at hsound
    exact hsound
  | mayBeTrue =>
    rw [hpv] at hsound
    dsimp only
    split_ifs with htruth
    · exact (secondary.truth q).mp htruth
    · exact ⟨mt (secondary.truth q).mpr htruth, hsound⟩
  | mayBeFalse =>
    rw [hpv] at hsound
    dsimp only
    split_ifs with htruth
    · exact ⟨hsound, (secondary.truth _).mp htruth⟩
    · exact ⟨hsound, mt (secondary.truth _).mpr htruth⟩
  | none => exact secondary.validity q

end StagedSolver

end Encider
