import Encider.Expr.Equality

namespace Encider

/-- An expression of `w` bits. -/
abbrev Word (w : Width) := {e : Expr // e.WellTyped ∧ e.getWidth = w}

/-- A well-typed boolean expression. -/
abbrev Constraint := {e : Expr // e.WellTyped ∧ e.getWidth = 1}

namespace Constraint

def Holds (σ : Assignment) (c : Constraint) : Prop := c.val.Holds σ

/-- `ConstantExpr::create(true, 1)`. -/
def tt : Constraint := ⟨Expr.const 1 1, trivial, rfl⟩

/-- `AndExpr::create` on booleans. -/
def and (c d : Constraint) : Constraint :=
  ⟨AndExpr.create c.val d.val,
    have h := AndExpr.create_means (fun _ _ => 0) c.2.1 d.2.1 (c.2.2.trans d.2.2.symm)
    ⟨h.typed, h.width.trans c.2.2⟩⟩

/-- `Expr::createIsZero` on booleans. -/
def isZero (c : Constraint) : Constraint :=
  ⟨Expr.createIsZero c.val,
    have h := createIsZero_means (fun _ _ => 0) c.2.1
    ⟨h.typed, h.width⟩⟩

/-- `OrExpr::create` on booleans. -/
def or (c d : Constraint) : Constraint :=
  ⟨OrExpr.create c.val d.val,
    have h := OrExpr.create_means (fun _ _ => 0) c.2.1 d.2.1 (c.2.2.trans d.2.2.symm)
    ⟨h.typed, h.width.trans c.2.2⟩⟩

/-- `ConstantExpr::alloc(0, Expr::Bool)`. -/
def ff : Constraint := ⟨Expr.const 0 1, trivial, rfl⟩

/-- `EqExpr::create(e, c)` for a constant `c`. -/
def eqConst {w : Width} (e : Word w) (c : BitVec w) : Constraint :=
  ⟨EqExpr.create e.val (Expr.constant w c),
    have h := EqExpr.create_means (fun _ _ => 0) (r := Expr.constant w c) e.2.1 trivial e.2.2
    ⟨h.typed, h.width⟩⟩

@[simp] theorem tt_holds (σ : Assignment) : tt.Holds σ := by
  simp [Holds, tt, Expr.Holds]

@[simp] theorem and_holds (σ : Assignment) (c d : Constraint) :
    (and c d).Holds σ ↔ c.Holds σ ∧ d.Holds σ := by
  have h := AndExpr.create_means σ c.2.1 d.2.1 (c.2.2.trans d.2.2.symm)
  simp only [Holds, Expr.Holds, and]
  rw [h.value, binary_value, c.2.2]
  obtain h1 | h1 := width_one_value (σ := σ) c.2.2 <;>
    obtain h2 | h2 := width_one_value (σ := σ) d.2.2 <;>
    rw [h1, h2] <;> decide

@[simp] theorem isZero_holds (σ : Assignment) (c : Constraint) :
    c.isZero.Holds σ ↔ ¬ c.Holds σ := by
  have h := createIsZero_means σ c.2.1
  simp only [Holds, Expr.Holds, isZero]
  rw [h.value, eqBit]
  obtain h1 | h1 := width_one_value (σ := σ) c.2.2 <;> simp [h1]

@[simp] theorem or_holds (σ : Assignment) (c d : Constraint) :
    (or c d).Holds σ ↔ c.Holds σ ∨ d.Holds σ := by
  have h := OrExpr.create_means σ c.2.1 d.2.1 (c.2.2.trans d.2.2.symm)
  simp only [Holds, Expr.Holds, or]
  rw [h.value, binary_value, c.2.2]
  obtain h1 | h1 := width_one_value (σ := σ) c.2.2 <;>
    obtain h2 | h2 := width_one_value (σ := σ) d.2.2 <;>
    rw [h1, h2] <;> decide

@[simp] theorem ff_holds (σ : Assignment) : ¬ ff.Holds σ := by
  simp [Holds, ff, Expr.Holds]

@[simp] theorem eqConst_holds (σ : Assignment) {w : Width} (e : Word w) (c : BitVec w) :
    (eqConst e c).Holds σ ↔ e.val.bits σ w = c := by
  have h := EqExpr.create_means σ (r := Expr.constant w c) e.2.1 trivial e.2.2
  simp only [Holds, Expr.Holds, eqConst]
  rw [h.value, binary_value, e.2.2, constant_bits, BinaryKind.apply, Bool.toNat_eq_one,
    decide_eq_true_iff, Expr.bits]

end Constraint

/-- `Solver::Validity`. -/
inductive Validity where
  | valid | invalid | unknown
deriving DecidableEq, Repr

/-- An exact solver: whether a query can be true under some constraints. -/
structure Solver where
  mayBeTrue : List Constraint → Constraint → Bool
  exact : ∀ cs c, mayBeTrue cs c = true ↔ ∃ σ : Assignment, (∀ d ∈ cs, d.Holds σ) ∧ c.Holds σ

open Classical in
/-- The solver that decides every query. -/
noncomputable def Solver.ideal : Solver where
  mayBeTrue cs c := decide (∃ σ : Assignment, (∀ d ∈ cs, d.Holds σ) ∧ c.Holds σ)
  exact _ _ := decide_eq_true_iff

end Encider
