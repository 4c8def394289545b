import Encider.Lib.Guarded
import Encider.Solver.CexCaching
import Encider.Solver.Z3Builder

/-! `Z3SolverImpl`: a query becomes assertions that Z3 checks, and a model is read back. -/

namespace Encider

open Z3 Z3Builder Guarded

mutual
/-- The constant arrays that are read, in the order of a `ConstantArrayFinder`. -/
def Expr.constantArrays : Expr → List Array
  | .constant _ _ => []
  | .notOptimized e => e.constantArrays
  | .read a us i =>
    us.constantArrays ++ (if a.isConstantArray then [a] else []) ++ i.constantArrays
  | .select c t f => c.constantArrays ++ t.constantArrays ++ f.constantArrays
  | .concat l r => l.constantArrays ++ r.constantArrays
  | .extract e _ _ => e.constantArrays
  | .zext e _ => e.constantArrays
  | .sext e _ => e.constantArrays
  | .not e => e.constantArrays
  | .binary _ l r => l.constantArrays ++ r.constantArrays

def UpdateList.constantArrays : UpdateList → List Array
  | .nil => []
  | .cons i v next => i.constantArrays ++ v.constantArrays ++ next.constantArrays
end

/-- The constraints, and the expression after them. -/
def Query.parts (q : Query) : List Constraint := q.constraints ++ [q.expr]

/-- `constant_arrays_in_query`: each array once. -/
def Query.constantArrays (q : Query) : List Array :=
  (q.parts.flatMap fun e => e.val.constantArrays).eraseDups

namespace Z3SolverImpl

/-- What a check ends with: a model, no model, or a reason why it is not known. -/
inductive Response where
  | sat (model : Model)
  | unsat
  | undefined (reason : String)

/-- Z3, which is right about the assertions where it decides. -/
structure Checker where
  check : List Handle → Response
  sat : ∀ assertions model, check assertions = .sat model →
    ∀ a ∈ assertions, a.Truth {model} True
  unsat : ∀ assertions, check assertions = .unsat →
    ¬ ∃ model, ∀ a ∈ assertions, a.Truth {model} True

/-- `SolverRunStatus`, with the values that are read back. -/
inductive Outcome where
  | solvable (values : List (List (BitVec 8)))
  | unsolvable
  | timeout
  | failure

/-- The command line options. -/
structure Options where
  useConstructHashZ3 : Bool := true
  validateModels : Bool := false

/-- The assertion fails unless the builder has met the array. -/
def arrayAssertions (a : Array) : Construct (List Handle) := fun s =>
  (s.constantArrayAssertions.lookup a).map fun assertions => (assertions, s)

/-- What is asserted: the constraints, the contents of the constant arrays, and that the expression
does not hold. -/
def assertionsOf (options : Options) (q : Query) : Construct (List Handle) := do
  let constraints ← inTurn (q.constraints.map fun c => construct options.useConstructHashZ3 c.val)
  let z3QueryExpr ← construct options.useConstructHashZ3 q.expr.val
  let constants ← inTurn (q.constantArrays.map arrayAssertions)
  let negated ← StateT.lift z3QueryExpr.1.mkNot
  return constraints.map Prod.fst ++ constants.flatten ++ [negated]

/-- A numeral in the model, which must be a byte. -/
def byteOf (model : Model) : Handle → Option (BitVec 8)
  | @Handle.mk (.bitVec _) t =>
    if (t.eval model).toNat ≤ 255 then some (BitVec.ofNat 8 (t.eval model).toNat) else none
  | _ => none

def readElement (model : Model) (array : Array) (offset : ℕ) : Construct (BitVec 8) := do
  let initial_read ← getInitialRead array offset
  StateT.lift (byteOf model initial_read)

def readValues (model : Model) (objects : List Array) : Construct (List (List (BitVec 8))) :=
  inTurn (objects.map fun array => inTurn ((List.range array.size).map (readElement model array)))

/-- Whether a boolean is true in the model. -/
def trueIn (model : Model) : Handle → Bool
  | @Handle.mk .bool t => t.eval model
  | _ => false

def validateZ3Model (model : Model) (assertions : List Handle) : Bool :=
  assertions.all (trueIn model)

/-- The reasons that a timeout is told by. -/
def isTimeout (reason : String) : Bool :=
  reason == "timeout" || reason == "canceled" || reason == "(resource limits reached)"

/-- A reason that is not expected aborts, as does a model that is not valid. -/
def handleSolverResponse (options : Options) (assertions : List Handle)
    (objects : Option (List Array)) : Response → Construct Outcome
  | .sat model =>
    match objects with
    | none => return .solvable []
    | some objects => do
      let values ← readValues model objects
      if options.validateModels && !validateZ3Model model assertions then failure
      else return .solvable values
  | .unsat => return .unsolvable
  | .undefined reason =>
    if isTimeout reason then return .timeout
    else if reason = "unknown" then return .failure
    else failure

def internalRunSolver (options : Options) (z3 : Checker) (q : Query)
    (objects : Option (List Array)) : Construct Outcome := do
  let assertions ← assertionsOf options q
  let outcome ← handleSolverResponse options assertions objects (z3.check assertions)
  let _ ← Call.perform options.useConstructHashZ3 .clearConstructCache
  return outcome

/-- `none` is a run that failed. -/
def computeTruth (options : Options) (z3 : Checker) (q : Query) : Construct (Option Bool) := do
  let outcome ← internalRunSolver options z3 q none
  return match outcome with
    | .solvable _ => some false
    | .unsolvable => some true
    | .timeout | .failure => none

/-- The values, or `some none` if there is no solution. -/
def computeInitialValues (options : Options) (z3 : Checker) (q : Query) (objects : List Array) :
    Construct (Option (Option (List (List (BitVec 8))))) := do
  let outcome ← internalRunSolver options z3 q (some objects)
  return match outcome with
    | .solvable values => some (some values)
    | .unsolvable => some none
    | .timeout | .failure => none

inductive Request where
  | truth (q : Query)
  | initialValues (q : Query) (objects : List Array)

inductive Answer where
  | failed
  | truth (isValid : Bool)
  | initialValues (values : Option (List (List (BitVec 8))))

def answer (options : Options) (z3 : Checker) : Request → Construct Answer
  | .truth q => do
    let r ← computeTruth options z3 q
    return r.elim .failed .truth
  | .initialValues q objects => do
    let r ← computeInitialValues options z3 q objects
    return r.elim .failed .initialValues

end Z3SolverImpl

end Encider
