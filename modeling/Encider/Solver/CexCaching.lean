import Encider.Adt.MapOfSets
import Encider.Expr.PartialEvaluation
import Encider.Solver.Reads
import Encider.Solver.Validity

/-! `CexCachingSolver`: assignments and unsatisfiable sets of constraints are kept, and answer
queries whose constraints include or are included in those that they are kept for. -/

namespace Encider

open Encider.Expr

mutual
/-- The symbolic arrays that are read, in the order of a `SymbolicObjectFinder`. -/
def Expr.symbolicObjects : Expr → List Array
  | .constant _ _ => []
  | .notOptimized e => e.symbolicObjects
  | .read a us i =>
    us.symbolicObjects ++ (if a.constantValues = [] then [a] else []) ++ i.symbolicObjects
  | .select c t f => c.symbolicObjects ++ t.symbolicObjects ++ f.symbolicObjects
  | .concat l r => l.symbolicObjects ++ r.symbolicObjects
  | .extract e _ _ => e.symbolicObjects
  | .zext e _ => e.symbolicObjects
  | .sext e _ => e.symbolicObjects
  | .not e => e.symbolicObjects
  | .binary _ l r => l.symbolicObjects ++ r.symbolicObjects

def UpdateList.symbolicObjects : UpdateList → List Array
  | .nil => []
  | .cons i v next => i.symbolicObjects ++ v.symbolicObjects ++ next.symbolicObjects
end

/-- Each array once, where it is found first. -/
def findSymbolicObjects (es : List Constraint) : List Array :=
  (es.flatMap fun e => e.val.symbolicObjects).eraseDups

/-- Bytes in the symbolic arrays and zero elsewhere. -/
structure Assignment.OfBytes (σ : Assignment) : Prop where
  bounded : σ.Bounded
  byte : ∀ a i, ∃ byte : BitVec 8, σ a i = BitVec.ofNat a.range byte.toNat

/-- The bytes of a symbolic array. -/
def Assignment.HasBytes (σ : Assignment) (a : Array) (bytes : List (BitVec 8)) : Prop :=
  bytes.length = a.size ∧ ∀ i byte, bytes[i]? = some byte → σ a i = BitVec.ofNat a.range byte.toNat

namespace Query

def withFalse (q : Query) : Query := { q with expr := .ff }

/-- The constraints hold and the expression does not. -/
def Falsified (q : Query) (σ : Assignment) : Prop :=
  (∀ c ∈ q.constraints, c.Holds σ) ∧ ¬ q.expr.Holds σ

end Query

/-- The `computeInitialValues` of the solver below, which may fail (`none`). What it finds is right:
`some none` is that there is no solution. -/
structure AssignmentSolver where
  computeInitialValues : Query → List Array → Option (Option (Array → List (BitVec 8)))
  solution : ∀ q objects values, computeInitialValues q objects = some (some values) →
    ∃ σ : Assignment, σ.OfBytes ∧ q.Falsified σ ∧
      ∀ a ∈ objects, a.constantValues = [] → σ.HasBytes a (values a)
  noSolution : ∀ q objects, computeInitialValues q objects = some none →
    ¬ ∃ σ : Assignment, σ.OfBytes ∧ q.Falsified σ

/-- An `Assignment` without free values. -/
structure CachedAssignment where
  bindings : Array → Option (List (BitVec 8))

namespace CachedAssignment

def toBindings (a : CachedAssignment) : Bindings := ⟨false, a.bindings⟩

/-- `Assignment(objects, values)`. -/
def ofValues (objects : List Array) (values : Array → List (BitVec 8)) : CachedAssignment :=
  ⟨fun a => if a ∈ objects then some (values a) else none⟩

def evaluate (a : CachedAssignment) (e : Expr) : Option Expr :=
  (ExprEvaluator.visit a.toBindings e []).map Prod.fst

/-- The loop of `satisfies`, with one visitor for all constraints. -/
def satisfiesFrom (a : CachedAssignment) (visited : Visited) : List Constraint → Bool
  | [] => true
  | c :: cs =>
    match ExprEvaluator.visit a.toBindings c.val visited with
    | some (r, visited) => decide (r = const 1 1) && satisfiesFrom a visited cs
    | none => false

end CachedAssignment

namespace CexCachingSolver

/-- The command line options. -/
structure Options where
  cexCacheTryAll : Bool := false
  cexCacheSuperSet : Bool := false
  cexCacheExperimental : Bool := false

-- Constraints are ordered by `Expr::compare`, assignments by their bindings.
variable [LinearOrder Constraint] [LinearOrder CachedAssignment]

structure State where
  cache : MapOfSets Constraint (Option CachedAssignment) := .empty
  assignmentsTable : Finset CachedAssignment := ∅

variable (options : Options) (solver : AssignmentSolver)

def satisfies (key : Finset Constraint) (a : CachedAssignment) : Bool :=
  a.satisfiesFrom [] (key.sort (· ≤ ·))

def nullOrSatisfyingAssignment (key : Finset Constraint) : Option CachedAssignment → Bool
  | none => true
  | some a => satisfies key a

/-- The search for a superset, if the option is given. -/
def searchSuperset (s : State) (key : Finset Constraint) : Option (Option CachedAssignment) :=
  if options.cexCacheSuperSet then s.cache.findSuperset key Option.isSome else none

/-- What is found; `some none` is that the constraints are unsatisfiable. -/
def searchForAssignment (s : State) (key : Finset Constraint) :
    Option (Option CachedAssignment) :=
  (s.cache.lookup key).or
    ((searchSuperset options s key).or
      (if options.cexCacheTryAll then
        (s.cache.findSubset key Option.isNone).or
          (((s.assignmentsTable.sort (· ≤ ·)).find? (satisfies key)).map some)
      else s.cache.findSubset key (nullOrSatisfyingAssignment key)))

/-- The key of a query: its constraints, and the negated expression unless that is constant. -/
def keyOf (q : Query) : Finset Constraint :=
  if q.expr.isZero.val.isConstant then q.constraints.toFinset
  else insert q.expr.isZero q.constraints.toFinset

def lookupAssignment (s : State) (q : Query) : Option (Option CachedAssignment) :=
  if q.expr.isZero.val = const 0 1 then some none else searchForAssignment options s (keyOf q)

/-- `none` where the solver below fails; otherwise an assignment, or `some none` if there is none. -/
def getAssignment (s : State) (q : Query) : State × Option (Option CachedAssignment) :=
  match lookupAssignment options s q with
  | some result => (s, some result)
  | none =>
    let objects := findSymbolicObjects ((keyOf q).sort (· ≤ ·))
    match solver.computeInitialValues q objects with
    | none => (s, none)
    | some none => ({ s with cache := s.cache.insert (keyOf q) none }, some none)
    | some (some values) =>
      let binding := CachedAssignment.ofValues objects values
      ({ cache := s.cache.insert (keyOf q) (some binding)
         assignmentsTable := insert binding s.assignmentsTable }, some (some binding))

/-- The answer that a failed assertion leaves out is `none`, and `some none` that of a solver below
that fails. -/
def computeValidity (s : State) (q : Query) : Option (State × Option Validity) :=
  match getAssignment options solver s q.withFalse with
  | (s, none) => some (s, none)
  | (_, some none) => none
  | (s, some (some a)) =>
    (a.evaluate q.expr.val).bind fun r =>
      if r.isConstant then
        if r = const 1 1 then
          let (s, result) := getAssignment options solver s q
          some (s, result.map fun a => if a.isNone then .valid else .unknown)
        else
          let (s, result) := getAssignment options solver s q.negateExpr
          some (s, result.map fun a => if a.isNone then .invalid else .unknown)
      else none

/-- With `cex-cache-exp` a query whose negation is known to be valid fails. -/
def computeTruth (s : State) (q : Query) : State × Option Bool :=
  if options.cexCacheExperimental ∧ lookupAssignment options s q.negateExpr = some none then
    (s, none)
  else
    let (s, result) := getAssignment options solver s q
    (s, result.map Option.isNone)

def computeValue (s : State) (constraints : List Constraint) (e : Expr) :
    Option (State × Option Expr) :=
  match getAssignment options solver s ⟨constraints, .ff⟩ with
  | (s, none) => some (s, none)
  | (_, some none) => none
  | (s, some (some a)) =>
    (a.evaluate e).bind fun r => if r.isConstant then some (s, some r) else none

def computeInitialValues (s : State) (q : Query) (objects : List Array) :
    State × Option (Option (List (List (BitVec 8)))) :=
  let (s, result) := getAssignment options solver s q
  (s, result.map fun a => a.map fun a =>
    objects.map fun os => (a.bindings os).getD (List.replicate os.size 0))

/-- What the solver is asked. -/
inductive Request where
  | truth (q : Query)
  | validity (q : Query)
  | value (constraints : List Constraint) (e : Expr)
  | initialValues (q : Query) (objects : List Array)

inductive Answer where
  /-- The solver below failed. -/
  | failed
  | truth (isValid : Bool)
  | validity (result : Validity)
  | value (result : Expr)
  | initialValues (values : Option (List (List (BitVec 8))))

/-- One request; `none` where an assertion fails. -/
def answer (s : State) : Request → Option (State × Answer)
  | .truth q =>
    let (s, r) := computeTruth options solver s q
    some (s, r.elim .failed .truth)
  | .validity q =>
    (computeValidity options solver s q).map fun r => (r.1, r.2.elim .failed .validity)
  | .value constraints e =>
    (computeValue options solver s constraints e).map fun r => (r.1, r.2.elim .failed .value)
  | .initialValues q objects =>
    let (s, r) := computeInitialValues options solver s q objects
    some (s, r.elim .failed .initialValues)

/-- The answers to requests, one after the other. -/
def run (s : State) : List Request → Option (List Answer)
  | [] => some []
  | request :: requests => do
    let (s, a) ← answer options solver s request
    let as ← run s requests
    return a :: as

end CexCachingSolver

end Encider
