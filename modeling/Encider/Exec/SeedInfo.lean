import Encider.Expr.Evaluates
import Encider.Solver.Reads

/-! `SeedInfo::patchSeed`: the bytes of a seed are changed until a condition holds. -/

namespace Encider

open Encider.Expr

/-- The bindings of `SeedInfo::assignment`, in the order of the map. -/
abbrev Seed := List (Array × List (BitVec 8))

namespace Seed

def find (s : Seed) (a : Array) : Option (List (BitVec 8)) :=
  (List.find? (fun p => p.1 = a) s).map Prod.snd

/-- Free values are allowed. -/
def toBindings (s : Seed) : Bindings := ⟨true, s.find⟩

def assignment (s : Seed) : Assignment := s.toBindings.assignment

def set (s : Seed) (a : Array) (i : Nat) (byte : BitVec 8) : Seed :=
  s.map fun p => if p.1 = a then (p.1, p.2.set i byte) else p

end Seed

/-- The assignments of bytes that satisfy constraints. -/
def Models (cs : List Expr) : Set Assignment := {σ | σ.Bounded ∧ ∀ c ∈ cs, c.Holds σ}

/-- An exact `TimingSolver`. -/
structure SeedSolver where
  mayBeTrue : List Expr → Expr → Bool
  exact : ∀ cs e, mayBeTrue cs e = true ↔ ∃ σ ∈ Models cs, e.Holds σ
  getValue : List Expr → Expr → Nat
  value : ∀ cs e, (Models cs).Nonempty → ∃ σ ∈ Models cs, getValue cs e = e.value σ

namespace SeedInfo

/-- `findReads(e, false, ..)`, as a list: the writes below reads are not looked at. -/
def findReads : Expr → List (Array × Expr)
  | .constant _ _ => []
  | .notOptimized e => findReads e
  | .read a _ i => (a, i) :: findReads i
  | .select c t f => findReads c ++ findReads t ++ findReads f
  | .concat l r => findReads l ++ findReads r
  | .extract e _ _ => findReads e
  | .zext e _ => findReads e
  | .sext e _ => findReads e
  | .not e => findReads e
  | .binary _ l r => findReads l ++ findReads r

/-- The byte of a read with a constant index. -/
def directRead : Array × Expr → Option (Array × Nat)
  | (a, .constant _ c) => some (a, c.toNat)
  | _ => none

def directReads (e : Expr) : List (Array × Nat) := (findReads e).filterMap directRead

def readByte (a : Array) (i : Nat) : Expr := ReadExpr.create a .nil (const i 32)

def isByte (a : Array) (i : Nat) (byte : BitVec 8) : Expr :=
  EqExpr.create (readByte a i) (const byte.toNat 8)

/-- The body of both loops; `none` past the end of the bytes. -/
def patchByte (S : SeedSolver) (x : Array × Nat) (tmp : List Expr) (seed : Seed) :
    Option (List Expr × Seed) :=
  match seed.find x.1 with
  | none => some (tmp, seed)
  | some bytes => do
    let byte ← bytes[x.2]?
    if S.mayBeTrue tmp (isByte x.1 x.2 byte) then
      some (tmp ++ [isByte x.1 x.2 byte], seed)
    else if (readByte x.1 x.2).getWidth ≤ 8 then
      let value := BitVec.ofNat 8 (S.getValue tmp (readByte x.1 x.2))
      some (tmp ++ [isByte x.1 x.2 value], seed.set x.1 x.2 value)
    else none

def patchBytes (S : SeedSolver) : List (Array × Nat) → List Expr → Seed → Option (List Expr × Seed)
  | [], tmp, seed => some (tmp, seed)
  | x :: xs, tmp, seed => do
    let (tmp, seed) ← patchByte S x tmp seed
    patchBytes S xs tmp seed

/-- `solver->mayBeTrue(state, assignment.evaluate(condition), res)`. -/
def mayHold (S : SeedSolver) (constraints : List Expr) (condition : Expr) (seed : Seed) :
    Option Bool := do
  let (e, _) ← ExprEvaluator.visit seed.toBindings condition []
  return S.mayBeTrue constraints e

/-- `none` is a failed assertion or a byte past the end. The direct reads come in the order of the
addresses of their arrays. -/
def patchSeed (S : SeedSolver) (constraints : List Expr) (condition : Expr)
    (directReads : List (Array × Nat)) (seed : Seed) : Option Seed := do
  let (tmp, seed) ← patchBytes S directReads (constraints ++ [condition]) seed
  if ← mayHold S constraints condition seed then
    return seed
  let bytes := seed.flatMap fun p => (List.range p.1.size).map (p.1, ·)
  let (_, seed) ← patchBytes S bytes tmp seed
  if ← mayHold S constraints condition seed then
    return seed
  none

end SeedInfo

end Encider
