import Encider.Expr.Reduce
import Encider.Lib.Guarded

/-! `ExprEvaluator`, as an assignment of bytes runs it: an expression is rewritten from its kids
up, reads by the bytes that the array is bound to. -/

namespace Encider

open Encider.Expr Encider.Guarded

/-- `Assignment`: the bytes that arrays are bound to. -/
structure Bindings where
  allowFreeValues : Bool
  bindings : Array → Option (List (BitVec 8))

namespace Bindings

/-- `Assignment::evaluate` of an array at an index. -/
def getInitialValue (b : Bindings) (array : Array) (index : Nat) : Expr :=
  match (b.bindings array).bind (·[index]?) with
  | some byte => const byte.toNat array.range
  | none =>
    if b.allowFreeValues then ReadExpr.create array .nil (const index array.domain)
    else const 0 array.range

end Bindings

namespace ExprEvaluator

/-- A visit: of `visited`, and `none` where an assertion fails. -/
abbrev Visit := StateT Visited Option

/-- `visit`, around `visitActual`. -/
def remember (e : Expr) (actual : Visit Expr) : Visit Expr := fun visited =>
  match visited.find e with
  | some r => some (r, visited)
  | none => do
    let (r, visited) ← actual visited
    return (r, visited ++ [(e, r)])

def isRead : Expr → Bool
  | .read _ _ _ => true
  | _ => false

/-- `visitExpr`: constant kids are folded, but for a read. -/
def visitExpr (e : Expr) (action : Visit Expr) : Visit Expr :=
  if isRead e = false ∧ e.kids.all isConstant then StateT.lift (e.rebuild e.kids) else action

/-- `visitExprPost`. -/
def visitExprPost : Expr → Expr
  | .notOptimized src => src
  | e => e

def rebuildKids (e : Expr) (kids : List Expr) : Visit Expr :=
  if kids = e.kids then pure e else StateT.lift (e.rebuild kids)

/-- `DoChildren`. -/
def doChildren (e : Expr) (kids : List (Visit Expr)) : Visit Expr := do
  let kids ← inTurn kids
  let e ← rebuildKids e kids
  pure (visitExprPost e)

/-- A divisor that becomes zero stays as it was. -/
def unlessZero (right : Expr) : Expr → Expr
  | .constant w c => if c = 0 then right else .constant w c
  | r => r

def protectedDivOperation (k : BinaryKind) (left right : Expr) (visitLeft visitRight : Visit Expr) :
    Visit Expr := do
  let l ← visitLeft
  let r ← visitRight
  if l ≠ left ∨ unlessZero right r ≠ right then StateT.lift (k.create l (unlessZero right r))
  else pure (.binary k left right)

/-- An index as `unsigned`. -/
def toUnsigned (n : Nat) : Nat := n % 2 ^ 32

mutual
def visit (b : Bindings) : Expr → Visit Expr
  | .constant w v => pure (.constant w v)
  | .notOptimized e =>
    remember (.notOptimized e) (visitExpr (.notOptimized e)
      (doChildren (.notOptimized e) [visit b e]))
  | .read a us i =>
    remember (.read a us i) (visitExpr (.read a us i) (do
      match ← visit b i with
      | .constant w c =>
        if w ≤ 64 then evalRead b a (toUnsigned c.toNat) us else failure
      | _ => doChildren (.read a us i) [visit b i]))
  | .select c t f =>
    remember (.select c t f) (visitExpr (.select c t f)
      (doChildren (.select c t f) [visit b c, visit b t, visit b f]))
  | .concat l r =>
    remember (.concat l r) (visitExpr (.concat l r)
      (doChildren (.concat l r) [visit b l, visit b r]))
  | .extract e off w =>
    remember (.extract e off w) (visitExpr (.extract e off w)
      (doChildren (.extract e off w) [visit b e]))
  | .zext e w =>
    remember (.zext e w) (visitExpr (.zext e w) (doChildren (.zext e w) [visit b e]))
  | .sext e w =>
    remember (.sext e w) (visitExpr (.sext e w) (doChildren (.sext e w) [visit b e]))
  | .not e => remember (.not e) (visitExpr (.not e) (doChildren (.not e) [visit b e]))
  | .binary k l r =>
    remember (.binary k l r) (visitExpr (.binary k l r)
      (if k.isDivision then protectedDivOperation k l r (visit b l) (visit b r)
      else doChildren (.binary k l r) [visit b l, visit b r]))

/-- The loop over the writes, newest first. -/
def evalRead (b : Bindings) (root : Array) (index : Nat) : UpdateList → Visit Expr
  | .nil =>
    if root.constantValues ≠ [] ∧ index < root.size then
      StateT.lift (root.constantValues[index]?.map (.constant root.range))
    else pure (b.getInitialValue root index)
  | .cons i v next => do
    match ← visit b i with
    | .constant w c =>
      if w ≤ 64 then (if c.toNat = index then visit b v else evalRead b root index next)
      else failure
    | _ => pure (ReadExpr.create root (.cons i v next) (const index root.domain))
end

/-- What a visitor may have visited: whatever it was given before, one after the other. -/
inductive Cached (b : Bindings) : Visited → Prop
  | start : Cached b []
  | visit {visited visited' : Visited} {e r : Expr} (h : Cached b visited)
      (hv : visit b e visited = some (r, visited')) : Cached b visited'

end ExprEvaluator

end Encider
