import Mathlib

namespace Encider

abbrev Width := Nat

/-- A byte array. A constant array lists its contents, a symbolic one none. -/
structure Array where
  name : String
  size : Nat
  domain : Width := 32
  range : Width := 8
  constantValues : List (BitVec range) := []
deriving DecidableEq, Repr

/-- The kinds from `BinaryKindFirst` to `BinaryKindLast`. -/
inductive BinaryKind where
  | add | sub | mul | udiv | sdiv | urem | srem
  | and | or | xor | shl | lshr | ashr
  | eq | ne | ult | ule | ugt | uge | slt | sle | sgt | sge
deriving DecidableEq, Repr

def BinaryKind.isCmp : BinaryKind → Bool
  | .eq | .ne | .ult | .ule | .ugt | .uge | .slt | .sle | .sgt | .sge => true
  | _ => false

mutual
/-- The expression classes of `klee/Expr.h`. -/
inductive Expr where
  | constant (width : Width) (value : BitVec width)
  | notOptimized (src : Expr)
  | read (root : Array) (updates : UpdateList) (index : Expr)
  | select (cond trueExpr falseExpr : Expr)
  | concat (left right : Expr)
  | extract (expr : Expr) (offset : Nat) (width : Width)
  | zext (src : Expr) (width : Width)
  | sext (src : Expr) (width : Width)
  | not (expr : Expr)
  | binary (kind : BinaryKind) (left right : Expr)
deriving DecidableEq

/-- The writes below a read, newest first. -/
inductive UpdateList where
  | nil
  | cons (index value : Expr) (next : UpdateList)
deriving DecidableEq
end

namespace Expr

def getWidth : Expr → Width
  | constant w _ => w
  | notOptimized e => e.getWidth
  | read a _ _ => a.range
  | select _ t _ => t.getWidth
  | concat l r => l.getWidth + r.getWidth
  | extract _ _ w => w
  | zext _ w => w
  | sext _ w => w
  | not e => e.getWidth
  | binary k l _ => if k.isCmp then 1 else l.getWidth

/-- `ConstantExpr::alloc(v, w)`. -/
def const (v : Nat) (w : Width) : Expr :=
  constant w (BitVec.ofNat w v)

def isConstant : Expr → Bool
  | constant _ _ => true
  | _ => false

end Expr

mutual
def Expr.size : Expr → Nat
  | .constant _ _ => 1
  | .notOptimized e => e.size + 1
  | .read _ us i => us.size + i.size + 1
  | .select c t f => c.size + t.size + f.size + 1
  | .concat l r => l.size + r.size + 1
  | .extract e _ _ => e.size + 1
  | .zext e _ => e.size + 1
  | .sext e _ => e.size + 1
  | .not e => e.size + 1
  | .binary _ l r => l.size + r.size + 1

def UpdateList.size : UpdateList → Nat
  | .nil => 0
  | .cons i v next => i.size + v.size + next.size + 1
end

mutual
/-- The widths that the constructors assert of their operands. -/
def Expr.WellTyped : Expr → Prop
  | .constant _ _ => True
  | .notOptimized e => e.WellTyped
  | .read a us i => us.WellTyped a ∧ i.WellTyped ∧ i.getWidth = a.domain
  | .select c t f => c.WellTyped ∧ t.WellTyped ∧ f.WellTyped ∧
      c.getWidth = 1 ∧ t.getWidth = f.getWidth
  | .concat l r => l.WellTyped ∧ r.WellTyped
  | .extract e o w => e.WellTyped ∧ 0 < w ∧ o + w ≤ e.getWidth
  | .zext e w => e.WellTyped ∧ e.getWidth ≤ w
  | .sext e w => e.WellTyped ∧ e.getWidth ≤ w
  | .not e => e.WellTyped
  | .binary _ l r => l.WellTyped ∧ r.WellTyped ∧ l.getWidth = r.getWidth

def UpdateList.WellTyped (a : Array) : UpdateList → Prop
  | .nil => True
  | .cons i v next => i.WellTyped ∧ v.WellTyped ∧ i.getWidth = a.domain ∧
      v.getWidth = a.range ∧ next.WellTyped a
end

end Encider
