import Encider.Expr.Value

/-! The simplifying constructors of `lib/Expr/Expr.cpp`, with the option
`const-array-opt` at its default (off). -/

namespace Encider

open Encider.Expr

/-- The `ConstantExpr` operation of a binary kind. -/
def ConstantExpr.fold (k : BinaryKind) {w : Width} (a : BitVec w) {v : Width} (b : BitVec v) :
    Expr :=
  const (k.apply a (b.setWidth w)) (if k.isCmp then 1 else w)

namespace AndExpr

def createPartial (l : Expr) {w : Width} (cr : BitVec w) : Expr :=
  if cr = BitVec.allOnes w then l
  else if cr = 0 then constant w cr
  else .binary .and l (constant w cr)

def create (l r : Expr) : Expr :=
  match l, r with
  | .constant _ cl, .constant _ cr => ConstantExpr.fold .and cl cr
  | .constant _ cl, r => createPartial r cl
  | l, .constant _ cr => createPartial l cr
  | l, r => .binary .and l r

theorem create_nonconstant (l : Expr) {r : Expr} (hr : r.isConstant = false) :
    create l r = match l with
      | .constant _ cl => createPartial r cl
      | l => .binary .and l r := by
  cases r with
  | constant w v => cases hr
  | _ => cases l <;> rfl

end AndExpr

namespace OrExpr

def createPartial (l : Expr) {w : Width} (cr : BitVec w) : Expr :=
  if cr = BitVec.allOnes w then constant w cr
  else if cr = 0 then l
  else .binary .or l (constant w cr)

def create (l r : Expr) : Expr :=
  match l, r with
  | .constant _ cl, .constant _ cr => ConstantExpr.fold .or cl cr
  | .constant _ cl, r => createPartial r cl
  | l, .constant _ cr => createPartial l cr
  | l, r => .binary .or l r

end OrExpr

namespace EqExpr

/-- `EqExpr_create`. -/
def createSame (l r : Expr) : Expr :=
  if l = r then const 1 1 else .binary .eq l r

/-- `EqExpr::create(e, c)` for a constant `c`, given `EqExpr_createPartialR(c, e)`. -/
def createConst {w : Width} (c : BitVec w) (e partialR : Expr) : Expr :=
  match e with
  | .constant _ a => ConstantExpr.fold .eq a c
  | _ => partialR

/-- `EqExpr_createPartialR`. -/
def createPartialR {w : Width} (cl : BitVec w) : Expr → Expr
  | .binary k l r =>
      if w = 1 then
        if cl.toNat = 1 then .binary k l r
        else if k = .eq ∧ l = const 0 1 then r
        else if k = .or then
          AndExpr.create
            (createConst (0 : BitVec l.getWidth) l (createPartialR (0 : BitVec l.getWidth) l))
            (createConst (0 : BitVec r.getWidth) r (createPartialR (0 : BitVec r.getWidth) r))
        else createSame (constant w cl) (.binary k l r)
      else
        match k, l with
        | .add, .constant _ c => createPartialR (cl - c.setWidth w) r
        | .sub, .constant _ c => createPartialR (c.setWidth w - cl) r
        | _, _ => createSame (constant w cl) (.binary k l r)
  | .sext src v =>
      if w = 1 then
        if cl.toNat = 1 then .sext src v else createSame (constant w cl) (.sext src v)
      else
        let trunc := cl.setWidth src.getWidth
        if cl = trunc.signExtend w then createConst trunc src (createPartialR trunc src)
        else const 0 1
  | .zext src v =>
      if w = 1 then
        if cl.toNat = 1 then .zext src v else createSame (constant w cl) (.zext src v)
      else
        let trunc := cl.setWidth src.getWidth
        if cl = trunc.setWidth w then createConst trunc src (createPartialR trunc src)
        else const 0 1
  | r =>
      if w = 1 ∧ cl.toNat = 1 then r else createSame (constant w cl) r

def create (l r : Expr) : Expr :=
  match l, r with
  | .constant _ cl, .constant _ cr => ConstantExpr.fold .eq cl cr
  | .constant _ cl, r => createPartialR cl r
  | l, .constant _ cr => createPartialR cr l
  | l, r => createSame l r

end EqExpr

/-- `Expr::createIsZero`. -/
def Expr.createIsZero (e : Expr) : Expr :=
  EqExpr.create e (const 0 e.getWidth)

end Encider
