import Encider.Expr.Create
import Encider.Lib.Smt

/-! `ExprSMTLIBPrinter`: the terms that it writes for expressions. Blanks, line breaks and comments
are left out, and with them the indentation. -/

namespace Encider.Smtlib

open Smt

inductive ConstantDisplayMode where
  | binary | hex | decimal
deriving DecidableEq

inductive AbbreviationMode where
  | abbrNone | abbrLet | abbrNamed
deriving DecidableEq

/-- `SMTLIB_SORT`. -/
inductive SmtlibSort where
  | bitvector | bool
deriving DecidableEq

structure Options where
  cdm : ConstantDisplayMode := .decimal
  abbrMode : AbbreviationMode := .abbrLet
  humanReadable : Bool := false

/-- The numbers of the abbreviated expressions. With `:named` a negative one has been written. -/
abbrev BindingMap := List (Expr × ℤ)

/-- `bindings[e] = i` for an expression that has a number. -/
def BindingMap.assign (bindings : BindingMap) (e : Expr) (i : ℤ) : BindingMap :=
  bindings.map fun b => if b.1 = e then (e, i) else b

/-- What is written of an expression, and the numbers afterwards. -/
abbrev Printer := BindingMap → Term × BindingMap

/-- `?B` and a number. -/
def abbreviation (i : ℤ) : String := "?B" ++ toString i

def app1 (o : Op) (p : Printer) : Printer := fun bindings =>
  let s := p bindings
  (.app1 o s.1, s.2)

def app2 (o : Op) (p q : Printer) : Printer := fun bindings =>
  let s := p bindings
  let t := q s.2
  (.app2 o s.1 t.1, t.2)

def app3 (o : Op) (p q r : Printer) : Printer := fun bindings =>
  let s := p bindings
  let t := q s.2
  let u := r t.2
  (.app3 o s.1 t.1 u.1, u.2)

def BinaryKind.isLogical : BinaryKind → Bool
  | .and | .or | .xor => true
  | _ => false

/-- The sort of an expression that has a version for each. -/
def sortOfWidth (w : Width) : SmtlibSort := if w = 1 then .bool else .bitvector

def getSort : Expr → SmtlibSort
  | .notOptimized e => getSort e
  | .constant w _ => sortOfWidth w
  | .not e => sortOfWidth e.getWidth
  | .binary k l _ =>
      if k.isCmp then .bool
      else if BinaryKind.isLogical k then sortOfWidth l.getWidth
      else .bitvector
  | _ => .bitvector

/-- `APInt::toString`. -/
def radixDigits (radix n : ℕ) : List ℕ := if n = 0 then [0] else (Nat.digits radix n).reverse

/-- A literal with leading zeros; their number is an `unsigned int`. -/
def zeroPadded (bitsEach width : ℕ) (ds : List ℕ) : Term :=
  .digits bitsEach (List.replicate (BitVec.ofInt 32 (width / bitsEach - ds.length)).toNat 0 ++ ds)

def printConstant (cdm : ConstantDisplayMode) {w : Width} (v : BitVec w) : Term :=
  if w = 1 ∧ v.toNat = 1 then .bool true
  else if w = 1 ∧ v.toNat = 0 then .bool false
  else
    match cdm with
    | .binary => zeroPadded 1 w (radixDigits 2 v.toNat)
    | .hex => zeroPadded 4 w (radixDigits 16 v.toNat)
    | .decimal => .numeral v.toNat w

section
variable (o : Options)

/-- The switch over the abbreviation mode in `printExpression`. -/
def abbreviated (e : Expr) (full : Printer) : Printer := fun bindings =>
  match o.abbrMode, bindings.lookup e with
  | .abbrLet, some i => (.symbol (abbreviation i), bindings)
  | .abbrNamed, some i =>
      if 0 < i then
        let t := full bindings
        (.named t.1 (abbreviation i), BindingMap.assign t.2 e (-i))
      else (.symbol (abbreviation (-i)), bindings)
  | _, _ => full bindings

def printCastToSort (e : Expr) (p : Printer) : SmtlibSort → Printer
  | .bitvector => fun bindings =>
      let t := p bindings
      (.app3 .ite t.1 (.numeral 1 1) (.numeral 0 1), t.2)
  | .bool => fun bindings =>
      let t := p bindings
      (.app2 (.compare .ugt) t.1 (.numeral 0 e.getWidth), t.2)

/-- `printExpression`, given `printFullExpression` of the expression. -/
def printExpression (e : Expr) (full : SmtlibSort → Printer) (expectedSort : SmtlibSort) :
    Printer :=
  if getSort e = expectedSort then abbreviated o e (full expectedSort)
  else printCastToSort e (abbreviated o e (full (getSort e))) expectedSort

/-- `printConstant` in `printExpression`. -/
def printWord {w : Width} (v : BitVec w) : Printer :=
  printExpression o (.constant w v) (fun _ bindings => (printConstant o.cdm v, bindings)) .bitvector

/-- The keyword of an operation on words. The other kinds have no keyword of their own here. -/
def getSMTLIBKeyword : BinaryKind → Op
  | .add => .word .add
  | .sub => .word .sub
  | .mul => .word .mul
  | .udiv => .word .udiv
  | .sdiv => .word .sdiv
  | .urem => .word .urem
  | .srem => .word .srem
  | .shl => .word .shl
  | .lshr => .word .lshr
  | .ashr => .word .ashr
  | .and => .word .and
  | .or => .word .or
  | .xor => .word .xor
  | .eq => .eq
  | .ne => .distinct
  | .ult => .compare .ult
  | .ule => .compare .ule
  | .ugt => .compare .ugt
  | .uge => .compare .uge
  | .slt => .compare .slt
  | .sle => .compare .sle
  | .sgt => .compare .sgt
  | .sge => .compare .sge

/-- The keyword of `And`, `Or` and `Xor` where booleans are expected. -/
def logicalKeyword : BinaryKind → Op
  | .and => .and
  | .or => .or
  | .xor => .xor
  | k => getSMTLIBKeyword k

mutual
def printFullExpression : Expr → SmtlibSort → Printer
  | .constant _ v, _ => fun bindings => (printConstant o.cdm v, bindings)
  | .notOptimized e, s => printExpression o e (printFullExpression e) s
  | .read a us i, _ =>
      app2 .select (printUpdatesAndArray a us)
        (printExpression o i (printFullExpression i) .bitvector)
  | .select c t f, s =>
      app3 .ite (printExpression o c (printFullExpression c) .bool)
        (printExpression o t (printFullExpression t) s)
        (printExpression o f (printFullExpression f) s)
  | .concat l r, _ =>
      app2 .concat (printExpression o l (printFullExpression l) .bitvector)
        (printExpression o r (printFullExpression r) .bitvector)
  | .extract e low w, _ =>
      app1 (.extract (low + w - 1) low) (printExpression o e (printFullExpression e) .bitvector)
  | .zext e w, _ =>
      app1 (.zeroExtend (w - e.getWidth)) (printExpression o e (printFullExpression e) .bitvector)
  | .sext e w, _ =>
      app1 (.signExtend (w - e.getWidth)) (printExpression o e (printFullExpression e) .bitvector)
  | .not e, s =>
      app1 (if s = .bitvector then .bvnot else .not)
        (printExpression o e (printFullExpression e) s)
  | .binary k l r, s =>
      if k = .eq ∨ k = .ne then
        app2 (getSMTLIBKeyword k) (printExpression o l (printFullExpression l) (getSort l))
          (printExpression o r (printFullExpression r) (getSort l))
      else if BinaryKind.isLogical k then
        app2 (if s = .bitvector then getSMTLIBKeyword k else logicalKeyword k)
          (printExpression o l (printFullExpression l) s)
          (printExpression o r (printFullExpression r) s)
      else if k = .ashr then
        -- shifting by the width or more gives zero, which is not so for `bvashr`
        app3 .ite
          (app2 (.compare .uge) (printExpression o r (printFullExpression r) .bitvector)
            (printWord o (BitVec.ofNat l.getWidth l.getWidth)))
          (printWord o (BitVec.ofNat l.getWidth 0))
          (app2 (.word .ashr) (printExpression o l (printFullExpression l) .bitvector)
            (printExpression o r (printFullExpression r) .bitvector))
      else
        app2 (getSMTLIBKeyword k) (printExpression o l (printFullExpression l) .bitvector)
          (printExpression o r (printFullExpression r) .bitvector)

def printUpdatesAndArray (root : Array) : UpdateList → Printer
  | .nil => fun bindings => (.symbol root.name, bindings)
  | .cons i v next =>
      app3 .store (printUpdatesAndArray root next)
        (printExpression o i (printFullExpression i) .bitvector)
        (printExpression o v (printFullExpression v) .bitvector)
end

end

end Encider.Smtlib
