import Encider.Expr.Evaluator

/-! `ImpliedValue::getImpliedValues`: the reads whose values follow from the value of an
expression. -/

namespace Encider

open Encider.Expr

/-- A `ConstantExpr`. -/
abbrev ConstantWord := (w : Width) × BitVec w

namespace ConstantWord

/-- An operation of `APInt`, which asserts that the widths are the same. -/
def zipWith (f : {w : Width} → BitVec w → BitVec w → BitVec w) (x y : ConstantWord) :
    Option ConstantWord :=
  if h : y.1 = x.1 then some ⟨x.1, f x.2 (y.2.cast h)⟩ else none

def sub : ConstantWord → ConstantWord → Option ConstantWord := zipWith fun x y => x - y

def xor : ConstantWord → ConstantWord → Option ConstantWord := zipWith fun x y => x ^^^ y

def not (x : ConstantWord) : ConstantWord := ⟨x.1, ~~~ x.2⟩

def extract (x : ConstantWord) (off : Nat) (w : Width) : ConstantWord :=
  ⟨w, (x.2.sshiftRight off).setWidth w⟩

def isTrue (x : ConstantWord) : Bool := x.1 = 1 && x.2.toNat = 1

def isZero (x : ConstantWord) : Bool := x.2 = 0

end ConstantWord

/-- `dyn_cast<ConstantExpr>`. -/
def Expr.asConstant : Expr → Option ConstantWord
  | .constant w v => some ⟨w, v⟩
  | _ => none

namespace ImpliedValue

/-- A `ref<ConstantExpr>`, which may be null. -/
abbrev ConstantRef := Option ConstantWord

/-- A read with its value. -/
abbrev Implied := (Array × UpdateList × Expr) × ConstantRef

/-- The results of two calls. -/
def both (x y : Option (List Implied)) : Option (List Implied) := do
  let xs ← x
  let ys ← y
  return xs ++ ys

/-- What a constant on the left leaves for the right. -/
def throughConstant (op : ConstantWord → ConstantWord → Option ConstantWord) (left : Expr)
    (value : ConstantRef) (right : ConstantRef → Option (List Implied)) : Option (List Implied) :=
  match left.asConstant with
  | some c => do
    let v ← value
    let u ← op v c
    right (some u)
  | none => some []

/-- `none` is a failed assertion or a null that is dereferenced. The branches of a choice are
compared as pointers: `same` tells where two constant ones are one object, for the path to the
choice. -/
def getImpliedValues (same : List Nat → Bool) :
    List Nat → Expr → ConstantRef → Option (List Implied)
  | _, .constant w c, value => do
    let v ← value
    if v = ⟨w, c⟩ then some [] else none
  | _, .notOptimized _, _ => some []
  | _, .read a us i, value => some [((a, us, i), value)]
  | path, .select cond t f, value =>
    match t.asConstant, f.asConstant with
    | some t, some f =>
      if t = f ∧ same path then some []
      else do
        let v ← value
        if v = t then getImpliedValues same (0 :: path) cond (some ⟨1, 1⟩)
        else if v = f then getImpliedValues same (0 :: path) cond (some ⟨1, 0⟩)
        else none
    | _, _ => some []
  | path, .concat l r, value => do
    let v ← value
    both (getImpliedValues same (0 :: path) l (some (v.extract r.getWidth l.getWidth)))
      (getImpliedValues same (1 :: path) r (some (v.extract 0 r.getWidth)))
  | _, .extract _ _ _, _ => some []
  | path, .zext src _, value => do
    let v ← value
    getImpliedValues same (0 :: path) src (some (v.extract 0 src.getWidth))
  | path, .sext src _, value => do
    let v ← value
    getImpliedValues same (0 :: path) src (some (v.extract 0 src.getWidth))
  | _, .not _, _ => some []
  | path, .binary k l r, value =>
    match k with
    | .add => throughConstant ConstantWord.sub l value (getImpliedValues same (1 :: path) r)
    | .sub => throughConstant (fun v c => c.sub v) l value (getImpliedValues same (1 :: path) r)
    | .and =>
      if l.getWidth = 1 then do
        let v ← value
        if v.isTrue then
          both (getImpliedValues same (0 :: path) l (some v))
            (getImpliedValues same (1 :: path) r (some v))
        else some []
      else some []
    | .or => do
      let v ← value
      -- the value passed on is the null pointer
      if v.isZero then
        both (getImpliedValues same (0 :: path) l none) (getImpliedValues same (1 :: path) r none)
      else some []
    | .xor => throughConstant ConstantWord.xor l value (getImpliedValues same (1 :: path) r)
    -- falls through to a cast to `EqExpr`
    | .ne => none
    | .eq => do
      let v ← value
      match l.asConstant with
      | some c =>
        if v.isTrue then getImpliedValues same (1 :: path) r (some c)
        else if c.1 = 1 then getImpliedValues same (1 :: path) r (some c.not)
        else some []
      | none => some []
    | _ => some []

end ImpliedValue

end Encider
