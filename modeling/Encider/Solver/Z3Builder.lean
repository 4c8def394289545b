import Encider.Solver.Z3Terms
import Encider.Solver.ArrayNames
import Encider.Expr.Syntax

/-! `Z3Builder`: expressions as terms. Where the evaluation order of the operands is left to the
compiler, it is from left to right. -/

namespace Encider

def Array.isConstantArray (a : Array) : Bool := !a.constantValues.isEmpty

namespace Z3Builder

open Z3 Z3.Handle

/-- The caches. An update node is told apart by its array and the writes from it on. -/
structure State where
  constructed : List (Expr × Handle × ℕ) := []
  arrays : List (Array × Handle) := []
  updates : List ((Array × UpdateList) × Handle) := []
  constantArrayAssertions : List (Array × List Handle) := []

/-- `none` is a failed assertion, or an error of Z3. -/
abbrev Construct := StateT State Option

/-- `buildArray` of the name that is meant to be unique, for `count` arrays in the hash. -/
def arrayTerm (root : Array) (count : ℕ) : Option Handle :=
  let unique_name := Encider.buildArray (uniqueName root.name.toList count)
  if 0 < root.domain ∧ 0 < root.range then
    some ⟨.const (String.ofList unique_name) (.array root.domain root.range)⟩
  else none

/-- `(= (select i root) root->value[i])` -/
def elementAssertion (root : Array) (array_expr : Handle) (i : ℕ) : Option Handle := do
  let value ← root.constantValues[i]?
  let array_value ← constructConstant root.range value
  let index ← bvConst32 root.domain (BitVec.ofNat 32 i)
  let element ← mkSelect array_expr index
  mkEq element array_value

def State.getInitialArray (root : Array) : Construct Handle := fun s =>
  match s.arrays.lookup root with
  | some array_expr => some (array_expr, s)
  | none => do
    let array_expr ← arrayTerm root s.arrays.length
    let assertions ←
      if root.isConstantArray && (s.constantArrayAssertions.lookup root).isNone then do
        let array_assertions ← (List.range root.size).mapM (elementAssertion root array_expr)
        some ((root, array_assertions) :: s.constantArrayAssertions)
      else some s.constantArrayAssertions
    some (array_expr, { s with
      arrays := (root, array_expr) :: s.arrays, constantArrayAssertions := assertions })

def getInitialRead (root : Array) (index : ℕ) : Construct Handle := do
  let array_expr ← State.getInitialArray root
  let index ← StateT.lift (bvConst32 32 (BitVec.ofNat 32 index))
  StateT.lift (mkSelect array_expr index)

/-- The update node's term, unless it is hashed. -/
def hashedUpdate (root : Array) (un : UpdateList) (build : Construct Handle) : Construct Handle :=
  fun s =>
    match s.updates.lookup (root, un) with
    | some un_expr => some (un_expr, s)
    | none => do
      let (un_expr, s) ← build s
      some (un_expr, { s with updates := ((root, un), un_expr) :: s.updates })

/-- `construct` looks an expression up before `constructActual`, if `UseConstructHashZ3` is set. -/
def hashed (useHash : Bool) (e : Expr) (constructActual : Construct (Handle × ℕ)) :
    Construct (Handle × ℕ) := fun s =>
  if useHash then
    match s.constructed.lookup e with
    | some r => some (r, s)
    | none => do
      let (r, s) ← constructActual s
      some (r, { s with constructed := (e, r) :: s.constructed })
  else constructActual s

/-- `assert(*width_out != 1 && "uncanonicalized ..")` -/
def assertWide (width : ℕ) : Construct Unit := if width = 1 then failure else pure ()

/-- An operation on words, and the assertion that the width does not change. -/
def wordOf (op : Smt.WordOp) (left right : Handle) (width : ℕ) : Construct (Handle × ℕ) := do
  let result ← StateT.lift (mkWord op left right)
  if getBVLength result = some width then return (result, width) else failure

/-- A constant divisor of at most 64 bits that is a power of two. -/
def singleBitDivisor : Expr → Option (BitVec 64)
  | .constant w v =>
    if w ≤ 64 ∧ bits64.isPowerOfTwo (v.setWidth 64) = true then some (v.setWidth 64) else none
  | _ => none

/-- `(unsigned)CE->getLimitedValue()` -/
def limitedValue {w : ℕ} (v : BitVec w) : ℕ := min v.toNat (2 ^ 64 - 1) % 2 ^ 32

section binary

variable (l r : Expr) (left right : Construct (Handle × ℕ))

def constructSum (op : Smt.WordOp) : Construct (Handle × ℕ) := do
  let left ← left
  let right ← right
  assertWide right.2
  wordOf op left.1 right.1 right.2

/-- The right operand comes first. -/
def constructMul : Construct (Handle × ℕ) := do
  let right ← right
  assertWide right.2
  let left ← left
  wordOf .mul left.1 right.1 left.2

def constructUDiv : Construct (Handle × ℕ) := do
  let left ← left
  assertWide left.2
  match singleBitDivisor r with
  | some divisor => do
    let shift ← StateT.lift (bits64.indexOfSingleBit divisor)
    let result ← StateT.lift (bvRightShift left.1 shift)
    return (result, left.2)
  | none => do
    let right ← right
    wordOf .udiv left.1 right.1 right.2

def constructSDiv : Construct (Handle × ℕ) := do
  let left ← left
  assertWide left.2
  let right ← right
  wordOf .sdiv left.1 right.1 right.2

/-- The remainder by `1 << bits`. -/
def lowBits (left : Handle) (width bits : ℕ) : Option Handle :=
  if bits = 0 then bvZero width
  else if width > bits then do
    let zero ← bvZero (width - bits)
    let low ← bvExtract left (bits - 1) 0
    mkConcat zero low
  else none

def constructURem : Construct (Handle × ℕ) := do
  let left ← left
  assertWide left.2
  match singleBitDivisor r with
  | some divisor => do
    let bits ← StateT.lift (bits64.indexOfSingleBit divisor)
    let result ← StateT.lift (lowBits left.1 left.2 bits)
    return (result, left.2)
  | none => do
    let right ← right
    wordOf .urem left.1 right.1 right.2

/-- The bitwise operations, on booleans and on words. -/
def constructBitwise (truth word : Handle → Handle → Option Handle) : Construct (Handle × ℕ) := do
  let left ← left
  let right ← right
  let result ← StateT.lift (if right.2 = 1 then truth left.1 right.1 else word left.1 right.1)
  return (result, right.2)

def xorTruth (left right : Handle) : Option Handle := do
  let other ← mkNot right
  mkIte left other right

/-- The shifts, by a constant and by a term. -/
def constructShift (byConstant : Handle → ℕ → ℕ → Option Handle)
    (byTerm : Handle → Handle → Option Handle) : Construct (Handle × ℕ) := do
  let left ← left
  assertWide left.2
  match r with
  | .constant _ v => do
    let result ← StateT.lift (byConstant left.1 left.2 (limitedValue v))
    return (result, left.2)
  | _ => do
    let amount ← right
    let result ← StateT.lift (byTerm left.1 amount.1)
    return (result, left.2)

def ashrByConstant (left : Handle) (width shift : ℕ) : Option Handle := do
  let signedBool ← bvBoolExtract left (width - 1)
  constructAShrByConstant left shift signedBool

/-- Booleans are compared with a constant on the left by taking or negating the other. -/
def eqTruth (left right : Handle) : Option Handle :=
  match l with
  | .constant w v => if w = 1 ∧ v.toNat = 1 then some right else mkNot right
  | _ => mkIff left right

def constructEq : Construct (Handle × ℕ) := do
  let left ← left
  let right ← right
  let result ← StateT.lift (
    if right.2 = 1 then eqTruth l left.1 right.1 else mkEq left.1 right.1)
  return (result, 1)

def constructCompare (relation : Smt.Relation) : Construct (Handle × ℕ) := do
  let left ← left
  let right ← right
  assertWide right.2
  let result ← StateT.lift (mkCompare relation left.1 right.1)
  return (result, 1)

/-- The cases with two operands; the kinds that canonicalization removes are not handled. -/
def constructBinary : BinaryKind → Construct (Handle × ℕ)
  | .add => constructSum left right .add
  | .sub => constructSum left right .sub
  | .mul => constructMul left right
  | .udiv => constructUDiv r left right
  | .sdiv => constructSDiv left right
  | .urem => constructURem r left right
  | .srem => constructSum left right .srem
  | .and => constructBitwise left right mkAnd (mkWord .and)
  | .or => constructBitwise left right mkOr (mkWord .or)
  | .xor => constructBitwise left right xorTruth (mkWord .xor)
  | .shl => constructShift r left right (fun left _ => bvLeftShift left) bvVarLeftShift
  | .lshr => constructShift r left right (fun left _ => bvRightShift left) bvVarRightShift
  | .ashr => constructShift r left right ashrByConstant bvVarArithRightShift
  | .eq => constructEq l left right
  | .ult => constructCompare left right .ult
  | .ule => constructCompare left right .ule
  | .slt => constructCompare left right .slt
  | .sle => constructCompare left right .sle
  | .ne | .ugt | .uge | .sgt | .sge => failure

end binary

def extractTerm (src : Handle) (offset width : ℕ) : Option Handle :=
  if width = 1 then bvBoolExtract src offset else bvExtract src (offset + width - 1) offset

def zextTerm (src : Handle) (srcWidth width : ℕ) : Option Handle :=
  if srcWidth = 1 then do
    let one ← bvOne width
    let zero ← bvZero width
    mkIte src one zero
  else if width > srcWidth then do
    let zero ← bvZero (width - srcWidth)
    mkConcat zero src
  else none

def bvSignExtend (src : Handle) (width : ℕ) : Option Handle := do
  let src_width ← getBVLength src
  if src_width ≤ width then mkSignExt (width - src_width) src else none

def sextTerm (src : Handle) (srcWidth width : ℕ) : Option Handle :=
  if srcWidth = 1 then do
    let ones ← bvMinusOne width
    let zero ← bvZero width
    mkIte src ones zero
  else bvSignExtend src width

mutual
/-- If the width that comes with it is not 1 then the term is a bit vector, otherwise a bool. -/
def construct (useHash : Bool) : Expr → Construct (Handle × ℕ)
  | .constant w v => do
    let result ← StateT.lift (constructConstant w v)
    return (result, w)
  | .notOptimized e => hashed useHash (.notOptimized e) (construct useHash e)
  | .read root us i => hashed useHash (.read root us i) do
    let array ← getArrayForUpdate useHash root us
    let index ← construct useHash i
    let result ← StateT.lift (mkSelect array index.1)
    return (result, root.range)
  | .select c t f => hashed useHash (.select c t f) do
    let cond ← construct useHash c
    let tExpr ← construct useHash t
    let fExpr ← construct useHash f
    let result ← StateT.lift (mkIte cond.1 tExpr.1 fExpr.1)
    return (result, fExpr.2)
  | .concat l r => hashed useHash (.concat l r) do
    let right ← construct useHash r
    let left ← construct useHash l
    let result ← StateT.lift (mkConcat left.1 right.1)
    return (result, l.getWidth + r.getWidth)
  | .extract e offset w => hashed useHash (.extract e offset w) do
    let src ← construct useHash e
    let result ← StateT.lift (extractTerm src.1 offset w)
    return (result, w)
  | .zext e w => hashed useHash (.zext e w) do
    let src ← construct useHash e
    let result ← StateT.lift (zextTerm src.1 src.2 w)
    return (result, w)
  | .sext e w => hashed useHash (.sext e w) do
    let src ← construct useHash e
    let result ← StateT.lift (sextTerm src.1 src.2 w)
    return (result, w)
  | .not e => hashed useHash (.not e) do
    let expr ← construct useHash e
    let result ← StateT.lift (if expr.2 = 1 then mkNot expr.1 else mkBvnot expr.1)
    return (result, expr.2)
  | .binary k l r => hashed useHash (.binary k l r)
    (constructBinary l r (construct useHash l) (construct useHash r) k)

def getArrayForUpdate (useHash : Bool) (root : Array) : UpdateList → Construct Handle
  | .nil => State.getInitialArray root
  | .cons i v next => hashedUpdate root (.cons i v next) do
    let array ← getArrayForUpdate useHash root next
    let index ← construct useHash i
    let value ← construct useHash v
    StateT.lift (mkStore array index.1 value.1)
end

/-- The calls of a builder. -/
inductive Call where
  | construct (e : Expr)
  | getInitialRead (root : Array) (index : ℕ)
  | clearConstructCache

/-- With the term that the call returns, if it does. -/
def Call.perform (useHash : Bool) : Call → Construct (Option Handle)
  | .construct e => do
    let result ← Z3Builder.construct useHash e
    return some result.1
  | .getInitialRead root index => do
    let result ← Z3Builder.getInitialRead root index
    return some result
  | .clearConstructCache => fun s => some (none, { s with constructed := [] })

end Z3Builder

end Encider
