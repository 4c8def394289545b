import Encider.Expr.Constraint
import Encider.Smtlib.Print

/-! `setQuery` and `generateOutput`: the scans of a query and the commands of its script. -/

namespace Encider.Smtlib

open Smt

/-- A query, and the arrays whose values are asked for. -/
structure Query where
  constraints : List Constraint
  expr : Expr
  arraysToCallGetValueOn : List Array := []

/-- What `scan` collects. -/
structure Scan where
  usedArrays : List Array := []
  seenExprs : List Expr := []
  bindings : BindingMap := []
  haveConstantArray : Bool := false

namespace Scan

/-- A new expression is scanned, another one gets a number if it has none. -/
def visit (s : Scan) (e : Expr) (into : Scan → Scan) : Scan :=
  if e ∈ s.seenExprs then
    if (s.bindings.lookup e).isSome then s
    else { s with bindings := s.bindings ++ [(e, (s.bindings.length : ℤ) + 1)] }
  else into { s with seenExprs := e :: s.seenExprs }

/-- The writes are scanned with the first read of an array only. -/
def use (s : Scan) (a : Array) (scanUpdates : Scan → Scan) : Scan :=
  if a ∈ s.usedArrays then s
  else scanUpdates { s with
    usedArrays := a :: s.usedArrays
    haveConstantArray := s.haveConstantArray || !a.constantValues.isEmpty }

end Scan

mutual
def scan : Expr → Scan → Scan
  | .constant _ _, s => s
  | .notOptimized e, s => s.visit (.notOptimized e) (scan e)
  | .read a us i, s => s.visit (.read a us i) fun s => scan i (s.use a (scanUpdates us))
  | .select c t f, s => s.visit (.select c t f) fun s => scan f (scan t (scan c s))
  | .concat l r, s => s.visit (.concat l r) fun s => scan r (scan l s)
  | .extract e low w, s => s.visit (.extract e low w) (scan e)
  | .zext e w, s => s.visit (.zext e w) (scan e)
  | .sext e w, s => s.visit (.sext e w) (scan e)
  | .not e, s => s.visit (.not e) (scan e)
  | .binary k l r, s => s.visit (.binary k l r) fun s => scan r (scan l s)

def scanUpdates : UpdateList → Scan → Scan
  | .nil, s => s
  | .cons i v next, s => scanUpdates next (scan v (scan i s))
end

/-- The expressions that `scanAll` scans. -/
def Query.roots (q : Query) : List Expr := q.constraints.map Subtype.val ++ [q.expr]

def scanAll (q : Query) : Scan := q.roots.foldl (fun s e => scan e s) {}

section
variable (before : Expr → Expr → Bool)

/-- A map in the order of its keys, which `before` gives. -/
def inOrder (m : BindingMap) : BindingMap :=
  m.insertionSort fun a b => before a.1 b.1 = true

/-- A kid that has a number, or what is found below it. -/
def BindingMap.below (bindings : BindingMap) (kid : Expr) (found : List Expr) : List Expr :=
  if kid.isConstant then []
  else if (bindings.lookup kid).isSome then [kid]
  else found

/-- The expressions with numbers that an expression uses without another one in between. -/
def usesSubExpr (bindings : BindingMap) : Expr → List Expr
  | .constant _ _ => []
  | .notOptimized e => bindings.below e (usesSubExpr bindings e)
  | .read _ _ i => bindings.below i (usesSubExpr bindings i)
  | .select c t f =>
      bindings.below c (usesSubExpr bindings c) ++ bindings.below t (usesSubExpr bindings t) ++
        bindings.below f (usesSubExpr bindings f)
  | .concat l r =>
      bindings.below l (usesSubExpr bindings l) ++ bindings.below r (usesSubExpr bindings r)
  | .extract e _ _ => bindings.below e (usesSubExpr bindings e)
  | .zext e _ => bindings.below e (usesSubExpr bindings e)
  | .sext e _ => bindings.below e (usesSubExpr bindings e)
  | .not e => bindings.below e (usesSubExpr bindings e)
  | .binary _ l r =>
      bindings.below l (usesSubExpr bindings l) ++ bindings.below r (usesSubExpr bindings r)

/-- The expressions that wait for others, with those they wait for. -/
abbrev Waiting := List (Expr × List Expr)

/-- One expression has its number: nobody waits for it any longer. -/
def Waiting.erase (w : Waiting) (e : Expr) : Waiting :=
  w.map fun d => (d.1, d.2.erase e)

/-- Those that waited for nothing else, when the expressions of a level have their numbers. -/
def Waiting.release : Waiting → List Expr → Waiting × List Expr
  | w, [] => (w, [])
  | w, e :: es =>
      let erased := w.erase e
      let ready := (erased.filter fun d => d.2.isEmpty).map Prod.fst
      let rest := Waiting.release (erased.filter fun d => !d.2.isEmpty) es
      (rest.1, ready ++ rest.2)

/-- The numbers of a level, from `counter` on. -/
def numberFrom (counter : ℕ) : List Expr → BindingMap
  | [] => []
  | e :: es => (e, (counter : ℤ)) :: numberFrom (counter + 1) es

theorem release_length (w : Waiting) (es : List Expr) :
    (w.release es).1.length + (w.release es).2.length = w.length := by
  induction es generalizing w with
  | nil => rfl
  | cons e es ih =>
    have h := ih ((w.erase e).filter fun d => !d.2.isEmpty)
    have hsplit := List.length_eq_length_filter_add (l := w.erase e) fun d => d.2.isEmpty
    simp only [Waiting.release, List.length_append, List.length_map] at h ⊢
    have hlen : (w.erase e).length = w.length := List.length_map _
    omega

/-- The levels of `scanBindingExprDeps`: an expression comes after all those it waits for. -/
def levels (w : Waiting) (ready : List Expr) (counter : ℕ) : List BindingMap :=
  let next := w.release ready
  numberFrom counter ready ::
    if next.2 = [] then [] else levels next.1 next.2 (counter + ready.length)
termination_by w.length
decreasing_by
  have h := release_length w ready
  have : 0 < (w.release ready).2.length := List.length_pos_of_ne_nil ‹_›
  omega

/-- `scanBindingExprDeps`, with the maps in order. -/
def scanBindingExprDeps (bindings : BindingMap) : List BindingMap :=
  let deps := (inOrder before bindings).map fun b => (b.1, (usesSubExpr bindings b.1).dedup)
  let nonDepBindings := (deps.filter fun d => d.2.isEmpty).map Prod.fst
  if bindings = [] then []
  else levels (deps.filter fun d => !d.2.isEmpty) nonDepBindings 1

variable (o : Options)

/-- The nested `let`s, each printed with the numbers of the levels around it, and all numbers. -/
def printLevels : List BindingMap → BindingMap → List (List (String × Term)) × BindingMap
  | [], bindings => ([], bindings)
  | level :: rest, bindings =>
      let terms := (inOrder before level).map fun b =>
        (abbreviation b.2,
          (printExpression o b.1 (printFullExpression o b.1) (getSort b.1) bindings).1)
      let inner := printLevels rest (bindings ++ level)
      (terms :: inner.1, inner.2)

/-- `printAssert`, with the numbers that it leaves. -/
def printAssert (orderedBindings : List BindingMap) (e : Expr) (bindings : BindingMap) :
    Assertion × BindingMap :=
  let outer :=
    if o.abbrMode = .abbrLet ∧ orderedBindings ≠ [] then printLevels before o orderedBindings []
    else ([], bindings)
  let body := printExpression o e (printFullExpression o e) .bool outer.2
  (⟨outer.1, body.1⟩, body.2)

/-- The expressions that are asserted, one by one or as one. -/
def Query.asserted (q : Query) : List Expr :=
  let queryAssert := Expr.createIsZero q.expr
  if o.humanReadable ∧ o.abbrMode ≠ .abbrLet then
    q.constraints.map Subtype.val ++ [queryAssert]
  else [q.constraints.foldl (fun e c => AndExpr.create e c.val) queryAssert]

def printAsserts (orderedBindings : List BindingMap) : List Expr → BindingMap → List Command
  | [], _ => []
  | e :: es, bindings =>
      let a := printAssert before o orderedBindings e bindings
      .assert a.1 :: printAsserts orderedBindings es a.2

/-- The assertion of one element of a constant array; its index is an `int`. -/
def printConstantValue (a : Array) (byteIndex : ℕ) (v : BitVec a.range) : Command :=
  .assert ⟨[], .app2 .eq
    (.app2 .select (.symbol a.name) (.numeral (BitVec.ofNat 32 byteIndex).toInt a.domain))
    (printConstant o.cdm v)⟩

def printConstantValues (a : Array) : List Command :=
  a.constantValues.mapIdx (printConstantValue o a)

/-- The arrays of the script, in the order of their names. -/
def Query.sortedArrays (q : Query) : List Array :=
  (q.arraysToCallGetValueOn.foldl (fun as a => if a ∈ as then as else a :: as)
    (scanAll q).usedArrays).insertionSort fun a b => a.name ≤ b.name

def printArrayDeclarations (q : Query) : List Command :=
  q.sortedArrays.map (fun a => .declareFun a.name a.domain a.range) ++
    if (scanAll q).haveConstantArray then q.sortedArrays.flatMap (printConstantValues o) else []

/-- `printAction` and `printExit`. -/
def printAction (q : Query) : List Command :=
  .checkSat :: q.arraysToCallGetValueOn.flatMap (fun a =>
    (List.range a.size).map fun index =>
      .getValue (.app2 .select (.symbol a.name) (.numeral index a.domain))) ++ [.exit]

/-- The levels of the `let`s. -/
def Query.orderedBindings (q : Query) : List BindingMap :=
  if o.abbrMode = .abbrLet then scanBindingExprDeps before (scanAll q).bindings else []

/-- `generateOutput`, after the options and the logic. -/
def generateOutput (q : Query) : List Command :=
  printArrayDeclarations o q ++
    (printAsserts before o (q.orderedBindings before o) (q.asserted o) (scanAll q).bindings ++
      printAction q)

end

end Encider.Smtlib
