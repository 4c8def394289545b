import Mathlib

/-! SMT-LIB 2 scripts over bit vectors and arrays. A script is read in an algebra, which says what
the literals and the operations are: in that of the sorts reading is the sort check, in that of the
values it is evaluation. -/

namespace Smt

/-- Operations on two words of one width. -/
inductive WordOp where
  | add | sub | mul | udiv | sdiv | urem | srem | and | or | xor | shl | lshr | ashr
deriving DecidableEq

inductive Relation where
  | ult | ule | ugt | uge | slt | sle | sgt | sge
deriving DecidableEq

inductive Op where
  | not | and | or | xor | eq | distinct | ite
  | bvnot | word (o : WordOp) | compare (r : Relation)
  | concat | extract (high low : ℕ) | zeroExtend (extra : ℕ) | signExtend (extra : ℕ)
  | select | store
deriving DecidableEq

/-- `#b` and `#x` literals have one and four bits to a digit. -/
inductive Term where
  | symbol (name : String)
  | bool (b : Bool)
  | numeral (value : ℤ) (width : ℕ)
  | digits (bitsEach : ℕ) (ds : List ℕ)
  | app1 (o : Op) (s : Term)
  | app2 (o : Op) (s t : Term)
  | app3 (o : Op) (s t u : Term)
  | named (t : Term) (name : String)
deriving DecidableEq

structure Algebra (D : Type) where
  bool : Bool → D
  bits : (w : ℕ) → BitVec w → D
  op : Op → List D → Option D

/-- What the symbols stand for, the newest first. -/
abbrev Scope (D : Type) := List (String × D)

section
variable {D : Type} (A : Algebra D)

/-- The literal of this value and width, if there is one. -/
def Algebra.literal (w : ℕ) (v : ℤ) : Option D :=
  if 0 < w ∧ 0 ≤ v ∧ v < 2 ^ w then some (A.bits w (BitVec.ofInt w v)) else none

/-- The value of a term, read from left to right, with the names that it defines. -/
def Term.run : Term → Scope D → Option (D × Scope D)
  | .symbol x, sc => (sc.lookup x).map fun d => (d, sc)
  | .bool b, sc => some (A.bool b, sc)
  | .numeral v w, sc => (A.literal w v).map fun d => (d, sc)
  | .digits k ds, sc =>
      if ∀ d ∈ ds, d < 2 ^ k then
        (A.literal (k * ds.length) ↑(Nat.ofDigits (2 ^ k : ℕ) ds.reverse)).map fun d => (d, sc)
      else none
  | .app1 o s, sc => do
      let (a, sc) ← s.run sc
      let d ← A.op o [a]
      some (d, sc)
  | .app2 o s t, sc => do
      let (a, sc) ← s.run sc
      let (b, sc) ← t.run sc
      let d ← A.op o [a, b]
      some (d, sc)
  | .app3 o s t u, sc => do
      let (a, sc) ← s.run sc
      let (b, sc) ← t.run sc
      let (c, sc) ← u.run sc
      let d ← A.op o [a, b, c]
      some (d, sc)
  | .named t x, sc => do
      let (d, sc) ← t.run sc
      if sc.lookup x = none then some (d, (x, d) :: sc) else none

theorem Term.run_app1 {o : Op} {s : Term} {a d : D} {sc sc₁ : Scope D}
    (hs : s.run A sc = some (a, sc₁)) (ho : A.op o [a] = some d) :
    (Term.app1 o s).run A sc = some (d, sc₁) := by
  simp only [Term.run, hs, ho, Option.bind_eq_bind, Option.bind_some]

theorem Term.run_app2 {o : Op} {s t : Term} {a b d : D} {sc sc₁ sc₂ : Scope D}
    (hs : s.run A sc = some (a, sc₁)) (ht : t.run A sc₁ = some (b, sc₂))
    (ho : A.op o [a, b] = some d) : (Term.app2 o s t).run A sc = some (d, sc₂) := by
  simp only [Term.run, hs, ht, ho, Option.bind_eq_bind, Option.bind_some]

theorem Term.run_app3 {o : Op} {s t u : Term} {a b c d : D} {sc sc₁ sc₂ sc₃ : Scope D}
    (hs : s.run A sc = some (a, sc₁)) (ht : t.run A sc₁ = some (b, sc₂))
    (hu : u.run A sc₂ = some (c, sc₃)) (ho : A.op o [a, b, c] = some d) :
    (Term.app3 o s t u).run A sc = some (d, sc₃) := by
  simp only [Term.run, hs, ht, hu, ho, Option.bind_eq_bind, Option.bind_some]

theorem Term.run_named {t : Term} {x : String} {d : D} {sc sc₁ : Scope D}
    (ht : t.run A sc = some (d, sc₁)) (hx : sc₁.lookup x = none) :
    (Term.named t x).run A sc = some (d, (x, d) :: sc₁) := by
  simp only [Term.run, ht, hx, Option.bind_eq_bind, Option.bind_some, if_true]

theorem Term.run_symbol {x : String} {d : D} {sc : Scope D} (h : sc.lookup x = some d) :
    (Term.symbol x).run A sc = some (d, sc) := by
  simp only [Term.run, h, Option.map_some]

/-- The terms bound side by side, each read in the scope around them. -/
def readAll (sc : Scope D) : List (String × Term) → Option (Scope D)
  | [] => some []
  | (x, t) :: bs => do
      let (d, _) ← t.run A sc
      let ds ← readAll sc bs
      some ((x, d) :: ds)

/-- Nested `let`s, the outermost first. -/
def bindLevels : List (List (String × Term)) → Scope D → Option (Scope D)
  | [], sc => some sc
  | bs :: rest, sc =>
      if (bs.map Prod.fst).Nodup then do
        let ds ← readAll A sc bs
        bindLevels rest (ds ++ sc)
      else none

end

/-- What is asserted: a term below nested `let`s. -/
structure Assertion where
  lets : List (List (String × Term))
  body : Term
deriving DecidableEq

inductive Command where
  | declareFun (name : String) (domain range : ℕ)
  | assert (a : Assertion)
  | checkSat
  | getValue (t : Term)
  | exit
deriving DecidableEq

section
variable {D : Type} (A : Algebra D)

/-- The value of the asserted term and all symbols that it could use. -/
def Assertion.run (a : Assertion) (sc : Scope D) : Option (D × Scope D) := do
  let sc ← bindLevels A a.lets sc
  a.body.run A sc

/-- The assertions of a script, read in order. The names that terms define stay visible, those of a
`let` do not. -/
def run (declared : String → ℕ → ℕ → D) : List Command → Scope D → Option (List (D × Scope D))
  | [], _ => some []
  | .declareFun x d r :: cs, sc =>
      if 0 < d ∧ 0 < r ∧ sc.lookup x = none then run declared cs ((x, declared x d r) :: sc)
      else none
  | .assert a :: cs, sc => do
      let (d, inner) ← a.run A sc
      let rest ← run declared cs (if a.lets = [] then inner else sc)
      some ((d, inner) :: rest)
  | .getValue t :: cs, sc => do
      let _ ← t.run A sc
      run declared cs sc
  | .checkSat :: cs, sc => run declared cs sc
  | .exit :: cs, sc => run declared cs sc

end

inductive Srt where
  | bool
  | bitVec (width : ℕ)
  | array (domain range : ℕ)
deriving DecidableEq

/-- The sort of an operation on operands of these sorts. -/
def Op.rank : Op → List Srt → Option Srt
  | .not, [.bool] => some .bool
  | .and, [.bool, .bool] => some .bool
  | .or, [.bool, .bool] => some .bool
  | .xor, [.bool, .bool] => some .bool
  | .eq, [.bool, .bool] => some .bool
  | .eq, [.bitVec m, .bitVec n] => if m = n then some .bool else none
  | .distinct, [.bool, .bool] => some .bool
  | .distinct, [.bitVec m, .bitVec n] => if m = n then some .bool else none
  | .ite, [.bool, .bool, .bool] => some .bool
  | .ite, [.bool, .bitVec m, .bitVec n] => if m = n then some (.bitVec m) else none
  | .bvnot, [.bitVec m] => some (.bitVec m)
  | .word _, [.bitVec m, .bitVec n] => if m = n then some (.bitVec m) else none
  | .compare _, [.bitVec m, .bitVec n] => if m = n then some .bool else none
  | .concat, [.bitVec m, .bitVec n] => some (.bitVec (m + n))
  | .extract high low, [.bitVec m] =>
      if low ≤ high ∧ high < m then some (.bitVec (high + 1 - low)) else none
  | .zeroExtend n, [.bitVec m] => some (.bitVec (m + n))
  | .signExtend n, [.bitVec m] => some (.bitVec (m + n))
  | .select, [.array d r, .bitVec m] => if m = d then some (.bitVec r) else none
  | .store, [.array d r, .bitVec m, .bitVec n] =>
      if m = d ∧ n = r then some (.array d r) else none
  | _, _ => none

def sorts : Algebra Srt where
  bool _ := .bool
  bits w _ := .bitVec w
  op := Op.rank

inductive Value where
  | bool (b : Bool)
  | bits (w : ℕ) (v : BitVec w)
  | array (d r : ℕ) (f : BitVec d → BitVec r)

/-- Division by zero gives all ones, and the remainder is then the dividend. -/
def WordOp.apply {w : ℕ} (x y : BitVec w) : WordOp → BitVec w
  | .add => x + y
  | .sub => x - y
  | .mul => x * y
  | .udiv => x.smtUDiv y
  | .sdiv => x.smtSDiv y
  | .urem => x % y
  | .srem => x.srem y
  | .and => x &&& y
  | .or => x ||| y
  | .xor => x ^^^ y
  | .shl => x <<< y.toNat
  | .lshr => x >>> y.toNat
  | .ashr => x.sshiftRight y.toNat

def Relation.holds {w : ℕ} (x y : BitVec w) : Relation → Bool
  | .ult => x.ult y
  | .ule => x.ule y
  | .ugt => y.ult x
  | .uge => y.ule x
  | .slt => x.slt y
  | .sle => x.sle y
  | .sgt => y.slt x
  | .sge => y.sle x

/-- The value of an operation. Arrays are not compared. -/
def Op.apply : Op → List Value → Option Value
  | .not, [.bool a] => some (.bool !a)
  | .and, [.bool a, .bool b] => some (.bool (a && b))
  | .or, [.bool a, .bool b] => some (.bool (a || b))
  | .xor, [.bool a, .bool b] => some (.bool (a ^^ b))
  | .eq, [.bool a, .bool b] => some (.bool (a == b))
  | .eq, [.bits m a, .bits n b] => if m = n then some (.bool (a == b.setWidth m)) else none
  | .distinct, [.bool a, .bool b] => some (.bool (a != b))
  | .distinct, [.bits m a, .bits n b] => if m = n then some (.bool (a != b.setWidth m)) else none
  | .ite, [.bool c, .bool a, .bool b] => some (.bool (if c then a else b))
  | .ite, [.bool c, .bits m a, .bits n b] =>
      if m = n then some (.bits m (if c then a else b.setWidth m)) else none
  | .bvnot, [.bits m a] => some (.bits m (~~~ a))
  | .word o, [.bits m a, .bits n b] =>
      if m = n then some (.bits m (o.apply a (b.setWidth m))) else none
  | .compare r, [.bits m a, .bits n b] =>
      if m = n then some (.bool (r.holds a (b.setWidth m))) else none
  | .concat, [.bits m a, .bits n b] => some (.bits (m + n) (a ++ b))
  | .extract high low, [.bits m a] =>
      if low ≤ high ∧ high < m then some (.bits (high + 1 - low) (a.extractLsb' low _)) else none
  | .zeroExtend n, [.bits m a] => some (.bits (m + n) (a.setWidth (m + n)))
  | .signExtend n, [.bits m a] => some (.bits (m + n) (a.signExtend (m + n)))
  | .select, [.array d r f, .bits m i] =>
      if m = d then some (.bits r (f (i.setWidth d))) else none
  | .store, [.array d r f, .bits m i, .bits n v] =>
      if m = d ∧ n = r then
        some (.array d r (Function.update f (i.setWidth d) (v.setWidth r)))
      else none
  | _, _ => none

def values : Algebra Value where
  bool := .bool
  bits := .bits
  op := Op.apply

/-- Every symbol is declared or defined before it is used, every operation has operands of its
sorts, and what is asserted is boolean. -/
def WellSorted (cs : List Command) : Prop :=
  ∃ out, run sorts (fun _ d r => .array d r) cs [] = some out ∧ ∀ r ∈ out, r.1 = .bool

/-- The assertions are true where the declared symbols have these values. -/
def Holds (declared : String → ℕ → ℕ → Value) (cs : List Command) : Prop :=
  ∃ out, run values declared cs [] = some out ∧ ∀ r ∈ out, r.1 = .bool true

end Smt
