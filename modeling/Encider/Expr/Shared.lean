import Encider.Expr.Hash

/-!
Expressions as objects in memory: each has an address, kids and update nodes may be shared or
built twice. `Obj ℕ` has the addresses, `Obj Unit` only the structure.
-/

namespace Encider

/-- An array is compared by its address and its name. -/
structure ArrayRef where
  address : ℕ
  name : String
deriving DecidableEq

inductive CastKind where
  | zext | sext
deriving DecidableEq

mutual
/-- The expression classes with the fields they store. -/
inductive Obj (ι : Type) where
  | constant (id : ι) (width : Width) (value : BitVec width)
  | notOptimized (id : ι) (src : Obj ι)
  | read (id : ι) (root : ArrayRef) (head : Updates ι) (index : Obj ι)
  | select (id : ι) (cond trueExpr falseExpr : Obj ι)
  | concat (id : ι) (width : Width) (left right : Obj ι)
  | extract (id : ι) (expr : Obj ι) (offset : ℕ) (width : Width)
  | cast (id : ι) (kind : CastKind) (src : Obj ι) (width : Width)
  | not (id : ι) (expr : Obj ι)
  | binary (id : ι) (kind : BinaryKind) (left right : Obj ι)

/-- A chain of update nodes, the most recent first. -/
inductive Updates (ι : Type) where
  | nil
  | cons (id : ι) (index value : Obj ι) (next : Updates ι)
end

variable {ι : Type}

namespace Obj

def id : Obj ι → ι
  | constant i .. | notOptimized i .. | read i .. | select i .. | concat i .. | extract i ..
  | cast i .. | not i .. | binary i .. => i

/-- The enumeration `Expr::Kind`. -/
def kind : Obj ι → ℕ
  | constant .. => 0
  | notOptimized .. => 1
  | read .. => 3
  | select .. => 4
  | concat .. => 5
  | extract .. => 6
  | cast _ .zext .. => 7
  | cast _ .sext .. => 8
  | not .. => 9
  | binary _ k .. => k.number

def kids : Obj ι → List (Obj ι)
  | constant .. => []
  | notOptimized _ e => [e]
  | read _ _ _ i => [i]
  | select _ c t f => [c, t, f]
  | concat _ _ l r => [l, r]
  | extract _ e _ _ => [e]
  | cast _ _ e _ => [e]
  | not _ e => [e]
  | binary _ _ l r => [l, r]

end Obj

/-- `UpdateNode::size`, an unsigned counter. -/
def Updates.getSize : Updates ι → ℕ
  | .nil => 0
  | .cons _ _ _ next => (1 + next.getSize) % 2 ^ 32

def Updates.length : Updates ι → ℕ
  | .nil => 0
  | .cons _ _ _ next => next.length + 1

theorem Updates.getSize_eq (us : Updates ι) : us.getSize = us.length % 2 ^ 32 := by
  cases us with
  | nil => rfl
  | cons i a v next =>
    have ih := next.getSize_eq
    rw [getSize, length, ih]
    omega

mutual
/-- The number of objects below one, for the recursion. -/
def Obj.weight : Obj ι → ℕ
  | .constant .. => 1
  | .notOptimized _ e => e.weight + 1
  | .read _ _ us i => us.weight + i.weight + 1
  | .select _ c t f => c.weight + t.weight + f.weight + 1
  | .concat _ _ l r => l.weight + r.weight + 1
  | .extract _ e _ _ => e.weight + 1
  | .cast _ _ e _ => e.weight + 1
  | .not _ e => e.weight + 1
  | .binary _ _ l r => l.weight + r.weight + 1

def Updates.weight : Updates ι → ℕ
  | .nil => 0
  | .cons _ i v next => i.weight + v.weight + next.weight + 1
end

theorem Obj.weight_kids (x : Obj ι) : (x.kids.map Obj.weight).sum < x.weight := by
  cases x <;> (simp [kids, weight]; try omega)

theorem Obj.weight_pos (x : Obj ι) : 0 < x.weight := by
  cases x <;> simp [weight]

mutual
/-- The hash an object stores; the constructors compute it from the hashes below. -/
def Obj.hash (hv : HashValue) : Obj ι → BitVec 32
  | .constant _ w v => hv w v ^^^ (BitVec.ofNat 32 w * 39)
  | .notOptimized _ e => hashKids 1 [e.hash hv]
  | .read _ root us i => (i.hash hv * 39) ^^^
      (root.name.toList.foldl (fun res c => res * 39 + BitVec.ofNat 32 c.toNat) 0 ^^^ us.hash hv)
  | .select _ c t f => hashKids 4 [c.hash hv, t.hash hv, f.hash hv]
  | .concat _ _ l r => hashKids 5 [l.hash hv, r.hash hv]
  | .extract _ e o w =>
      (BitVec.ofNat 32 o * 39) ^^^ (BitVec.ofNat 32 w * 39) ^^^ (e.hash hv * 39)
  | .cast _ _ e w => (BitVec.ofNat 32 w * 39) ^^^ (e.hash hv * 39)
  | .not _ e => e.hash hv * 39 * 9
  | .binary _ k l r => hashKids k.number [l.hash hv, r.hash hv]

def Updates.hash (hv : HashValue) : Updates ι → BitVec 32
  | .nil => 0
  | .cons _ i v next => (i.hash hv ^^^ v.hash hv) ^^^ next.hash hv
end

mutual
/-- The structure without the addresses. -/
def Obj.erase : Obj ι → Obj Unit
  | .constant _ w v => .constant () w v
  | .notOptimized _ e => .notOptimized () e.erase
  | .read _ root us i => .read () root us.erase i.erase
  | .select _ c t f => .select () c.erase t.erase f.erase
  | .concat _ w l r => .concat () w l.erase r.erase
  | .extract _ e o w => .extract () e.erase o w
  | .cast _ k e w => .cast () k e.erase w
  | .not _ e => .not () e.erase
  | .binary _ k l r => .binary () k l.erase r.erase

def Updates.erase : Updates ι → Updates Unit
  | .nil => .nil
  | .cons _ i v next => .cons () i.erase v.erase next.erase
end

mutual
/-- A hash is a function of the structure. -/
theorem Obj.hash_erase (hv : HashValue) : ∀ x : Obj ι, x.erase.hash hv = x.hash hv
  | .constant .. => rfl
  | .notOptimized _ e => by simp only [Obj.erase, Obj.hash, e.hash_erase hv]
  | .read _ _ us i => by simp only [Obj.erase, Obj.hash, us.hash_erase hv, i.hash_erase hv]
  | .select _ c t f => by
    simp only [Obj.erase, Obj.hash, c.hash_erase hv, t.hash_erase hv, f.hash_erase hv]
  | .concat _ _ l r => by simp only [Obj.erase, Obj.hash, l.hash_erase hv, r.hash_erase hv]
  | .extract _ e _ _ => by simp only [Obj.erase, Obj.hash, e.hash_erase hv]
  | .cast _ _ e _ => by simp only [Obj.erase, Obj.hash, e.hash_erase hv]
  | .not _ e => by simp only [Obj.erase, Obj.hash, e.hash_erase hv]
  | .binary _ _ l r => by simp only [Obj.erase, Obj.hash, l.hash_erase hv, r.hash_erase hv]

theorem Updates.hash_erase (hv : HashValue) : ∀ us : Updates ι, us.erase.hash hv = us.hash hv
  | .nil => rfl
  | .cons _ i v next => by
    simp only [Updates.erase, Updates.hash, i.hash_erase hv, v.hash_erase hv, next.hash_erase hv]
end

/-! ### Comparison -/

/-- `ExprEquivSet`: pairs of addresses, the lower one first. -/
abbrev ExprEquivSet := List (ℕ × ℕ)

def pairOf (a b : ℕ) : ℕ × ℕ := if a < b then (a, b) else (b, a)

/-- `if (int res = …) return res;` before the next step. -/
def unlessDecided (r : Option (Ordering × ExprEquivSet))
    (next : ExprEquivSet → Option (Ordering × ExprEquivSet)) : Option (Ordering × ExprEquivSet) :=
  match r with
  | none => none
  | some (.eq, equivs) => next equivs
  | some (res, equivs) => some (res, equivs)

/-- The public `Expr::compare` empties the static set when it is done. -/
def cleared (r : Option (Ordering × ExprEquivSet)) : Option (Ordering × ExprEquivSet) :=
  r.map fun p => (p.1, [])

/-- The names, the addresses and the sizes of two update lists. -/
def ArrayRef.compareRoots (root root' : ArrayRef) (us us' : Updates ℕ) : Ordering :=
  (compare root.name root'.name).then
    ((compare root.address root'.address).then (compare us.getSize us'.getSize))

mutual
/-- `Expr::compare(const Expr &, ExprEquivSet &)`; a failed assertion is `none`. -/
def Obj.compareIn (hv : HashValue) (x y : Obj ℕ) (equivs : ExprEquivSet) :
    Option (Ordering × ExprEquivSet) :=
  if x.id = y.id then some (.eq, equivs)
  else if pairOf x.id y.id ∈ equivs then some (.eq, equivs)
  else if x.kind ≠ y.kind then some (compare x.kind y.kind, equivs)
  else if x.hash hv ≠ y.hash hv then some (compare (x.hash hv).toNat (y.hash hv).toNat, equivs)
  else
    unlessDecided (Obj.compareContents hv x y equivs) fun equivs =>
      unlessDecided (Obj.compareKids hv x.kids y.kids equivs) fun equivs =>
        some (.eq, pairOf x.id y.id :: equivs)
termination_by (x.weight, 1)
decreasing_by
  · exact Prod.Lex.right _ (by omega)
  · exact Prod.Lex.left _ _ x.weight_kids

/-- `compareContents` of each class, called with two objects of one kind. -/
def Obj.compareContents (hv : HashValue) (x y : Obj ℕ) (equivs : ExprEquivSet) :
    Option (Ordering × ExprEquivSet) :=
  match x, y with
  | .constant _ w v, .constant _ w' v' =>
    some ((compare w w').then (compare v.toNat v'.toNat), equivs)
  | .read _ root us i, .read _ root' us' _ =>
    have : us.weight < us.weight + i.weight + 1 := by omega
    unlessDecided (some (root.compareRoots root' us us', equivs)) fun equivs =>
      Updates.compareNodes hv us us' equivs
  | .concat _ w _ _, .concat _ w' _ _ => some (compare w w', equivs)
  | .extract _ _ o w, .extract _ _ o' w' => some ((compare o o').then (compare w w'), equivs)
  | .cast _ _ _ w, .cast _ _ _ w' => some (compare w w', equivs)
  | _, _ => some (.eq, equivs)
termination_by (x.weight, 0)
decreasing_by exact Prod.Lex.left _ _ (by simp only [Obj.weight]; omega)

/-- The loop over the kids. -/
def Obj.compareKids (hv : HashValue) (xs ys : List (Obj ℕ)) (equivs : ExprEquivSet) :
    Option (Ordering × ExprEquivSet) :=
  match xs, ys with
  | x :: xs, y :: ys =>
    have := x.weight_pos
    unlessDecided (Obj.compareIn hv x y equivs) fun equivs => Obj.compareKids hv xs ys equivs
  | _, _ => some (.eq, equivs)
termination_by ((xs.map Obj.weight).sum, 2)
decreasing_by
  · simp only [List.map_cons, List.sum_cons]
    rcases Nat.eq_zero_or_pos (xs.map Obj.weight).sum with h | h
    · rw [h]
      exact Prod.Lex.right _ (by omega)
    · exact Prod.Lex.left _ _ (by omega)
  · exact Prod.Lex.left _ _ (by simp only [List.map_cons, List.sum_cons]; omega)

/-- The loop over the update nodes, which stops where the two lists share a node. -/
def Updates.compareNodes (hv : HashValue) (us us' : Updates ℕ) (equivs : ExprEquivSet) :
    Option (Ordering × ExprEquivSet) :=
  match us, us' with
  | .nil, .nil => some (.eq, equivs)
  | .cons an i v next, .cons bn i' v' next' =>
    if an = bn then some (.eq, equivs)
    else
      unlessDecided (cleared (Obj.compareIn hv i i' equivs)) fun equivs =>
        unlessDecided (cleared (Obj.compareIn hv v v' equivs)) fun equivs =>
          Updates.compareNodes hv next next' equivs
  | _, _ => none
termination_by (us.weight, 3)
decreasing_by
  all_goals exact Prod.Lex.left _ _ (by simp only [Updates.weight]; omega)
end

/-- The public `Expr::compare`; the set is static, so it is what the last call left. -/
def Obj.compare (hv : HashValue) (x y : Obj ℕ) (equivs : ExprEquivSet) :
    Option (Ordering × ExprEquivSet) :=
  cleared (x.compareIn hv y equivs)

end Encider
