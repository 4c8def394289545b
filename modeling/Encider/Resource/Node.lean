import Encider.Expr.Constraint
import Encider.Expr.Hash

namespace Encider

open Std

/-- `exhash`: the hashes of a high and a low constraint. -/
abbrev ExHash := BitVec 32 × BitVec 32

/-- The order of `std::pair<unsigned, unsigned>`. -/
def ExHash.cmp : ExHash → ExHash → Ordering :=
  compareLex (compareOn Prod.fst) (compareOn Prod.snd)

instance : TransCmp ExHash.cmp :=
  inferInstanceAs (TransCmp (compareLex (compareOn Prod.fst) (compareOn Prod.snd)))

instance : LawfulEqCmp ExHash.cmp where
  eq_of_compare {a b} h := by
    simp only [ExHash.cmp, compareLex_eq_eq, compareOn] at h
    exact Prod.ext (LawfulEqCmp.eq_of_compare h.1) (LawfulEqCmp.eq_of_compare h.2)

@[simp] theorem ExHash.cmp_self (k : ExHash) : ExHash.cmp k k = .eq := ReflCmp.compare_self

abbrev ExMap (α : Type) := TreeMap ExHash α ExHash.cmp

namespace ExMap

variable {α : Type}

@[simp] theorem getElem?_insertIfNew (m : ExMap α) (k a : ExHash) (v : α) :
    (TreeMap.insertIfNew m k v)[a]? = if k = a ∧ k ∉ m then some v else m[a]? := by
  simp only [TreeMap.getElem?_insertIfNew, LawfulEqCmp.compare_eq_iff_eq]

@[simp] theorem mem_insertIfNew (m : ExMap α) (k a : ExHash) (v : α) :
    a ∈ TreeMap.insertIfNew m k v ↔ k = a ∨ a ∈ m := by
  simp only [TreeMap.mem_insertIfNew, LawfulEqCmp.compare_eq_iff_eq]

@[simp] theorem getElem?_insert (m : ExMap α) (k a : ExHash) (v : α) :
    (m.insert k v)[a]? = if k = a then some v else m[a]? := by
  simp only [TreeMap.getElem?_insert, LawfulEqCmp.compare_eq_iff_eq]

@[simp] theorem getD_insert (m : ExMap α) (k a : ExHash) (v d : α) :
    (m.insert k v).getD a d = if k = a then v else m.getD a d := by
  simp only [TreeMap.getD_insert, LawfulEqCmp.compare_eq_iff_eq]

@[simp] theorem mem_insert (m : ExMap α) (k a : ExHash) (v : α) :
    a ∈ m.insert k v ↔ k = a ∨ a ∈ m := by
  simp only [TreeMap.mem_insert, LawfulEqCmp.compare_eq_iff_eq]

theorem mem_iff (m : ExMap α) (k : ExHash) : k ∈ m ↔ ∃ v, m[k]? = some v := by
  rw [TreeMap.mem_iff_isSome_getElem?, Option.isSome_iff_exists]

theorem getD_of_getElem? {m : ExMap α} {k : ExHash} {v : α} (h : m[k]? = some v) (d : α) :
    m.getD k d = v := by
  rw [TreeMap.getD_eq_getD_getElem?, h, Option.getD_some]

end ExMap

/-- `range`: the least and the greatest resource usage. -/
abbrev Range := Int × Int

/-- `HCLC`: a high and a low constraint. -/
abbrev HCLC := Constraint × Constraint

/-- The fields of `RD` that stay as they are once the tree is built. `HA` holds
the `stateid` of the H-ancestor when `HAset` is true. -/
structure RD where
  isHBr : Bool := false
  HA : Option Nat := none
  HC : Constraint := Constraint.tt
  LC : Constraint := Constraint.tt
  ru : BitVec 32 := 0
  bbs : Finset Nat := ∅
  pathterminated : Bool := false

/-- The maps of `RD` that an H-ancestor collects from the leaves below it. -/
structure RDMaps where
  Ru : ExMap Range := ∅
  HE : ExMap HCLC := ∅
  bbm : ExMap (Finset Nat) := ∅
  RDSet : ExMap (Finset Nat) := ∅
  terminated : ExMap Nat := ∅

def getHash (hv : HashValue) (e : HCLC) : ExHash :=
  (e.1.val.computeHash hv, e.2.val.computeHash hv)

def combineRange (r1 r2 : Range) : Range :=
  (min r1.1 r2.1, max r1.2 r2.2)

/-- The range of a key that is not in the map. -/
def emptyRange : Range := (2147483647, -2147483647)

end Encider
