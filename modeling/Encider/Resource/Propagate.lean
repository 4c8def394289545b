import Encider.Lib.Rose
import Encider.Lib.Climb
import Encider.Lib.Fold
import Encider.Resource.Node

namespace Encider

open Std

/-- The maps of every node of a tree. -/
abbrev Maps := Nat → RDMaps

namespace RD

/-- The pair of constraints that a node hands to its H-ancestor. -/
def own (rd : RD) : HCLC := (rd.HC, rd.LC)

/-- The constraints of a path through the node `rd`. -/
def conj (rd : RD) (e : HCLC) : HCLC := (Constraint.and rd.HC e.1, Constraint.and rd.LC e.2)

/-- `range(rd->ru, rd->ru)`. -/
def ruRange (rd : RD) : Range := (rd.ru.toInt, rd.ru.toInt)

end RD

/-- What the leaf `l` adds to the maps of its H-ancestor. -/
def recordLeaf (hv : HashValue) (rd : RD) (l : Nat) (a : RDMaps) : RDMaps :=
  let eh := getHash hv rd.own
  { Ru := TreeMap.insertIfNew a.Ru eh (combineRange (a.Ru.getD eh emptyRange) rd.ruRange)
    HE := TreeMap.insertIfNew a.HE eh rd.own
    RDSet := a.RDSet.insert eh (insert l (a.RDSet.getD eh ∅))
    bbm := a.bbm.insert eh (a.bbm.getD eh ∅ ∪ rd.bbs)
    terminated :=
      if rd.pathterminated then a.terminated.insert eh (a.terminated.getD eh 0 + 1)
      else a.terminated }

/-- What one entry of the inner H-branch `rd` adds. The set of blocks is shared
by all entries; a missing entry of `HE` or `bbm` is a failed assertion. -/
def mergeEntry (hv : HashValue) (rd : RD) (b : RDMaps) (R : Range) (s : RDMaps × Finset Nat)
    (kr : ExHash × Range) : Option (RDMaps × Finset Nat) :=
  match b.HE[kr.1]?, b.bbm[kr.1]? with
  | some hl, some bs =>
    let e := rd.conj hl
    let eh2 := getHash hv e
    let bbs := s.2 ∪ bs
    some
      ({ Ru := TreeMap.insertIfNew s.1.Ru eh2 (combineRange R kr.2)
         HE := TreeMap.insertIfNew s.1.HE eh2 e
         RDSet := s.1.RDSet.insert eh2 (s.1.RDSet.getD eh2 ∅ ∪ b.RDSet.getD kr.1 ∅)
         bbm := TreeMap.insertIfNew s.1.bbm eh2 bbs
         terminated :=
           s.1.terminated.insert eh2 (s.1.terminated.getD eh2 0 + b.terminated.getD kr.1 0) },
       bbs)
  | _, _ => none

/-- What the inner H-branch `rd` with the maps `b` adds to its H-ancestor. The
range and the blocks found under the branch's own hash start all its entries. -/
def mergeBranch (hv : HashValue) (rd : RD) (b a : RDMaps) : Option RDMaps :=
  let eh := getHash hv rd.own
  (b.Ru.toList.foldlM (mergeEntry hv rd b (a.Ru.getD eh emptyRange))
    (a, a.bbm.getD eh ∅)).map Prod.fst

/-- One turn of the `while` loop, from `rd` to its H-ancestor `a`. -/
def propagateStep (hv : HashValue) (node : Nat → RD) (rd a : Nat) (m : Maps) : Option Maps :=
  if (node rd).isHBr then
    (mergeBranch hv (node rd) (m rd) (m a)).map (Function.update m a)
  else some (Function.update m a (recordLeaf hv (node rd) rd (m a)))

/-- The `while` loop of a leaf. -/
def climbHA (hv : HashValue) (node : Nat → RD) (fuel rd : Nat) (m : Maps) : Option Maps :=
  Climb.climb (fun x => (node x).HA) (propagateStep hv node) fuel rd m

mutual
/-- `propagate`: nodes with successors only pass the call on. -/
def propagate (hv : HashValue) (node : Nat → RD) (fuel : Nat) : Rose Nat → Maps → Option Maps
  | .node rd [], m => climbHA hv node fuel rd m
  | .node _ (t :: ts), m => (propagate hv node fuel t m).bind (propagateAll hv node fuel ts)

def propagateAll (hv : HashValue) (node : Nat → RD) (fuel : Nat) :
    List (Rose Nat) → Maps → Option Maps
  | [], m => some m
  | t :: ts, m => (propagate hv node fuel t m).bind (propagateAll hv node fuel ts)
end

mutual
/-- The walk over the tree visits its leaves from left to right. -/
theorem propagate_eq_visit (hv : HashValue) (node : Nat → RD) (fuel : Nat) :
    ∀ (t : Rose Nat) (m : Maps),
      propagate hv node fuel t m = t.leaves.foldlM (fun m l => climbHA hv node fuel l m) m
  | .node rd [], m => by simp [propagate, Rose.leaves]
  | .node rd (t :: ts), m => by
    simp only [propagate, Rose.leaves, List.foldlM_append]
    rw [propagate_eq_visit hv node fuel t]
    congr 1
    funext m'
    exact propagateAll_eq_visit hv node fuel ts m'

theorem propagateAll_eq_visit (hv : HashValue) (node : Nat → RD) (fuel : Nat) :
    ∀ (ts : List (Rose Nat)) (m : Maps), propagateAll hv node fuel ts m =
      (Rose.leavesAll ts).foldlM (fun m l => climbHA hv node fuel l m) m
  | [], m => by simp [propagateAll, Rose.leavesAll]
  | t :: ts, m => by
    simp only [propagateAll, Rose.leavesAll, List.foldlM_append]
    rw [propagate_eq_visit hv node fuel t]
    congr 1
    funext m'
    exact propagateAll_eq_visit hv node fuel ts m'
end

/-- A finite tree of `RD` nodes. Only nodes with successors are H-branches, and
an H-ancestor is an H-branch properly above its node. -/
structure ResourceTree where
  node : Nat → RD
  tree : Rose Nat
  nodup : tree.labels.Nodup
  above : ∀ x a, (node x).HA = some a → tree.Under a x ∧ (node a).isHBr = true
  leaf : ∀ l ∈ tree.leaves, (node l).isHBr = false

namespace ResourceTree

/-- The same tree with its successor sets in another order. -/
def reorder (T : ResourceTree) {t : Rose Nat} (h : T.tree.Reorder t) : ResourceTree where
  node := T.node
  tree := t
  nodup := h.labels_perm.nodup_iff.mp T.nodup
  above x a hx := ⟨(h.under a x).mp (T.above x a hx).1, (T.above x a hx).2⟩
  leaf l hl := T.leaf l (h.leaves_perm.mem_iff.mpr hl)

/-- `propagate(root)` on empty maps. -/
def propagate (T : ResourceTree) (hv : HashValue) : Option Maps :=
  Encider.propagate hv T.node T.tree.labels.length T.tree fun _ => {}

/-- The place of a node in the tree, smaller for the nodes above it. -/
def rank (T : ResourceTree) (x : Nat) : Nat := T.tree.labels.idxOf x

theorem rank_lt (T : ResourceTree) (x a : Nat) (h : (T.node x).HA = some a) :
    T.rank a < T.rank x :=
  (T.above x a h).1.idxOf_lt T.nodup

theorem rank_le (T : ResourceTree) (x : Nat) : T.rank x ≤ T.tree.labels.length :=
  List.idxOf_le_length

end ResourceTree

end Encider
