import Mathlib
import Encider.Lib.Fold

/-! `ImmutableTree`: a balanced search tree whose operations share nodes with the tree they start
from. Nothing writes a node after it was made. -/

namespace Encider

/-- A node; `terminator` stands for the one static node without a value. -/
inductive ImmutableTree (V : Type) where
  | terminator
  | node (left right : ImmutableTree V) (value : V) (height : Nat)
  deriving DecidableEq

namespace ImmutableTree

variable {K V : Type}

def left : ImmutableTree V → ImmutableTree V
  | terminator => terminator
  | node l _ _ _ => l

def right : ImmutableTree V → ImmutableTree V
  | terminator => terminator
  | node _ r _ _ => r

def height : ImmutableTree V → Nat
  | terminator => 0
  | node _ _ _ h => h

/-- The terminator has a value made without arguments. -/
def value [Inhabited V] : ImmutableTree V → V
  | terminator => default
  | node _ _ v _ => v

def isTerminator : ImmutableTree V → Bool
  | terminator => true
  | node _ _ _ _ => false

/-- The constructor of a node. -/
def new (left right : ImmutableTree V) (value : V) : ImmutableTree V :=
  node left right value (max left.height right.height + 1)

/-- The values in order. -/
def toList : ImmutableTree V → List V
  | terminator => []
  | node l r v _ => l.toList ++ v :: r.toList

/-- Every node's height is right, and its children's heights differ by at most two. -/
def Balanced : ImmutableTree V → Prop
  | terminator => True
  | node l r _ h =>
    l.Balanced ∧ r.Balanced ∧ h = max l.height r.height + 1 ∧
      l.height ≤ r.height + 2 ∧ r.height ≤ l.height + 2

def size : ImmutableTree V → Nat
  | terminator => 0
  | node l r _ _ => l.size + 1 + r.size

section

variable (l r : ImmutableTree V) (v : V) (n : Nat)

@[simp] theorem left_node : (node l r v n).left = l := rfl

@[simp] theorem right_node : (node l r v n).right = r := rfl

@[simp] theorem height_node : (node l r v n).height = n := rfl

@[simp] theorem toList_node : (node l r v n).toList = l.toList ++ v :: r.toList := rfl

@[simp] theorem value_node [Inhabited V] : (node l r v n).value = v := rfl

@[simp] theorem toList_new : (new l r v).toList = l.toList ++ v :: r.toList := rfl

@[simp] theorem height_new : (new l r v).height = Max.max l.height r.height + 1 := rfl

end

/-- A tree with some height is a node. -/
theorem exists_node {t : ImmutableTree V} {n : Nat} (h : n < t.height) :
    ∃ l r v k, t = node l r v k := by
  cases t with
  | terminator => exact absurd h (Nat.not_lt_zero n)
  | node l r v k => exact ⟨l, r, v, k, rfl⟩

theorem Balanced.new {l r : ImmutableTree V} (v : V) (hl : l.Balanced) (hr : r.Balanced)
    (hlr : l.height ≤ r.height + 2) (hrl : r.height ≤ l.height + 2) :
    (new l r v).Balanced := ⟨hl, hr, rfl, hlr, hrl⟩

theorem isTerminator_iff {t : ImmutableTree V} : t.isTerminator ↔ t = terminator := by
  cases t with
  | terminator => exact iff_of_true rfl rfl
  | node => exact iff_of_false Bool.false_ne_true nofun

/-- What an operation makes of a tree: balanced, with its height changed by at most one. -/
def Grown (t t' : ImmutableTree V) : Prop :=
  t'.Balanced ∧ t.height ≤ t'.height ∧ t'.height ≤ t.height + 1

def Shrunk (t t' : ImmutableTree V) : Prop :=
  t'.Balanced ∧ t'.height ≤ t.height ∧ t.height ≤ t'.height + 1

theorem Balanced.grown {t : ImmutableTree V} (h : t.Balanced) : Grown t t :=
  ⟨h, Nat.le_refl _, Nat.le_succ _⟩

theorem Balanced.shrunk {t : ImmutableTree V} (h : t.Balanced) : Shrunk t t :=
  ⟨h, Nat.le_refl _, Nat.le_succ _⟩

section

variable {l r : ImmutableTree V} {v : V} {n : Nat} (h : (node l r v n).Balanced)
include h

/-- A node with one child gives way to it. -/
theorem Balanced.shrunk_right (hl : l = terminator) : Shrunk (node l r v n) r := by
  obtain ⟨_, hr, hn, _, _⟩ := h
  subst hl
  refine ⟨hr, ?_, ?_⟩ <;> grind [height_node, height]

theorem Balanced.shrunk_left (hr : r = terminator) : Shrunk (node l r v n) l := by
  obtain ⟨hl, _, hn, _, _⟩ := h
  subst hr
  refine ⟨hl, ?_, ?_⟩ <;> grind [height_node, height]

end

section

variable [Inhabited V]

def balance (left : ImmutableTree V) (value : V) (right : ImmutableTree V) : ImmutableTree V :=
  if left.height > right.height + 2 then
    let ll := left.left
    let lr := left.right
    if ll.height ≥ lr.height then new ll (new lr right value) left.value
    else new (new ll lr.left left.value) (new lr.right right value) lr.value
  else if right.height > left.height + 2 then
    let rl := right.left
    let rr := right.right
    if rr.height ≥ rl.height then new (new left rl value) rr right.value
    else new (new left rl.left value) (new rl.right rr right.value) rl.value
  else new left right value

/-- The rest of the tree, and the value taken out. -/
def popMin : ImmutableTree V → ImmutableTree V × V
  | terminator => (terminator, default)
  | node l r v _ =>
    if l.isTerminator then (r, v) else (balance l.popMin.1 v r, l.popMin.2)

def popMax : ImmutableTree V → ImmutableTree V × V
  | terminator => (terminator, default)
  | node l r v _ =>
    if r.isTerminator then (l, v) else (balance l v r.popMax.1, r.popMax.2)

theorem toList_balance (l : ImmutableTree V) (v : V) (r : ImmutableTree V) :
    (balance l v r).toList = l.toList ++ v :: r.toList := by
  unfold balance
  split_ifs with hleft hright
  · obtain ⟨ll, lr, lv, k, rfl⟩ := exists_node hleft
    dsimp only [left_node, right_node, value_node]
    split_ifs with hll
    · simp
    · obtain ⟨lrl, lrr, lrv, m, rfl⟩ := exists_node (Nat.lt_of_not_le hll)
      simp
  · obtain ⟨rl, rr, rv, k, rfl⟩ := exists_node hright
    dsimp only [left_node, right_node, value_node]
    split_ifs with hrr
    · simp
    · obtain ⟨rll, rlr, rlv, m, rfl⟩ := exists_node (Nat.lt_of_not_le hrr)
      simp
  · simp

/-- Balancing children whose heights differ by at most three. -/
theorem Balanced.balance {l r : ImmutableTree V} (v : V) (hl : l.Balanced) (hr : r.Balanced)
    (hlr : l.height ≤ r.height + 3) (hrl : r.height ≤ l.height + 3) :
    (balance l v r).Balanced ∧ Max.max l.height r.height ≤ (balance l v r).height ∧
      (balance l v r).height ≤ Max.max l.height r.height + 1 ∧
      (l.height ≤ r.height + 2 → r.height ≤ l.height + 2 →
        (balance l v r).height = Max.max l.height r.height + 1) := by
  unfold ImmutableTree.balance
  split_ifs with hleft hright
  · obtain ⟨ll, lr, lv, k, rfl⟩ := exists_node hleft
    obtain ⟨hll, hlr', hk, h1, h2⟩ := hl
    dsimp only [left_node, right_node, value_node, height_node] at hleft hlr hrl ⊢
    split_ifs with hge
    · refine ⟨(hll.new _ (hlr'.new _ hr ?_ ?_) ?_ ?_), ?_, ?_, ?_⟩ <;>
        grind [height_new]
    · obtain ⟨lrl, lrr, lrv, m, rfl⟩ := exists_node (Nat.lt_of_not_le hge)
      obtain ⟨hlrl, hlrr, hm, h3, h4⟩ := hlr'
      dsimp only [left_node, right_node, value_node, height_node] at hge hk h1 h2 ⊢
      refine ⟨(hll.new _ hlrl ?_ ?_).new _ (hlrr.new _ hr ?_ ?_) ?_ ?_, ?_, ?_, ?_⟩ <;>
        grind [height_new]
  · obtain ⟨rl, rr, rv, k, rfl⟩ := exists_node hright
    obtain ⟨hrl', hrr, hk, h1, h2⟩ := hr
    dsimp only [left_node, right_node, value_node, height_node] at hright hlr hrl hleft ⊢
    split_ifs with hge
    · refine ⟨(hl.new _ hrl' ?_ ?_).new _ hrr ?_ ?_, ?_, ?_, ?_⟩ <;>
        grind [height_new]
    · obtain ⟨rll, rlr, rlv, m, rfl⟩ := exists_node (Nat.lt_of_not_le hge)
      obtain ⟨hrll, hrlr, hm, h3, h4⟩ := hrl'
      dsimp only [left_node, right_node, value_node, height_node] at hge hk h1 h2 ⊢
      refine ⟨(hl.new _ hrll ?_ ?_).new _ (hrlr.new _ hrr ?_ ?_) ?_ ?_, ?_, ?_, ?_⟩ <;>
        grind [height_new]
  · refine ⟨hl.new v hr ?_ ?_, ?_, ?_, ?_⟩ <;> grind [height_new]

section

variable {l r : ImmutableTree V} {v : V} {n : Nat} (h : (node l r v n).Balanced)
include h

theorem Grown.balance_left {l' : ImmutableTree V} (hl : Grown l l') :
    Grown (node l r v n) (balance l' v r) := by
  obtain ⟨_, hr, hn, hlr, hrl⟩ := h
  obtain ⟨hl, hlow, hhigh⟩ := hl
  obtain ⟨hb, h1, h2, h3⟩ := hl.balance v hr (by omega) (by omega)
  refine ⟨hb, ?_, ?_⟩ <;> grind [height_node]

theorem Grown.balance_right {r' : ImmutableTree V} (hr : Grown r r') :
    Grown (node l r v n) (balance l v r') := by
  obtain ⟨hl, _, hn, hlr, hrl⟩ := h
  obtain ⟨hr, hlow, hhigh⟩ := hr
  obtain ⟨hb, h1, h2, h3⟩ := hl.balance v hr (by omega) (by omega)
  refine ⟨hb, ?_, ?_⟩ <;> grind [height_node]

theorem Shrunk.balance_left (w : V) {l' : ImmutableTree V} (hl : Shrunk l l') :
    Shrunk (node l r v n) (balance l' w r) := by
  obtain ⟨_, hr, hn, hlr, hrl⟩ := h
  obtain ⟨hl, hlow, hhigh⟩ := hl
  obtain ⟨hb, h1, h2, h3⟩ := hl.balance w hr (by omega) (by omega)
  refine ⟨hb, ?_, ?_⟩ <;> grind [height_node]

theorem Shrunk.balance_right (w : V) {r' : ImmutableTree V} (hr : Shrunk r r') :
    Shrunk (node l r v n) (balance l w r') := by
  obtain ⟨hl, _, hn, hlr, hrl⟩ := h
  obtain ⟨hr, hlow, hhigh⟩ := hr
  obtain ⟨hb, h1, h2, h3⟩ := hl.balance w hr (by omega) (by omega)
  refine ⟨hb, ?_, ?_⟩ <;> grind [height_node]

end

/-- The least value leaves a tree that has one. -/
theorem toList_popMin {t : ImmutableTree V} (ht : t ≠ terminator) :
    t.toList = t.popMin.2 :: t.popMin.1.toList := by
  induction t with
  | terminator => contradiction
  | node l r v n ihl _ =>
    rw [popMin]
    split_ifs with hl
    · obtain rfl := isTerminator_iff.mp hl
      rfl
    · rw [toList_balance, toList_node, ihl (mt isTerminator_iff.mpr hl), List.cons_append]

theorem toList_popMax {t : ImmutableTree V} (ht : t ≠ terminator) :
    t.toList = t.popMax.1.toList ++ [t.popMax.2] := by
  induction t with
  | terminator => contradiction
  | node l r v n _ ihr =>
    rw [popMax]
    split_ifs with hr
    · obtain rfl := isTerminator_iff.mp hr
      rfl
    · rw [toList_balance, toList_node, ihr (mt isTerminator_iff.mpr hr), List.append_assoc,
        List.cons_append]

theorem Balanced.popMin {t : ImmutableTree V} (h : t.Balanced) : Shrunk t t.popMin.1 := by
  induction t with
  | terminator => exact h.shrunk
  | node l r v n ihl _ =>
    rw [ImmutableTree.popMin]
    split_ifs with hl
    · exact h.shrunk_right (isTerminator_iff.mp hl)
    · exact (ihl h.1).balance_left h v

theorem Balanced.popMax {t : ImmutableTree V} (h : t.Balanced) : Shrunk t t.popMax.1 := by
  induction t with
  | terminator => exact h.shrunk
  | node l r v n _ ihr =>
    rw [ImmutableTree.popMax]
    split_ifs with hr
    · exact h.shrunk_left (isTerminator_iff.mp hr)
    · exact (ihr h.2.1).balance_right h v

variable [LinearOrder K] (key : V → K)

def insert (v : V) : ImmutableTree V → ImmutableTree V
  | terminator => new terminator terminator v
  | node l r value h =>
    if key v < key value then balance (l.insert v) value r
    else if key value < key v then balance l value (r.insert v)
    else node l r value h

def replace (v : V) : ImmutableTree V → ImmutableTree V
  | terminator => new terminator terminator v
  | node l r value _ =>
    if key v < key value then balance (l.replace v) value r
    else if key value < key v then balance l value (r.replace v)
    else new l r v

def remove (k : K) : ImmutableTree V → ImmutableTree V
  | terminator => terminator
  | node l r value _ =>
    if k < key value then balance (l.remove k) value r
    else if key value < k then balance l value (r.remove k)
    else if l.isTerminator then r
    else if r.isTerminator then l
    else balance l r.popMin.2 r.popMin.1

def count (k : K) : ImmutableTree V → Nat
  | terminator => 0
  | node l r value _ =>
    if k < key value then l.count k else if key value < k then r.count k else 1

def lookup (k : K) : ImmutableTree V → Option V
  | terminator => none
  | node l r value _ =>
    if k < key value then l.lookup k else if key value < k then r.lookup k else some value

/-- The loop of `lookup_previous`, with the last value below the key so far. -/
def lookupPreviousFrom (k : K) (result : Option V) : ImmutableTree V → Option V
  | terminator => result
  | node l r value _ =>
    if k < key value then l.lookupPreviousFrom k result
    else if key value < k then r.lookupPreviousFrom k (some value)
    else some value

def lookupPrevious (k : K) (t : ImmutableTree V) : Option V := t.lookupPreviousFrom key k none

/-- `none` where the assertion that the tree is not empty fails. -/
def min : ImmutableTree V → Option V
  | terminator => none
  | node l _ v _ => if l.isTerminator then some v else l.min

def max : ImmutableTree V → Option V
  | terminator => none
  | node _ r v _ => if r.isTerminator then some v else r.max



theorem Balanced.insert (v : V) {t : ImmutableTree V} (h : t.Balanced) :
    Grown t (t.insert key v) := by
  induction t with
  | terminator => exact ⟨Balanced.new v trivial trivial (Nat.zero_le 2) (Nat.zero_le 2), Nat.zero_le 1, Nat.le_refl 1⟩
  | node l r value n ihl ihr =>
    rw [ImmutableTree.insert]
    split_ifs
    · exact (ihl h.1).balance_left h
    · exact (ihr h.2.1).balance_right h
    · exact h.grown

theorem Balanced.replace (v : V) {t : ImmutableTree V} (h : t.Balanced) :
    Grown t (t.replace key v) := by
  induction t with
  | terminator => exact ⟨Balanced.new v trivial trivial (Nat.zero_le 2) (Nat.zero_le 2), Nat.zero_le 1, Nat.le_refl 1⟩
  | node l r value n ihl ihr =>
    rw [ImmutableTree.replace]
    split_ifs
    · exact (ihl h.1).balance_left h
    · exact (ihr h.2.1).balance_right h
    · obtain ⟨hl, hr, rfl, hlr, hrl⟩ := h
      exact ⟨hl.new v hr hlr hrl, Nat.le_refl _, Nat.le_succ _⟩

theorem Balanced.remove (k : K) {t : ImmutableTree V} (h : t.Balanced) :
    Shrunk t (t.remove key k) := by
  induction t with
  | terminator => exact h.shrunk
  | node l r value n ihl ihr =>
    rw [ImmutableTree.remove]
    split_ifs with _ _ hl hr
    · exact (ihl h.1).balance_left h value
    · exact (ihr h.2.1).balance_right h value
    · exact h.shrunk_right (isTerminator_iff.mp hl)
    · exact h.shrunk_left (isTerminator_iff.mp hr)
    · exact h.2.1.popMin.balance_right h _

end

variable [LinearOrder K] (key : V → K)

/-- The keys grow strictly. -/
def Ordered (t : ImmutableTree V) : Prop := t.toList.Pairwise (key · < key ·)

/-! What the operations do to the values around a key -/

theorem ordered_node {key : V → K} {l r : ImmutableTree V} {v : V} {n : Nat} :
    (node l r v n).Ordered key ↔ l.Ordered key ∧ r.Ordered key ∧
      (∀ w ∈ l.toList, key w < key v) ∧ ∀ w ∈ r.toList, key v < key w := by
  rw [Ordered, toList_node, List.pairwise_append, List.pairwise_cons]
  constructor
  · intro ⟨hl, ⟨hv, hr⟩, hlr⟩
    exact ⟨hl, hr, fun w hw => hlr w hw v List.mem_cons_self, hv⟩
  · intro ⟨hl, hr, hlv, hvr⟩
    refine ⟨hl, ⟨hvr, hr⟩, ?_⟩
    intro w hw x hx
    rcases List.mem_cons.mp hx with rfl | hx
    · exact hlv w hw
    · exact (hlv w hw).trans (hvr x hx)

/-- The values below a key, the value at it and the values above it, and what the operations and
the searches make of them. -/
structure Cut [Inhabited V] (k : K) (t : ImmutableTree V) (pre : List V) (hit : Option V)
    (post : List V) : Prop where
  toList : t.toList = pre ++ hit.toList ++ post
  below : ∀ w ∈ pre, key w < k
  at_key : ∀ w ∈ hit, key w = k
  above : ∀ w ∈ post, k < key w
  insert : ∀ v, key v = k → (t.insert key v).toList = pre ++ hit.getD v :: post
  replace : ∀ v, key v = k → (t.replace key v).toList = pre ++ v :: post
  remove : (t.remove key k).toList = pre ++ post
  lookup : t.lookup key k = hit
  count : t.count key k = hit.toList.length
  previous : ∀ result, t.lookupPreviousFrom key k result = (hit.or pre.getLast?).or result

/-- Every key cuts an ordered tree. -/
theorem Ordered.cut [Inhabited V] {key : V → K} {t : ImmutableTree V} (h : t.Ordered key) (k : K) :
    ∃ pre hit post, Cut key k t pre hit post := by
  induction t with
  | terminator => exact ⟨[], none, [], by constructor <;> simp [ImmutableTree.toList,
      ImmutableTree.insert, ImmutableTree.replace, ImmutableTree.remove, ImmutableTree.lookup,
      ImmutableTree.count, lookupPreviousFrom]⟩
  | node l r v n ihl ihr =>
    obtain ⟨hl, hr, hlv, hvr⟩ := ordered_node.mp h
    rcases lt_trichotomy k (key v) with hk | rfl | hk
    · obtain ⟨pre, hit, post, c⟩ := ihl hl
      refine ⟨pre, hit, post ++ v :: r.toList, ?_, c.below, c.at_key, ?_, ?_, ?_, ?_, ?_, ?_, ?_⟩
      · rw [toList_node, c.toList, List.append_assoc _ post]
      · intro w hw
        rcases List.mem_append.mp hw with hw | hw
        · exact c.above w hw
        rcases List.mem_cons.mp hw with rfl | hw
        · exact hk
        · exact hk.trans (hvr w hw)
      · intro w hw
        rw [ImmutableTree.insert, if_pos (hw ▸ hk), toList_balance, c.insert w hw]
        simp
      · intro w hw
        rw [ImmutableTree.replace, if_pos (hw ▸ hk), toList_balance, c.replace w hw]
        simp
      · rw [ImmutableTree.remove, if_pos hk, toList_balance, c.remove, List.append_assoc]
      · rw [ImmutableTree.lookup, if_pos hk, c.lookup]
      · rw [ImmutableTree.count, if_pos hk, c.count]
      · intro result
        rw [lookupPreviousFrom, if_pos hk, c.previous]
    · refine ⟨l.toList, some v, r.toList, ?_, hlv, ?_, hvr, ?_, ?_, ?_, ?_, ?_, ?_⟩
      · simp
      · simp
      · intro w hw
        simp [ImmutableTree.insert, hw]
      · intro w hw
        simp [ImmutableTree.replace, hw]
      · rw [ImmutableTree.remove, if_neg (lt_irrefl _), if_neg (lt_irrefl _)]
        split_ifs with hlt hrt
        · rw [isTerminator_iff.mp hlt]
          rfl
        · rw [isTerminator_iff.mp hrt]
          exact (List.append_nil _).symm
        · rw [toList_balance, ← toList_popMin (mt isTerminator_iff.mpr hrt)]
      · simp [ImmutableTree.lookup]
      · simp [ImmutableTree.count]
      · simp [lookupPreviousFrom]
    · obtain ⟨pre, hit, post, c⟩ := ihr hr
      have hnot : ¬ k < key v := hk.not_gt
      refine ⟨l.toList ++ v :: pre, hit, post, ?_, ?_, c.at_key, c.above, ?_, ?_, ?_, ?_, ?_, ?_⟩
      · simp [c.toList]
      · intro w hw
        rcases List.mem_append.mp hw with hw | hw
        · exact (hlv w hw).trans hk
        rcases List.mem_cons.mp hw with rfl | hw
        · exact hk
        · exact c.below w hw
      · intro w hw
        rw [ImmutableTree.insert, if_neg (hw ▸ hnot), if_pos (hw ▸ hk), toList_balance,
          c.insert w hw]
        simp
      · intro w hw
        rw [ImmutableTree.replace, if_neg (hw ▸ hnot), if_pos (hw ▸ hk), toList_balance,
          c.replace w hw]
        simp
      · rw [ImmutableTree.remove, if_neg hnot, if_pos hk, toList_balance, c.remove]
        simp
      · rw [ImmutableTree.lookup, if_neg hnot, if_pos hk, c.lookup]
      · rw [ImmutableTree.count, if_neg hnot, if_pos hk, c.count]
      · intro result
        rw [lookupPreviousFrom, if_neg hnot, if_pos hk, c.previous]
        cases hit <;> cases hlast : pre.getLast? <;> simp [List.getLast?_append, List.getLast?_cons, hlast]

theorem size_eq_length (t : ImmutableTree V) : t.size = t.toList.length := by
  induction t with
  | terminator => rfl
  | node l r v n ihl ihr =>
    rw [size, ihl, ihr, toList_node, List.length_append, List.length_cons]
    omega

theorem min_eq_head (t : ImmutableTree V) : t.min = t.toList.head? := by
  induction t with
  | terminator => rfl
  | node l r v n ihl _ =>
    rw [min]
    split_ifs with hl
    · rw [isTerminator_iff.mp hl]
      rfl
    · obtain ⟨_, _, w, _, rfl⟩ : ∃ a b w m, l = node a b w m := by
        cases l with
        | terminator => exact absurd rfl hl
        | node a b w m => exact ⟨a, b, w, m, rfl⟩
      rw [ihl]
      simp

theorem max_eq_last (t : ImmutableTree V) : t.max = t.toList.getLast? := by
  induction t with
  | terminator => rfl
  | node l r v n _ ihr =>
    rw [max]
    split_ifs with hr
    · rw [isTerminator_iff.mp hr]
      simp [toList]
    · obtain ⟨_, _, w, _, rfl⟩ : ∃ a b w m, r = node a b w m := by
        cases r with
        | terminator => exact absurd rfl hr
        | node a b w m => exact ⟨a, b, w, m, rfl⟩
      rw [ihr, toList_node l, List.getLast?_append_of_ne_nil _ (List.cons_ne_nil _ _),
        List.getLast?_cons_of_ne_nil (by simp)]

end ImmutableTree

end Encider
