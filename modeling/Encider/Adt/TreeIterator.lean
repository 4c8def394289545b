import Mathlib
import Encider.Adt.ImmutableTree

/-! The iterators of an `ImmutableTree`: the path from the root down to a node on a stack of fixed
size. An empty stack is the end. -/

namespace Encider

namespace ImmutableTree

variable {K V : Type}

/-- `stack` is from its back. -/
structure Iterator (V : Type) where
  root : ImmutableTree V
  stack : List (ImmutableTree V)

namespace Iterator

/-- The stack has room for as many nodes as the root is high; `none` is a write past it. -/
def push (n : ImmutableTree V) (it : Iterator V) : Option (Iterator V) :=
  if it.stack.length < it.root.height then some ⟨it.root, n :: it.stack⟩ else none

/-- The loop that pushes a node and then its left children. -/
def pushLeft : ImmutableTree V → Iterator V → Option (Iterator V)
  | terminator, it => some it
  | node l r v h, it => (it.push (node l r v h)).bind (pushLeft l)

def pushRight : ImmutableTree V → Iterator V → Option (Iterator V)
  | terminator, it => some it
  | node l r v h, it => (it.push (node l r v h)).bind (pushRight r)

def end_ (t : ImmutableTree V) : Iterator V := ⟨t, []⟩

def begin_ (t : ImmutableTree V) : Option (Iterator V) := pushLeft t (end_ t)

/-- `none` where there is no node at the back. -/
def deref [Inhabited V] (it : Iterator V) : Option V := it.stack.head?.map value

/-- The loop that leaves nodes until it comes to one from its child on the given side. -/
def climb [DecidableEq V] (side : ImmutableTree V → ImmutableTree V) :
    ImmutableTree V → List (ImmutableTree V) → List (ImmutableTree V)
  | _, [] => []
  | prev, n :: rest => if prev = side n then n :: rest else climb side n rest

variable [DecidableEq V]

/-- `operator++`; `none` where its assertion fails. -/
def next (it : Iterator V) : Option (Iterator V) :=
  match it.stack with
  | [] => none
  | n :: rest =>
    if n.right.isTerminator then some ⟨it.root, climb left n rest⟩
    else (it.push n.right).bind (pushLeft n.right.left)

/-- `operator--`. -/
def prev (it : Iterator V) : Option (Iterator V) :=
  match it.stack with
  | [] => pushRight it.root it
  | n :: rest =>
    if n.left.isTerminator then some ⟨it.root, climb right n rest⟩
    else (it.push n.left).bind (pushRight n.left.right)

variable [Inhabited V] [LinearOrder K] (key : V → K) (k : K)

/-- The loop of `lower_bound`, and what is done after it. -/
def seek : ImmutableTree V → Iterator V → Option (Iterator V)
  | terminator, it =>
    match it.stack with
    | [] => some it
    | last :: _ => if key last.value < k then it.next else some it
  | node l r v h, it =>
    (it.push (node l r v h)).bind fun it =>
      if k < key v then seek l it else if key v < k then seek r it else some it

def lowerBound (t : ImmutableTree V) : Option (Iterator V) := seek key k t (end_ t)

def upperBound (t : ImmutableTree V) : Option (Iterator V) :=
  (lowerBound key k t).bind fun it =>
    match it.stack with
    | [] => some it
    | n :: _ => if k < key n.value then some it else it.next

def find (t : ImmutableTree V) : Option (Iterator V) :=
  (lowerBound key k t).map fun it =>
    match it.stack with
    | [] => end_ t
    | n :: _ => if k < key n.value then end_ t else it

end Iterator

/-! Where an iterator stands -/

/-- From the root down to a node over the nodes `rest`, with the values before and after those of
the node's own tree. -/
inductive Path (root : ImmutableTree V) :
    ImmutableTree V → List (ImmutableTree V) → List V → List V → Prop
  | start : root ≠ terminator → Path root root [] [] []
  | left {l r v h rest b a} : Path root (node l r v h) rest b a → l ≠ terminator →
      Path root l (node l r v h :: rest) b (v :: (r.toList ++ a))
  | right {l r v h rest b a} : Path root (node l r v h) rest b a → r ≠ terminator →
      Path root r (node l r v h :: rest) (b ++ l.toList ++ [v]) a

/-- The values before the one an iterator is at, and those from it on. -/
inductive Stands : Iterator V → List V → List V → Prop
  | end_ (root) : Stands ⟨root, []⟩ root.toList []
  | at_node {root l r v h rest b a} : Path root (node l r v h) rest b a →
      Stands ⟨root, node l r v h :: rest⟩ (b ++ l.toList) (v :: (r.toList ++ a))

namespace Path

variable {root n : ImmutableTree V} {rest : List (ImmutableTree V)} {b a : List V}

theorem ne_terminator (h : Path root n rest b a) : n ≠ terminator := by
  cases h <;> assumption

theorem values (h : Path root n rest b a) : b ++ n.toList ++ a = root.toList := by
  induction h with
  | start => simp
  | left _ _ ih => simpa using ih
  | right _ _ ih => simpa using ih

/-- The stack has room for the path and what is below it. -/
theorem room (h : Path root n rest b a) (hroot : root.Balanced) :
    n.Balanced ∧ rest.length + n.height ≤ root.height := by
  induction h with
  | start => exact ⟨hroot, Nat.le_of_eq (Nat.zero_add _)⟩
  | left _ _ ih =>
    obtain ⟨⟨hl, _, hh, _, _⟩, hroom⟩ := ih
    refine ⟨hl, ?_⟩
    rw [height_node] at hroom
    rw [List.length_cons]
    omega
  | right _ _ ih =>
    obtain ⟨⟨_, hr, hh, _, _⟩, hroom⟩ := ih
    refine ⟨hr, ?_⟩
    rw [height_node] at hroom
    rw [List.length_cons]
    omega

theorem push (h : Path root n rest b a) (hroot : root.Balanced) :
    Iterator.push n ⟨root, rest⟩ = some ⟨root, n :: rest⟩ := by
  obtain ⟨hn, hroom⟩ := h.room hroot
  have hne := h.ne_terminator
  cases n with
  | terminator => contradiction
  | node l r v k =>
    obtain ⟨_, _, hk, _, _⟩ := hn
    rw [height_node] at hroom
    exact if_pos (show rest.length < root.height by omega)

/-- Going down to the left ends at the first value of the node's tree. -/
theorem pushLeft (h : Path root n rest b a) (hroot : root.Balanced) :
    ∃ stack, Iterator.pushLeft n ⟨root, rest⟩ = some ⟨root, stack⟩ ∧
      Stands ⟨root, stack⟩ b (n.toList ++ a) := by
  induction n generalizing rest b a with
  | terminator => exact absurd rfl h.ne_terminator
  | node l r v k ihl _ =>
    rw [Iterator.pushLeft, h.push hroot, Option.bind_some]
    by_cases hl : l = terminator
    · subst hl
      refine ⟨_, rfl, ?_⟩
      simpa [toList] using Stands.at_node h
    · obtain ⟨stack, hpush, hstands⟩ := ihl (h.left hl)
      refine ⟨stack, hpush, ?_⟩
      simpa using hstands

/-- Going down to the right ends at the last value of the node's tree. -/
theorem pushRight (h : Path root n rest b a) (hroot : root.Balanced) :
    ∃ stack vs w, Iterator.pushRight n ⟨root, rest⟩ = some ⟨root, stack⟩ ∧ n.toList = vs ++ [w] ∧
      Stands ⟨root, stack⟩ (b ++ vs) (w :: a) := by
  induction n generalizing rest b a with
  | terminator => exact absurd rfl h.ne_terminator
  | node l r v k _ ihr =>
    rw [Iterator.pushRight, h.push hroot, Option.bind_some]
    by_cases hr : r = terminator
    · subst hr
      exact ⟨_, l.toList, v, rfl, rfl, Stands.at_node h⟩
    · obtain ⟨stack, vs, w, hpush, hlist, hstands⟩ := ihr (h.right hr)
      refine ⟨stack, l.toList ++ v :: vs, w, hpush, ?_, ?_⟩
      · simp [hlist]
      · simpa using hstands

variable [LinearOrder K] {key : V → K}

/-- The two children of a node on a path are different nodes. -/
theorem children_ne {l r : ImmutableTree V} {v : V} {k : Nat}
    (h : Path root (node l r v k) rest b a) (hroot : root.Ordered key) (hl : l ≠ terminator) :
    l ≠ r := by
  intro heq
  have hn : (node l r v k).Ordered key := by
    rw [Ordered, ← h.values] at hroot
    exact (List.pairwise_append.mp (List.pairwise_append.mp hroot).1).2.1
  obtain ⟨_, _, hlv, hvr⟩ := ordered_node.mp hn
  cases l with
  | terminator => contradiction
  | node x y w m =>
    have hw : w ∈ (node x y w m).toList := List.mem_append_right _ List.mem_cons_self
    exact lt_asymm (hlv w hw) (hvr w (heq ▸ hw))

variable [DecidableEq V]

/-- Climbing out of a tree to the right ends at the value after those of the tree. -/
theorem climb_left (h : Path root n rest b a) (hroot : root.Ordered key) :
    Stands ⟨root, Iterator.climb ImmutableTree.left n rest⟩ (b ++ n.toList) a := by
  induction h with
  | start => exact Stands.end_ root
  | left h hl ih =>
    rw [Iterator.climb, left_node, if_pos rfl]
    exact Stands.at_node h
  | right h hr ih =>
    rename_i l r v k rest b a
    have hne : r ≠ l := by
      intro heq
      exact h.children_ne hroot (heq ▸ hr) heq.symm
    rw [Iterator.climb, left_node, if_neg hne]
    simpa using ih

/-- Climbing out of a tree to the left ends at the value before those of the tree, or past the
first value at the end. -/
theorem climb_right (h : Path root n rest b a) (hroot : root.Ordered key) :
    (b = [] ∧ Iterator.climb ImmutableTree.right n rest = []) ∨
      ∃ vs w, b = vs ++ [w] ∧ Stands ⟨root, Iterator.climb ImmutableTree.right n rest⟩ vs
        (w :: (n.toList ++ a)) := by
  induction h with
  | start => exact Or.inl ⟨rfl, rfl⟩
  | left h hl ih =>
    rw [Iterator.climb, right_node, if_neg (h.children_ne hroot hl)]
    simpa using ih
  | right h hr ih =>
    rw [Iterator.climb, right_node, if_pos rfl]
    exact Or.inr ⟨_, _, rfl, Stands.at_node h⟩

end Path

namespace Stands

variable {root : ImmutableTree V} {stack : List (ImmutableTree V)} {pre post : List V}

theorem values (h : Stands ⟨root, stack⟩ pre post) : pre ++ post = root.toList := by
  cases h with
  | end_ => exact List.append_nil _
  | at_node h => simpa using h.values

theorem deref [Inhabited V] (h : Stands ⟨root, stack⟩ pre post) :
    Iterator.deref ⟨root, stack⟩ = post.head? := by
  cases h <;> rfl

variable [DecidableEq V] [LinearOrder K] {key : V → K}

theorem next {v : V} (h : Stands ⟨root, stack⟩ pre (v :: post)) (hb : root.Balanced)
    (ho : root.Ordered key) :
    ∃ stack', Iterator.next ⟨root, stack⟩ = some ⟨root, stack'⟩ ∧
      Stands ⟨root, stack'⟩ (pre ++ [v]) post := by
  cases h with
  | at_node h =>
    rename_i l r n rest b a
    by_cases hr : r = terminator
    · subst hr
      have hclimb := h.climb_left ho
      refine ⟨_, rfl, ?_⟩
      simpa [toList] using hclimb
    · have hpath := h.right hr
      obtain ⟨stack', hpush, hstands⟩ := hpath.pushLeft hb
      refine ⟨stack', ?_, by simpa using hstands⟩
      simp only [Iterator.next, right_node, isTerminator_iff, hr, if_false]
      rw [← hpush]
      cases r with
      | terminator => contradiction
      | node => rfl

/-- Going back from the value after `v`. -/
theorem prev {v : V} (h : Stands ⟨root, stack⟩ (pre ++ [v]) post) (hb : root.Balanced)
    (ho : root.Ordered key) :
    ∃ stack', Iterator.prev ⟨root, stack⟩ = some ⟨root, stack'⟩ ∧
      Stands ⟨root, stack'⟩ pre (v :: post) := by
  generalize hpre : pre ++ [v] = pre' at h
  cases h with
  | end_ =>
    have hroot : root ≠ terminator := by
      intro heq
      subst heq
      simp [toList] at hpre
    obtain ⟨stack', vs, w, hpush, hlist, hstands⟩ := (Path.start hroot).pushRight hb
    obtain ⟨rfl, rfl⟩ := List.append_inj' (hpre.trans hlist) rfl |>.imp id List.singleton_inj.mp
    exact ⟨stack', hpush, hstands⟩
  | at_node h =>
    rename_i l r n w rest b a
    by_cases hl : l = terminator
    · subst hl
      have hb' : pre ++ [v] = b := by simpa [toList] using hpre
      rcases h.climb_right ho with ⟨hb'', _⟩ | ⟨vs, x, hvs, hstands⟩
      · simp [hb''] at hb'
      · obtain ⟨rfl, rfl⟩ := List.append_inj' (hb'.trans hvs) rfl |>.imp id List.singleton_inj.mp
        exact ⟨_, rfl, by simpa [toList] using hstands⟩
    · have hpath := h.left hl
      obtain ⟨stack', vs, x, hpush, hlist, hstands⟩ := hpath.pushRight hb
      rw [hlist, ← List.append_assoc] at hpre
      obtain ⟨rfl, rfl⟩ := List.append_inj' hpre rfl |>.imp id List.singleton_inj.mp
      refine ⟨stack', ?_, hstands⟩
      simp only [Iterator.prev, left_node, isTerminator_iff, hl, if_false]
      rw [← hpush]
      cases l with
      | terminator => contradiction
      | node => rfl

/-- Going back from the first value, or in an empty tree, ends at the end. -/
theorem prev_first (h : Stands ⟨root, stack⟩ [] post) (ho : root.Ordered key) :
    Iterator.prev ⟨root, stack⟩ = some ⟨root, []⟩ := by
  generalize hpre : ([] : List V) = pre at h
  cases h with
  | end_ =>
    cases root with
    | terminator => rfl
    | node => simp at hpre
  | at_node h =>
    rename_i l r n w rest b a
    obtain ⟨rfl, hl⟩ := List.append_eq_nil_iff.mp hpre.symm
    have hlt : l = terminator := by
      cases l with
      | terminator => rfl
      | node => simp at hl
    subst hlt
    rcases h.climb_right ho with ⟨_, hstack⟩ | ⟨vs, x, hvs, _⟩
    · exact congrArg some (congrArg (Iterator.mk root) hstack)
    · simp at hvs

end Stands

/-! Where the searches put an iterator -/

theorem begin_stands {root : ImmutableTree V} (hb : root.Balanced) :
    ∃ stack, Iterator.begin_ root = some ⟨root, stack⟩ ∧ Stands ⟨root, stack⟩ [] root.toList := by
  by_cases hroot : root = terminator
  · subst hroot
    exact ⟨[], rfl, Stands.end_ _⟩
  · obtain ⟨stack, hpush, hstands⟩ := (Path.start hroot).pushLeft hb
    exact ⟨stack, hpush, by simpa using hstands⟩

section

variable [DecidableEq V] [Inhabited V] [LinearOrder K] {key : V → K} {root : ImmutableTree V}

/-- The loop of `lower_bound` at a node between the values below the key and those from it on. -/
theorem seek_stands {k : K} (hb : root.Balanced) (ho : root.Ordered key) {n : ImmutableTree V}
    {rest : List (ImmutableTree V)} {b a : List V} (h : Path root n rest b a)
    (hbelow : ∀ w ∈ b, key w < k) (habove : ∀ w ∈ a, k ≤ key w) :
    ∃ stack pre post, Iterator.seek key k n ⟨root, rest⟩ = some ⟨root, stack⟩ ∧
      Stands ⟨root, stack⟩ pre post ∧ (∀ w ∈ pre, key w < k) ∧ ∀ w ∈ post, k ≤ key w := by
  have hn : n.Ordered key := by
    rw [Ordered, ← h.values] at ho
    exact (List.pairwise_append.mp (List.pairwise_append.mp ho).1).2.1
  induction n generalizing rest b a with
  | terminator => exact absurd rfl h.ne_terminator
  | node l r v m ihl ihr =>
    obtain ⟨hl, hr, hlv, hvr⟩ := ordered_node.mp hn
    rw [Iterator.seek, h.push hb, Option.bind_some]
    split_ifs with hlt hgt
    · have hpost : ∀ w ∈ v :: (r.toList ++ a), k ≤ key w := by
        intro w hw
        rcases List.mem_cons.mp hw with rfl | hw
        · exact hlt.le
        rcases List.mem_append.mp hw with hw | hw
        · exact (hlt.trans (hvr w hw)).le
        · exact habove w hw
      by_cases hlt' : l = terminator
      · subst hlt'
        refine ⟨_, _, _, if_neg hlt.not_gt, Stands.at_node h, ?_, hpost⟩
        simpa [toList] using hbelow
      · exact ihl (h.left hlt') hbelow hpost hl
    · have hpre : ∀ w ∈ b ++ l.toList ++ [v], key w < k := by
        intro w hw
        rcases List.mem_append.mp hw with hw | hw
        · rcases List.mem_append.mp hw with hw | hw
          · exact hbelow w hw
          · exact (hlv w hw).trans hgt
        · rw [List.mem_singleton.mp hw]
          exact hgt
      by_cases hrt : r = terminator
      · subst hrt
        obtain ⟨stack, hnext, hstands⟩ := (Stands.at_node h).next hb ho
        exact ⟨stack, _, _, (if_pos hgt).trans hnext, hstands, hpre, by simpa [toList] using habove⟩
      · exact ihr (h.right hrt) hpre habove hr
    · have heq : key v = k := le_antisymm (not_lt.mp hlt) (not_lt.mp hgt)
      subst heq
      refine ⟨_, _, _, rfl, Stands.at_node h, ?_, ?_⟩
      · intro w hw
        rcases List.mem_append.mp hw with hw | hw
        · exact hbelow w hw
        · exact hlv w hw
      · intro w hw
        rcases List.mem_cons.mp hw with rfl | hw
        · exact le_refl _
        rcases List.mem_append.mp hw with hw | hw
        · exact (hvr w hw).le
        · exact habove w hw

theorem lowerBound_stands (k : K) (hb : root.Balanced) (ho : root.Ordered key) :
    ∃ stack pre post, Iterator.lowerBound key k root = some ⟨root, stack⟩ ∧
      Stands ⟨root, stack⟩ pre post ∧ (∀ w ∈ pre, key w < k) ∧ ∀ w ∈ post, k ≤ key w := by
  by_cases hroot : root = terminator
  · subst hroot
    exact ⟨[], [], [], rfl, Stands.end_ _, nofun, nofun⟩
  · exact seek_stands hb ho (Path.start hroot) nofun nofun

theorem upperBound_stands (k : K) (hb : root.Balanced) (ho : root.Ordered key) :
    ∃ stack pre post, Iterator.upperBound key k root = some ⟨root, stack⟩ ∧
      Stands ⟨root, stack⟩ pre post ∧ (∀ w ∈ pre, key w ≤ k) ∧ ∀ w ∈ post, k < key w := by
  obtain ⟨stack, pre, post, hlower, hstands, hpre, hpost⟩ := lowerBound_stands k hb ho
  have hsorted := ho
  rw [Ordered, ← hstands.values] at hsorted
  rw [Iterator.upperBound, hlower, Option.bind_some]
  cases hstands with
  | end_ => exact ⟨_, _, _, rfl, Stands.end_ _, fun w hw => (hpre w hw).le, List.forall_mem_nil _⟩
  | at_node h =>
    rename_i l r v m rest b a
    have hafter := (List.pairwise_cons.mp (List.pairwise_append.mp hsorted).2.1).1
    by_cases hlt : k < key v
    · refine ⟨_, _, _, if_pos hlt, Stands.at_node h, fun w hw => (hpre w hw).le, ?_⟩
      intro w hw
      rcases List.mem_cons.mp hw with rfl | hw
      · exact hlt
      · exact hlt.trans (hafter w hw)
    · have heq : key v = k := le_antisymm (not_lt.mp hlt) (hpost v List.mem_cons_self)
      obtain ⟨stack, hnext, hstands⟩ := (Stands.at_node h).next hb ho
      refine ⟨stack, _, _, (if_neg hlt).trans hnext, hstands, ?_, fun w hw => heq ▸ hafter w hw⟩
      intro w hw
      rcases List.mem_append.mp hw with hw | hw
      · exact (hpre w hw).le
      · rw [List.mem_singleton.mp hw, heq]

/-- `find` ends at the value of the key, or at the end. -/
theorem find_stands (k : K) (hb : root.Balanced) (ho : root.Ordered key) :
    ∃ stack pre post, Iterator.find key k root = some ⟨root, stack⟩ ∧
      Stands ⟨root, stack⟩ pre post ∧ (∀ w ∈ pre, key w ≠ k) ∧ ∀ w ∈ post.head?, key w = k := by
  obtain ⟨stack, pre, post, hlower, hstands, hpre, hpost⟩ := lowerBound_stands k hb ho
  have hvalues := hstands.values
  have hsorted := ho
  rw [Ordered, ← hvalues] at hsorted
  rw [Iterator.find, hlower, Option.map_some]
  cases hstands with
  | end_ => exact ⟨[], _, _, rfl, Stands.end_ _, fun w hw => (hpre w hw).ne, by simp⟩
  | at_node h =>
    rename_i l r v m rest b a
    have hafter := (List.pairwise_cons.mp (List.pairwise_append.mp hsorted).2.1).1
    by_cases hlt : k < key v
    · refine ⟨[], _, _, congrArg some (if_pos hlt), Stands.end_ _, ?_, by simp⟩
      intro w hw
      rw [← hvalues] at hw
      rcases List.mem_append.mp hw with hw | hw
      · exact (hpre w hw).ne
      rcases List.mem_cons.mp hw with rfl | hw
      · exact hlt.ne'
      · exact (hlt.trans (hafter w hw)).ne'
    · have heq : key v = k := le_antisymm (not_lt.mp hlt) (hpost v List.mem_cons_self)
      refine ⟨_, _, _, congrArg some (if_neg hlt), Stands.at_node h, fun w hw => (hpre w hw).ne, ?_⟩
      intro w hw
      rw [← Option.some.inj hw, heq]

end

end ImmutableTree

end Encider
