import Mathlib

/-! A binary tree seen from one of its nodes: what is below the node and what is above it. -/

namespace Encider.Zipper

variable {α β γ : Type}

inductive Side where
  | left
  | right
  deriving DecidableEq

/-- A node above: the side one comes from, and the subtree on the other side. -/
structure Frame (α : Type) where
  side : Side
  value : α
  sibling : BinaryTree α

/-- The nodes above, the nearest one first. -/
abbrev Trail (α : Type) := List (Frame α)

/-- The node of the frame with a subtree on the frame's side. -/
def Frame.plug (f : Frame α) (t : BinaryTree α) : BinaryTree α :=
  match f.side with
  | .left => .node f.value t f.sibling
  | .right => .node f.value f.sibling t

/-- The whole tree. -/
def rebuild (t : BinaryTree α) : Trail α → BinaryTree α
  | [] => t
  | f :: fs => rebuild (f.plug t) fs

/-- What the nodes hold, from left to right. -/
def listed (g : α → β) : BinaryTree α → List β
  | .nil => []
  | .node a l r => listed g l ++ g a :: listed g r

/-- What is to the left of the subtree at the end of the path. -/
def before (g : α → β) : Trail α → List β
  | [] => []
  | ⟨.left, _, _⟩ :: fs => before g fs
  | ⟨.right, a, t⟩ :: fs => before g fs ++ (listed g t ++ [g a])

/-- What is to its right. -/
def after (g : α → β) : Trail α → List β
  | [] => []
  | ⟨.left, a, t⟩ :: fs => g a :: listed g t ++ after g fs
  | ⟨.right, _, _⟩ :: fs => after g fs

/-- A node of a tree. -/
structure Spot (α : Type) where
  value : α
  left : BinaryTree α
  right : BinaryTree α
  path : Trail α

namespace Spot

/-- The subtree of the node. -/
def tree (s : Spot α) : BinaryTree α := .node s.value s.left s.right

def whole (s : Spot α) : BinaryTree α := rebuild s.tree s.path

/-- The child on a side. -/
def down (s : Spot α) : Side → Option (Spot α)
  | .left =>
    match s.left with
    | .nil => none
    | .node a l r => some ⟨a, l, r, ⟨.left, s.value, s.right⟩ :: s.path⟩
  | .right =>
    match s.right with
    | .nil => none
    | .node a l r => some ⟨a, l, r, ⟨.right, s.value, s.left⟩ :: s.path⟩

/-- The parent. -/
def up (s : Spot α) : Option (Spot α) :=
  match s.path with
  | [] => none
  | ⟨.left, a, t⟩ :: fs => some ⟨a, s.tree, t, fs⟩
  | ⟨.right, a, t⟩ :: fs => some ⟨a, t, s.tree, fs⟩

end Spot

section listed

variable (g : α → β) (a : α) (l r t : BinaryTree α) (fs : Trail α)

@[simp] theorem listed_nil : listed g .nil = [] := rfl

@[simp] theorem listed_node : listed g (.node a l r) = listed g l ++ g a :: listed g r := rfl

@[simp] theorem before_nil : before g [] = [] := rfl

@[simp] theorem before_left : before g (⟨.left, a, t⟩ :: fs) = before g fs := rfl

@[simp] theorem before_right :
    before g (⟨.right, a, t⟩ :: fs) = before g fs ++ (listed g t ++ [g a]) := rfl

@[simp] theorem after_nil : after g [] = [] := rfl

@[simp] theorem after_left :
    after g (⟨.left, a, t⟩ :: fs) = g a :: listed g t ++ after g fs := rfl

@[simp] theorem after_right : after g (⟨.right, a, t⟩ :: fs) = after g fs := rfl

variable {g} {a' : α} {t' : BinaryTree α} {fs fs' : Trail α} {a t} in
theorem before_congr (side : Side) (ha : g a' = g a) (ht : listed g t' = listed g t)
    (hfs : before g fs' = before g fs) :
    before g (⟨side, a', t'⟩ :: fs') = before g (⟨side, a, t⟩ :: fs) := by
  cases side <;> simp [ha, ht, hfs]

variable {g} {a' : α} {t' : BinaryTree α} {fs fs' : Trail α} {a t} in
theorem after_congr (side : Side) (ha : g a' = g a) (ht : listed g t' = listed g t)
    (hfs : after g fs' = after g fs) :
    after g (⟨side, a', t'⟩ :: fs') = after g (⟨side, a, t⟩ :: fs) := by
  cases side <;> simp [ha, ht, hfs]

theorem listed_rebuild :
    listed g (rebuild t fs) = before g fs ++ listed g t ++ after g fs := by
  induction fs generalizing t with
  | nil => simp [rebuild]
  | cons f fs ih =>
    obtain ⟨side, b, u⟩ := f
    cases side <;> simp [rebuild, Frame.plug, ih]

theorem listed_map (h : β → γ) : (listed g t).map h = listed (h ∘ g) t := by
  induction t with
  | nil => rfl
  | node b l r ihl ihr => simp [ihl, ihr]

theorem before_map (h : β → γ) : (before g fs).map h = before (h ∘ g) fs := by
  induction fs with
  | nil => rfl
  | cons f fs ih =>
    obtain ⟨side, b, u⟩ := f
    cases side <;> simp [ih, listed_map]

theorem after_map (h : β → γ) : (after g fs).map h = after (h ∘ g) fs := by
  induction fs with
  | nil => rfl
  | cons f fs ih =>
    obtain ⟨side, b, u⟩ := f
    cases side <;> simp [ih, listed_map]

end listed

section search

variable {K : Type} [LinearOrder K] {key : α → K} {k : K} {fs : Trail α} {t : BinaryTree α}

/-- Every node on the path sends a search for the key the way the path goes. -/
def Leads (key : α → K) (k : K) (fs : Trail α) : Prop :=
  ∀ f ∈ fs, k ≠ key f.value ∧ (f.side = .left ↔ k < key f.value)

theorem Leads.nil : Leads key k ([] : Trail α) := List.forall_mem_nil _

theorem Leads.left {a : α} (hs : Leads key k fs) (h : k < key a) :
    Leads key k (⟨.left, a, t⟩ :: fs) :=
  List.forall_mem_cons.mpr ⟨⟨h.ne, iff_of_true rfl h⟩, hs⟩

theorem Leads.right {a : α} (hs : Leads key k fs) (h : key a < k) :
    Leads key k (⟨.right, a, t⟩ :: fs) :=
  List.forall_mem_cons.mpr ⟨⟨h.ne', iff_of_false (by simp) h.not_gt⟩, hs⟩

theorem Leads.of_left {a : α} (h : Leads key k (⟨.left, a, t⟩ :: fs)) :
    k < key a ∧ Leads key k fs := by
  obtain ⟨⟨-, ha⟩, hs⟩ := List.forall_mem_cons.mp h
  exact ⟨ha.mp rfl, hs⟩

theorem Leads.of_right {a : α} (h : Leads key k (⟨.right, a, t⟩ :: fs)) :
    key a < k ∧ Leads key k fs := by
  obtain ⟨⟨hne, ha⟩, hs⟩ := List.forall_mem_cons.mp h
  have hle : key a ≤ k := not_lt.mp fun hlt => Side.noConfusion (ha.mpr hlt)
  exact ⟨lt_of_le_of_ne hle (Ne.symm hne), hs⟩

/-- Where the keys are in order, the path of a search has the smaller keys to its left and the
larger ones to its right. -/
theorem Leads.between (h : Leads key k fs) (mid : List K)
    (hs : (before key fs ++ mid ++ after key fs).Pairwise (· < ·)) :
    (∀ x ∈ before key fs, x < k) ∧ ∀ x ∈ after key fs, k < x := by
  induction fs generalizing mid with
  | nil => simp
  | cons f fs ih =>
    obtain ⟨side, a, u⟩ := f
    cases side with
    | left =>
      obtain ⟨hlt, hfs⟩ := h.of_left
      simp only [before_left, after_left] at hs ⊢
      have hs' : (before key fs ++ (mid ++ key a :: listed key u) ++ after key fs).Pairwise
          (· < ·) := by simpa using hs
      obtain ⟨hb, ha⟩ := ih hfs _ hs'
      refine ⟨hb, fun x hx => ?_⟩
      have hrest := (List.pairwise_append.mp hs).2.1
      rw [List.cons_append, List.pairwise_cons] at hrest
      rcases List.mem_cons.mp hx with hx | hx
      · exact hx ▸ hlt
      · exact hlt.trans (hrest.1 x hx)
    | right =>
      obtain ⟨hlt, hfs⟩ := h.of_right
      simp only [before_right, after_right] at hs ⊢
      have hs' : (before key fs ++ (listed key u ++ key a :: mid) ++ after key fs).Pairwise
          (· < ·) := by simpa using hs
      obtain ⟨hb, ha⟩ := ih hfs _ hs'
      refine ⟨fun x hx => ?_, ha⟩
      have hrest := (List.pairwise_append.mp (List.pairwise_append.mp hs).1).1
      rw [← List.append_assoc, List.pairwise_append] at hrest
      rw [← List.append_assoc] at hx
      rcases List.mem_append.mp hx with hx | hx
      · exact (hrest.2.2 x hx _ (List.mem_singleton_self _)).trans hlt
      · rw [List.mem_singleton.mp hx]
        exact hlt

end search

/-- Two places in one list. -/
theorem split_cases {l r l' r' : List α} {a a' : α} (h : l ++ a :: r = l' ++ a' :: r') :
    (l = l' ∧ a = a' ∧ r = r') ∨ (∃ c, l' = l ++ a :: c ∧ r = c ++ a' :: r') ∨
      ∃ c, l = l' ++ a' :: c ∧ r' = c ++ a :: r := by
  obtain ⟨c, hl', hr⟩ | ⟨c, hl, hr⟩ := List.append_eq_append_iff.mp h
  · cases c with
    | nil =>
      obtain ⟨rfl, rfl⟩ := List.cons.inj hr
      exact .inl ⟨by simp [hl'], rfl, rfl⟩
    | cons b c =>
      obtain ⟨rfl, rfl⟩ := List.cons.inj hr
      exact .inr (.inl ⟨c, hl', rfl⟩)
  · cases c with
    | nil =>
      obtain ⟨rfl, rfl⟩ := List.cons.inj hr
      exact .inl ⟨by simp [hl], rfl, rfl⟩
    | cons b c =>
      obtain ⟨rfl, rfl⟩ := List.cons.inj hr
      exact .inr (.inr ⟨c, hl, rfl⟩)

section maps

variable {K W : Type} [LinearOrder K] {es l r : List (K × W)} {m : K → Option W} {k : K} {w : W}

/-- The entries of a map in the order of their keys. -/
structure Lists (es : List (K × W)) (m : K → Option W) : Prop where
  ordered : (es.map Prod.fst).Pairwise (· < ·)
  entries : ∀ k w, (k, w) ∈ es ↔ m k = some w

theorem Lists.empty : Lists ([] : List (K × W)) fun _ => none :=
  ⟨.nil, by simp⟩

theorem Lists.absent (h : Lists es m) (hk : k ∉ es.map Prod.fst) : m k = none := by
  cases hm : m k with
  | none => rfl
  | some w => exact absurd (List.mem_map_of_mem ((h.entries k w).mpr hm)) hk

theorem Lists.present (h : Lists (l ++ (k, w) :: r) m) : m k = some w :=
  (h.entries k w).mp (by simp)

/-- The keys on both sides of an entry are other keys. -/
theorem Lists.others (h : Lists (l ++ (k, w) :: r) m) {e : K × W} (he : e ∈ l ++ r) : e.1 ≠ k := by
  have hs := h.ordered
  rw [List.map_append, List.map_cons, List.pairwise_append, List.pairwise_cons] at hs
  obtain ⟨-, ⟨hr, -⟩, hl⟩ := hs
  rcases List.mem_append.mp he with he | he
  · exact (hl _ (List.mem_map_of_mem he) _ List.mem_cons_self).ne
  · exact (hr _ (List.mem_map_of_mem he)).ne'

/-- A key has one place. -/
theorem Lists.place {l' r' : List (K × W)} {w' : W} (h : Lists (l ++ (k, w) :: r) m)
    (hsplit : l ++ (k, w) :: r = l' ++ (k, w') :: r') : l' = l := by
  obtain ⟨rfl, -, -⟩ | ⟨c, -, rfl⟩ | ⟨c, rfl, -⟩ := split_cases hsplit
  · rfl
  · exact absurd rfl (h.others (e := (k, w')) (by simp))
  · exact absurd rfl (h.others (e := (k, w')) (by simp))

theorem Lists.insert (h : Lists (l ++ r) m) (hl : ∀ x ∈ l.map Prod.fst, x < k)
    (hr : ∀ x ∈ r.map Prod.fst, k < x) :
    Lists (l ++ (k, w) :: r) (Function.update m k (some w)) := by
  have hs := h.ordered
  rw [List.map_append, List.pairwise_append] at hs
  refine ⟨?_, fun k' w' => ?_⟩
  · rw [List.map_append, List.map_cons, List.pairwise_append, List.pairwise_cons]
    refine ⟨hs.1, ⟨hr, hs.2.1⟩, fun x hx y hy => ?_⟩
    rcases List.mem_cons.mp hy with hy | hy
    · exact hy ▸ hl x hx
    · exact hs.2.2 x hx y hy
  · have hold := h.entries k' w'
    by_cases hk : k' = k
    · subst hk
      have hnot : (k', w') ∉ l ++ r := by
        intro hmem
        rcases List.mem_append.mp hmem with hmem | hmem
        · exact lt_irrefl _ (hl _ (List.mem_map_of_mem hmem))
        · exact lt_irrefl _ (hr _ (List.mem_map_of_mem hmem))
      simp only [List.mem_append, not_or] at hnot
      simp [hnot, eq_comm]
    · simp only [List.mem_append] at hold
      simp [hk, hold]

theorem Lists.erase (h : Lists (l ++ (k, w) :: r) m) :
    Lists (l ++ r) (Function.update m k none) := by
  refine ⟨h.ordered.sublist (((List.sublist_cons_self _ _).append_left l).map _), fun k' w' => ?_⟩
  have hold := h.entries k' w'
  by_cases hk : k' = k
  · subst hk
    simpa using fun he : (k', w') ∈ l ++ r => h.others he rfl
  · rw [Function.update_of_ne hk, ← hold]
    simp [hk]

theorem Lists.replace (h : Lists (l ++ (k, w) :: r) m) (w' : W) :
    Lists (l ++ (k, w') :: r) (Function.update m k (some w')) := by
  have hs := h.ordered
  rw [List.map_append, List.map_cons, List.pairwise_append, List.pairwise_cons] at hs
  obtain ⟨-, ⟨hr, -⟩, hl⟩ := hs
  have hinsert := h.erase.insert (k := k) (w := w')
    (fun x hx => hl x hx k List.mem_cons_self) hr
  rwa [Function.update_idem] at hinsert

end maps

end Encider.Zipper
