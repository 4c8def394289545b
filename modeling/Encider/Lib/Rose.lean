import Mathlib

/-- Finite trees with ordered children. -/
inductive Rose (α : Type) where
  | node (label : α) (kids : List (Rose α))

namespace Rose

variable {α : Type}

def kids : Rose α → List (Rose α)
  | node _ ts => ts

mutual
/-- The labels, each before those below it. -/
def labels : Rose α → List α
  | node a ts => a :: labelsAll ts

def labelsAll : List (Rose α) → List α
  | [] => []
  | t :: ts => t.labels ++ labelsAll ts
end

mutual
/-- The labels of the nodes without children, from left to right. -/
def leaves : Rose α → List α
  | node a [] => [a]
  | node _ (t :: ts) => t.leaves ++ leavesAll ts

def leavesAll : List (Rose α) → List α
  | [] => []
  | t :: ts => t.leaves ++ leavesAll ts
end

mutual
/-- `a` labels a node and `x` a node properly below it. -/
def Under (a x : α) : Rose α → Prop
  | node b ts => (a = b ∧ x ∈ labelsAll ts) ∨ UnderAll a x ts

def UnderAll (a x : α) : List (Rose α) → Prop
  | [] => False
  | t :: ts => t.Under a x ∨ UnderAll a x ts
end

theorem leaves_node {a : α} {ts : List (Rose α)} (h : ts ≠ []) :
    (node a ts).leaves = leavesAll ts := by
  cases ts with
  | nil => contradiction
  | cons t ts => simp only [leaves, leavesAll]

theorem leavesAll_append (ts us : List (Rose α)) :
    leavesAll (ts ++ us) = leavesAll ts ++ leavesAll us := by
  induction ts with
  | nil => simp [leavesAll]
  | cons t ts ih => simp only [List.cons_append, leavesAll, ih, List.append_assoc]

theorem labelsAll_append (ts us : List (Rose α)) :
    labelsAll (ts ++ us) = labelsAll ts ++ labelsAll us := by
  induction ts with
  | nil => simp [labelsAll]
  | cons t ts ih => simp only [List.cons_append, labelsAll, ih, List.append_assoc]

theorem leavesAll_perm {ts us : List (Rose α)} (h : ts.Perm us) :
    (leavesAll ts).Perm (leavesAll us) := by
  induction h with
  | nil => exact List.Perm.refl _
  | cons t _ ih => exact ih.append_left _
  | swap t u ts =>
    simp only [leavesAll, ← List.append_assoc]
    exact List.perm_append_comm.append_right _
  | trans _ _ h1 h2 => exact h1.trans h2

theorem labelsAll_perm {ts us : List (Rose α)} (h : ts.Perm us) :
    (labelsAll ts).Perm (labelsAll us) := by
  induction h with
  | nil => exact List.Perm.refl _
  | cons t _ ih => exact ih.append_left _
  | swap t u ts =>
    simp only [labelsAll, ← List.append_assoc]
    exact List.perm_append_comm.append_right _
  | trans _ _ h1 h2 => exact h1.trans h2

mutual
theorem leaves_sublist : ∀ (t : Rose α), t.leaves.Sublist t.labels
  | node a [] => by simp [leaves, labels, labelsAll]
  | node a (t :: ts) => by
    rw [leaves_node (by simp), labels]
    exact (leavesAll_sublist (t :: ts)).cons _

theorem leavesAll_sublist : ∀ (ts : List (Rose α)), (leavesAll ts).Sublist (labelsAll ts)
  | [] => by simp [leavesAll]
  | t :: ts => by
    simp only [leavesAll, labelsAll]
    exact (leaves_sublist t).append (leavesAll_sublist ts)
end

/-- The same tree with the children of some nodes in another order. -/
inductive Reorder : Rose α → Rose α → Prop where
  | refl (t : Rose α) : Reorder t t
  | perm {ts us : List (Rose α)} (a : α) : ts.Perm us → Reorder (node a ts) (node a us)
  | inside {t u : Rose α} (a : α) (ts us : List (Rose α)) :
      Reorder t u → Reorder (node a (ts ++ t :: us)) (node a (ts ++ u :: us))
  | trans {t u v : Rose α} : Reorder t u → Reorder u v → Reorder t v

namespace Reorder

theorem leaves_perm {t u : Rose α} (h : Reorder t u) : t.leaves.Perm u.leaves := by
  induction h with
  | refl t => exact List.Perm.refl _
  | @perm ts us a h =>
    cases ts with
    | nil => rw [List.nil_perm.mp h]
    | cons t ts =>
      have hu : us ≠ [] := by
        rintro rfl
        exact absurd h.symm (by simp)
      rw [leaves_node (by simp), leaves_node hu]
      exact leavesAll_perm h
  | inside a ts us _ ih =>
    rw [leaves_node (by simp), leaves_node (by simp), leavesAll_append, leavesAll_append]
    exact (ih.append_right _).append_left _
  | trans _ _ h1 h2 => exact h1.trans h2

theorem labels_perm {t u : Rose α} (h : Reorder t u) : t.labels.Perm u.labels := by
  induction h with
  | refl t => exact List.Perm.refl _
  | perm a h => exact (labelsAll_perm h).cons a
  | inside a ts us _ ih =>
    simp only [labels, labelsAll_append]
    exact ((ih.append_right _).append_left _).cons a
  | trans _ _ h1 h2 => exact h1.trans h2

end Reorder

theorem mem_labelsAll {a : α} {ts : List (Rose α)} :
    a ∈ labelsAll ts ↔ ∃ t ∈ ts, a ∈ t.labels := by
  induction ts with
  | nil => simp [labelsAll]
  | cons t ts ih => simp [labelsAll, ih]

theorem underAll_iff {a x : α} {ts : List (Rose α)} :
    UnderAll a x ts ↔ ∃ t ∈ ts, t.Under a x := by
  induction ts with
  | nil => simp [UnderAll]
  | cons t ts ih => simp [UnderAll, ih]

theorem Reorder.under {t u : Rose α} (h : Reorder t u) (a x : α) : t.Under a x ↔ u.Under a x := by
  induction h with
  | refl t => exact Iff.rfl
  | perm b h =>
    simp only [Under, underAll_iff, (labelsAll_perm h).mem_iff, h.mem_iff]
  | @inside t u b ts us h ih =>
    simp only [Under, underAll_iff, mem_labelsAll, List.mem_append, List.mem_cons]
    have hm : ∀ y, y ∈ t.labels ↔ y ∈ u.labels := fun y => h.labels_perm.mem_iff
    constructor
    · rintro (⟨hb, v, hv, hx⟩ | ⟨v, hv, hx⟩)
      · left
        rcases hv with hv | rfl | hv
        · exact ⟨hb, v, Or.inl hv, hx⟩
        · exact ⟨hb, u, Or.inr (Or.inl rfl), (hm x).mp hx⟩
        · exact ⟨hb, v, Or.inr (Or.inr hv), hx⟩
      · right
        rcases hv with hv | rfl | hv
        · exact ⟨v, Or.inl hv, hx⟩
        · exact ⟨u, Or.inr (Or.inl rfl), ih.mp hx⟩
        · exact ⟨v, Or.inr (Or.inr hv), hx⟩
    · rintro (⟨hb, v, hv, hx⟩ | ⟨v, hv, hx⟩)
      · left
        rcases hv with hv | rfl | hv
        · exact ⟨hb, v, Or.inl hv, hx⟩
        · exact ⟨hb, t, Or.inr (Or.inl rfl), (hm x).mpr hx⟩
        · exact ⟨hb, v, Or.inr (Or.inr hv), hx⟩
      · right
        rcases hv with hv | rfl | hv
        · exact ⟨v, Or.inl hv, hx⟩
        · exact ⟨t, Or.inr (Or.inl rfl), ih.mpr hx⟩
        · exact ⟨v, Or.inr (Or.inr hv), hx⟩
  | trans _ _ h1 h2 => exact h1.trans h2

mutual
/-- Any leaf comes first in some order. -/
theorem front {a : α} : ∀ {t : Rose α}, a ∈ t.leaves →
    ∃ u rest, Reorder t u ∧ u.leaves = a :: rest
  | node b [], h => by
    simp only [leaves, List.mem_singleton] at h
    subst h
    exact ⟨node a [], [], Reorder.refl _, by simp [leaves]⟩
  | node b (t :: ts), h => by
    rw [leaves_node (by simp)] at h
    obtain ⟨pre, v, w, post, hsplit, rest, hr, hl⟩ := frontAll h
    refine ⟨node b (w :: (pre ++ post)), rest ++ leavesAll (pre ++ post), ?_, ?_⟩
    · rw [hsplit]
      exact (Reorder.inside b pre post hr).trans (Reorder.perm b List.perm_middle)
    · rw [leaves, hl, List.cons_append]

theorem frontAll {a : α} : ∀ {ts : List (Rose α)}, a ∈ leavesAll ts →
    ∃ pre v w post, ts = pre ++ v :: post ∧ ∃ rest, Reorder v w ∧ w.leaves = a :: rest
  | [], h => by simp [leavesAll] at h
  | t :: ts, h => by
    simp only [leavesAll, List.mem_append] at h
    rcases h with h | h
    · obtain ⟨u, rest, hr, hl⟩ := front h
      exact ⟨[], t, u, ts, rfl, rest, hr, hl⟩
    · obtain ⟨pre, v, w, post, hs, rest, hr, hl⟩ := frontAll h
      exact ⟨t :: pre, v, w, post, by rw [hs, List.cons_append], rest, hr, hl⟩
end

mutual
theorem Under.mem_left {a x : α} : ∀ {t : Rose α}, t.Under a x → a ∈ t.labels
  | node b ts, h => by
    simp only [Under] at h
    rcases h with ⟨rfl, _⟩ | h
    · simp [labels]
    · exact List.mem_cons_of_mem _ (underAll_mem_left h)

theorem underAll_mem_left {a x : α} : ∀ {ts : List (Rose α)}, UnderAll a x ts → a ∈ labelsAll ts
  | [], h => by simp [UnderAll] at h
  | t :: ts, h => by
    simp only [UnderAll] at h
    rcases h with h | h
    · exact List.mem_append_left _ (Under.mem_left h)
    · exact List.mem_append_right _ (underAll_mem_left h)
end

mutual
theorem Under.mem_right {a x : α} : ∀ {t : Rose α}, t.Under a x → x ∈ t.labels
  | node b ts, h => by
    simp only [Under] at h
    rcases h with ⟨_, h⟩ | h
    · exact List.mem_cons_of_mem _ h
    · exact List.mem_cons_of_mem _ (underAll_mem_right h)

theorem underAll_mem_right {a x : α} : ∀ {ts : List (Rose α)}, UnderAll a x ts → x ∈ labelsAll ts
  | [], h => by simp [UnderAll] at h
  | t :: ts, h => by
    simp only [UnderAll] at h
    rcases h with h | h
    · exact List.mem_append_left _ (Under.mem_right h)
    · exact List.mem_append_right _ (underAll_mem_right h)
end

variable [DecidableEq α]

mutual
/-- A node comes before the nodes below it. -/
theorem Under.idxOf_lt {a x : α} : ∀ {t : Rose α}, t.labels.Nodup → t.Under a x →
    t.labels.idxOf a < t.labels.idxOf x
  | node b ts, hn, h => by
    simp only [labels, List.nodup_cons] at hn ⊢
    simp only [Under] at h
    rcases h with ⟨rfl, hx⟩ | h
    · have hne : a ≠ x := by
        rintro rfl
        exact hn.1 hx
      rw [List.idxOf_cons_self, List.idxOf_cons_ne _ hne]
      omega
    · have ha : b ≠ a := by
        rintro rfl
        exact hn.1 (underAll_mem_left h)
      have hx : b ≠ x := by
        rintro rfl
        exact hn.1 (underAll_mem_right h)
      rw [List.idxOf_cons_ne _ ha, List.idxOf_cons_ne _ hx]
      exact Nat.succ_lt_succ (underAll_idxOf_lt hn.2 h)

theorem underAll_idxOf_lt {a x : α} : ∀ {ts : List (Rose α)}, (labelsAll ts).Nodup →
    UnderAll a x ts → (labelsAll ts).idxOf a < (labelsAll ts).idxOf x
  | [], _, h => by simp [UnderAll] at h
  | t :: ts, hn, h => by
    simp only [labelsAll] at hn ⊢
    simp only [UnderAll] at h
    rcases h with h | h
    · rw [List.idxOf_append_of_mem h.mem_left, List.idxOf_append_of_mem h.mem_right]
      exact Under.idxOf_lt hn.of_append_left h
    · have hd := List.disjoint_of_nodup_append hn
      have ha : a ∉ t.labels := fun hm => hd hm (underAll_mem_left h)
      have hx : x ∉ t.labels := fun hm => hd hm (underAll_mem_right h)
      rw [List.idxOf_append_of_notMem ha, List.idxOf_append_of_notMem hx]
      have := underAll_idxOf_lt hn.of_append_right h
      omega
end

end Rose
