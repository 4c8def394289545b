import Encider.Lib.Rose

/-!
The lexicographic order of finite trees over a linear order of labels: the label at the root
first, then the children from left to right.
-/

namespace Rose

variable {α : Type} [LinearOrder α]

mutual
def cmp : Rose α → Rose α → Ordering
  | node a ts, node b us => (compare a b).then (cmpAll ts us)

def cmpAll : List (Rose α) → List (Rose α) → Ordering
  | [], [] => .eq
  | [], _ :: _ => .lt
  | _ :: _, [] => .gt
  | t :: ts, u :: us => (cmp t u).then (cmpAll ts us)
end

mutual
/-- Only a tree itself compares as equal to it. -/
theorem cmp_eq_iff : ∀ (t u : Rose α), cmp t u = .eq ↔ t = u
  | node a ts, node b us => by
    rw [cmp, Ordering.then_eq_eq, compare_eq_iff_eq, cmpAll_eq_iff ts us, node.injEq]

theorem cmpAll_eq_iff : ∀ (ts us : List (Rose α)), cmpAll ts us = .eq ↔ ts = us
  | [], [] => by simp [cmpAll]
  | [], _ :: _ => by simp [cmpAll]
  | _ :: _, [] => by simp [cmpAll]
  | t :: ts, u :: us => by
    rw [cmpAll, Ordering.then_eq_eq, cmp_eq_iff t u, cmpAll_eq_iff ts us, List.cons.injEq]
end

theorem cmp_self (t : Rose α) : cmp t t = .eq := (cmp_eq_iff t t).mpr rfl

theorem cmpAll_self (ts : List (Rose α)) : cmpAll ts ts = .eq := (cmpAll_eq_iff ts ts).mpr rfl

omit [LinearOrder α] in
theorem swap_compare [LinearOrder α] (a b : α) : (compare a b).swap = compare b a := by
  rcases lt_trichotomy a b with h | h | h
  · rw [compare_lt_iff_lt.mpr h, compare_gt_iff_gt.mpr h]
    rfl
  · rw [compare_eq_iff_eq.mpr h, compare_eq_iff_eq.mpr h.symm]
    rfl
  · rw [compare_gt_iff_gt.mpr h, compare_lt_iff_lt.mpr h]
    rfl

mutual
theorem cmp_swap : ∀ (t u : Rose α), (cmp t u).swap = cmp u t
  | node a ts, node b us => by
    rw [cmp, cmp, Ordering.swap_then, swap_compare, cmpAll_swap ts us]

theorem cmpAll_swap : ∀ (ts us : List (Rose α)), (cmpAll ts us).swap = cmpAll us ts
  | [], [] => rfl
  | [], _ :: _ => rfl
  | _ :: _, [] => rfl
  | t :: ts, u :: us => by
    rw [cmpAll, cmpAll, Ordering.swap_then, cmp_swap t u, cmpAll_swap ts us]
end

mutual
theorem cmp_lt_trans : ∀ {t u v : Rose α}, cmp t u = .lt → cmp u v = .lt → cmp t v = .lt
  | node a ts, node b us, node c vs, htu, huv => by
    rw [cmp, Ordering.then_eq_lt, compare_lt_iff_lt, compare_eq_iff_eq] at htu huv ⊢
    obtain hab | ⟨rfl, hts⟩ := htu
    · obtain hbc | ⟨rfl, _⟩ := huv
      · exact Or.inl (hab.trans hbc)
      · exact Or.inl hab
    · obtain hac | ⟨rfl, hus⟩ := huv
      · exact Or.inl hac
      · exact Or.inr ⟨rfl, cmpAll_lt_trans hts hus⟩

theorem cmpAll_lt_trans : ∀ {ts us vs : List (Rose α)}, cmpAll ts us = .lt →
    cmpAll us vs = .lt → cmpAll ts vs = .lt
  | _, [], [], _, huv => by simp [cmpAll] at huv
  | [], _, _ :: _, _, _ => rfl
  | _ :: _, [], _, htu, _ => by simp [cmpAll] at htu
  | _, _ :: _, [], _, huv => by simp [cmpAll] at huv
  | t :: ts, u :: us, v :: vs, htu, huv => by
    rw [cmpAll, Ordering.then_eq_lt, cmp_eq_iff] at htu huv ⊢
    obtain htu | ⟨rfl, hts⟩ := htu
    · obtain huv | ⟨rfl, _⟩ := huv
      · exact Or.inl (cmp_lt_trans htu huv)
      · exact Or.inl htu
    · obtain htv | ⟨rfl, hus⟩ := huv
      · exact Or.inl htv
      · exact Or.inr ⟨rfl, cmpAll_lt_trans hts hus⟩
end

theorem cmpAll_append {ts us : List (Rose α)} (h : ts.length = us.length) (ts' us' : List (Rose α)) :
    cmpAll (ts ++ ts') (us ++ us') = (cmpAll ts us).then (cmpAll ts' us') := by
  induction ts generalizing us with
  | nil =>
    cases us with
    | nil => rfl
    | cons u us => simp at h
  | cons t ts ih =>
    cases us with
    | nil => simp at h
    | cons u us =>
      rw [List.cons_append, List.cons_append, cmpAll, cmpAll,
        ih (by simpa using h), Ordering.then_assoc]

end Rose
