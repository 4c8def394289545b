import Mathlib.Order.WellFounded
import Mathlib.Algebra.Order.BigOperators.Group.List
import Mathlib.Algebra.Order.Ring.Nat

/-! Things that contain lists of other things, without an infinite nesting, have weights:
each weighs more than any list in it. -/

namespace Encider

variable {α : Type}

/-- `a` is in one of the lists that `b` contains. -/
def Within (parts : α → List (List α)) (a b : α) : Prop := ∃ l ∈ parts b, a ∈ l

namespace Within

variable {parts : α → List (List α)}

/-- One more than all the parts together. -/
noncomputable def weight (h : WellFounded (Within parts)) : α → Nat :=
  h.fix fun b ih =>
    2 + ((parts b).attach.map fun l => (l.1.attach.map fun a => ih a.1 ⟨l.1, l.2, a.2⟩).sum).sum

theorem weight_eq (h : WellFounded (Within parts)) (b : α) :
    weight h b = 2 + ((parts b).map fun l => (l.map (weight h)).sum).sum := by
  rw [weight, WellFounded.fix_eq]
  have hinner (l : List α) : (l.attach.map fun a => weight h a.1) = l.map (weight h) :=
    List.attach_map_val
  have houter : ((parts b).attach.map fun l => (l.1.map (weight h)).sum) =
      (parts b).map fun l => (l.map (weight h)).sum :=
    List.attach_map_val (f := fun l : List α => (l.map (weight h)).sum)
  calc 2 + ((parts b).attach.map fun l => (l.1.attach.map fun a => weight h a.1).sum).sum
      = 2 + ((parts b).attach.map fun l => (l.1.map (weight h)).sum).sum := by simp only [hinner]
    _ = 2 + ((parts b).map fun l => (l.map (weight h)).sum).sum := by rw [houter]

theorem weight_part (h : WellFounded (Within parts)) {b : α} {l : List α} (hl : l ∈ parts b) :
    (l.map (weight h)).sum + 2 ≤ weight h b := by
  rw [weight_eq, Nat.add_comm]
  have hmem := List.mem_map_of_mem (f := fun l : List α => (l.map (weight h)).sum) hl
  exact Nat.add_le_add_left (List.single_le_sum (fun _ _ => Nat.zero_le _) _ hmem) 2

end Within

/-- What comes after an element of a list and the element weigh no more than the list. -/
theorem List.sum_drop_succ (W : α → Nat) {l : List α} {n : Nat} {a : α} (h : l[n]? = some a) :
    ((l.drop (n + 1)).map W).sum + W a ≤ (l.map W).sum := by
  obtain ⟨hlt, he⟩ := List.getElem?_eq_some_iff.mp h
  have hdrop : l.drop n = a :: l.drop (n + 1) := by
    rw [List.drop_eq_getElem_cons hlt, he]
  calc ((l.drop (n + 1)).map W).sum + W a
      = ((l.drop n).map W).sum := by
        rw [hdrop, List.map_cons, List.sum_cons, Nat.add_comm]
    _ ≤ (l.map W).sum :=
        ((List.drop_sublist n l).map W).sum_le_sum fun _ _ => Nat.zero_le _

end Encider
