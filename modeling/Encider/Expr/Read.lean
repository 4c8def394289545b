import Encider.Expr.Equality

/-! `ReadExpr::create`: a read takes the value of a write that is certainly to its index, and the
contents of a constant array when no write may hide them. -/

namespace Encider

open Encider.Expr

/-- How far a read gets in the writes below it. -/
inductive Rollback where
  | found (value : Expr)
  | symbolic
  | through

namespace ReadExpr

/-- The loop over the writes; it stops at one whose index may or may not be that of the read. -/
def rollback (index : Expr) : UpdateList → Rollback
  | .nil => .through
  | .cons i v next =>
    match EqExpr.create index i with
    | .constant _ c => if c.toNat = 1 then .found v else rollback index next
    | _ => .symbolic

def create (root : Array) (updates : UpdateList) (index : Expr) : Expr :=
  match rollback index updates with
  | .found v => v
  | .symbolic => .read root updates index
  | .through =>
    match index with
    | .constant _ c =>
      if c.toNat < root.size then
        match root.constantValues[c.toNat]? with
        | some v => .constant root.range v
        | none => .read root updates index
      else .read root updates index
    | _ => .read root updates index

end ReadExpr

section
variable {σ : Assignment}

theorem eq_value_iff {l r : Expr} (hw : l.getWidth = r.getWidth) :
    (binary .eq l r).value σ = 1 ↔ l.value σ = r.value σ := by
  have hl := l.value_lt σ
  have hr := r.value_lt σ
  rw [← hw] at hr
  rw [binary_value, BinaryKind.apply, Bool.toNat_eq_one, decide_eq_true_iff, ← BitVec.toNat_inj,
    BitVec.toNat_ofNat, BitVec.toNat_ofNat, Nat.mod_eq_of_lt hl, Nat.mod_eq_of_lt hr]

/-- A comparison that is folded tells whether the indices are the same. -/
theorem eq_folded {l r : Expr} (hl : l.WellTyped) (hr : r.WellTyped)
    (hw : l.getWidth = r.getWidth) {v : Width} {c : BitVec v}
    (h : EqExpr.create l r = .constant v c) : c.toNat = 1 ↔ r.value σ = l.value σ := by
  have hm := (EqExpr.create_means σ hl hr hw).value
  rw [h, Expr.value] at hm
  rw [hm, eq_value_iff hw, eq_comm]

variable {a : Array} {index : Expr} (hindex : index.WellTyped) (hw : index.getWidth = a.domain)
include hindex hw

theorem ReadExpr.rollback_found {us : UpdateList} (hus : us.WellTyped a) {v : Expr}
    (h : ReadExpr.rollback index us = .found v) :
    v.Means σ a.range (us.contents σ a (index.value σ)).toNat := by
  induction us using UpdateList.rec (motive_1 := fun _ => True) with
  | nil => cases h
  | cons i value next _ _ ih =>
    obtain ⟨hi, hv, hiw, hvw, hnext⟩ := hus
    unfold ReadExpr.rollback at h
    split at h
    · rename_i heq
      have hfold := eq_folded (σ := σ) hindex hi (hw.trans hiw.symm) heq
      split at h
      · rename_i hc
        cases h
        refine ⟨hv, hvw, ?_⟩
        have hlt := v.value_lt σ
        rw [hvw] at hlt
        rw [UpdateList.contents, if_pos (hfold.mp hc), BitVec.toNat_ofNat, Nat.mod_eq_of_lt hlt]
      · rename_i hc
        rw [UpdateList.contents, if_neg fun hv => hc (hfold.mpr hv)]
        exact ih hnext h
    · cases h
  | _ => trivial

theorem ReadExpr.rollback_through {us : UpdateList} (hus : us.WellTyped a)
    (h : ReadExpr.rollback index us = .through) :
    us.contents σ a (index.value σ) = a.initial σ (index.value σ) := by
  induction us using UpdateList.rec (motive_1 := fun _ => True) with
  | nil => rw [UpdateList.contents]
  | cons i value next _ _ ih =>
    obtain ⟨hi, -, hiw, -, hnext⟩ := hus
    unfold ReadExpr.rollback at h
    split at h
    · rename_i heq
      have hfold := eq_folded (σ := σ) hindex hi (hw.trans hiw.symm) heq
      split at h
      · cases h
      · rename_i hc
        rw [UpdateList.contents, if_neg fun hv => hc (hfold.mpr hv)]
        exact ih hnext h
    · cases h
  | _ => trivial

theorem ReadExpr.create_means {us : UpdateList} (hus : us.WellTyped a) :
    (ReadExpr.create a us index).Means σ a.range (us.contents σ a (index.value σ)).toNat := by
  have hplain : (Expr.read a us index).Means σ a.range
      (us.contents σ a (index.value σ)).toNat := ⟨⟨hus, hindex, hw⟩, rfl, by rw [Expr.value]⟩
  unfold ReadExpr.create
  split
  · exact ReadExpr.rollback_found hindex hw hus ‹_›
  · exact hplain
  · rename_i hthrough
    split
    · split
      · split
        · rename_i v hv
          refine ⟨trivial, rfl, ?_⟩
          rw [ReadExpr.rollback_through hindex hw hus hthrough, Array.initial, Expr.value, Expr.value,
            hv, Option.getD_some]
        · exact hplain
      · exact hplain
    · exact hplain

end

end Encider
