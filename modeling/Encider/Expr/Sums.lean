import Encider.Expr.Arithmetic

/-! `AddExpr::create` and `SubExpr::create` on any operands. A constant in front of an operand
moves to the front of the result, so the two constructors call each other on smaller operands. -/

namespace Encider

open Encider.Expr

/-- The constant in front of a sum or a difference. -/
inductive Offset where
  | plus {w : Width} (k : BitVec w) (rest : Expr)
  | minus {w : Width} (k : BitVec w) (rest : Expr)
  | none

/-- `getKind() == Expr::Add` or `Expr::Sub`, and `isa<ConstantExpr>(getKid(0))`. -/
def Expr.offset : Expr → Offset
  | .binary .add (.constant _ k) a => .plus k a
  | .binary .sub (.constant _ k) a => .minus k a
  | _ => .none

theorem Expr.offset_plus {e : Expr} {w : Width} {k : BitVec w} {a : Expr}
    (h : e.offset = .plus k a) : e = .binary .add (.constant w k) a := by
  unfold Expr.offset at h
  split at h
  · cases h
    rfl
  · cases h
  · cases h

theorem Expr.offset_minus {e : Expr} {w : Width} {k : BitVec w} {a : Expr}
    (h : e.offset = .minus k a) : e = .binary .sub (.constant w k) a := by
  unfold Expr.offset at h
  split at h
  · cases h
  · cases h
    rfl
  · cases h

theorem Expr.size_plus {e : Expr} {w : Width} {k : BitVec w} {a : Expr}
    (h : e.offset = .plus k a) : a.size < e.size := by
  rw [Expr.offset_plus h, Expr.size]
  omega

theorem Expr.size_minus {e : Expr} {w : Width} {k : BitVec w} {a : Expr}
    (h : e.offset = .minus k a) : a.size < e.size := by
  rw [Expr.offset_minus h, Expr.size]
  omega

/-- `AddExpr::create(k, e)` for a constant `k`. -/
def AddExpr.createFront {w : Width} (k : BitVec w) (e : Expr) : Expr :=
  BinaryKind.createConst .add k e (AddExpr.createPartialR k e)

/-- `SubExpr::create(k, e)` for a constant `k`. -/
def SubExpr.createFront {w : Width} (k : BitVec w) (e : Expr) : Expr :=
  BinaryKind.createConst .sub k e (SubExpr.createPartialR k e)

mutual
def AddExpr.create (l r : Expr) : Expr :=
  match l, r with
  | .constant _ cl, .constant _ cr => ConstantExpr.fold .add cl cr
  | .constant _ cl, r => AddExpr.createPartialR cl r
  | l, .constant _ cr => AddExpr.createPartial l cr
  | l, r =>
    if l.getWidth = 1 then .binary .xor l r
    else
      match _h : l.offset with
      | .plus k a => AddExpr.createFront k (AddExpr.create a r)
      | .minus k a => AddExpr.createFront k (SubExpr.create r a)
      | .none =>
        match _h : r.offset with
        | .plus k b => AddExpr.createFront k (AddExpr.create l b)
        | .minus k b => AddExpr.createFront k (SubExpr.create l b)
        | .none => .binary .add l r
termination_by l.size + r.size
decreasing_by
  · have := Expr.size_plus ‹_›
    omega
  · have := Expr.size_minus ‹_›
    omega
  · have := Expr.size_plus ‹_›
    omega
  · have := Expr.size_minus ‹_›
    omega

def SubExpr.create (l r : Expr) : Expr :=
  match l, r with
  | .constant _ cl, .constant _ cr => ConstantExpr.fold .sub cl cr
  | .constant _ cl, r => SubExpr.createPartialR cl r
  | l, .constant _ cr => AddExpr.createPartial l (0 - cr)
  | l, r =>
    if l.getWidth = 1 then .binary .xor l r
    else if l = r then const 0 l.getWidth
    else
      match _h : l.offset with
      | .plus k a => AddExpr.createFront k (SubExpr.create a r)
      | .minus k a => SubExpr.createFront k (AddExpr.create a r)
      | .none =>
        match _h : r.offset with
        | .plus k b => SubExpr.createBy (SubExpr.create l b) k
        | .minus k b => SubExpr.createBy (AddExpr.create l b) k
        | .none => .binary .sub l r
termination_by l.size + r.size
decreasing_by
  · have := Expr.size_plus ‹_›
    omega
  · have := Expr.size_minus ‹_›
    omega
  · have := Expr.size_plus ‹_›
    omega
  · have := Expr.size_minus ‹_›
    omega
end

theorem Expr.Means.bits {σ : Assignment} {e : Expr} {w : Width} {x : BitVec w}
    (h : e.Means σ w x.toNat) : e.bits σ w = x := by
  rw [Expr.bits, h.value, BitVec.ofNat_toNat, BitVec.setWidth_eq]

theorem AddExpr.createFront_means {σ : Assignment} {e : Expr} {w : Width} {x : BitVec w}
    (k : BitVec w) (h : e.Means σ w x.toNat) :
    (AddExpr.createFront k e).Means σ w (k + x).toNat := by
  have hk := Expr.OffsetCorrect.add_const (e.offsetCorrect σ) k h.typed h.width
  rwa [h.bits] at hk

theorem SubExpr.createFront_means {σ : Assignment} {e : Expr} {w : Width} {x : BitVec w}
    (k : BitVec w) (h : e.Means σ w x.toNat) :
    (SubExpr.createFront k e).Means σ w (k - x).toNat := by
  have hk := Expr.OffsetCorrect.sub_const (e.offsetCorrect σ) k h.typed h.width
  rwa [h.bits] at hk

theorem SubExpr.createBy_word {σ : Assignment} {e : Expr} {w : Width} {x : BitVec w}
    (k : BitVec w) (h : e.Means σ w x.toNat) :
    (SubExpr.createBy e k).Means σ w (x - k).toNat := by
  have hk := SubExpr.createBy_means σ k h.typed h.width
  rwa [h.bits] at hk

/-- What the sum and the difference of two operands must give. -/
def Expr.SumCorrect (σ : Assignment) (l r : Expr) : Prop :=
  ∀ {w : Width}, l.WellTyped → r.WellTyped → l.getWidth = w → r.getWidth = w →
    (AddExpr.create l r).Means σ w (l.bits σ w + r.bits σ w).toNat ∧
    (SubExpr.create l r).Means σ w (l.bits σ w - r.bits σ w).toNat

/-- An operation that is not simplified. -/
theorem alloc_means (σ : Assignment) {k : BinaryKind} (hk : k.isCmp = false) {l r : Expr}
    {w : Width} (hl : l.WellTyped) (hr : r.WellTyped) (hlw : l.getWidth = w)
    (hrw : r.getWidth = w) :
    (binary k l r).Means σ w (k.apply (l.bits σ w) (r.bits σ w)) := by
  refine ⟨⟨hl, hr, hlw.trans hrw.symm⟩, ?_, ?_⟩
  · simp [getWidth, hk, hlw]
  · rw [binary_value, Expr.bits, Expr.bits, hlw]

theorem fold_word (σ : Assignment) {k : BinaryKind} (hk : k.isCmp = false) {w : Width}
    (a b : BitVec w) : (ConstantExpr.fold k a b).Means σ w (k.apply a b) := by
  have h := fold_means σ k a b
  rw [hk, if_neg Bool.false_ne_true, constant_binary_value, bits_constant] at h
  exact h

section
variable {σ : Assignment} {l r : Expr} {w : Width}

theorem AddExpr.create_step
    (ih : ∀ a b : Expr, a.size + b.size < l.size + r.size → Expr.SumCorrect σ a b)
    (hl : l.WellTyped) (hr : r.WellTyped) (hlw : l.getWidth = w) (hrw : r.getWidth = w) :
    (AddExpr.create l r).Means σ w (l.bits σ w + r.bits σ w).toNat := by
  unfold AddExpr.create
  split
  · rename_i v cl u cr
    obtain rfl : v = w := hlw
    obtain rfl : u = v := hrw
    rw [bits_constant, bits_constant]
    exact fold_word σ rfl cl cr
  · rename_i v cl _
    obtain rfl : v = w := hlw
    rw [bits_constant]
    exact (r.offsetCorrect σ cl hr hrw).1
  · rename_i v cr _
    obtain rfl : v = w := hrw
    rw [bits_constant, add_comm]
    exact (l.offsetCorrect σ cr hl hlw).1
  · split
    · rename_i h1
      obtain rfl : w = 1 := hlw.symm.trans h1
      rw [(bool_xor _ _).1]
      exact alloc_means σ rfl hl hr hlw hrw
    · split
      · rename_i v k a hk
        have hlt := Expr.size_plus hk
        have he := Expr.offset_plus hk
        subst he
        obtain rfl : v = w := hlw
        rw [bits_constant_add, add_assoc]
        apply AddExpr.createFront_means
        exact (ih a r (by omega) hl.2.1 hr hl.2.2.symm hrw).1
      · rename_i v k a hk
        have hlt := Expr.size_minus hk
        have he := Expr.offset_minus hk
        subst he
        obtain rfl : v = w := hlw
        rw [bits_constant_sub, sub_add_eq_add_sub, add_sub_assoc]
        apply AddExpr.createFront_means
        exact (ih r a (by omega) hr hl.2.1 hrw hl.2.2.symm).2
      · split
        · rename_i v k b hk
          have hlt := Expr.size_plus hk
          have he := Expr.offset_plus hk
          subst he
          obtain rfl : v = w := hrw
          rw [bits_constant_add, add_left_comm]
          apply AddExpr.createFront_means
          exact (ih l b (by omega) hl hr.2.1 hlw hr.2.2.symm).1
        · rename_i v k b hk
          have hlt := Expr.size_minus hk
          have he := Expr.offset_minus hk
          subst he
          obtain rfl : v = w := hrw
          rw [bits_constant_sub, ← add_sub_assoc, add_comm, add_sub_assoc]
          apply AddExpr.createFront_means
          exact (ih l b (by omega) hl hr.2.1 hlw hr.2.2.symm).2
        · exact alloc_means σ rfl hl hr hlw hrw

theorem SubExpr.create_step
    (ih : ∀ a b : Expr, a.size + b.size < l.size + r.size → Expr.SumCorrect σ a b)
    (hl : l.WellTyped) (hr : r.WellTyped) (hlw : l.getWidth = w) (hrw : r.getWidth = w) :
    (SubExpr.create l r).Means σ w (l.bits σ w - r.bits σ w).toNat := by
  unfold SubExpr.create
  split
  · rename_i v cl u cr
    obtain rfl : v = w := hlw
    obtain rfl : u = v := hrw
    rw [bits_constant, bits_constant]
    exact fold_word σ rfl cl cr
  · rename_i v cl _
    obtain rfl : v = w := hlw
    rw [bits_constant]
    exact (r.offsetCorrect σ cl hr hrw).2
  · rename_i v cr _
    obtain rfl : v = w := hrw
    have h := (l.offsetCorrect σ (0 - cr) hl hlw).1
    rw [zero_sub, neg_add_eq_sub] at h
    rw [bits_constant, zero_sub]
    exact h
  · split
    · rename_i h1
      obtain rfl : w = 1 := hlw.symm.trans h1
      rw [(bool_xor _ _).2]
      exact alloc_means σ rfl hl hr hlw hrw
    · split
      · rename_i he
        rw [he, sub_self]
        exact ⟨trivial, hrw, by simp⟩
      · split
        · rename_i v k a hk
          have hlt := Expr.size_plus hk
          have he := Expr.offset_plus hk
          subst he
          obtain rfl : v = w := hlw
          rw [bits_constant_add, add_sub_assoc]
          apply AddExpr.createFront_means
          exact (ih a r (by omega) hl.2.1 hr hl.2.2.symm hrw).2
        · rename_i v k a hk
          have hlt := Expr.size_minus hk
          have he := Expr.offset_minus hk
          subst he
          obtain rfl : v = w := hlw
          rw [bits_constant_sub, sub_sub]
          apply SubExpr.createFront_means
          exact (ih a r (by omega) hl.2.1 hr hl.2.2.symm hrw).1
        · split
          · rename_i v k b hk
            have hlt := Expr.size_plus hk
            have he := Expr.offset_plus hk
            subst he
            obtain rfl : v = w := hrw
            rw [bits_constant_add, add_comm, ← sub_sub]
            apply SubExpr.createBy_word
            exact (ih l b (by omega) hl hr.2.1 hlw hr.2.2.symm).2
          · rename_i v k b hk
            have hlt := Expr.size_minus hk
            have he := Expr.offset_minus hk
            subst he
            obtain rfl : v = w := hrw
            rw [bits_constant_sub, sub_sub_eq_add_sub]
            apply SubExpr.createBy_word
            exact (ih l b (by omega) hl hr.2.1 hlw hr.2.2.symm).1
          · exact alloc_means σ rfl hl hr hlw hrw

end

/-- Sums and differences are right: the induction is on the sizes of both operands together,
the measure that makes the two constructors terminate. -/
theorem Expr.sumCorrect (σ : Assignment) (l r : Expr) : Expr.SumCorrect σ l r := by
  induction hn : l.size + r.size using Nat.strong_induction_on generalizing l r with
  | h n ih =>
    have hsmaller : ∀ a b : Expr, a.size + b.size < l.size + r.size → Expr.SumCorrect σ a b := by
      intro a b hlt
      exact ih _ (hn ▸ hlt) a b rfl
    intro w hl hr hlw hrw
    exact ⟨AddExpr.create_step hsmaller hl hr hlw hrw, SubExpr.create_step hsmaller hl hr hlw hrw⟩

end Encider
