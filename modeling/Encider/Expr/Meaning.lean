import Encider.Expr.Create

namespace Encider

open Encider.Expr

/-- Under `σ` the expression is well typed, of width `w` and of value `v`. -/
structure Expr.Means (σ : Assignment) (e : Expr) (w : Width) (v : Nat) : Prop where
  typed : e.WellTyped
  width : e.getWidth = w
  value : e.value σ = v

theorem Expr.WellTyped.means {e : Expr} (h : e.WellTyped) (σ : Assignment) :
    e.Means σ e.getWidth (e.value σ) := ⟨h, rfl, rfl⟩

@[simp] theorem const_width (v : Nat) (w : Width) : (const v w).getWidth = w := rfl

@[simp] theorem const_typed (v : Nat) (w : Width) : (const v w).WellTyped := trivial

@[simp] theorem const_value (σ : Assignment) (v : Nat) (w : Width) :
    (const v w).value σ = v % 2 ^ w := by
  simp [const, Expr.value]

@[simp] theorem bits_toNat (σ : Assignment) (e : Expr) :
    (BitVec.ofNat e.getWidth (e.value σ)).toNat = e.value σ := by
  rw [BitVec.toNat_ofNat, Nat.mod_eq_of_lt (e.value_lt σ)]

@[simp] theorem constant_bits (σ : Assignment) {w : Width} (v : BitVec w) :
    BitVec.ofNat w ((constant w v).value σ) = v := by
  simp [Expr.value]

theorem binary_value (σ : Assignment) (k : BinaryKind) (l r : Expr) :
    (binary k l r).value σ =
      k.apply (BitVec.ofNat l.getWidth (l.value σ)) (BitVec.ofNat l.getWidth (r.value σ)) := by
  simp only [Expr.value]

/-- Folding two constants gives the value of the operation on them. -/
theorem fold_means (σ : Assignment) (k : BinaryKind) {w v : Width} (a : BitVec w) (b : BitVec v) :
    (ConstantExpr.fold k a b).Means σ (if k.isCmp then 1 else w)
      ((binary k (constant w a) (constant v b)).value σ) := by
  refine ⟨trivial, rfl, ?_⟩
  have hb : BitVec.ofNat w ((constant v b).value σ) = b.setWidth w := by
    apply BitVec.eq_of_toNat_eq
    simp [Expr.value]
  simp only [ConstantExpr.fold, const_value]
  rw [Nat.mod_eq_of_lt (k.apply_lt _ _), binary_value]
  simp only [getWidth, constant_bits]
  rw [hb]

theorem AndExpr.createPartial_means (σ : Assignment) {l : Expr} {w : Width} (cr : BitVec w)
    (hl : l.WellTyped) (hw : l.getWidth = w) :
    (AndExpr.createPartial l cr).Means σ w ((binary .and l (constant w cr)).value σ) := by
  subst w
  have hv : (binary .and l (constant l.getWidth cr)).value σ =
      (BitVec.ofNat l.getWidth (l.value σ) &&& cr).toNat := by
    rw [binary_value, constant_bits]
    rfl
  unfold AndExpr.createPartial
  split
  · rename_i hc
    subst hc
    exact ⟨hl, rfl, by rw [hv, BitVec.and_allOnes, bits_toNat]⟩
  · split
    · rename_i hc
      subst hc
      exact ⟨trivial, rfl, by rw [hv]; simp [Expr.value]⟩
    · exact ⟨⟨hl, trivial, rfl⟩, rfl, rfl⟩

theorem OrExpr.createPartial_means (σ : Assignment) {l : Expr} {w : Width} (cr : BitVec w)
    (hl : l.WellTyped) (hw : l.getWidth = w) :
    (OrExpr.createPartial l cr).Means σ w ((binary .or l (constant w cr)).value σ) := by
  subst w
  have hv : (binary .or l (constant l.getWidth cr)).value σ =
      (BitVec.ofNat l.getWidth (l.value σ) ||| cr).toNat := by
    rw [binary_value, constant_bits]
    rfl
  unfold OrExpr.createPartial
  split
  · rename_i hc
    subst hc
    exact ⟨trivial, rfl, by rw [hv, BitVec.or_allOnes]; simp [Expr.value]⟩
  · split
    · rename_i hc
      subst hc
      exact ⟨hl, rfl, by rw [hv, show (0 : BitVec _) = 0#_ from rfl, BitVec.or_zero, bits_toNat]⟩
    · exact ⟨⟨hl, trivial, rfl⟩, rfl, rfl⟩

/-- The operands of a commutative bit operation may change places. -/
theorem binary_comm (σ : Assignment) {k : BinaryKind} {l r : Expr}
    (hk : ∀ x y : BitVec l.getWidth, k.apply x y = k.apply y x) (hw : l.getWidth = r.getWidth) :
    (binary k l r).value σ = (binary k r l).value σ := by
  rw [binary_value, binary_value, hk, hw]

theorem AndExpr.create_means (σ : Assignment) {l r : Expr} (hl : l.WellTyped) (hr : r.WellTyped)
    (hw : l.getWidth = r.getWidth) :
    (AndExpr.create l r).Means σ l.getWidth ((binary .and l r).value σ) := by
  have hcomm : ∀ x y : BitVec l.getWidth, BinaryKind.apply x y .and = BinaryKind.apply y x .and := by
    intro x y
    simp only [BinaryKind.apply, BitVec.and_comm]
  unfold AndExpr.create
  split
  · exact fold_means σ .and _ _
  · rename_i w cl _
    rw [binary_comm σ hcomm hw, show getWidth (constant w cl) = w from rfl]
    exact AndExpr.createPartial_means σ cl hr hw.symm
  · rename_i w cr _
    rw [hw]
    exact AndExpr.createPartial_means σ cr hl hw
  · exact ⟨⟨hl, hr, hw⟩, rfl, rfl⟩

theorem OrExpr.create_means (σ : Assignment) {l r : Expr} (hl : l.WellTyped) (hr : r.WellTyped)
    (hw : l.getWidth = r.getWidth) :
    (OrExpr.create l r).Means σ l.getWidth ((binary .or l r).value σ) := by
  have hcomm : ∀ x y : BitVec l.getWidth, BinaryKind.apply x y .or = BinaryKind.apply y x .or := by
    intro x y
    simp only [BinaryKind.apply, BitVec.or_comm]
  unfold OrExpr.create
  split
  · exact fold_means σ .or _ _
  · rename_i w cl _
    rw [binary_comm σ hcomm hw, show getWidth (constant w cl) = w from rfl]
    exact OrExpr.createPartial_means σ cl hr hw.symm
  · rename_i w cr _
    rw [hw]
    exact OrExpr.createPartial_means σ cr hl hw
  · exact ⟨⟨hl, hr, hw⟩, rfl, rfl⟩

end Encider
