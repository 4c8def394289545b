import Encider.Expr.Meaning
namespace Encider
open Encider.Expr

/-- Whether the value of `r` is `c`. -/
def eqBit (σ : Assignment) (c : Nat) (r : Expr) : Nat :=
  if r.value σ = c then 1 else 0

theorem eq_constant_value (σ : Assignment) {w : Width} (cl : BitVec w) {r : Expr}
    (hw : r.getWidth = w) : (binary .eq (constant w cl) r).value σ = eqBit σ cl.toNat r := by
  subst hw
  rw [binary_value]
  simp only [getWidth, constant_bits, BinaryKind.apply, eqBit]
  have h : cl = BitVec.ofNat r.getWidth (r.value σ) ↔ r.value σ = cl.toNat := by
    constructor
    · intro he
      rw [he, bits_toNat]
    · intro he
      exact BitVec.eq_of_toNat_eq (by rw [bits_toNat, he])
  simp only [h]
  split <;> simp [*]

theorem EqExpr.createSame_means (σ : Assignment) {l r : Expr} (hl : l.WellTyped)
    (hr : r.WellTyped) (hw : l.getWidth = r.getWidth) :
    (EqExpr.createSame l r).Means σ 1 ((binary .eq l r).value σ) := by
  unfold EqExpr.createSame
  split
  · rename_i he
    subst he
    exact ⟨trivial, rfl, by simp [binary_value, BinaryKind.apply]⟩
  · exact ⟨⟨hl, hr, hw⟩, rfl, rfl⟩

theorem EqExpr.same_constant_means (σ : Assignment) {w : Width} (cl : BitVec w) {r : Expr}
    (hr : r.WellTyped) (hw : r.getWidth = w) :
    (EqExpr.createSame (constant w cl) r).Means σ 1 (eqBit σ cl.toNat r) := by
  have h := EqExpr.createSame_means σ (l := constant w cl) trivial hr hw.symm
  rwa [eq_constant_value σ cl hw] at h

theorem width_one_value {σ : Assignment} {e : Expr} (h : e.getWidth = 1) :
    e.value σ = 0 ∨ e.value σ = 1 := by
  have := e.value_lt σ
  rw [h] at this
  omega

/-- `true == r` is `r` itself. -/
theorem true_eq_means (σ : Assignment) {w : Width} (cl : BitVec w) {r : Expr}
    (hr : r.WellTyped) (hw : r.getWidth = w) (hc : w = 1 ∧ cl.toNat = 1) :
    r.Means σ 1 (eqBit σ cl.toNat r) := by
  obtain ⟨rfl, hc⟩ := hc
  refine ⟨hr, hw, ?_⟩
  unfold eqBit
  obtain h | h := width_one_value (σ := σ) hw <;> simp [h, hc]

/-- What comparing `e` with a constant must give. -/
def EqExpr.Correct (σ : Assignment) (e : Expr) : Prop :=
  ∀ {w : Width} (cl : BitVec w), e.WellTyped → e.getWidth = w →
    (EqExpr.createPartialR cl e).Means σ 1 (eqBit σ cl.toNat e)

theorem fold_eq_means (σ : Assignment) {w : Width} (a c : BitVec w) :
    (ConstantExpr.fold .eq a c).Means σ 1 (eqBit σ c.toNat (constant w a)) := by
  have h := fold_means σ .eq a c
  refine ⟨h.typed, h.width, h.value.trans ?_⟩
  rw [eq_constant_value σ a rfl]
  simp only [eqBit, Expr.value]
  congr 1
  exact propext eq_comm

theorem EqExpr.Correct.operand {σ : Assignment} {e : Expr} (h : EqExpr.Correct σ e)
    (he : e.WellTyped) (c : BitVec e.getWidth) :
    (EqExpr.createConst c e (EqExpr.createPartialR c e)).Means σ 1 (eqBit σ c.toNat e) := by
  cases e with
  | constant w a => exact fold_eq_means σ a c
  | _ => exact h c he rfl

/-- `not (or a b)` as a conjunction of negations. -/
theorem not_or_means {σ : Assignment} {l r : Expr} {a b : Expr} (hlw : l.getWidth = 1)
    (hrw : r.getWidth = 1) (ha : a.Means σ 1 (eqBit σ 0 l)) (hb : b.Means σ 1 (eqBit σ 0 r)) :
    (AndExpr.create a b).Means σ 1 (eqBit σ 0 (binary .or l r)) := by
  have h := AndExpr.create_means σ ha.typed hb.typed (ha.width.trans hb.width.symm)
  refine ⟨h.typed, h.width.trans ha.width, h.value.trans ?_⟩
  rw [binary_value, ha.width, ha.value, hb.value]
  simp only [eqBit, binary_value]
  rw [hlw]
  obtain h1 | h1 := width_one_value (σ := σ) hlw <;>
    obtain h2 | h2 := width_one_value (σ := σ) hrw <;>
    rw [h1, h2] <;> decide

theorem false_eq_eq {σ : Assignment} {r : Expr} (hw : r.getWidth = 1) :
    eqBit σ 0 (binary .eq (const 0 1) r) = r.value σ := by
  simp only [eqBit, binary_value, const_width, const_value]
  obtain h | h := width_one_value (σ := σ) hw <;> rw [h] <;> decide

theorem setWidth_signExtend {n v : Nat} (x : BitVec n) (h : n ≤ v) :
    (x.signExtend v).setWidth n = x := by
  apply BitVec.eq_of_getLsbD_eq
  intro i hi
  rw [BitVec.getLsbD_setWidth, BitVec.getLsbD_signExtend]
  simp [hi, show i < v by omega]

theorem setWidth_setWidth_self {n v : Nat} (x : BitVec n) (h : n ≤ v) :
    (x.setWidth v).setWidth n = x := by
  rw [BitVec.setWidth_setWidth_of_le _ h, BitVec.setWidth_eq]

/-- Comparing an extension with a constant compares its source with the
truncated constant, when the constant is an extension at all. -/
theorem extend_eq_means {σ : Assignment} {src e : Expr} {w : Width} (cl : BitVec w)
    (ih : EqExpr.Correct σ src) (hs : src.WellTyped)
    (extend : BitVec src.getWidth → BitVec w) (hinv : ∀ x, (extend x).setWidth src.getWidth = x)
    (hval : e.value σ = (extend (BitVec.ofNat src.getWidth (src.value σ))).toNat) :
    (if cl = extend (cl.setWidth src.getWidth) then
      EqExpr.createConst (cl.setWidth src.getWidth) src
        (EqExpr.createPartialR (cl.setWidth src.getWidth) src)
     else const 0 1).Means σ 1 (eqBit σ cl.toNat e) := by
  have hback : e.value σ = cl.toNat → src.value σ = (cl.setWidth src.getWidth).toNat := by
    intro he
    rw [hval] at he
    rw [← BitVec.eq_of_toNat_eq he, hinv, bits_toNat]
  split
  · rename_i hc
    have h := ih.operand hs (cl.setWidth src.getWidth)
    refine ⟨h.typed, h.width, h.value.trans ?_⟩
    have hiff : src.value σ = (cl.setWidth src.getWidth).toNat ↔ e.value σ = cl.toNat := by
      refine ⟨?_, hback⟩
      intro he
      rw [hval, he, BitVec.ofNat_toNat, BitVec.setWidth_eq, ← hc]
    simp only [eqBit, hiff]
  · rename_i hc
    refine ⟨trivial, rfl, ?_⟩
    have hne : e.value σ ≠ cl.toNat := by
      intro he
      apply hc
      rw [hval] at he
      rw [← BitVec.eq_of_toNat_eq he, hinv]
    simp [eqBit, hne]

theorem EqExpr.sext_correct {σ : Assignment} {src : Expr} {v : Width} (ih : EqExpr.Correct σ src) :
    EqExpr.Correct σ (.sext src v) := by
  intro w cl ht hw
  have hv : v = w := hw
  subst hv
  rw [EqExpr.createPartialR]
  split
  · split
    · exact true_eq_means σ cl ht rfl ⟨‹_›, ‹_›⟩
    · exact EqExpr.same_constant_means σ cl ht rfl
  · exact extend_eq_means cl ih ht.1 (fun x => x.signExtend v)
      (fun x => setWidth_signExtend x ht.2) (by simp only [Expr.value])

theorem EqExpr.zext_correct {σ : Assignment} {src : Expr} {v : Width} (ih : EqExpr.Correct σ src) :
    EqExpr.Correct σ (.zext src v) := by
  intro w cl ht hw
  have hv : v = w := hw
  subst hv
  rw [EqExpr.createPartialR]
  split
  · split
    · exact true_eq_means σ cl ht rfl ⟨‹_›, ‹_›⟩
    · exact EqExpr.same_constant_means σ cl ht rfl
  · refine extend_eq_means cl ih ht.1 (fun x => x.setWidth v)
      (fun x => setWidth_setWidth_self x ht.2) ?_
    simp only [Expr.value, BitVec.toNat_setWidth, bits_toNat]

/-- Equations between words as equations between the values of expressions. -/
theorem constant_operand_iff {σ : Assignment} {k : BinaryKind} {v w : Width} {c : BitVec v} {r : Expr}
    {d cl : BitVec w} (hw : (binary k (constant v c) r).getWidth = w) (hk : k.isCmp = false)
    (hr : v = r.getWidth) (hiff : ∀ x : BitVec w, x = d ↔ k.apply (c.setWidth w) x = cl.toNat) :
    r.value σ = d.toNat ↔ (binary k (constant v c) r).value σ = cl.toNat := by
  have hv : v = w := by simpa [getWidth, hk] using hw
  subst hv
  rw [binary_value]
  simp only [getWidth, constant_bits]
  have h := hiff (BitVec.ofNat v (r.value σ))
  rw [BitVec.setWidth_eq] at h
  rw [← h]
  subst hr
  constructor
  · intro he
    exact BitVec.eq_of_toNat_eq (by rw [bits_toNat, he])
  · intro he
    rw [← he, bits_toNat]

/-- A constant moved across an addition or subtraction. -/
theorem move_constant {σ : Assignment} {r e : Expr} {w : Width} (cl d : BitVec w)
    (ih : EqExpr.Correct σ r) (hr : r.WellTyped) (hw : r.getWidth = w)
    (hiff : r.value σ = d.toNat ↔ e.value σ = cl.toNat) :
    (EqExpr.createPartialR d r).Means σ 1 (eqBit σ cl.toNat e) := by
  have h := ih d hr hw
  refine ⟨h.typed, h.width, h.value.trans ?_⟩
  simp only [eqBit, hiff]

theorem EqExpr.binary_correct {σ : Assignment} {k : BinaryKind} {l r : Expr}
    (hl : EqExpr.Correct σ l) (hr : EqExpr.Correct σ r) : EqExpr.Correct σ (.binary k l r) := by
  intro w cl ht hw
  unfold EqExpr.createPartialR
  split
  · rename_i h1
    split
    · exact true_eq_means σ cl ht hw ⟨‹_›, ‹_›⟩
    · rename_i hc
      subst h1
      have h0 : cl.toNat = 0 := by have := cl.isLt; omega
      split
      · rename_i he
        obtain ⟨rfl, rfl⟩ := he
        have hrw : r.getWidth = 1 := ht.2.2.symm
        refine ⟨ht.2.1, hrw, ?_⟩
        rw [h0, false_eq_eq hrw]
      · split
        · rename_i ho
          subst ho
          have hlw : l.getWidth = 1 := hw
          rw [h0]
          exact not_or_means hlw (ht.2.2.symm.trans hlw) (hl.operand ht.1 0) (hr.operand ht.2.1 0)
        · exact EqExpr.same_constant_means σ cl ht hw
  · split
    · exact move_constant cl _ hr ht.2.1 (ht.2.2.symm.trans hw)
        (constant_operand_iff hw rfl ht.2.2 fun x => by
          rw [BinaryKind.apply, BitVec.toNat_inj, eq_sub_iff_add_eq'])
    · exact move_constant cl _ hr ht.2.1 (ht.2.2.symm.trans hw)
        (constant_operand_iff hw rfl ht.2.2 fun x => by
          rw [BinaryKind.apply, BitVec.toNat_inj, sub_eq_iff_eq_add', eq_sub_iff_add_eq, eq_comm,
            add_comm])
    · exact EqExpr.same_constant_means σ cl ht hw

theorem EqExpr.createPartialR_correct (σ : Assignment) (r : Expr) : EqExpr.Correct σ r := by
  induction r using Expr.rec (motive_2 := fun _ => True) with
  | sext src v ih => exact EqExpr.sext_correct ih
  | zext src v ih => exact EqExpr.zext_correct ih
  | binary k l r hl hr => exact EqExpr.binary_correct hl hr
  | nil => trivial
  | cons => trivial
  | _ =>
    intro w cl ht hw
    rw [EqExpr.createPartialR]
    · split
      · exact true_eq_means σ cl ht hw ‹_›
      · exact EqExpr.same_constant_means σ cl ht hw
    all_goals intros; contradiction

theorem EqExpr.create_means (σ : Assignment) {l r : Expr} (hl : l.WellTyped) (hr : r.WellTyped)
    (hw : l.getWidth = r.getWidth) :
    (EqExpr.create l r).Means σ 1 ((binary .eq l r).value σ) := by
  have hcomm : ∀ x y : BitVec l.getWidth, BinaryKind.apply x y .eq = BinaryKind.apply y x .eq := by
    intro x y
    simp only [BinaryKind.apply, eq_comm]
  unfold EqExpr.create
  split
  · exact fold_means σ .eq _ _
  · rename_i w cl _
    rw [eq_constant_value σ cl hw.symm]
    exact EqExpr.createPartialR_correct σ r cl hr hw.symm
  · rename_i w cr _
    rw [binary_comm σ hcomm hw, eq_constant_value σ cr hw]
    exact EqExpr.createPartialR_correct σ l cr hl hw
  · exact EqExpr.createSame_means σ hl hr hw

/-- `createIsZero` is negation on booleans. -/
theorem createIsZero_means (σ : Assignment) {e : Expr} (he : e.WellTyped) :
    (createIsZero e).Means σ 1 (eqBit σ 0 e) := by
  have h := EqExpr.create_means σ (r := const 0 e.getWidth) he trivial rfl
  refine ⟨h.typed, h.width, h.value.trans ?_⟩
  have hcomm := binary_comm σ (k := .eq) (l := e) (r := const 0 e.getWidth)
    (fun x y => by simp only [BinaryKind.apply, eq_comm]) rfl
  rw [hcomm, const, eq_constant_value σ _ rfl]
  simp

end Encider
