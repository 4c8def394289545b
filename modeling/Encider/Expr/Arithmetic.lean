import Encider.Expr.Equality

/-! Additions and subtractions with a constant operand, and the unsigned comparisons. -/

namespace Encider

open Encider.Expr

/-- `XorExpr_createPartialR`. -/
def XorExpr.createPartialR {w : Width} (cl : BitVec w) (r : Expr) : Expr :=
  if cl = 0 then r
  else if w = 1 then EqExpr.createPartialR (0 : BitVec 1) r
  else .binary .xor (constant w cl) r

/-- `AddExpr::create(c, e)` and `SubExpr::create(c, e)` for a constant `c`, given what
`createPartialR` gives. -/
def BinaryKind.createConst (k : BinaryKind) {w : Width} (c : BitVec w) (e partialR : Expr) : Expr :=
  match e with
  | .constant _ a => ConstantExpr.fold k c a
  | _ => partialR

mutual
/-- `AddExpr_createPartialR`. -/
def AddExpr.createPartialR {w : Width} (cl : BitVec w) (r : Expr) : Expr :=
  if w = 1 then XorExpr.createPartialR cl r
  else if cl = 0 then r
  else
    match r with
    | .binary .add (.constant _ c) b =>
      BinaryKind.createConst .add (cl + c.setWidth w) b
        (AddExpr.createPartialR (cl + c.setWidth w) b)
    | .binary .sub (.constant _ c) b =>
      BinaryKind.createConst .sub (cl + c.setWidth w) b
        (SubExpr.createPartialR (cl + c.setWidth w) b)
    | r => .binary .add (constant w cl) r

/-- `SubExpr_createPartialR`. -/
def SubExpr.createPartialR {w : Width} (cl : BitVec w) (r : Expr) : Expr :=
  if w = 1 then XorExpr.createPartialR cl r
  else
    match r with
    | .binary .add (.constant _ c) b =>
      BinaryKind.createConst .sub (cl - c.setWidth w) b
        (SubExpr.createPartialR (cl - c.setWidth w) b)
    | .binary .sub (.constant _ c) b =>
      BinaryKind.createConst .add (cl - c.setWidth w) b
        (AddExpr.createPartialR (cl - c.setWidth w) b)
    | r => .binary .sub (constant w cl) r
end

/-- `AddExpr::create(l, c)` for a constant `c`. -/
def AddExpr.createPartial {w : Width} (l : Expr) (cr : BitVec w) : Expr :=
  AddExpr.createPartialR cr l

/-- `SubExpr::create(l, c)` for a constant `c`: a subtraction of `c` adds its negation. -/
def SubExpr.createBy {w : Width} (l : Expr) (cr : BitVec w) : Expr :=
  match l with
  | .constant _ cl => ConstantExpr.fold .sub cl cr
  | l => AddExpr.createPartial l (0 - cr)

def UltExpr.create (l r : Expr) : Expr :=
  match l, r with
  | .constant _ cl, .constant _ cr => ConstantExpr.fold .ult cl cr
  | l, r => if l.getWidth = 1 then AndExpr.create (createIsZero l) r else .binary .ult l r

def UleExpr.create (l r : Expr) : Expr :=
  match l, r with
  | .constant _ cl, .constant _ cr => ConstantExpr.fold .ule cl cr
  | l, r => if l.getWidth = 1 then OrExpr.create (createIsZero l) r else .binary .ule l r

def UgeExpr.create (l r : Expr) : Expr := UleExpr.create r l

def SltExpr.create (l r : Expr) : Expr :=
  match l, r with
  | .constant _ cl, .constant _ cr => ConstantExpr.fold .slt cl cr
  | l, r => if l.getWidth = 1 then AndExpr.create l (createIsZero r) else .binary .slt l r

def SleExpr.create (l r : Expr) : Expr :=
  match l, r with
  | .constant _ cl, .constant _ cr => ConstantExpr.fold .sle cl cr
  | l, r => if l.getWidth = 1 then OrExpr.create l (createIsZero r) else .binary .sle l r

def SgeExpr.create (l r : Expr) : Expr := SleExpr.create r l

theorem constant_value (σ : Assignment) {w : Width} (v : BitVec w) :
    (constant w v).value σ = v.toNat := by
  rw [Expr.value]

@[simp] theorem bits_constant (σ : Assignment) {w : Width} (v : BitVec w) :
    (constant w v).bits σ w = v := constant_bits σ v

theorem constant_binary_value (σ : Assignment) {k : BinaryKind} {w : Width} (c : BitVec w)
    (b : Expr) : (binary k (constant w c) b).value σ = k.apply c (b.bits σ w) := by
  have h := binary_value σ k (constant w c) b
  rwa [show (constant w c).getWidth = w from rfl, constant_bits] at h

theorem Expr.bits_toNat {σ : Assignment} {e : Expr} {w : Width} (hw : e.getWidth = w) :
    (e.bits σ w).toNat = e.value σ := by
  rw [Expr.bits, ← hw, Encider.bits_toNat]

/-- What adding `e` to a word, and subtracting `e` from it, must give. -/
def Expr.OffsetCorrect (σ : Assignment) (e : Expr) : Prop :=
  ∀ {w : Width} (cl : BitVec w), e.WellTyped → e.getWidth = w →
    (AddExpr.createPartialR cl e).Means σ w (cl + e.bits σ w).toNat ∧
    (SubExpr.createPartialR cl e).Means σ w (cl - e.bits σ w).toNat

theorem BinaryKind.createConst_means {σ : Assignment} {k : BinaryKind} (hk : k.isCmp = false)
    {w : Width} {c : BitVec w} {e p : Expr} (hp : p.Means σ w (k.apply c (e.bits σ w))) :
    (k.createConst c e p).Means σ w (k.apply c (e.bits σ w)) := by
  cases e with
  | constant v a =>
    have h := fold_means σ k c a
    rw [hk, if_neg Bool.false_ne_true, constant_binary_value] at h
    exact h
  | _ => exact hp

theorem XorExpr.createPartialR_means (σ : Assignment) {cl : BitVec 1} {r : Expr}
    (hr : r.WellTyped) (hw : r.getWidth = 1) :
    (XorExpr.createPartialR cl r).Means σ 1 (cl ^^^ r.bits σ 1).toNat := by
  unfold XorExpr.createPartialR
  split
  · rename_i hc
    refine ⟨hr, hw, ?_⟩
    rw [hc, show (0 : BitVec 1) = 0#1 from rfl, BitVec.zero_xor, Expr.bits_toNat hw]
  · rename_i hc
    have h := EqExpr.createPartialR_correct σ r (0 : BitVec 1) hr hw
    rw [if_pos rfl]
    refine ⟨h.typed, h.width, h.value.trans ?_⟩
    obtain rfl : cl = 1 := by
      apply BitVec.eq_of_toNat_eq
      have hne : cl.toNat ≠ 0 := fun h0 => hc (BitVec.eq_of_toNat_eq h0)
      have := cl.isLt
      change cl.toNat = 1
      omega
    rw [eqBit, Expr.bits]
    obtain h0 | h0 := width_one_value (σ := σ) hw <;> rw [h0] <;> rfl

/-- On booleans a sum and a difference are exclusive or. -/
theorem bool_xor (x y : BitVec 1) : x + y = x ^^^ y ∧ x - y = x ^^^ y := by
  revert x y
  decide

theorem Expr.OffsetCorrect.bool (σ : Assignment) {cl : BitVec 1} {e : Expr} (he : e.WellTyped)
    (hw : e.getWidth = 1) :
    (XorExpr.createPartialR cl e).Means σ 1 (cl + e.bits σ 1).toNat ∧
      (XorExpr.createPartialR cl e).Means σ 1 (cl - e.bits σ 1).toNat := by
  obtain ⟨ha, hs⟩ := bool_xor cl (e.bits σ 1)
  rw [ha, hs]
  exact ⟨XorExpr.createPartialR_means σ he hw, XorExpr.createPartialR_means σ he hw⟩

/-- A constant in front of `e`, for an operation that is not simplified. -/
theorem constant_binary_means (σ : Assignment) {k : BinaryKind} (hk : k.isCmp = false) {w : Width}
    (c : BitVec w) {e : Expr} (he : e.WellTyped) (hw : e.getWidth = w) :
    (binary k (constant w c) e).Means σ w (k.apply c (e.bits σ w)) := by
  refine ⟨⟨trivial, he, hw.symm⟩, ?_, constant_binary_value σ c e⟩
  simp [getWidth, hk]

theorem Expr.OffsetCorrect.add_const {σ : Assignment} {e : Expr} (h : e.OffsetCorrect σ)
    {w : Width} (c : BitVec w) (he : e.WellTyped) (hw : e.getWidth = w) :
    (BinaryKind.createConst .add c e (AddExpr.createPartialR c e)).Means σ w
      (c + e.bits σ w).toNat :=
  BinaryKind.createConst_means rfl (h c he hw).1

theorem Expr.OffsetCorrect.sub_const {σ : Assignment} {e : Expr} (h : e.OffsetCorrect σ)
    {w : Width} (c : BitVec w) (he : e.WellTyped) (hw : e.getWidth = w) :
    (BinaryKind.createConst .sub c e (SubExpr.createPartialR c e)).Means σ w
      (c - e.bits σ w).toNat :=
  BinaryKind.createConst_means rfl (h c he hw).2

theorem bits_constant_add (σ : Assignment) {w : Width} (c : BitVec w) (b : Expr) :
    (binary .add (constant w c) b).bits σ w = c + b.bits σ w := by
  rw [Expr.bits, constant_binary_value, BinaryKind.apply, BitVec.ofNat_toNat, BitVec.setWidth_eq]

theorem bits_constant_sub (σ : Assignment) {w : Width} (c : BitVec w) (b : Expr) :
    (binary .sub (constant w c) b).bits σ w = c - b.bits σ w := by
  rw [Expr.bits, constant_binary_value, BinaryKind.apply, BitVec.ofNat_toNat, BitVec.setWidth_eq]

theorem AddExpr.binary_means {σ : Assignment} {k : BinaryKind} {l r : Expr}
    (ih : r.OffsetCorrect σ) {w : Width} (cl : BitVec w) (ht : (Expr.binary k l r).WellTyped)
    (hw : (Expr.binary k l r).getWidth = w) :
    (AddExpr.createPartialR cl (Expr.binary k l r)).Means σ w
      (cl + (Expr.binary k l r).bits σ w).toNat := by
  unfold AddExpr.createPartialR
  split
  · rename_i h1
    subst h1
    exact (Expr.OffsetCorrect.bool σ ht hw).1
  · split
    · rename_i hc
      refine ⟨ht, hw, ?_⟩
      rw [hc, show (0 : BitVec w) = 0#w from rfl, BitVec.zero_add, Expr.bits_toNat hw]
    · split
      · rename_i v c b heq
        cases heq
        obtain rfl : v = w := hw
        rw [bits_constant_add, BitVec.setWidth_eq, ← BitVec.add_assoc]
        exact ih.add_const (cl + c) ht.2.1 ht.2.2.symm
      · rename_i v c b heq
        cases heq
        obtain rfl : v = w := hw
        rw [bits_constant_sub, BitVec.setWidth_eq, ← add_sub_assoc]
        exact ih.sub_const (cl + c) ht.2.1 ht.2.2.symm
      · exact constant_binary_means σ rfl cl ht hw

theorem SubExpr.binary_means {σ : Assignment} {k : BinaryKind} {l r : Expr}
    (ih : r.OffsetCorrect σ) {w : Width} (cl : BitVec w) (ht : (Expr.binary k l r).WellTyped)
    (hw : (Expr.binary k l r).getWidth = w) :
    (SubExpr.createPartialR cl (Expr.binary k l r)).Means σ w
      (cl - (Expr.binary k l r).bits σ w).toNat := by
  unfold SubExpr.createPartialR
  split
  · rename_i h1
    subst h1
    exact (Expr.OffsetCorrect.bool σ ht hw).2
  · split
    · rename_i v c b heq
      cases heq
      obtain rfl : v = w := hw
      rw [bits_constant_add, BitVec.setWidth_eq, ← sub_sub]
      exact ih.sub_const (cl - c) ht.2.1 ht.2.2.symm
    · rename_i v c b heq
      cases heq
      obtain rfl : v = w := hw
      rw [bits_constant_sub, BitVec.setWidth_eq, ← sub_add]
      exact ih.add_const (cl - c) ht.2.1 ht.2.2.symm
    · exact constant_binary_means σ rfl cl ht hw

/-- The simplifications under a constant keep the sum and the difference: the induction
follows the constants that sit in front of the right operand. -/
theorem Expr.offsetCorrect (σ : Assignment) (e : Expr) : e.OffsetCorrect σ := by
  induction e using Expr.rec (motive_2 := fun _ => True) with
  | binary k l r _ ih =>
    intro w cl ht hw
    exact ⟨AddExpr.binary_means ih cl ht hw, SubExpr.binary_means ih cl ht hw⟩
  | nil => trivial
  | cons => trivial
  | _ =>
    intro w cl ht hw
    rw [AddExpr.createPartialR, SubExpr.createPartialR]
    · split
      · rename_i h1
        subst h1
        exact Expr.OffsetCorrect.bool σ ht hw
      · refine ⟨?_, constant_binary_means σ rfl cl ht hw⟩
        split
        · rename_i hc
          refine ⟨ht, hw, ?_⟩
          rw [hc, show (0 : BitVec w) = 0#w from rfl, BitVec.zero_add, Expr.bits_toNat hw]
        · exact constant_binary_means σ rfl cl ht hw
    all_goals intros; contradiction

theorem SubExpr.createBy_means (σ : Assignment) {l : Expr} {w : Width} (cr : BitVec w)
    (hl : l.WellTyped) (hw : l.getWidth = w) :
    (SubExpr.createBy l cr).Means σ w (l.bits σ w - cr).toNat := by
  have hpartial : (AddExpr.createPartial l (0 - cr)).Means σ w (l.bits σ w - cr).toNat := by
    have h := (l.offsetCorrect σ (0 - cr) hl hw).1
    rwa [zero_sub, neg_add_eq_sub] at h
  unfold SubExpr.createBy
  split
  · rename_i v cl
    obtain rfl : v = w := hw
    have h := fold_means σ .sub cl cr
    rw [constant_binary_value, bits_constant] at h
    rw [bits_constant]
    exact h
  · exact hpartial

theorem UltExpr.create_means (σ : Assignment) {l r : Expr} (hl : l.WellTyped) (hr : r.WellTyped)
    (hw : l.getWidth = r.getWidth) :
    (UltExpr.create l r).Means σ 1 ((binary .ult l r).value σ) := by
  unfold UltExpr.create
  split
  · exact fold_means σ .ult _ _
  · split
    · rename_i h1
      have hz := createIsZero_means σ hl
      have h := AndExpr.create_means σ hz.typed hr (hz.width.trans (h1.symm.trans hw))
      refine ⟨h.typed, h.width.trans hz.width, h.value.trans ?_⟩
      rw [binary_value, binary_value, hz.width, hz.value, eqBit, h1]
      obtain h2 | h2 := width_one_value (σ := σ) h1 <;>
        obtain h3 | h3 := width_one_value (σ := σ) (hw.symm.trans h1) <;>
        rw [h2, h3] <;> rfl
    · exact ⟨⟨hl, hr, hw⟩, rfl, rfl⟩

theorem UleExpr.create_means (σ : Assignment) {l r : Expr} (hl : l.WellTyped) (hr : r.WellTyped)
    (hw : l.getWidth = r.getWidth) :
    (UleExpr.create l r).Means σ 1 ((binary .ule l r).value σ) := by
  unfold UleExpr.create
  split
  · exact fold_means σ .ule _ _
  · split
    · rename_i h1
      have hz := createIsZero_means σ hl
      have h := OrExpr.create_means σ hz.typed hr (hz.width.trans (h1.symm.trans hw))
      refine ⟨h.typed, h.width.trans hz.width, h.value.trans ?_⟩
      rw [binary_value, binary_value, hz.width, hz.value, eqBit, h1]
      obtain h2 | h2 := width_one_value (σ := σ) h1 <;>
        obtain h3 | h3 := width_one_value (σ := σ) (hw.symm.trans h1) <;>
        rw [h2, h3] <;> rfl
    · exact ⟨⟨hl, hr, hw⟩, rfl, rfl⟩

theorem SltExpr.create_means (σ : Assignment) {l r : Expr} (hl : l.WellTyped) (hr : r.WellTyped)
    (hw : l.getWidth = r.getWidth) :
    (SltExpr.create l r).Means σ 1 ((binary .slt l r).value σ) := by
  unfold SltExpr.create
  split
  · exact fold_means σ .slt _ _
  · split
    · rename_i h1
      have hz := createIsZero_means σ hr
      have h := AndExpr.create_means σ hl hz.typed (h1.trans hz.width.symm)
      refine ⟨h.typed, h.width.trans h1, h.value.trans ?_⟩
      rw [binary_value, binary_value, hz.value, eqBit, h1]
      obtain h2 | h2 := width_one_value (σ := σ) h1 <;>
        obtain h3 | h3 := width_one_value (σ := σ) (hw.symm.trans h1) <;>
        rw [h2, h3] <;> rfl
    · exact ⟨⟨hl, hr, hw⟩, rfl, rfl⟩

theorem SleExpr.create_means (σ : Assignment) {l r : Expr} (hl : l.WellTyped) (hr : r.WellTyped)
    (hw : l.getWidth = r.getWidth) :
    (SleExpr.create l r).Means σ 1 ((binary .sle l r).value σ) := by
  unfold SleExpr.create
  split
  · exact fold_means σ .sle _ _
  · split
    · rename_i h1
      have hz := createIsZero_means σ hr
      have h := OrExpr.create_means σ hl hz.typed (h1.trans hz.width.symm)
      refine ⟨h.typed, h.width.trans h1, h.value.trans ?_⟩
      rw [binary_value, binary_value, hz.value, eqBit, h1]
      obtain h2 | h2 := width_one_value (σ := σ) h1 <;>
        obtain h3 | h3 := width_one_value (σ := σ) (hw.symm.trans h1) <;>
        rw [h2, h3] <;> rfl
    · exact ⟨⟨hl, hr, hw⟩, rfl, rfl⟩

end Encider
