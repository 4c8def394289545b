import Encider.Expr.Extract

/-! The other simplifying constructors, and what one call of any of them gives. -/

namespace Encider

open Encider.Expr

namespace MulExpr

def createPartialR {w : Width} (cl : BitVec w) (r : Expr) : Expr :=
  if w = 1 then AndExpr.createPartial r cl
  else if cl = 1 then r
  else if cl = 0 then constant w cl
  else .binary .mul (constant w cl) r

def create (l r : Expr) : Expr :=
  match l, r with
  | .constant _ cl, .constant _ cr => ConstantExpr.fold .mul cl cr
  | .constant _ cl, r => createPartialR cl r
  | l, .constant _ cr => createPartialR cr l
  | l, r => if l.getWidth = 1 then .binary .and l r else .binary .mul l r

end MulExpr

def XorExpr.create (l r : Expr) : Expr :=
  match l, r with
  | .constant _ cl, .constant _ cr => ConstantExpr.fold .xor cl cr
  | .constant _ cl, r => XorExpr.createPartialR cl r
  | l, .constant _ cr => XorExpr.createPartialR cr l
  | l, r => .binary .xor l r

def BinaryKind.isDivision : BinaryKind → Bool
  | .udiv | .sdiv | .urem | .srem => true
  | _ => false

/-- `BCREATE`: two constants are folded, where a division asserts that the divisor is not zero. -/
def BinaryKind.createFolded (k : BinaryKind) (create : Expr → Expr → Expr) (l r : Expr) :
    Option Expr :=
  match l, r with
  | .constant _ cl, .constant _ cr =>
    if k.isDivision = true ∧ cr = 0 then none else some (ConstantExpr.fold k cl cr)
  | l, r => some (create l r)

/-- On booleans the divisor must be 1. -/
def UDivExpr.create : Expr → Expr → Option Expr :=
  BinaryKind.createFolded .udiv fun l r => if l.getWidth = 1 then l else .binary .udiv l r

def SDivExpr.create : Expr → Expr → Option Expr :=
  BinaryKind.createFolded .sdiv fun l r => if l.getWidth = 1 then l else .binary .sdiv l r

def URemExpr.create : Expr → Expr → Option Expr :=
  BinaryKind.createFolded .urem fun l r =>
    if l.getWidth = 1 then const 0 1 else .binary .urem l r

def SRemExpr.create : Expr → Expr → Option Expr :=
  BinaryKind.createFolded .srem fun l r =>
    if l.getWidth = 1 then const 0 1 else .binary .srem l r

def ShlExpr.create : Expr → Expr → Option Expr :=
  BinaryKind.createFolded .shl fun l r =>
    if l.getWidth = 1 then AndExpr.create l (createIsZero r) else .binary .shl l r

def LShrExpr.create : Expr → Expr → Option Expr :=
  BinaryKind.createFolded .lshr fun l r =>
    if l.getWidth = 1 then AndExpr.create l (createIsZero r) else .binary .lshr l r

def AShrExpr.create : Expr → Expr → Option Expr :=
  BinaryKind.createFolded .ashr fun l r => if l.getWidth = 1 then l else .binary .ashr l r

def NeExpr.create (l r : Expr) : Expr := EqExpr.create (const 0 1) (EqExpr.create l r)

def UgtExpr.create (l r : Expr) : Expr := UltExpr.create r l

def SgtExpr.create (l r : Expr) : Expr := SltExpr.create r l

def NotExpr.create : Expr → Expr
  | .constant w c => constant w (~~~ c)
  | e => .not e

def SelectExpr.create (c t f : Expr) : Expr :=
  match c with
  | .constant _ b => if b.toNat = 1 then t else f
  | c =>
    if t = f then t
    else if t.getWidth = 1 then
      match t, f with
      | .constant _ a, f =>
        if a.toNat = 1 then OrExpr.create c f else AndExpr.create (createIsZero c) f
      | t, .constant _ b =>
        if b.toNat = 1 then OrExpr.create (createIsZero c) t else AndExpr.create c t
      | t, f => .select c t f
    else .select c t f

/-- The constructor of a binary kind. -/
def BinaryKind.create (l r : Expr) : BinaryKind → Option Expr
  | .add => some (AddExpr.create l r)
  | .sub => some (SubExpr.create l r)
  | .mul => some (MulExpr.create l r)
  | .udiv => UDivExpr.create l r
  | .sdiv => SDivExpr.create l r
  | .urem => URemExpr.create l r
  | .srem => SRemExpr.create l r
  | .and => some (AndExpr.create l r)
  | .or => some (OrExpr.create l r)
  | .xor => some (XorExpr.create l r)
  | .shl => ShlExpr.create l r
  | .lshr => LShrExpr.create l r
  | .ashr => AShrExpr.create l r
  | .eq => some (EqExpr.create l r)
  | .ne => some (NeExpr.create l r)
  | .ult => some (UltExpr.create l r)
  | .ule => some (UleExpr.create l r)
  | .ugt => some (UgtExpr.create l r)
  | .uge => some (UgeExpr.create l r)
  | .slt => some (SltExpr.create l r)
  | .sle => some (SleExpr.create l r)
  | .sgt => some (SgtExpr.create l r)
  | .sge => some (SgeExpr.create l r)

/-- A call of a constructor. -/
inductive ConstructorCall where
  | select (c t f : Expr)
  | concat (l r : Expr)
  | extract (e : Expr) (off : Nat) (w : Width)
  | zext (e : Expr) (w : Width)
  | sext (e : Expr) (w : Width)
  | not (e : Expr)
  | binary (k : BinaryKind) (l r : Expr)

namespace ConstructorCall

/-- What the call returns; `none` is a failed assertion. -/
def create : ConstructorCall → Option Expr
  | select c t f => some (SelectExpr.create c t f)
  | concat l r => some (ConcatExpr.create l r)
  | extract e off w => some (ExtractExpr.create e off w)
  | zext e w => some (ZExtExpr.create e w)
  | sext e w => some (SExtExpr.create e w)
  | not e => some (NotExpr.create e)
  | binary k l r => k.create l r

/-- The operation on the operands as they are. -/
def unsimplified : ConstructorCall → Expr
  | select c t f => .select c t f
  | concat l r => .concat l r
  | extract e off w => .extract e off w
  | zext e w => .zext e w
  | sext e w => .sext e w
  | not e => .not e
  | binary k l r => .binary k l r

/-- The operands are well typed and of the widths that the constructor asserts. -/
def WellTyped : ConstructorCall → Prop
  | select c t f => c.WellTyped ∧ t.WellTyped ∧ f.WellTyped ∧ c.getWidth = 1 ∧
      t.getWidth = f.getWidth
  | concat l r => l.WellTyped ∧ r.WellTyped
  | extract e off w => e.WellTyped ∧ 0 < w ∧ off + w ≤ e.getWidth
  | zext e w => e.WellTyped ∧ 0 < w
  | sext e w => e.WellTyped ∧ 0 < w
  | not e => e.WellTyped
  | binary _ l r => l.WellTyped ∧ r.WellTyped ∧ l.getWidth = r.getWidth

end ConstructorCall

mutual
/-- No division in the expression has a divisor of value zero. -/
def Expr.NoZeroDivisor (σ : Assignment) : Expr → Prop
  | .constant _ _ => True
  | .notOptimized e => e.NoZeroDivisor σ
  | .read _ us i => us.NoZeroDivisor σ ∧ i.NoZeroDivisor σ
  | .select c t f => c.NoZeroDivisor σ ∧ t.NoZeroDivisor σ ∧ f.NoZeroDivisor σ
  | .concat l r => l.NoZeroDivisor σ ∧ r.NoZeroDivisor σ
  | .extract e _ _ => e.NoZeroDivisor σ
  | .zext e _ => e.NoZeroDivisor σ
  | .sext e _ => e.NoZeroDivisor σ
  | .not e => e.NoZeroDivisor σ
  | .binary k l r => l.NoZeroDivisor σ ∧ r.NoZeroDivisor σ ∧
      (k.isDivision = true → r.value σ ≠ 0)

def UpdateList.NoZeroDivisor (σ : Assignment) : UpdateList → Prop
  | .nil => True
  | .cons i v next => i.NoZeroDivisor σ ∧ v.NoZeroDivisor σ ∧ next.NoZeroDivisor σ
end

/-- Of the same width as `u`, and of the same value wherever no divisor is zero. -/
structure Expr.Simplifies (u e : Expr) : Prop where
  typed : e.WellTyped
  width : e.getWidth = u.getWidth
  value : ∀ σ, u.NoZeroDivisor σ → e.value σ = u.value σ

/-- The call returns an expression that stands for the operation. -/
def ConstructorCall.Faithful (c : ConstructorCall) : Prop :=
  ∃ e, c.create = some e ∧ c.unsimplified.Simplifies e

/-- A boolean shifted arithmetically by a boolean that can be true: the shift is by the whole
width, and the value does not become zero. -/
def ConstructorCall.Overshifts : ConstructorCall → Prop
  | binary .ashr l r => l.getWidth = 1 ∧ (l.isConstant && r.isConstant) = false ∧
      ∃ σ, l.NoZeroDivisor σ ∧ r.NoZeroDivisor σ ∧ l.value σ = 1 ∧ r.value σ = 1
  | _ => False

/-- A division of two constants, by zero. -/
def ConstructorCall.DividesByZero : ConstructorCall → Prop
  | binary k l r => k.isDivision = true ∧ l.isConstant = true ∧ r = const 0 r.getWidth
  | _ => False

theorem Expr.Simplifies.of_means {u e : Expr} (h : ∀ σ, e.Means σ u.getWidth (u.value σ)) :
    u.Simplifies e where
  typed := (h fun _ _ => 0).typed
  width := (h fun _ _ => 0).width
  value σ _ := (h σ).value

/-- An operation stays as it is. -/
theorem Expr.Simplifies.alloc {u : Expr} (h : u.WellTyped) : u.Simplifies u :=
  ⟨h, rfl, fun _ _ => rfl⟩

theorem bool_mul (x y : BitVec 1) : x * y = x &&& y := by
  revert x y
  decide

section
variable {σ : Assignment} {l r : Expr} {w : Width}

theorem MulExpr.createPartialR_means (cl : BitVec w) (hr : r.WellTyped) (hw : r.getWidth = w) :
    (MulExpr.createPartialR cl r).Means σ w (cl * r.bits σ w).toNat := by
  unfold MulExpr.createPartialR
  split
  · rename_i h1
    subst h1
    have h := AndExpr.createPartial_means σ cl hr hw
    rwa [binary_value, constant_value, hw, BinaryKind.apply, BitVec.ofNat_toNat, BitVec.setWidth_eq,
      BitVec.and_comm, ← bool_mul] at h
  · split
    · rename_i hc
      refine ⟨hr, hw, ?_⟩
      rw [hc, one_mul, Expr.bits_toNat hw]
    · split
      · rename_i hc
        refine ⟨trivial, rfl, ?_⟩
        rw [hc, zero_mul, constant_value]
      · exact constant_binary_means σ rfl cl hr hw

theorem MulExpr.create_means (hl : l.WellTyped) (hr : r.WellTyped) (hlw : l.getWidth = w)
    (hrw : r.getWidth = w) :
    (MulExpr.create l r).Means σ w (l.bits σ w * r.bits σ w).toNat := by
  unfold MulExpr.create
  split
  · rename_i v cl u cr
    obtain rfl : v = w := hlw
    obtain rfl : u = v := hrw
    rw [bits_constant, bits_constant]
    exact fold_word σ rfl cl cr
  · rename_i v cl _
    obtain rfl : v = w := hlw
    rw [bits_constant]
    exact MulExpr.createPartialR_means cl hr hrw
  · rename_i v cr _
    obtain rfl : v = w := hrw
    rw [bits_constant, mul_comm]
    exact MulExpr.createPartialR_means cr hl hlw
  · split
    · rename_i h1
      obtain rfl : w = 1 := hlw.symm.trans h1
      rw [bool_mul]
      exact alloc_means σ rfl hl hr hlw hrw
    · exact alloc_means σ rfl hl hr hlw hrw

theorem XorExpr.createPartialR_word (cl : BitVec w) (hr : r.WellTyped) (hw : r.getWidth = w) :
    (XorExpr.createPartialR cl r).Means σ w (cl ^^^ r.bits σ w).toNat := by
  by_cases h1 : w = 1
  · subst h1
    exact XorExpr.createPartialR_means σ hr hw
  · unfold XorExpr.createPartialR
    split
    · rename_i hc
      refine ⟨hr, hw, ?_⟩
      have hx := BitVec.zero_xor (x := r.bits σ w)
      rw [hc]
      exact (Expr.bits_toNat hw).symm.trans (congrArg BitVec.toNat hx.symm)
    · exact constant_binary_means σ rfl cl hr hw

theorem XorExpr.create_means (hl : l.WellTyped) (hr : r.WellTyped) (hlw : l.getWidth = w)
    (hrw : r.getWidth = w) :
    (XorExpr.create l r).Means σ w (l.bits σ w ^^^ r.bits σ w).toNat := by
  unfold XorExpr.create
  split
  · rename_i v cl u cr
    obtain rfl : v = w := hlw
    obtain rfl : u = v := hrw
    rw [bits_constant, bits_constant]
    exact fold_word σ rfl cl cr
  · rename_i v cl _
    obtain rfl : v = w := hlw
    rw [bits_constant]
    exact XorExpr.createPartialR_word cl hr hrw
  · rename_i v cr _
    obtain rfl : v = w := hrw
    rw [bits_constant, BitVec.xor_comm]
    exact XorExpr.createPartialR_word cr hl hlw
  · exact alloc_means σ rfl hl hr hlw hrw

end

theorem NotExpr.create_means (σ : Assignment) {e : Expr} (he : e.WellTyped) :
    (NotExpr.create e).Means σ e.getWidth ((Expr.not e).value σ) := by
  unfold NotExpr.create
  split
  · rename_i w c
    refine ⟨trivial, rfl, ?_⟩
    rw [constant_value, Expr.value]
    simp only [getWidth, constant_bits]
    rfl
  · exact ⟨he, rfl, rfl⟩

/-- The strict and the weak orders the other way round. -/
theorem swapped_value (σ : Assignment) (k k' : BinaryKind) {l r : Expr}
    (hw : l.getWidth = r.getWidth) (hk : ∀ x y : BitVec l.getWidth, k.apply x y = k'.apply y x) :
    (binary k' r l).value σ = (binary k l r).value σ := by
  rw [binary_value, binary_value, hk, hw]

/-- An operation on booleans, by its table. -/
theorem boolean_simplifies {k : BinaryKind} {l r e : Expr} (hk : k.isCmp = false)
    (h1 : l.getWidth = 1) (he : e.WellTyped) (hew : e.getWidth = 1)
    (htable : ∀ σ, (binary k l r).NoZeroDivisor σ →
      e.value σ = k.apply (BitVec.ofNat 1 (l.value σ)) (BitVec.ofNat 1 (r.value σ))) :
    (binary k l r).Simplifies e := by
  refine ⟨he, ?_, ?_⟩
  · simp [getWidth, hk, h1, hew]
  · intro σ hσ
    rw [htable σ hσ, binary_value, h1]

section
variable {l r : Expr}

theorem NeExpr.create_simplifies (h : (binary .ne l r).WellTyped) :
    (binary .ne l r).Simplifies (NeExpr.create l r) := by
  obtain ⟨hl, hr, hw⟩ := h
  apply Expr.Simplifies.of_means
  intro σ
  have heq := EqExpr.create_means σ hl hr hw
  have h := EqExpr.create_means σ (l := const 0 1) trivial heq.typed heq.width.symm
  refine ⟨h.typed, h.width, h.value.trans ?_⟩
  rw [const, eq_constant_value σ _ heq.width, eqBit, heq.value, binary_value, binary_value,
    BinaryKind.apply, BinaryKind.apply]
  by_cases hbits : BitVec.ofNat l.getWidth (l.value σ) = BitVec.ofNat l.getWidth (r.value σ)
  · simp [hbits]
  · simp [hbits]

theorem UgtExpr.create_simplifies (h : (binary .ugt l r).WellTyped) :
    (binary .ugt l r).Simplifies (UgtExpr.create l r) := by
  obtain ⟨hl, hr, hw⟩ := h
  apply Expr.Simplifies.of_means
  intro σ
  rw [← swapped_value σ .ugt .ult hw fun _ _ => rfl]
  exact UltExpr.create_means σ hr hl hw.symm

theorem UgeExpr.create_simplifies (h : (binary .uge l r).WellTyped) :
    (binary .uge l r).Simplifies (UgeExpr.create l r) := by
  obtain ⟨hl, hr, hw⟩ := h
  apply Expr.Simplifies.of_means
  intro σ
  rw [← swapped_value σ .uge .ule hw fun _ _ => rfl]
  exact UleExpr.create_means σ hr hl hw.symm

theorem SgtExpr.create_simplifies (h : (binary .sgt l r).WellTyped) :
    (binary .sgt l r).Simplifies (SgtExpr.create l r) := by
  obtain ⟨hl, hr, hw⟩ := h
  apply Expr.Simplifies.of_means
  intro σ
  rw [← swapped_value σ .sgt .slt hw fun _ _ => rfl]
  exact SltExpr.create_means σ hr hl hw.symm

theorem SgeExpr.create_simplifies (h : (binary .sge l r).WellTyped) :
    (binary .sge l r).Simplifies (SgeExpr.create l r) := by
  obtain ⟨hl, hr, hw⟩ := h
  apply Expr.Simplifies.of_means
  intro σ
  rw [← swapped_value σ .sge .sle hw fun _ _ => rfl]
  exact SleExpr.create_means σ hr hl hw.symm

theorem BinaryKind.createFolded_nonconstant (k : BinaryKind) (create : Expr → Expr → Expr)
    {l r : Expr} (h : (l.isConstant && r.isConstant) = false) :
    k.createFolded create l r = some (create l r) := by
  cases l with
  | constant v cl =>
    cases r with
    | constant u cr => cases h
    | _ => rfl
  | _ => rfl

theorem BinaryKind.createFolded_zero {k : BinaryKind} (hk : k.isDivision = true)
    (create : Expr → Expr → Expr) {l : Expr} (hl : l.isConstant = true) (w : Width) :
    k.createFolded create l (const 0 w) = none := by
  cases l with
  | constant v cl => exact if_pos ⟨hk, rfl⟩
  | _ => cases hl

/-- Folding stands for the operation when what is not folded does. -/
theorem BinaryKind.createFolded_simplifies {k : BinaryKind} {create : Expr → Expr → Expr}
    (h : (binary k l r).WellTyped) (hz : ¬ (ConstructorCall.binary k l r).DividesByZero)
    (hcreate : (l.isConstant && r.isConstant) = false → (binary k l r).Simplifies (create l r)) :
    ∃ e, k.createFolded create l r = some e ∧ (binary k l r).Simplifies e := by
  by_cases hc : (l.isConstant && r.isConstant) = false
  · exact ⟨_, BinaryKind.createFolded_nonconstant k create hc, hcreate hc⟩
  · cases l with
    | constant v cl =>
      cases r with
      | constant u cr =>
        obtain rfl : v = u := h.2.2
        have hno : ¬ (k.isDivision = true ∧ cr = 0) := by
          intro hzero
          refine hz ⟨hzero.1, rfl, ?_⟩
          rw [hzero.2]
          rfl
        exact ⟨_, if_neg hno, Expr.Simplifies.of_means fun σ => fold_means σ k cl cr⟩
      | _ => exact absurd rfl hc
    | _ => exact absurd rfl hc

/-- The sums, differences, products and exclusive ors, by the words they give. -/
theorem word_simplifies {k : BinaryKind} {e : Expr} (hk : k.isCmp = false)
    (h : ∀ σ, e.Means σ l.getWidth
      (k.apply (l.bits σ l.getWidth) (r.bits σ l.getWidth))) :
    (binary k l r).Simplifies e := by
  apply Expr.Simplifies.of_means
  intro σ
  have hwidth : (binary k l r).getWidth = l.getWidth := by simp [getWidth, hk]
  rw [hwidth, binary_value]
  exact h σ

/-- A constructor that returns `e l r` on booleans and otherwise leaves the operation. -/
theorem BinaryKind.createFolded_boolean {k : BinaryKind} {e : Expr → Expr → Expr}
    (hk : k.isCmp = false) (h : (binary k l r).WellTyped)
    (hz : ¬ (ConstructorCall.binary k l r).DividesByZero)
    (hbool : l.getWidth = 1 → (l.isConstant && r.isConstant) = false →
      (e l r).WellTyped ∧ (e l r).getWidth = 1 ∧ ∀ σ, (binary k l r).NoZeroDivisor σ →
        (e l r).value σ = k.apply (BitVec.ofNat 1 (l.value σ)) (BitVec.ofNat 1 (r.value σ))) :
    ∃ e', k.createFolded (fun l r => if l.getWidth = 1 then e l r else .binary k l r) l r =
        some e' ∧ (binary k l r).Simplifies e' := by
  apply BinaryKind.createFolded_simplifies h hz
  intro hc
  split
  · rename_i h1
    obtain ⟨he, hew, htable⟩ := hbool h1 hc
    exact boolean_simplifies hk h1 he hew htable
  · exact Expr.Simplifies.alloc h

/-- A boolean divisor that is not zero is one. -/
theorem bool_divisor {k : BinaryKind} {σ : Assignment} (hk : k.isDivision = true)
    (h : (binary k l r).WellTyped) (h1 : l.getWidth = 1) (hσ : (binary k l r).NoZeroDivisor σ) :
    r.value σ = 1 := by
  obtain hr | hr := width_one_value (σ := σ) (h.2.2.symm.trans h1)
  · exact absurd hr (hσ.2.2 hk)
  · exact hr

theorem UDivExpr.create_simplifies (h : (binary .udiv l r).WellTyped)
    (hz : ¬ (ConstructorCall.binary .udiv l r).DividesByZero) :
    ∃ e, UDivExpr.create l r = some e ∧ (binary .udiv l r).Simplifies e := by
  apply BinaryKind.createFolded_boolean rfl h hz
  intro h1 _
  refine ⟨h.1, h1, ?_⟩
  intro σ hσ
  rw [bool_divisor rfl h h1 hσ]
  obtain h2 | h2 := width_one_value (σ := σ) h1 <;> rw [h2] <;> rfl

theorem SDivExpr.create_simplifies (h : (binary .sdiv l r).WellTyped)
    (hz : ¬ (ConstructorCall.binary .sdiv l r).DividesByZero) :
    ∃ e, SDivExpr.create l r = some e ∧ (binary .sdiv l r).Simplifies e := by
  apply BinaryKind.createFolded_boolean rfl h hz
  intro h1 _
  refine ⟨h.1, h1, ?_⟩
  intro σ hσ
  rw [bool_divisor rfl h h1 hσ]
  obtain h2 | h2 := width_one_value (σ := σ) h1 <;> rw [h2] <;> rfl

theorem URemExpr.create_simplifies (h : (binary .urem l r).WellTyped)
    (hz : ¬ (ConstructorCall.binary .urem l r).DividesByZero) :
    ∃ e, URemExpr.create l r = some e ∧ (binary .urem l r).Simplifies e := by
  apply BinaryKind.createFolded_boolean (e := fun _ _ => const 0 1) rfl h hz
  intro h1 _
  refine ⟨trivial, rfl, ?_⟩
  intro σ hσ
  rw [bool_divisor rfl h h1 hσ]
  obtain h2 | h2 := width_one_value (σ := σ) h1 <;> rw [h2] <;> rfl

theorem SRemExpr.create_simplifies (h : (binary .srem l r).WellTyped)
    (hz : ¬ (ConstructorCall.binary .srem l r).DividesByZero) :
    ∃ e, SRemExpr.create l r = some e ∧ (binary .srem l r).Simplifies e := by
  apply BinaryKind.createFolded_boolean (e := fun _ _ => const 0 1) rfl h hz
  intro h1 _
  refine ⟨trivial, rfl, ?_⟩
  intro σ hσ
  rw [bool_divisor rfl h h1 hσ]
  obtain h2 | h2 := width_one_value (σ := σ) h1 <;> rw [h2] <;> rfl

/-- `l & !r` on booleans. -/
theorem and_not_means (σ : Assignment) (hl : l.WellTyped) (hr : r.WellTyped) (h1 : l.getWidth = 1) :
    (AndExpr.create l (createIsZero r)).Means σ 1
      ((BitVec.ofNat 1 (l.value σ) &&& BitVec.ofNat 1 (eqBit σ 0 r)).toNat) := by
  have hz := createIsZero_means σ hr
  have h := AndExpr.create_means σ hl hz.typed (h1.trans hz.width.symm)
  refine ⟨h.typed, h.width.trans h1, h.value.trans ?_⟩
  rw [binary_value, hz.value, h1]
  rfl

/-- `!l & r` on booleans. -/
theorem not_and_means (σ : Assignment) (hl : l.WellTyped) (hr : r.WellTyped) (h1 : r.getWidth = 1) :
    (AndExpr.create (createIsZero l) r).Means σ 1
      ((BitVec.ofNat 1 (eqBit σ 0 l) &&& BitVec.ofNat 1 (r.value σ)).toNat) := by
  have hz := createIsZero_means σ hl
  have h := AndExpr.create_means σ hz.typed hr (hz.width.trans h1.symm)
  refine ⟨h.typed, h.width.trans hz.width, h.value.trans ?_⟩
  rw [binary_value, hz.value, hz.width]
  rfl

/-- `!l | r` on booleans. -/
theorem not_or_right_means (σ : Assignment) (hl : l.WellTyped) (hr : r.WellTyped)
    (h1 : r.getWidth = 1) :
    (OrExpr.create (createIsZero l) r).Means σ 1
      ((BitVec.ofNat 1 (eqBit σ 0 l) ||| BitVec.ofNat 1 (r.value σ)).toNat) := by
  have hz := createIsZero_means σ hl
  have h := OrExpr.create_means σ hz.typed hr (hz.width.trans h1.symm)
  refine ⟨h.typed, h.width.trans hz.width, h.value.trans ?_⟩
  rw [binary_value, hz.value, hz.width]
  rfl

theorem ShlExpr.create_simplifies (h : (binary .shl l r).WellTyped) :
    ∃ e, ShlExpr.create l r = some e ∧ (binary .shl l r).Simplifies e := by
  apply BinaryKind.createFolded_boolean (e := fun l r => AndExpr.create l (createIsZero r)) rfl h
  · intro hd
    cases hd.1
  · intro h1 _
    have hm := fun σ => and_not_means σ h.1 h.2.1 h1
    refine ⟨(hm fun _ _ => 0).typed, (hm fun _ _ => 0).width, ?_⟩
    intro σ _
    rw [(hm σ).value, eqBit]
    obtain h2 | h2 := width_one_value (σ := σ) h1 <;>
      obtain h3 | h3 := width_one_value (σ := σ) (h.2.2.symm.trans h1) <;>
      rw [h2, h3] <;> rfl

theorem LShrExpr.create_simplifies (h : (binary .lshr l r).WellTyped) :
    ∃ e, LShrExpr.create l r = some e ∧ (binary .lshr l r).Simplifies e := by
  apply BinaryKind.createFolded_boolean (e := fun l r => AndExpr.create l (createIsZero r)) rfl h
  · intro hd
    cases hd.1
  · intro h1 _
    have hm := fun σ => and_not_means σ h.1 h.2.1 h1
    refine ⟨(hm fun _ _ => 0).typed, (hm fun _ _ => 0).width, ?_⟩
    intro σ _
    rw [(hm σ).value, eqBit]
    obtain h2 | h2 := width_one_value (σ := σ) h1 <;>
      obtain h3 | h3 := width_one_value (σ := σ) (h.2.2.symm.trans h1) <;>
      rw [h2, h3] <;> rfl

theorem AShrExpr.create_simplifies (h : (binary .ashr l r).WellTyped)
    (hs : ¬ (ConstructorCall.binary .ashr l r).Overshifts) :
    ∃ e, AShrExpr.create l r = some e ∧ (binary .ashr l r).Simplifies e := by
  apply BinaryKind.createFolded_boolean rfl h
  · intro hd
    cases hd.1
  · intro h1 hc
    refine ⟨h.1, h1, ?_⟩
    intro σ hσ
    obtain h2 | h2 := width_one_value (σ := σ) h1 <;>
      obtain h3 | h3 := width_one_value (σ := σ) (h.2.2.symm.trans h1)
    · rw [h2, h3]
      rfl
    · rw [h2, h3]
      rfl
    · rw [h2, h3]
      rfl
    · exact absurd ⟨h1, hc, σ, hσ.1, hσ.2.1, h2, h3⟩ hs

end

theorem select_value (σ : Assignment) (c t f : Expr) (htf : t.getWidth = f.getWidth) :
    (select c t f).value σ = if c.value σ = 1 then t.value σ else f.value σ := by
  rw [Expr.value, htf, Nat.mod_eq_of_lt (f.value_lt σ)]

/-- A choice between booleans, when the one taken on true is constant. -/
theorem SelectExpr.create_true_constant (σ : Assignment) {c f : Expr} {v : Width} (a : BitVec v)
    (hc : c.WellTyped) (hf : f.WellTyped) (hcw : c.getWidth = 1) (hv : v = 1)
    (hfw : f.getWidth = 1) :
    (if a.toNat = 1 then OrExpr.create c f else AndExpr.create (createIsZero c) f).Means σ 1
      (if c.value σ = 1 then a.toNat else f.value σ) := by
  subst hv
  have ha := a.isLt
  split
  · rename_i h1
    have h := OrExpr.create_means σ hc hf (hcw.trans hfw.symm)
    refine ⟨h.typed, h.width.trans hcw, h.value.trans ?_⟩
    rw [binary_value, hcw, h1]
    obtain h2 | h2 := width_one_value (σ := σ) hcw <;>
      obtain h3 | h3 := width_one_value (σ := σ) hfw <;> rw [h2, h3] <;> rfl
  · rename_i h1
    have h := not_and_means σ hc hf hfw
    refine ⟨h.typed, h.width, h.value.trans ?_⟩
    have h0 : a.toNat = 0 := by omega
    rw [h0, eqBit]
    obtain h2 | h2 := width_one_value (σ := σ) hcw <;>
      obtain h3 | h3 := width_one_value (σ := σ) hfw <;> rw [h2, h3] <;> rfl

/-- A choice between booleans, when the one taken on false is constant. -/
theorem SelectExpr.create_false_constant (σ : Assignment) {c t : Expr} {v : Width} (b : BitVec v)
    (hc : c.WellTyped) (ht : t.WellTyped) (hcw : c.getWidth = 1) (hv : v = 1)
    (htw : t.getWidth = 1) :
    (if b.toNat = 1 then OrExpr.create (createIsZero c) t else AndExpr.create c t).Means σ 1
      (if c.value σ = 1 then t.value σ else b.toNat) := by
  subst hv
  have hb := b.isLt
  split
  · rename_i h1
    have h := not_or_right_means σ hc ht htw
    refine ⟨h.typed, h.width, h.value.trans ?_⟩
    rw [h1, eqBit]
    obtain h2 | h2 := width_one_value (σ := σ) hcw <;>
      obtain h3 | h3 := width_one_value (σ := σ) htw <;> rw [h2, h3] <;> rfl
  · rename_i h1
    have h := AndExpr.create_means σ hc ht (hcw.trans htw.symm)
    refine ⟨h.typed, h.width.trans hcw, h.value.trans ?_⟩
    have h0 : b.toNat = 0 := by omega
    rw [binary_value, hcw, h0]
    obtain h2 | h2 := width_one_value (σ := σ) hcw <;>
      obtain h3 | h3 := width_one_value (σ := σ) htw <;> rw [h2, h3] <;> rfl

theorem SelectExpr.create_means (σ : Assignment) {c t f : Expr} (h : (select c t f).WellTyped) :
    (SelectExpr.create c t f).Means σ t.getWidth ((select c t f).value σ) := by
  obtain ⟨hc, ht, hf, hcw, htf⟩ := h
  rw [select_value σ c t f htf]
  unfold SelectExpr.create
  split
  · rename_i v b
    obtain rfl : v = 1 := hcw
    rw [constant_value]
    split
    · exact ht.means σ
    · exact ⟨hf, htf.symm, rfl⟩
  · split
    · rename_i he
      subst he
      exact ⟨ht, rfl, (ite_self _).symm⟩
    · split
      · rename_i h1
        split
        · rename_i v a _
          rw [h1, constant_value]
          exact SelectExpr.create_true_constant σ a hc hf hcw h1 (htf.symm.trans h1)
        · rename_i v b _ _
          rw [h1, constant_value]
          exact SelectExpr.create_false_constant σ b hc ht hcw (htf.symm.trans h1) h1
        · exact ⟨⟨hc, ht, hf, hcw, htf⟩, rfl, select_value σ _ _ _ htf⟩
      · exact ⟨⟨hc, ht, hf, hcw, htf⟩, rfl, select_value σ _ _ _ htf⟩

/-- Where no division of constants by zero is folded and no boolean overshifts, the constructor
of a binary kind stands for its operation. -/
theorem BinaryKind.create_simplifies {k : BinaryKind} {l r : Expr} (h : (binary k l r).WellTyped)
    (hs : ¬ (ConstructorCall.binary k l r).Overshifts)
    (hz : ¬ (ConstructorCall.binary k l r).DividesByZero) :
    ∃ e, k.create l r = some e ∧ (binary k l r).Simplifies e := by
  have ⟨hl, hr, hw⟩ := h
  cases k with
  | add => exact ⟨_, rfl, word_simplifies rfl fun σ => (Expr.sumCorrect σ l r hl hr rfl hw.symm).1⟩
  | sub => exact ⟨_, rfl, word_simplifies rfl fun σ => (Expr.sumCorrect σ l r hl hr rfl hw.symm).2⟩
  | mul => exact ⟨_, rfl, word_simplifies rfl fun _ => MulExpr.create_means hl hr rfl hw.symm⟩
  | udiv => exact UDivExpr.create_simplifies h hz
  | sdiv => exact SDivExpr.create_simplifies h hz
  | urem => exact URemExpr.create_simplifies h hz
  | srem => exact SRemExpr.create_simplifies h hz
  | and => exact ⟨_, rfl, Expr.Simplifies.of_means fun σ => AndExpr.create_means σ hl hr hw⟩
  | or => exact ⟨_, rfl, Expr.Simplifies.of_means fun σ => OrExpr.create_means σ hl hr hw⟩
  | xor => exact ⟨_, rfl, word_simplifies rfl fun _ => XorExpr.create_means hl hr rfl hw.symm⟩
  | shl => exact ShlExpr.create_simplifies h
  | lshr => exact LShrExpr.create_simplifies h
  | ashr => exact AShrExpr.create_simplifies h hs
  | eq => exact ⟨_, rfl, Expr.Simplifies.of_means fun σ => EqExpr.create_means σ hl hr hw⟩
  | ne => exact ⟨_, rfl, NeExpr.create_simplifies h⟩
  | ult => exact ⟨_, rfl, Expr.Simplifies.of_means fun σ => UltExpr.create_means σ hl hr hw⟩
  | ule => exact ⟨_, rfl, Expr.Simplifies.of_means fun σ => UleExpr.create_means σ hl hr hw⟩
  | ugt => exact ⟨_, rfl, UgtExpr.create_simplifies h⟩
  | uge => exact ⟨_, rfl, UgeExpr.create_simplifies h⟩
  | slt => exact ⟨_, rfl, Expr.Simplifies.of_means fun σ => SltExpr.create_means σ hl hr hw⟩
  | sle => exact ⟨_, rfl, Expr.Simplifies.of_means fun σ => SleExpr.create_means σ hl hr hw⟩
  | sgt => exact ⟨_, rfl, SgtExpr.create_simplifies h⟩
  | sge => exact ⟨_, rfl, SgeExpr.create_simplifies h⟩

namespace ConstructorCall

theorem simplifies_of_regular {c : ConstructorCall} (h : c.WellTyped) (hs : ¬ c.Overshifts)
    (hz : ¬ c.DividesByZero) : c.Faithful := by
  cases c with
  | select c t f =>
    exact ⟨_, rfl, Expr.Simplifies.of_means fun σ => SelectExpr.create_means σ h⟩
  | concat l r =>
    exact ⟨_, rfl, Expr.Simplifies.of_means fun σ => ConcatExpr.create_means σ h.1 h.2⟩
  | extract e off w =>
    refine ⟨_, rfl, Expr.Simplifies.of_means ?_⟩
    intro σ
    have hm := ExtractExpr.create_correct σ e off w h.1 h.2.1 h.2.2
    refine ⟨hm.typed, hm.width, hm.value.trans ?_⟩
    rw [unsimplified, Expr.value]
  | zext e w =>
    exact ⟨_, rfl, Expr.Simplifies.of_means fun σ => ZExtExpr.create_means σ h.1 fun _ => h.2⟩
  | sext e w =>
    exact ⟨_, rfl, Expr.Simplifies.of_means fun σ => SExtExpr.create_means σ h.1 fun _ => h.2⟩
  | not e => exact ⟨_, rfl, Expr.Simplifies.of_means fun σ => NotExpr.create_means σ h⟩
  | binary k l r => exact BinaryKind.create_simplifies h hs hz

theorem create_of_overshifts {k : BinaryKind} {l r : Expr} (hs : (binary k l r).Overshifts) :
    k = .ashr ∧ k.create l r = some l := by
  unfold Overshifts at hs
  split at hs
  · rename_i heq
    cases heq
    obtain ⟨h1, hc, -⟩ := hs
    exact ⟨rfl, (BinaryKind.createFolded_nonconstant .ashr _ hc).trans (congrArg some (if_pos h1))⟩
  · exact hs.elim

theorem create_of_dividesByZero {k : BinaryKind} {l r : Expr} (hz : (binary k l r).DividesByZero) :
    k.create l r = none := by
  obtain ⟨hk, hl, hr⟩ := hz
  rw [hr]
  cases k with
  | udiv => exact BinaryKind.createFolded_zero rfl _ hl _
  | sdiv => exact BinaryKind.createFolded_zero rfl _ hl _
  | urem => exact BinaryKind.createFolded_zero rfl _ hl _
  | srem => exact BinaryKind.createFolded_zero rfl _ hl _
  | _ => cases hk

/-- A boolean that overshifts keeps its value, where the shift gives zero. -/
theorem not_faithful_of_overshifts {c : ConstructorCall} (hs : c.Overshifts) : ¬ c.Faithful := by
  intro hf
  cases c with
  | binary k l r =>
    obtain ⟨rfl, hcreate⟩ := create_of_overshifts hs
    obtain ⟨h1, hc, σ, hl, hr, hlv, hrv⟩ := hs
    obtain ⟨e, he, hsim⟩ := hf
    cases hcreate.symm.trans he
    have hv := hsim.value σ ⟨hl, hr, fun hd => by cases hd⟩
    rw [hlv, unsimplified, binary_value, hlv, hrv, h1] at hv
    cases hv
  | _ => exact hs

/-- The division of a constant by the constant zero fails an assertion. -/
theorem not_faithful_of_dividesByZero {c : ConstructorCall} (hz : c.DividesByZero) :
    ¬ c.Faithful := by
  intro hf
  cases c with
  | binary k l r =>
    obtain ⟨e, he, -⟩ := hf
    cases (create_of_dividesByZero hz).symm.trans he
  | _ => exact hz

/-- The input byte. -/
def inputByte : Expr := .read { name := "input", size := 1 } .nil (const 0 32)

theorem inputByte_typed : inputByte.WellTyped := ⟨trivial, trivial, rfl⟩

/-- A flag: the low bit of the input byte. -/
def flag : Expr := .extract inputByte 0 1

end ConstructorCall

end Encider
