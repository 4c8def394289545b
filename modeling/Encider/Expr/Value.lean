import Encider.Expr.Syntax

namespace Encider

/-- The contents of every symbolic array. -/
abbrev Assignment := (a : Array) → Nat → BitVec a.range

/-- The unmodified contents of an array at one index. -/
def Array.initial (σ : Assignment) (a : Array) (i : Nat) : BitVec a.range :=
  (a.constantValues[i]?).getD (σ a i)

/-- The operation of a binary kind on words of one width. Shifting by at least
the width gives zero. -/
def BinaryKind.apply {w : Nat} (x y : BitVec w) : BinaryKind → Nat
  | .add => (x + y).toNat
  | .sub => (x - y).toNat
  | .mul => (x * y).toNat
  | .udiv => (x / y).toNat
  | .sdiv => (x.sdiv y).toNat
  | .urem => (x % y).toNat
  | .srem => (x.srem y).toNat
  | .and => (x &&& y).toNat
  | .or => (x ||| y).toNat
  | .xor => (x ^^^ y).toNat
  | .shl => (x <<< y.toNat).toNat
  | .lshr => (x >>> y.toNat).toNat
  | .ashr => if y.toNat < w then (x.sshiftRight y.toNat).toNat else 0
  | .eq => (decide (x = y)).toNat
  | .ne => (decide (x ≠ y)).toNat
  | .ult => (x.ult y).toNat
  | .ule => (x.ule y).toNat
  | .ugt => (y.ult x).toNat
  | .uge => (y.ule x).toNat
  | .slt => (x.slt y).toNat
  | .sle => (x.sle y).toNat
  | .sgt => (y.slt x).toNat
  | .sge => (y.sle x).toNat

mutual
/-- The value of an expression, as an unsigned number below `2 ^ getWidth`. -/
def Expr.value (σ : Assignment) : Expr → Nat
  | .constant _ v => v.toNat
  | .notOptimized e => e.value σ
  | .read a us i => (us.contents σ a (i.value σ)).toNat
  | .select c t f =>
      if c.value σ = 1 then t.value σ else f.value σ % 2 ^ t.getWidth
  | .concat l r => l.value σ <<< r.getWidth ||| r.value σ
  | .extract e o w => (e.value σ >>> o) % 2 ^ w
  | .zext e w => e.value σ % 2 ^ w
  | .sext e w => ((BitVec.ofNat e.getWidth (e.value σ)).signExtend w).toNat
  | .not e => (~~~ BitVec.ofNat e.getWidth (e.value σ)).toNat
  | .binary k l r =>
      k.apply (BitVec.ofNat l.getWidth (l.value σ)) (BitVec.ofNat l.getWidth (r.value σ))

/-- The contents of an array after its writes. -/
def UpdateList.contents (σ : Assignment) (a : Array) (i : Nat) : UpdateList → BitVec a.range
  | .nil => a.initial σ i
  | .cons j v next =>
      if j.value σ = i then BitVec.ofNat a.range (v.value σ) else next.contents σ a i
end

namespace Expr

/-- A boolean expression is true. -/
def Holds (σ : Assignment) (e : Expr) : Prop := e.value σ = 1

instance (σ : Assignment) (e : Expr) : Decidable (e.Holds σ) :=
  inferInstanceAs (Decidable (_ = _))

/-- The value as a word. -/
def bits (σ : Assignment) (w : Width) (e : Expr) : BitVec w := BitVec.ofNat w (e.value σ)

end Expr

theorem BinaryKind.apply_lt {w : Nat} (k : BinaryKind) (x y : BitVec w) :
    k.apply x y < 2 ^ (if k.isCmp then 1 else w) := by
  cases k
  case ashr =>
    simp only [apply, isCmp, Bool.false_eq_true, ↓reduceIte]
    split
    · exact BitVec.isLt _
    · exact Nat.two_pow_pos w
  all_goals simp only [apply, isCmp, Bool.false_eq_true, ↓reduceIte, pow_one]
  all_goals first | exact BitVec.isLt _ | exact Bool.toNat_lt _

theorem Expr.value_lt (σ : Assignment) (e : Expr) : e.value σ < 2 ^ e.getWidth := by
  induction e using Expr.rec (motive_2 := fun _ => True) with
  | constant w v => exact v.isLt
  | notOptimized e ih => simpa only [value, getWidth] using ih
  | read a us i => exact BitVec.isLt _
  | select c t f hc ht hf =>
    simp only [value, getWidth]
    split
    · exact ht
    · exact Nat.mod_lt _ (Nat.two_pow_pos _)
  | concat l r hl hr =>
    simp only [value, getWidth]
    refine Nat.or_lt_two_pow ?_ (hr.trans_le (Nat.pow_le_pow_right (by omega) (by omega)))
    rw [Nat.shiftLeft_eq, Nat.pow_add]
    exact Nat.mul_lt_mul_of_pos_right hl (Nat.two_pow_pos _)
  | extract e o w => exact Nat.mod_lt _ (Nat.two_pow_pos _)
  | zext e w => exact Nat.mod_lt _ (Nat.two_pow_pos _)
  | sext e w => exact BitVec.isLt _
  | not e => exact BitVec.isLt _
  | binary k l r => exact k.apply_lt _ _
  | nil => trivial
  | cons => trivial

end Encider
