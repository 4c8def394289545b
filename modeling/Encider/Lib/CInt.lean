import Mathlib

/-!
The `int` and the `unsigned` of 32 bits. A sum of two `int`s that is none is undefined; `unsigned`s
wrap, and converting one to the other keeps the bits.
-/

namespace CInt

/-- The sum of two `int`s; `none` where it is undefined. -/
def add (x y : BitVec 32) : Option (BitVec 32) := if x.saddOverflow y then none else some (x + y)

/-- The difference of two `int`s; `none` where it is undefined. -/
def sub (x y : BitVec 32) : Option (BitVec 32) := if x.ssubOverflow y then none else some (x - y)

variable {x y z : BitVec 32}

theorem bounds (x : BitVec 32) : -2147483648 ≤ x.toInt ∧ x.toInt < 2147483648 := by
  have := x.isLt
  rw [BitVec.toInt_eq_toNat_cond]
  split <;> omega

/-- An `int` as an `unsigned`. -/
theorem toNat_eq (x : BitVec 32) :
    (x.toNat : Int) = if 0 ≤ x.toInt then x.toInt else x.toInt + 4294967296 := by
  have := x.isLt
  rw [BitVec.toInt_eq_toNat_cond]
  split <;> split <;> omega

/-- An `unsigned` as an `int`. -/
theorem toInt_eq (x : BitVec 32) :
    x.toInt = if (x.toNat : Int) < 2147483648 then (x.toNat : Int) else x.toNat - 4294967296 := by
  rw [BitVec.toInt_eq_toNat_cond]
  split <;> split <;> omega

theorem toNat_add (x y : BitVec 32) : ((x + y).toNat : Int) =
    if (x.toNat : Int) + y.toNat < 4294967296 then (x.toNat : Int) + y.toNat
    else x.toNat + y.toNat - 4294967296 := by
  rw [BitVec.toNat_add]
  split <;> omega

theorem toNat_sub (x y : BitVec 32) : ((x - y).toNat : Int) =
    if (y.toNat : Int) ≤ x.toNat then (x.toNat : Int) - y.toNat
    else x.toNat - y.toNat + 4294967296 := by
  have := x.isLt
  have := y.isLt
  rw [BitVec.toNat_sub]
  split <;> omega

theorem overflow_iff : x.saddOverflow y = true ↔
    ¬ (-2147483648 ≤ x.toInt + y.toInt ∧ x.toInt + y.toInt < 2147483648) := by
  unfold BitVec.saddOverflow
  simp only [Bool.or_eq_true, decide_eq_true_eq]
  omega

theorem toInt_add (h : -2147483648 ≤ x.toInt + y.toInt) (h' : x.toInt + y.toInt < 2147483648) :
    (x + y).toInt = x.toInt + y.toInt := by
  rw [BitVec.toInt_add]
  exact Int.bmod_eq_of_le (by omega) (by omega)

theorem toInt_sub (h : -2147483648 ≤ x.toInt - y.toInt) (h' : x.toInt - y.toInt < 2147483648) :
    (x - y).toInt = x.toInt - y.toInt := by
  rw [BitVec.toInt_sub]
  exact Int.bmod_eq_of_le (by omega) (by omega)

/-- A sum that is defined is that of the numbers. -/
theorem add_eq_some_iff : add x y = some z ↔ z.toInt = x.toInt + y.toInt := by
  have hz := bounds z
  unfold add
  by_cases h : x.saddOverflow y = true
  · rw [if_pos h]
    rw [overflow_iff] at h
    refine iff_of_false (by simp) ?_
    omega
  · rw [if_neg h, Option.some_inj]
    rw [overflow_iff, not_not] at h
    rw [← toInt_add h.1 h.2, ← BitVec.toInt_inj]
    exact eq_comm

theorem add_some (h : -2147483648 ≤ x.toInt + y.toInt) (h' : x.toInt + y.toInt < 2147483648) :
    ∃ z, add x y = some z :=
  ⟨x + y, add_eq_some_iff.mpr (toInt_add h h')⟩

theorem sub_some (hx : 0 ≤ x.toInt) (hy : 0 ≤ y.toInt) : sub x y = some (x - y) := by
  have hbx := bounds x
  have hby := bounds y
  unfold sub BitVec.ssubOverflow
  rw [if_neg]
  simp only [Bool.or_eq_true, decide_eq_true_eq]
  omega

theorem lt_iff : x < y ↔ (x.toNat : Int) < y.toNat := by
  rw [BitVec.lt_def]
  omega

/-- On one side of zero the `unsigned`s come in the order of the `int`s. -/
theorem lt_iff_toInt (h : 0 ≤ x.toInt ↔ 0 ≤ y.toInt) : x < y ↔ x.toInt < y.toInt := by
  rw [lt_iff, toNat_eq, toNat_eq]
  split_ifs <;> omega

end CInt
