import Encider.Lib.CInt
import Encider.Solver.ConstantDivision

/-! `ConstantDivision.cpp`: the constants that stand for a division of 32 bits. -/

namespace Encider.ConstantDivision

/-- The number of ones. -/
def ones (x : BitVec 32) : BitVec 32 :=
  let x := x - ((x >>> 1) &&& 0x55555555)
  let x := ((x >>> 2) &&& 0x33333333) + (x &&& 0x33333333)
  let x := ((x >>> 4) + x) &&& 0x0f0f0f0f
  let x := x + (x >>> 8)
  let x := x + (x >>> 16)
  x &&& 0x0000003f

/-- The number of leading zeroes. -/
def ldz (x : BitVec 32) : BitVec 32 :=
  let x := x ||| (x >>> 1)
  let x := x ||| (x >>> 2)
  let x := x ||| (x >>> 4)
  let x := x ||| (x >>> 8)
  let x := x ||| (x >>> 16)
  32 - ones x

def log2Ceil (x : BitVec 32) : BitVec 32 := 32 - ldz (x - 1)

/-- `2^n`; `none` where the shift is out of range. -/
def expBase2 (n : BitVec 32) : Option (BitVec 32) :=
  let x := (~~~n &&& (n - 32)) >>> 31
  if n.toNat < 32 then some (x <<< n.toNat) else none

/-- The division of two 64-bit numbers; `none` where it is undefined. -/
def hostDiv (x y : BitVec 64) : Option (BitVec 64) := if y = 0 then none else some (x / y)

/-- `std::min` and `std::max` of two `int32_t`. -/
def min (a b : BitVec 32) : BitVec 32 := if b.slt a then b else a

def max (a b : BitVec 32) : BitVec 32 := if a.slt b then b else a

structure UDivConstants where
  mprime : BitVec 32
  sh1 : BitVec 32
  sh2 : BitVec 32
deriving DecidableEq

def computeUDivConstants32 (d : BitVec 32) : Option UDivConstants := do
  let l := log2Ceil d
  let mid := (← expBase2 l) - d
  let q ← hostDiv ((1#64 <<< 32) * mid.setWidth 64) (d.setWidth 64)
  return { mprime := (q + 1).setWidth 32, sh1 := min l 1, sh2 := max (l - 1) 0 }

structure SDivConstants where
  mprime : BitVec 32
  dsign : BitVec 32
  shpost : BitVec 32
deriving DecidableEq

def computeSDivConstants32 (d : BitVec 32) : Option SDivConstants := do
  let d64 := d.signExtend 64
  let abs_d := if (0#64).slt d64 then d64 else -d64
  let l := log2Ceil (abs_d.setWidth 32)
  let l := if l < 1 then 1 else l
  let l := if abs_d = 1#64 <<< 31 then 31 else l
  let mid ← expBase2 (l - 1)
  let q ← hostDiv ((1#64 <<< 32) * mid.setWidth 64) abs_d
  let m := q + 1
  return { mprime := (m - 1#64 <<< 32).setWidth 32, dsign := d.sshiftRight 31, shpost := l - 1 }

section Leading

/-- The bits of `x` up to `n` places below. -/
def Smears (n : ℕ) (x y : BitVec 32) : Prop :=
  ∀ j, y.getLsbD j = true ↔ ∃ i < n, x.getLsbD (j + i) = true

theorem Smears.shift {n : ℕ} {x y : BitVec 32} (h : Smears n x y) :
    Smears (n + n) x (y ||| y >>> n) := by
  intro j
  rw [BitVec.getLsbD_or, BitVec.getLsbD_ushiftRight, Bool.or_eq_true, h j, h (n + j)]
  constructor
  · rintro (⟨i, hi, hb⟩ | ⟨i, hi, hb⟩)
    · exact ⟨i, by omega, hb⟩
    · exact ⟨n + i, by omega, by rwa [← Nat.add_assoc, Nat.add_comm j n]⟩
  · rintro ⟨i, hi, hb⟩
    by_cases hin : i < n
    · exact .inl ⟨i, hin, hb⟩
    · exact .inr ⟨i - n, by omega, by rwa [show n + j + (i - n) = j + i by omega]⟩

theorem smears_one (x : BitVec 32) : Smears 1 x x := by
  intro j
  constructor
  · intro h
    exact ⟨0, by omega, h⟩
  · rintro ⟨i, hi, h⟩
    rwa [Nat.lt_one_iff.mp hi, Nat.add_zero] at h

theorem ones_of_low {k : ℕ} (hk : k ≤ 32) :
    ones (BitVec.ofNat 32 (2 ^ k - 1)) = BitVec.ofNat 32 k := by
  have h : ∀ k : Fin 33, ones (BitVec.ofNat 32 (2 ^ (k : ℕ) - 1)) = BitVec.ofNat 32 k := by
    decide +kernel
  exact h ⟨k, by omega⟩

/-- The leading zeroes are those above the size of the number. -/
theorem ldz_eq (x : BitVec 32) : ldz x = 32 - BitVec.ofNat 32 (Nat.size x.toNat) := by
  have hsize : Nat.size x.toNat ≤ 32 := Nat.size_le.mpr x.isLt
  have hsmear := (((((smears_one x).shift).shift).shift).shift).shift
  have hlow : BitVec.ofNat 32 (2 ^ Nat.size x.toNat - 1) =
      (let x := x ||| (x >>> 1)
       let x := x ||| (x >>> 2)
       let x := x ||| (x >>> 4)
       let x := x ||| (x >>> 8)
       x ||| (x >>> 16)) := by
    apply BitVec.eq_of_getLsbD_eq
    intro j hj
    rw [Bool.eq_iff_iff, hsmear j, BitVec.getLsbD_ofNat, Nat.testBit_two_pow_sub_one]
    simp only [hj, decide_true, Bool.true_and, decide_eq_true_eq, Nat.lt_size]
    constructor
    · intro hle
      obtain ⟨i, hi, hb⟩ := Nat.exists_ge_and_testBit_of_ge_two_pow hle
      rw [BitVec.testBit_toNat] at hb
      have hlt : i < 32 := by
        by_contra hge
        rw [BitVec.getLsbD_of_ge x i (by omega)] at hb
        cases hb
      exact ⟨i - j, by omega, by rwa [Nat.add_sub_cancel' hi]⟩
    · rintro ⟨i, -, hb⟩
      rw [← BitVec.testBit_toNat] at hb
      exact (Nat.pow_le_pow_right (by omega) (Nat.le_add_right j i)).trans
        (Nat.ge_two_pow_of_testBit hb)
  unfold ldz
  dsimp only at hlow ⊢
  rw [← hlow, ones_of_low hsize]

theorem log2Ceil_eq (d : BitVec 32) :
    log2Ceil d = BitVec.ofNat 32 (Nat.size (d - 1).toNat) := by
  unfold log2Ceil
  rw [ldz_eq, sub_sub_cancel]

end Leading

/-- The logarithm of a number, rounded up. -/
structure IsLog (d l : ℕ) : Prop where
  le : d ≤ 2 ^ l
  lt : 0 < l → 2 ^ (l - 1) < d

theorem isLog_size {d : ℕ} : IsLog d (Nat.size (d - 1)) where
  le := by
    have := Nat.lt_size_self (d - 1)
    omega
  lt := by
    intro h
    have h1 : 2 ^ (Nat.size (d - 1) - 1) ≤ d - 1 := Nat.lt_size.mp (by omega)
    have := Nat.two_pow_pos (Nat.size (d - 1) - 1)
    omega

theorem IsLog.pow_lt {d l : ℕ} (h : IsLog d l) (hd : 0 < d) : 2 ^ l < 2 * d := by
  rcases Nat.eq_zero_or_pos l with rfl | hl
  · omega
  · have h1 := h.lt hl
    have h2 : 2 ^ l = 2 ^ (l - 1) * 2 := by rw [← pow_succ, Nat.sub_add_cancel hl]
    omega

theorem expBase2_eq {l : ℕ} (hl : l < 32) :
    expBase2 (BitVec.ofNat 32 l) = some (BitVec.ofNat 32 (2 ^ l)) := by
  have h : ∀ l : Fin 32, expBase2 (BitVec.ofNat 32 l) = some (BitVec.ofNat 32 (2 ^ (l : ℕ))) := by
    decide +kernel
  exact h ⟨l, hl⟩

theorem expBase2_out_of_range : expBase2 32 = none := rfl

theorem toNat_sub_one {d : BitVec 32} (h : d ≠ 0) : (d - 1).toNat = d.toNat - 1 := by
  have h0 : d.toNat ≠ 0 := fun h0 => h (BitVec.eq_of_toNat_eq h0)
  have hlt := d.isLt
  have h1 : BitVec.toNat (1 : BitVec 32) = 1 := rfl
  rw [BitVec.toNat_sub, h1]
  omega

theorem hostDiv_eq {x y : BitVec 64} (h : y.toNat ≠ 0) :
    ∃ q, hostDiv x y = some q ∧ q.toNat = x.toNat / y.toNat := by
  have hy : y ≠ 0 := fun h0 => h (congrArg BitVec.toNat h0)
  exact ⟨x / y, if_neg hy, BitVec.toNat_udiv⟩

theorem toNat_high (x : BitVec 32) : ((1#64 <<< 32) * x.setWidth 64).toNat = 2 ^ 32 * x.toNat := by
  have hx := x.isLt
  rw [BitVec.toNat_mul, BitVec.toNat_setWidth]
  have h1 : (1#64 <<< 32).toNat = 2 ^ 32 := rfl
  rw [h1]
  omega

/-- What is computed of a divisor up to `2^31`. -/
theorem computeUDivConstants32_eq {d : BitVec 32} (h0 : d ≠ 0) (h : d.toNat ≤ 2 ^ 31) :
    ∃ l ≤ 31, IsLog d.toNat l ∧ ∃ c, computeUDivConstants32 d = some c ∧
      c.mprime.toNat = 2 ^ 32 * (2 ^ l - d.toNat) / d.toNat + 1 ∧ c.sh1.toNat = Nat.min l 1 ∧
      c.sh2.toNat = l - 1 := by
  have hpos : 0 < d.toNat := Nat.pos_of_ne_zero fun h' => h0 (BitVec.eq_of_toNat_eq h')
  have hlog := isLog_size (d := d.toNat)
  have hl : Nat.size (d.toNat - 1) ≤ 31 := Nat.size_le.mpr (by omega)
  have hlc : log2Ceil d = BitVec.ofNat 32 (Nat.size (d.toNat - 1)) := by
    rw [log2Ceil_eq, toNat_sub_one h0]
  generalize Nat.size (d.toNat - 1) = l at hlog hl hlc
  have hp : 2 ^ l ≤ 2 ^ 31 := Nat.pow_le_pow_right (by omega) hl
  have hmid : (BitVec.ofNat 32 (2 ^ l) - d).toNat = 2 ^ l - d.toNat := by
    have := hlog.le
    rw [BitVec.toNat_sub, BitVec.toNat_ofNat]
    omega
  obtain ⟨q, hq, hqv⟩ := hostDiv_eq (x := (1#64 <<< 32) * (BitVec.ofNat 32 (2 ^ l) - d).setWidth 64)
    (y := d.setWidth 64) (by rw [BitVec.toNat_setWidth]; omega)
  refine ⟨l, hl, hlog, ⟨(q + 1).setWidth 32, min (BitVec.ofNat 32 l) 1,
    max (BitVec.ofNat 32 l - 1) 0⟩, ?_, ?_, ?_, ?_⟩
  · simp only [computeUDivConstants32, hlc, expBase2_eq (Nat.lt_succ_of_le hl),
      Option.bind_eq_bind, Option.bind_some, hq]
    rfl
  · rw [toNat_high, hmid, BitVec.toNat_setWidth, Nat.mod_eq_of_lt (by omega)] at hqv
    have hq1 : 2 ^ 32 * (2 ^ l - d.toNat) / d.toNat < 2 ^ 32 - 1 := by
      have := hlog.pow_lt hpos
      rw [Nat.div_lt_iff_lt_mul hpos]
      omega
    have h1 : BitVec.toNat (1 : BitVec 64) = 1 := rfl
    rw [BitVec.toNat_setWidth, BitVec.toNat_add, hqv, h1]
    omega
  · have hs : ∀ l : Fin 32, (min (BitVec.ofNat 32 l) 1).toNat = Nat.min l 1 := by decide +kernel
    exact hs ⟨l, Nat.lt_succ_of_le hl⟩
  · have hs : ∀ l : Fin 32, (max (BitVec.ofNat 32 l - 1) 0).toNat = (l : ℕ) - 1 := by
      decide +kernel
    exact hs ⟨l, Nat.lt_succ_of_le hl⟩

/-- Of zero and of the divisors above `2^31` nothing is computed. -/
theorem computeUDivConstants32_eq_none {d : BitVec 32} (h : d = 0 ∨ 2 ^ 31 < d.toNat) :
    computeUDivConstants32 d = none := by
  have hl : log2Ceil d = 32 := by
    rcases h with rfl | h
    · rfl
    · have h0 : d ≠ 0 := by
        rintro rfl
        simp at h
      have hlt := d.isLt
      have hsize : Nat.size (d.toNat - 1) = 32 := by
        apply Nat.le_antisymm (Nat.size_le.mpr (by omega))
        exact Nat.lt_size.mpr (by omega)
      rw [log2Ceil_eq, toNat_sub_one h0, hsize]
      rfl
  simp only [computeUDivConstants32, hl, expBase2_out_of_range, Option.bind_eq_bind,
    Option.bind_none]

/-- `ABS( (int64_t)d )` -/
theorem toNat_abs (d : BitVec 32) : (if (0#64).slt (d.signExtend 64) then d.signExtend 64
    else -(d.signExtend 64)).toNat = d.toInt.natAbs := by
  have hd := d.isLt
  have h64 : (d.signExtend 64).toInt = d.toInt := BitVec.toInt_signExtend_of_le (by omega)
  have hcond := BitVec.toInt_eq_toNat_cond (d.signExtend 64)
  have hlt := (d.signExtend 64).isLt
  have hint := BitVec.toInt_eq_toNat_cond d
  by_cases h : 0 < d.toInt
  · rw [if_pos (by rw [BitVec.slt_iff_toInt_lt, h64]; exact h)]
    split at hcond <;> split at hint <;> omega
  · rw [if_neg (by rw [BitVec.slt_iff_toInt_lt, h64]; exact h), BitVec.toNat_neg]
    split at hcond <;> split at hint <;> omega

/-- The exponent that stands for `2^l` with the divisor between `2^(l-1)` and `2^l`. -/
theorem signedLog_eq {a : BitVec 64} (h0 : 0 < a.toNat) (h : a.toNat ≤ 2 ^ 31) :
    ∃ l, 1 ≤ l ∧ l ≤ 31 ∧ a.toNat ≤ 2 ^ l ∧ (a.toNat ≠ 1 → 2 ^ (l - 1) < a.toNat) ∧
      (let l := log2Ceil (a.setWidth 32)
       let l := if l < 1 then 1 else l
       if a = 1#64 <<< 31 then 31 else l) = BitVec.ofNat 32 l := by
  have ha : (a.setWidth 32).toNat = a.toNat := by
    rw [BitVec.toNat_setWidth]
    omega
  have hne : a.setWidth 32 ≠ 0 := by
    intro h'
    rw [h'] at ha
    exact Nat.ne_of_lt h0 ha
  have hlog := isLog_size (d := a.toNat)
  have hk : Nat.size (a.toNat - 1) ≤ 31 := Nat.size_le.mpr (by omega)
  have htop : a = 1#64 <<< 31 → Nat.size (a.toNat - 1) = 31 := by
    rintro rfl
    exact Nat.le_antisymm hk (Nat.lt_size.mpr (by decide))
  rw [log2Ceil_eq, toNat_sub_one hne, ha]
  generalize Nat.size (a.toNat - 1) = k at hlog hk htop
  rcases Nat.eq_zero_or_pos k with rfl | hpos
  · have h1 : a.toNat = 1 := by
      have := hlog.le
      omega
    refine ⟨1, by omega, by omega, by omega, fun h' => absurd h1 h', ?_⟩
    rw [if_neg fun h' => absurd (htop h') (by decide)]
    rfl
  · refine ⟨k, hpos, hk, hlog.le, fun _ => hlog.lt hpos, ?_⟩
    have hlt : ¬ BitVec.ofNat 32 k < 1 := by
      rw [BitVec.lt_def, BitVec.toNat_ofNat, Nat.mod_eq_of_lt (by omega)]
      exact Nat.not_lt.mpr hpos
    dsimp only
    rw [if_neg hlt]
    split
    · next h' =>
      rw [htop h']
      rfl
    · rfl

/-- What is computed of a divisor. -/
theorem computeSDivConstants32_eq {d : BitVec 32} (h0 : d ≠ 0) :
    ∃ l, 1 ≤ l ∧ l ≤ 31 ∧ d.toInt.natAbs ≤ 2 ^ l ∧
      (d.toInt.natAbs ≠ 1 → 2 ^ (l - 1) < d.toInt.natAbs) ∧
      ∃ c, computeSDivConstants32 d = some c ∧
        c.mprime = BitVec.ofNat 32 (2 ^ (31 + l) / d.toInt.natAbs + 1) ∧
        c.dsign = d.sshiftRight 31 ∧ c.shpost.toNat = l - 1 := by
  have habs := toNat_abs d
  have hne : d.toInt.natAbs ≠ 0 := by
    rw [Int.natAbs_ne_zero, ← BitVec.toInt_zero (w := 32), ne_eq, BitVec.toInt_inj]
    exact h0
  have hle : d.toInt.natAbs ≤ 2 ^ 31 := by
    have := CInt.bounds d
    omega
  generalize ha : (if (0#64).slt (d.signExtend 64) then d.signExtend 64
    else -(d.signExtend 64)) = a at habs
  rw [← habs] at hne hle ⊢
  obtain ⟨l, h1, h31, hal, hla, hl⟩ := signedLog_eq (Nat.pos_of_ne_zero hne) hle
  obtain ⟨q, hq, hqv⟩ :=
    hostDiv_eq (x := (1#64 <<< 32) * (BitVec.ofNat 32 (2 ^ (l - 1))).setWidth 64) hne
  refine ⟨l, h1, h31, hal, hla, ⟨(q + 1#64 - 1#64 <<< 32).setWidth 32, d.sshiftRight 31,
    BitVec.ofNat 32 (l - 1)⟩, ?_, ?_, rfl, ?_⟩
  · have hl1 : BitVec.ofNat 32 l - 1 = BitVec.ofNat 32 (l - 1) := by
      apply BitVec.eq_of_toNat_eq
      rw [toNat_sub_one, BitVec.toNat_ofNat, BitVec.toNat_ofNat]
      · omega
      · intro h'
        have := congrArg BitVec.toNat h'
        rw [BitVec.toNat_ofNat, Nat.mod_eq_of_lt (by omega)] at this
        exact absurd this (Nat.ne_of_gt h1)
    unfold computeSDivConstants32
    dsimp only at hl ⊢
    rw [ha, hl, hl1, expBase2_eq (by omega)]
    simp only [Option.bind_eq_bind, Option.bind_some, hq]
    rfl
  · have hp : 2 ^ (l - 1) < 2 ^ 32 := Nat.pow_lt_pow_right (by omega) (by omega)
    rw [toNat_high, BitVec.toNat_ofNat, Nat.mod_eq_of_lt hp, ← Nat.pow_add,
      show 32 + (l - 1) = 31 + l by omega] at hqv
    apply BitVec.eq_of_toNat_eq
    have h2 : (1#64 <<< 32).toNat = 2 ^ 32 := rfl
    rw [← hqv, BitVec.toNat_setWidth, BitVec.toNat_sub, BitVec.toNat_add, BitVec.toNat_ofNat,
      BitVec.toNat_ofNat, h2]
    omega
  · rw [BitVec.toNat_ofNat]
    omega

/-- Of zero nothing is computed. -/
theorem computeSDivConstants32_zero : computeSDivConstants32 0 = none := by
  decide +kernel

end Encider.ConstantDivision
