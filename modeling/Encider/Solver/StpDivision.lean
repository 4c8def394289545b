import Encider.Lib.Reciprocal
import Encider.Solver.DivisionConstants
import Encider.Solver.StpBuilder

/-! `STPBuilder`: division by a constant of 32 bits. -/

namespace Encider.STPBuilder

open Stp ConstantDivision

/-- The bits of a shift that can matter for this width, and their number. -/
def extractPartialShiftValue (shift : Term) (width : ℕ) : Term × ℕ :=
  let shiftBits := Nat.size width
  (.extract shift (shiftBits - 1) 0, shiftBits)

/-- `for (int i = width - 1; i >= 0; i--)`, from the shift below the given one. -/
def shiftCases (expr shift_ext : Term) (shiftBits : ℕ) : ℕ → Term → Term
  | 0, res => res
  | i + 1, res => shiftCases expr shift_ext shiftBits i
      (.ite (.eq shift_ext (bvConst32 shiftBits (BitVec.ofNat 32 i))) (bvRightShift expr i) res)

def bvVarRightShift (expr shift : Term) : Term :=
  let width := expr.width
  let (shift_ext, shiftBits) := extractPartialShiftValue shift width
  let res := shiftCases expr shift_ext shiftBits width (bvZero width)
  let ex := .lt shift (bvConst32 shift.width (BitVec.ofNat 32 width))
  .ite ex res (bvZero width)

def constructUDivByConstant (turns : ℕ) (expr_n : Term) (width : ℕ) (d : BitVec 32) :
    Option Term := do
  guard (width = 32)
  let c ← computeUDivConstants32 d
  let expr_sh1 := bvConst32 32 c.sh1
  let expr_sh2 := bvConst32 32 c.sh2
  let expr_n_64 := .concat (bvZero 32) expr_n
  let t1_64bits ← constructMulByConstant turns expr_n_64 64 (c.mprime.setWidth 64)
  let t1 := .extract t1_64bits 63 32
  let n_minus_t1 := .word .minus width expr_n t1
  let shift_sh1 := bvVarRightShift n_minus_t1 expr_sh1
  let plus_t1 := .word .plus width shift_sh1 t1
  return bvVarRightShift plus_t1 expr_sh2

def constructSDivByConstant (turns : ℕ) (expr_n : Term) (width : ℕ) (d : BitVec 32) :
    Option Term := do
  guard (width = 32)
  let c ← computeSDivConstants32 d
  let expr_dsign := bvConst32 32 c.dsign
  let expr_shpost := bvConst32 32 c.shpost
  let mprime_64 := c.mprime.signExtend 64
  let expr_n_64 := .signExtend expr_n 64
  let mult_64 ← constructMulByConstant turns expr_n_64 64 mprime_64
  let mulsh := .extract mult_64 63 32
  let n_plus_mulsh := .word .plus width expr_n mulsh
  let extend_npm := .signExtend n_plus_mulsh 64
  let shift_npm := bvVarRightShift extend_npm expr_shpost
  let shift_shpost := .extract shift_npm 31 0
  let is_signed := bvBoolExtract expr_n 31
  let neg_one := bvMinusOne 32
  let xsign_of_n := .ite is_signed neg_one (bvZero 32)
  let q0 := .word .minus width shift_shpost xsign_of_n
  let q0_xor_dsign := .xor q0 expr_dsign
  return .word .minus width q0_xor_dsign expr_dsign

section
variable {ρ : String → (w : ℕ) → BitVec w} {expr shift t : Term} {w n s r v : ℕ}

theorem bvConst32_is {c : BitVec 32} (hn : c.toNat = n) (hw : n < 2 ^ w) :
    (bvConst32 w c).Is ρ w n := by
  unfold bvConst32
  rw [hn]
  have h := Term.is_const (ρ := ρ) w n
  rwa [Nat.mod_eq_of_lt hw] at h

theorem shiftCases_is (h : expr.Is ρ w n) (hw : w ≤ 64) {shift_ext : Term} {bits : ℕ}
    (hs : shift_ext.Is ρ bits s) (i : ℕ) (hi : i ≤ 2 ^ bits) (hi64 : i ≤ 64) {res : Term}
    (hr : res.Is ρ w r) :
    (shiftCases expr shift_ext bits i res).Is ρ w (if s < i then n / 2 ^ s else r) := by
  induction i generalizing res r with
  | zero => simpa [shiftCases] using hr
  | succ i ih =>
    have hc : (bvConst32 bits (BitVec.ofNat 32 i)).Is ρ bits i := by
      refine bvConst32_is ?_ (by omega)
      rw [BitVec.toNat_ofNat]
      omega
    have hstep := ih (by omega) (by omega)
      ((hs.eq hc).ite (bvRightShift_is h hw i) hr)
    unfold shiftCases
    convert hstep using 1
    split
    · split
      · rfl
      · have : s = i := by omega
        subst this
        simp
    · have : ¬ s < i := by omega
      have : ¬ s = i := by omega
      simp [*]

/-- A shift by the value of a term that is long enough for the width. -/
theorem bvVarRightShift_is (h : expr.Is ρ w n) (hw : w ≤ 64) (h0 : 0 < w) (hs : shift.Is ρ v s)
    (hv : Nat.size w ≤ v) :
    (bvVarRightShift expr shift).Is ρ w (if s < w then n / 2 ^ s else 0) := by
  have hsize : w < 2 ^ Nat.size w := Nat.lt_size_self w
  have hpos : 0 < Nat.size w := Nat.size_pos.mpr h0
  have hext : (Term.extract shift (Nat.size w - 1) 0).Is ρ (Nat.size w) (s % 2 ^ Nat.size w) := by
    have he := hs.extract (Nat.zero_le (Nat.size w - 1)) (by omega)
    rwa [pow_zero, Nat.div_one, Nat.sub_zero, Nat.sub_add_cancel hpos] at he
  have hres := shiftCases_is h hw hext w hsize.le hw (bvZero_is (ρ := ρ) hw)
  have hwv : w < 2 ^ v := hsize.trans_le (Nat.pow_le_pow_right (by omega) hv)
  have hlt := hs.lt (bvConst32_is (ρ := ρ) (c := BitVec.ofNat 32 w) (n := w)
    (by rw [BitVec.toNat_ofNat]; omega) hwv)
  have hall := hlt.ite hres (bvZero_is hw)
  unfold bvVarRightShift extractPartialShiftValue
  rw [h.width_eq, hs.width_eq]
  convert hall using 1
  by_cases hsw : s < w
  · rw [Nat.mod_eq_of_lt (hsw.trans hsize)]
    simp [hsw]
  · simp [hsw]

theorem size_32 : Nat.size 32 = 6 := by decide

/-- A shift of a word of 32 bits by a constant. -/
theorem bvVarRightShift_const (h : expr.Is ρ 32 n) {c : BitVec 32} (hs : c.toNat < 32) :
    (bvVarRightShift expr (bvConst32 32 c)).Is ρ 32 (n / 2 ^ c.toNat) := by
  have hall := bvVarRightShift_is h (by omega) (by omega) (bvConst32_is rfl c.isLt)
    (by rw [size_32]; omega)
  rwa [if_pos hs] at hall

theorem minus_is {m : ℕ} (hs : expr.Is ρ w n) (ht : t.Is ρ w m) (hle : m ≤ n) :
    (Term.word .minus w expr t).Is ρ w (n - m) := by
  have hn := hs.1
  rw [← hs.toNat] at hs
  rw [← ht.toNat] at ht
  have h := hs.word (o := .minus) ht
  rwa [WordOp.apply, BitVec.toNat_sub_of_le, BitVec.toNat_ofNat, BitVec.toNat_ofNat,
    Nat.mod_eq_of_lt hn, Nat.mod_eq_of_lt (hle.trans_lt hn)] at h
  rw [BitVec.le_def, BitVec.toNat_ofNat, BitVec.toNat_ofNat, Nat.mod_eq_of_lt hn,
    Nat.mod_eq_of_lt (hle.trans_lt hn)]
  exact hle

theorem plus_is {m : ℕ} (hs : expr.Is ρ w n) (ht : t.Is ρ w m) (hlt : n + m < 2 ^ w) :
    (Term.word .plus w expr t).Is ρ w (n + m) := by
  have hn := hs.toNat
  have hm := ht.toNat
  rw [← hn] at hs
  rw [← hm] at ht
  have h := hs.word (o := .plus) ht
  rwa [WordOp.apply, BitVec.toNat_add, hn, hm, Nat.mod_eq_of_lt hlt] at h

/-- `MULUH(mprime, n)` -/
theorem high_is (h : expr.Is ρ 32 n) (m : BitVec 32) :
    ∃ t, (∀ turns ≥ 64,
        constructMulByConstant turns (.concat (bvZero 32) expr) 64 (m.setWidth 64) = some t) ∧
      (Term.extract t 63 32).Is ρ 32 (n * m.toNat / 2 ^ 32) := by
  have hn := h.1
  have hm := m.isLt
  have hwide : (Term.concat (bvZero 32) expr).Is ρ 64 (BitVec.ofNat 64 n).toNat := by
    have hc := (bvZero_is (ρ := ρ) (w := 32) (by omega)).concat h
    rwa [Nat.zero_mul, Nat.zero_add, ← Nat.mod_eq_of_lt (a := n) (b := 2 ^ 64) (by omega),
      ← BitVec.toNat_ofNat] at hc
  obtain ⟨t, ht, hv⟩ := constructMulByConstant_spec (m.setWidth 64) (by omega) (by omega) hwide
  refine ⟨t, ht, ?_⟩
  have hval : (BitVec.ofNat 64 n * (m.setWidth 64).setWidth 64).toNat = n * m.toNat := by
    have hlt : n * m.toNat < 2 ^ 32 * 2 ^ 32 := Nat.mul_lt_mul'' hn hm
    rw [BitVec.setWidth_eq, BitVec.toNat_mul, BitVec.toNat_ofNat, BitVec.toNat_setWidth,
      Nat.mod_eq_of_lt (a := n) (by omega), Nat.mod_eq_of_lt (a := m.toNat) (by omega),
      Nat.mod_eq_of_lt (by omega)]
  rw [hval] at hv
  have he := hv.extract (show 32 ≤ 63 by omega) (by omega)
  rwa [Nat.mod_eq_of_lt] at he
  rw [Nat.div_lt_iff_lt_mul (by omega)]
  exact Nat.mul_lt_mul'' hn hm

/-- The arithmetic of the unsigned division. -/
theorem udiv_eq {d l m t1 : ℕ} (hlog : IsLog d l) (hd : 0 < d) (hn : n < 2 ^ 32)
    (hm : m = 2 ^ 32 * (2 ^ l - d) / d + 1) (ht : t1 = n * m / 2 ^ 32) (hlt : m < 2 ^ 32) :
    t1 ≤ n ∧ (n - t1) / 2 ^ Nat.min l 1 + t1 ≤ n ∧
      ((n - t1) / 2 ^ Nat.min l 1 + t1) / 2 ^ (l - 1) = n / d := by
  have hle : t1 ≤ n := by
    rw [ht]
    apply Nat.div_le_of_le_mul
    rw [Nat.mul_comm]
    exact Nat.mul_le_mul_right n hlt.le
  refine ⟨hle, ?_, ?_⟩
  · have := Nat.div_le_self (n - t1) (2 ^ Nat.min l 1)
    omega
  rcases Nat.eq_zero_or_pos l with rfl | hl
  · have h1 : d = 1 := by
      have := hlog.le
      omega
    subst h1
    simp [Nat.sub_add_cancel hle]
  · have hmin : Nat.min l 1 = 1 := Nat.min_eq_right hl
    have hM : m + 2 ^ 32 = 2 ^ (32 + l) / d + 1 := by
      have hsplit : 2 ^ (32 + l) = 2 ^ 32 * (2 ^ l - d) + 2 ^ 32 * d := by
        rw [Nat.pow_add, ← Nat.mul_add, Nat.sub_add_cancel hlog.le]
      rw [hm, hsplit, Nat.add_mul_div_right _ _ hd]
      omega
    have hsum : t1 + n = n * (2 ^ (32 + l) / d + 1) / 2 ^ 32 := by
      rw [← hM, Nat.mul_add, Nat.add_mul_div_right _ _ (by omega), ht]
    have hhalf : (n - t1) / 2 ^ 1 + t1 = (t1 + n) / 2 := by omega
    have hnd : n * d < 2 ^ (32 + l) := by
      rw [Nat.pow_add]
      calc n * d < 2 ^ 32 * d := Nat.mul_lt_mul_of_pos_right hn hd
        _ ≤ 2 ^ 32 * 2 ^ l := Nat.mul_le_mul_left _ hlog.le
    rw [hmin, hhalf, hsum, Nat.div_div_eq_div_mul, Nat.div_div_eq_div_mul]
    have hN : 2 ^ 32 * (2 * 2 ^ (l - 1)) = 2 ^ (32 + l) := by
      rw [← pow_succ', Nat.sub_add_cancel hl, ← Nat.pow_add]
    rw [hN]
    exact Reciprocal.mul_div hd hnd

/-- The term of the unsigned division, where its constants can be computed. -/
theorem constructUDivByConstant_spec {d : BitVec 32} (h0 : d ≠ 0) (hd : d.toNat ≤ 2 ^ 31)
    (h : expr.Is ρ 32 n) :
    ∃ t, (∀ turns ≥ 64, constructUDivByConstant turns expr 32 d = some t) ∧
      t.Is ρ 32 (n / d.toNat) := by
  have hpos : 0 < d.toNat := Nat.pos_of_ne_zero fun h' => h0 (BitVec.eq_of_toNat_eq h')
  obtain ⟨l, hl, hlog, c, hc, hm, hsh1, hsh2⟩ := computeUDivConstants32_eq h0 hd
  obtain ⟨t, ht, ht1⟩ := high_is h c.mprime
  obtain ⟨hle, hsum, hval⟩ := udiv_eq hlog hpos h.1 hm rfl c.mprime.isLt
  have hmin : Nat.min l 1 ≤ 1 := Nat.min_le_right l 1
  have hsub := bvVarRightShift_const (c := c.sh1) (minus_is h ht1 hle) (by omega)
  rw [hsh1] at hsub
  have hall := bvVarRightShift_const (c := c.sh2)
    (plus_is hsub ht1 (hsum.trans_lt h.1)) (by omega)
  rw [hsh2, hval] at hall
  refine ⟨_, fun turns htn => ?_, hall⟩
  unfold constructUDivByConstant
  rw [hc]
  simp only [guard_true, Option.bind_eq_bind, Option.bind_some, ht turns htn]
  rfl

/-- Bits from the middle of a number, as those of its quotient. -/
theorem toNat_ofInt_div (z : ℤ) {w k u : ℕ} (h : k + u ≤ w) :
    (BitVec.ofInt w z).toNat / 2 ^ k % 2 ^ u = (BitVec.ofInt u (z / 2 ^ k)).toNat := by
  zify
  rw [BitVec.toNat_ofInt, BitVec.toNat_ofInt]
  have hw : (0 : ℤ) < ((2 ^ w : ℕ) : ℤ) := by positivity
  have hu : (0 : ℤ) < ((2 ^ u : ℕ) : ℤ) := by positivity
  rw [Int.toNat_of_nonneg (Int.emod_nonneg _ hw.ne'),
    Int.toNat_of_nonneg (Int.emod_nonneg _ hu.ne')]
  push_cast
  obtain ⟨v, rfl⟩ := Nat.exists_eq_add_of_le h
  have hdiv : z % 2 ^ (k + u + v) / 2 ^ k =
      z / 2 ^ k - 2 ^ u * (2 ^ v * (z / 2 ^ (k + u + v))) := by
    have hmod : z % 2 ^ (k + u + v) =
        z - 2 ^ k * (2 ^ u * (2 ^ v * (z / 2 ^ (k + u + v)))) := by
      rw [Int.emod_def]
      ring
    rw [hmod, Int.sub_mul_ediv_left _ _ (by positivity)]
  rw [hdiv, Int.sub_mul_emod_self_left]

/-- The arithmetic of the signed division. -/
theorem sdiv_eq {a d : ℤ} {l : ℕ} (h1 : 1 ≤ l) (hle : d.natAbs ≤ 2 ^ l) (h0 : d ≠ 0)
    (ha : -2147483648 ≤ a) (ha' : a < 2147483648) :
    a * (2 ^ (31 + l) / d.natAbs + 1 : ℕ) / 2 ^ 32 / 2 ^ (l - 1) + (if a < 0 then 1 else 0) =
      a.tdiv d.natAbs := by
  have hN : (2 : ℤ) ^ 32 * 2 ^ (l - 1) = ((2 ^ (31 + l) : ℕ) : ℤ) := by
    rw [← pow_add, show 32 + (l - 1) = 31 + l by omega]
    push_cast
    rfl
  rw [Int.ediv_ediv_of_nonneg (by positivity), hN]
  have hd : 0 < d.natAbs := Int.natAbs_pos.mpr h0
  have hbound : ∀ b : ℕ, b ≤ 2 ^ 31 → b * d.natAbs ≤ 2 ^ (31 + l) := by
    intro b hb
    rw [Nat.pow_add]
    exact Nat.mul_le_mul hb hle
  rcases Int.lt_or_le a 0 with hneg | hpos
  · obtain ⟨b, rfl⟩ : ∃ b : ℕ, a = -(b : ℤ) := ⟨a.natAbs, by omega⟩
    have hr := Reciprocal.neg_mul_div hd (n := b) (by omega) (hbound b (by omega))
    rw [if_pos hneg, Int.neg_tdiv, ← Int.ofNat_tdiv, ← hr]
    push_cast
    ring_nf
  · obtain ⟨b, rfl⟩ := Int.eq_ofNat_of_zero_le hpos
    have hlt : b * d.natAbs < 2 ^ (31 + l) := by
      rw [Nat.pow_add]
      exact Nat.mul_lt_mul_of_lt_of_le (by omega) hle (Nat.two_pow_pos l)
    rw [if_neg (by omega), ← Int.ofNat_tdiv, ← Reciprocal.mul_div hd hlt]
    push_cast
    simp

variable {x d : BitVec 32} {l m : ℕ}

/-- The high word of a product, and the sum with the dividend. -/
theorem plusMulsh_is (h : expr.Is ρ 32 x.toNat) (hm : 2 ^ 31 ≤ m) (hm' : m ≤ 2 ^ 32) :
    ∃ t, (∀ turns ≥ 64, constructMulByConstant turns (.signExtend expr 64) 64
        ((BitVec.ofNat 32 m).signExtend 64) = some t) ∧
      (Term.word .plus 32 expr (.extract t 63 32)).Is ρ 32
        (BitVec.ofInt 32 (x.toInt * m / 2 ^ 32)).toNat := by
  have hmp : (BitVec.ofNat 32 m).toInt = m - 2 ^ 32 := by
    rw [BitVec.toInt_eq_toNat_cond, BitVec.toNat_ofNat]
    split <;> omega
  obtain ⟨t, ht, hv⟩ := constructMulByConstant_spec ((BitVec.ofNat 32 m).signExtend 64)
    (by omega) (by omega) (h.signExtend (v := 64) (by omega))
  refine ⟨t, ht, ?_⟩
  have hprod : x.signExtend 64 * ((BitVec.ofNat 32 m).signExtend 64).setWidth 64 =
      BitVec.ofInt 64 (x.toInt * (m - 2 ^ 32)) := by
    rw [BitVec.setWidth_eq, BitVec.ofInt_mul, ← hmp]
    rfl
  have he := hv.extract (show 32 ≤ 63 by omega) (by omega)
  rw [hprod, toNat_ofInt_div _ (by omega)] at he
  have hsum := h.word (o := .plus) he
  have hval : x + BitVec.ofInt 32 (x.toInt * (m - 2 ^ 32) / 2 ^ 32) =
      BitVec.ofInt 32 (x.toInt * m / 2 ^ 32) := by
    have hsplit : x.toInt * m / 2 ^ 32 = x.toInt + x.toInt * (m - 2 ^ 32) / 2 ^ 32 := by
      rw [Int.mul_sub, Int.sub_mul_ediv_right _ _ (by omega)]
      ring
    rw [hsplit, BitVec.ofInt_add, BitVec.ofInt_toInt]
  rwa [WordOp.apply, hval] at hsum

/-- Sign extending, shifting and taking the low word shifts arithmetically. -/
theorem shiftExtended_is {z : ℤ} (h : t.Is ρ 32 (BitVec.ofInt 32 z).toNat)
    (hz : -2147483648 ≤ z) (hz' : z < 2147483648) {c : BitVec 32} (hc : c.toNat < 32) :
    (Term.extract (bvVarRightShift (.signExtend t 64) (bvConst32 32 c)) 31 0).Is ρ 32
      (BitVec.ofInt 32 (z / 2 ^ c.toNat)).toNat := by
  have hext : (BitVec.ofInt 32 z).signExtend 64 = BitVec.ofInt 64 z := by
    unfold BitVec.signExtend
    rw [BitVec.toInt_ofInt, Int.bmod_eq_of_le (by omega) (by omega)]
  have hs := h.signExtend (v := 64) (by omega)
  rw [hext] at hs
  have hsh := bvVarRightShift_is hs (by omega) (by omega) (bvConst32_is rfl c.isLt)
    (by decide)
  rw [if_pos (by omega)] at hsh
  have he := hsh.extract (Nat.zero_le 31) (by omega)
  rwa [pow_zero, Nat.div_one, toNat_ofInt_div _ (by omega)] at he

theorem bvMinusOne_is : (bvMinusOne 32).Is ρ 32 (-1#32).toNat :=
  Term.is_const 32 _

/-- `XSIGN(n)` -/
theorem xsign_is (h : expr.Is ρ 32 x.toNat) :
    (Term.ite (bvBoolExtract expr 31) (bvMinusOne 32) (bvZero 32)).Is ρ 32
      (BitVec.ofInt 32 (if x.toInt < 0 then -1 else 0)).toNat := by
  have hone : (bvOne 1).Is ρ 1 1 := Term.is_const 1 1
  have hbit := (h.extract (Nat.le_refl 31) (by omega)).eq hone
  have hite := Term.Holds.ite (c := bvBoolExtract expr 31) hbit bvMinusOne_is
    (bvZero_is (ρ := ρ) (w := 32) (by omega))
  convert hite using 1
  have hx := x.isLt
  have hcond := BitVec.toInt_eq_toNat_cond x
  by_cases hneg : x.toInt < 0
  · rw [if_pos hneg, if_pos]
    · rfl
    · rw [decide_eq_true_eq]
      split at hcond <;> omega
  · rw [if_neg hneg, if_neg]
    · rfl
    · rw [decide_eq_true_eq]
      split at hcond <;> omega

theorem sshiftRight_sign (d : BitVec 32) :
    d.sshiftRight 31 = if d.toInt < 0 then BitVec.allOnes 32 else 0 := by
  have hd := CInt.bounds d
  apply BitVec.eq_of_toInt_eq
  rw [BitVec.toInt_sshiftRight, Int.shiftRight_eq_div_pow]
  by_cases h : d.toInt < 0
  · have h1 : (BitVec.allOnes 32).toInt = -1 := by decide
    rw [if_pos h, h1]
    omega
  · have h0 : (0 : BitVec 32).toInt = 0 := by decide
    rw [if_neg h, h0]
    omega

/-- The sign of the divisor comes in last. -/
theorem dsign_eq (x d : BitVec 32) :
    (BitVec.ofInt 32 (x.toInt.tdiv d.toInt.natAbs) ^^^ d.sshiftRight 31) - d.sshiftRight 31 =
      x.sdiv d := by
  have hx : x.sdiv d = BitVec.ofInt 32 (x.toInt.tdiv d.toInt) := by
    apply BitVec.eq_of_toInt_eq
    rw [BitVec.toInt_sdiv, BitVec.toInt_ofInt]
  rw [hx, sshiftRight_sign]
  by_cases h : d.toInt < 0
  · have habs : (d.toInt.natAbs : ℤ) = -d.toInt := by omega
    rw [if_pos h, habs, Int.tdiv_neg, BitVec.ofInt_neg, BitVec.xor_allOnes, BitVec.not_eq_neg_add,
      ← BitVec.neg_one_eq_allOnes]
    ring
  · have habs : (d.toInt.natAbs : ℤ) = d.toInt := by omega
    rw [if_neg h, habs]
    simp

/-- The multiplier of a divisor other than one has 33 bits at most. -/
theorem multiplier_bounds {D : ℕ} (h1 : 1 ≤ l) (hle : D ≤ 2 ^ l) (hlt : 2 ^ (l - 1) < D) :
    2 ^ 31 ≤ 2 ^ (31 + l) / D + 1 ∧ 2 ^ (31 + l) / D + 1 ≤ 2 ^ 32 := by
  have hD : 0 < D := Nat.zero_lt_of_lt hlt
  constructor
  · apply Nat.le_succ_of_le
    rw [Nat.le_div_iff_mul_le hD, Nat.pow_add]
    exact Nat.mul_le_mul_left _ hle
  · apply Nat.succ_le_of_lt
    rw [Nat.div_lt_iff_lt_mul hD, show 31 + l = 32 + (l - 1) by omega, Nat.pow_add]
    exact Nat.mul_lt_mul_of_pos_left hlt (by omega)

theorem high_bounds {a : ℤ} (ha : -2147483648 ≤ a) (ha' : a < 2147483648) (hm' : m ≤ 2 ^ 32) :
    -2147483648 ≤ a * m / 2 ^ 32 ∧ a * m / 2 ^ 32 < 2147483648 := by
  constructor
  · apply Int.le_ediv_of_mul_le (by omega)
    nlinarith
  · apply Int.ediv_lt_of_lt_mul (by omega)
    nlinarith

/-- The term of the signed division, where its constants can be computed. -/
theorem constructSDivByConstant_spec (h0 : d ≠ 0) (h1 : d ≠ 1) (h2 : d ≠ -1)
    (h : expr.Is ρ 32 x.toNat) :
    ∃ t, (∀ turns ≥ 64, constructSDivByConstant turns expr 32 d = some t) ∧
      t.Is ρ 32 (x.sdiv d).toNat := by
  obtain ⟨l, hl1, hl31, hle, hlt, c, hc, hm, hsign, hpost⟩ := computeSDivConstants32_eq h0
  have hd0 : d.toInt ≠ 0 := fun h' => h0 (BitVec.eq_of_toInt_eq h')
  have hne : d.toInt.natAbs ≠ 1 := by
    intro h'
    rcases Int.natAbs_eq d.toInt with he | he
    · exact h1 (BitVec.eq_of_toInt_eq (he.trans (by rw [h']; rfl)))
    · exact h2 (BitVec.eq_of_toInt_eq (he.trans (by rw [h']; rfl)))
  obtain ⟨hml, hmu⟩ := multiplier_bounds hl1 hle (hlt hne)
  obtain ⟨hx, hx'⟩ := CInt.bounds x
  obtain ⟨t, ht, hsum⟩ := plusMulsh_is h hml hmu
  obtain ⟨hz, hz'⟩ := high_bounds hx hx' hmu
  have hshift := shiftExtended_is hsum hz hz' (c := c.shpost) (by omega)
  have hq := hshift.word (o := .minus) (xsign_is h)
  have hval : BitVec.ofInt 32 (x.toInt * (2 ^ (31 + l) / d.toInt.natAbs + 1 : ℕ) / 2 ^ 32 /
      2 ^ c.shpost.toNat) - BitVec.ofInt 32 (if x.toInt < 0 then -1 else 0) =
      BitVec.ofInt 32 (x.toInt.tdiv d.toInt.natAbs) := by
    rw [← sdiv_eq hl1 hle hd0 hx hx', hpost, BitVec.ofInt_add, sub_eq_add_neg]
    split
    · rfl
    · simp
  rw [WordOp.apply, hval] at hq
  have hxor := hq.xor (bvConst32_is (ρ := ρ) (c := c.dsign) rfl c.dsign.isLt)
  rw [← BitVec.toNat_xor] at hxor
  have hall := hxor.word (o := .minus) (bvConst32_is (ρ := ρ) (c := c.dsign) rfl c.dsign.isLt)
  rw [WordOp.apply, hsign, dsign_eq] at hall
  refine ⟨_, fun turns htn => ?_, hsign ▸ hall⟩
  unfold constructSDivByConstant
  rw [hc]
  simp only [guard_true, Option.bind_eq_bind, Option.bind_some, hm, ht turns htn]
  rfl

/-- The divisors that `constructActual` gives to `constructUDivByConstant`. -/
abbrev UDivAdmits (d : BitVec 32) : Prop := bits64.isPowerOfTwo (d.setWidth 64) = false

/-- The divisors that `constructActual` gives to `constructSDivByConstant`. -/
abbrev SDivAdmits (d : BitVec 32) : Prop := d ≠ 1 ∧ d ≠ -1

theorem constructUDivByConstant_eq_none (h : d = 0 ∨ 2 ^ 31 < d.toNat) (expr : Term)
    (turns : ℕ) : constructUDivByConstant turns expr 32 d = none := by
  unfold constructUDivByConstant
  rw [computeUDivConstants32_eq_none h]
  rfl

theorem constructSDivByConstant_zero {turns : ℕ} :
    constructSDivByConstant turns expr 32 0 = none := by
  unfold constructSDivByConstant
  rw [computeSDivConstants32_zero]
  rfl

/-- The terms are the quotients, where the host can compute the constants. -/
theorem divByConstant_iff (d : BitVec 32) (ρ : String → (w : ℕ) → BitVec w) (expr : Term)
    (n : BitVec 32) (h : expr.eval ρ = some (.bits 32 n)) :
    (UDivAdmits d →
      ((∃ t, (∀ turns ≥ 64, constructUDivByConstant turns expr 32 d = some t) ∧
        t.eval ρ = some (.bits 32 (n / d))) ↔ d ≠ 0 ∧ d.toNat ≤ 2 ^ 31)) ∧
    (SDivAdmits d →
      ((∃ t, (∀ turns ≥ 64, constructSDivByConstant turns expr 32 d = some t) ∧
        t.eval ρ = some (.bits 32 (n.sdiv d))) ↔ d ≠ 0)) := by
  have hn : expr.Is ρ 32 n.toNat := Term.is_of_eval h rfl rfl
  constructor
  · intro _
    constructor
    · rintro ⟨t, ht, -⟩
      by_contra hno
      rw [not_and_or, not_not, Nat.not_le] at hno
      have hnone := constructUDivByConstant_eq_none hno expr 64
      rw [ht 64 (Nat.le_refl _)] at hnone
      cases hnone
    · rintro ⟨h0, hd⟩
      obtain ⟨t, ht, hv⟩ := constructUDivByConstant_spec h0 hd hn
      rw [← BitVec.toNat_udiv] at hv
      exact ⟨t, ht, hv.bits⟩
  · rintro ⟨h1, h2⟩
    constructor
    · rintro ⟨t, ht, -⟩ rfl
      have hsome := ht 64 (Nat.le_refl _)
      rw [constructSDivByConstant_zero] at hsome
      cases hsome
    · intro h0
      obtain ⟨t, ht, hv⟩ := constructSDivByConstant_spec h0 h1 h2 hn
      exact ⟨t, ht, hv.bits⟩

theorem divByConstant_iff_seven :
    ∃ t, (∀ turns ≥ 64, constructUDivByConstant turns (.var "n" 32) 32 7 = some t) ∧
      t.eval (fun _ _ => 100) = some (.bits 32 (100 / 7)) :=
  ((divByConstant_iff 7 (fun _ _ => 100) (.var "n" 32) 100 rfl).1 (by decide)).mpr (by decide)

/-- Above `2^31` the host shifts by 32, and by zero it divides. -/
theorem divByConstant_undefined :
    (UDivAdmits 3000000000 ∧
      ¬ ∃ t, ∀ turns ≥ 64, constructUDivByConstant turns (.var "n" 32) 32 3000000000 = some t) ∧
    (SDivAdmits 0 ∧
      ¬ ∃ t, ∀ turns ≥ 64, constructSDivByConstant turns (.var "n" 32) 32 0 = some t) := by
  refine ⟨⟨by decide, ?_⟩, by decide, ?_⟩
  · rintro ⟨t, ht⟩
    have h := ht 64 (Nat.le_refl _)
    rw [constructUDivByConstant_eq_none (.inr (by decide))] at h
    cases h
  · rintro ⟨t, ht⟩
    have h := ht 64 (Nat.le_refl _)
    rw [constructSDivByConstant_zero] at h
    cases h

end

end Encider.STPBuilder
