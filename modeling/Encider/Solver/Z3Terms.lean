import Encider.Lib.Z3
import Encider.Solver.ConstantDivision

/-! `Z3Builder`: constants and shifts. -/

namespace Encider.Z3Builder

open Z3 Z3.Handle

def getTrue : Handle := mkBool true

def getFalse : Handle := mkBool false

def bvConst32 (width : ℕ) (value : BitVec 32) : Option Handle := mkNumeral width value.toNat

def bvConst64 (width : ℕ) (value : BitVec 64) : Option Handle := mkNumeral width value.toNat

/-- `for (width -= 64; width > 64; width -= 64)`, and the last word. -/
def zextWords (expr : Handle) (width : ℕ) : Option Handle :=
  if width > 64 then do
    let zero ← bvConst64 64 0
    let expr ← mkConcat zero expr
    zextWords expr (width - 64)
  else do
    let zero ← bvConst64 width 0
    mkConcat zero expr
termination_by width

def bvZExtConst (width : ℕ) (value : BitVec 64) : Option Handle :=
  if width ≤ 64 then bvConst64 width value
  else do
    let expr ← bvConst64 64 value
    zextWords expr (width - 64)

def bvSExtConst (width : ℕ) (value : BitVec 64) : Option Handle :=
  if width ≤ 64 then bvConst64 width value
  else do
    let r ← mkNumeral (width - 64) (if value.msb then -1 else 0)
    let low ← bvConst64 64 value
    mkConcat r low

def bvOne (width : ℕ) : Option Handle := bvZExtConst width 1

def bvZero (width : ℕ) : Option Handle := bvZExtConst width 0

def bvMinusOne (width : ℕ) : Option Handle := bvSExtConst width (-1)

def bvExtract (expr : Handle) (top bottom : ℕ) : Option Handle := mkExtract top bottom expr

def bvBoolExtract (expr : Handle) (bit : ℕ) : Option Handle := do
  let b ← bvExtract expr bit bit
  let one ← bvOne 1
  mkEq b one

def getBVLength (expr : Handle) : Option ℕ := expr.width

def bvRightShift (expr : Handle) (shift : ℕ) : Option Handle := do
  let width ← getBVLength expr
  if shift = 0 then some expr
  else if shift ≥ width then bvZero width
  else do
    let zero ← bvZero shift
    let high ← bvExtract expr (width - 1) shift
    mkConcat zero high

def bvLeftShift (expr : Handle) (shift : ℕ) : Option Handle := do
  let width ← getBVLength expr
  if shift = 0 then some expr
  else if shift ≥ width then bvZero width
  else do
    let low ← bvExtract expr (width - shift - 1) 0
    let zero ← bvZero shift
    mkConcat low zero

def constructAShrByConstant (expr : Handle) (shift : ℕ) (isSigned : Handle) : Option Handle := do
  let width ← getBVLength expr
  if shift = 0 then some expr
  else if shift ≥ width then bvZero width
  else do
    let ones ← bvMinusOne shift
    let high ← bvExtract expr (width - 1) shift
    let filled ← mkConcat ones high
    let plain ← bvRightShift expr shift
    mkIte isSigned filled plain

/-- The loop over the possible amounts, from the one below the given one. -/
def shiftCases (shifted : ℕ → Option Handle) (shift : Handle) (width : ℕ) :
    ℕ → Handle → Option Handle
  | 0, res => some res
  | i + 1, res => do
    let amount ← bvConst32 width (BitVec.ofNat 32 i)
    let here ← mkEq shift amount
    let value ← shifted i
    let res ← mkIte here value res
    shiftCases shifted shift width i res

/-- If overshifting, shift to zero. -/
def unlessOvershift (shift : Handle) (width : ℕ) (res : Handle) : Option Handle := do
  let shiftWidth ← getBVLength shift
  let bound ← bvConst32 shiftWidth (BitVec.ofNat 32 width)
  let ex ← mkCompare .ult shift bound
  let zero ← bvZero width
  mkIte ex res zero

def bvVarLeftShift (expr shift : Handle) : Option Handle := do
  let width ← getBVLength expr
  let zero ← bvZero width
  let res ← shiftCases (bvLeftShift expr) shift width width zero
  unlessOvershift shift width res

def bvVarRightShift (expr shift : Handle) : Option Handle := do
  let width ← getBVLength expr
  let zero ← bvZero width
  let res ← shiftCases (bvRightShift expr) shift width width zero
  unlessOvershift shift width res

/-- The loop starts below `width - 1`. -/
def bvVarArithRightShift (expr shift : Handle) : Option Handle := do
  let width ← getBVLength expr
  let signedBool ← bvBoolExtract expr (width - 1)
  let res ← constructAShrByConstant expr (width - 1) signedBool
  let res ← shiftCases (fun i => constructAShrByConstant expr i signedBool) shift width
    (width - 1) res
  unlessOvershift shift width res

/-- The words of a constant above the lowest one, in front of the term for that. -/
def constantWords (width : ℕ) (tmp : BitVec width) (res : Handle) : Option Handle :=
  if width > 64 then do
    let tmp := tmp.extractLsb' 64 (width - 64)
    let word ← bvConst64 (min 64 (width - 64)) (tmp.setWidth 64)
    let res ← mkConcat word res
    constantWords (width - 64) tmp res
  else some res
termination_by width

/-- The case of `ConstantExpr`. -/
def constructConstant (width : ℕ) (value : BitVec width) : Option Handle :=
  if width = 1 then some (if value.toNat = 1 then getTrue else getFalse)
  else if width ≤ 32 then bvConst32 width (value.setWidth 32)
  else if width ≤ 64 then bvConst64 width (value.setWidth 64)
  else do
    let res ← bvConst64 64 (value.setWidth 64)
    constantWords width value res

variable {W : Set Model} {expr shift isSigned res : Handle} {w n x y : ℕ} {p : Prop}

theorem Bits.lt (h : expr.Bits W w x) (hW : W.Nonempty) : x < 2 ^ w := by
  obtain ⟨t, rfl, ht⟩ := h
  obtain ⟨ρ, hρ⟩ := hW
  rw [← ht ρ hρ]
  exact BitVec.isLt _

section constants

variable (W)

theorem numeral_bits (hw : 0 < w) (hx : x < 2 ^ w) : Gives (mkNumeral w x) (Bits W w x) := by
  refine (mkNumeral_bits hw x).imp fun _ h => h.congr fun _ => ?_
  rw [BitVec.ofInt_natCast, BitVec.toNat_ofNat, Nat.mod_eq_of_lt hx]

theorem bvConst32_bits (hw : 0 < w) (hx : x < 2 ^ w) (h32 : x < 2 ^ 32) :
    Gives (bvConst32 w (BitVec.ofNat 32 x)) (Bits W w x) := by
  unfold bvConst32
  rw [BitVec.toNat_ofNat, Nat.mod_eq_of_lt h32]
  exact numeral_bits W hw hx

theorem zextWords_bits (h : expr.Bits W n x) (hw : 0 < w) :
    Gives (zextWords expr w) (Bits W (w + n) x) := by
  induction w using Nat.strong_induction_on generalizing expr n with
  | _ w ih =>
    unfold zextWords
    split
    · rename_i hlt
      refine (numeral_bits W (w := 64) (x := 0) (by omega) (by omega)).bind fun zero hzero => ?_
      refine (mkConcat_bits hzero h).bind fun e he => ?_
      rw [Nat.zero_shiftLeft, Nat.zero_or] at he
      have hrest := ih (w - 64) (by omega) he (by omega)
      rwa [show w - 64 + (64 + n) = w + n by omega] at hrest
    · refine (numeral_bits W (x := 0) hw (Nat.two_pow_pos w)).bind fun zero hzero => ?_
      have hcat := mkConcat_bits hzero h
      rwa [Nat.zero_shiftLeft, Nat.zero_or] at hcat

theorem bvZExtConst_bits (hw : 0 < w) {v : BitVec 64} (hv : v.toNat < 2 ^ w) :
    Gives (bvZExtConst w v) (Bits W w v.toNat) := by
  unfold bvZExtConst
  split
  · exact numeral_bits W hw hv
  · refine (numeral_bits W (by omega) v.isLt).bind fun e he => ?_
    have hrest := zextWords_bits W he (w := w - 64) (by omega)
    rwa [Nat.sub_add_cancel (by omega)] at hrest

theorem bvZero_bits (hw : 0 < w) : Gives (bvZero w) (Bits W w 0) :=
  bvZExtConst_bits W hw (Nat.two_pow_pos w)

theorem bvOne_bits (hw : 0 < w) : Gives (bvOne w) (Bits W w 1) :=
  bvZExtConst_bits W hw (Nat.one_lt_two_pow (by omega))

theorem bvMinusOne_bits (hw : 0 < w) : Gives (bvMinusOne w) (Bits W w (2 ^ w - 1)) := by
  unfold bvMinusOne bvSExtConst
  split
  · rename_i hle
    refine (mkNumeral_bits hw _).imp fun _ h => h.congr fun _ => ?_
    rw [BitVec.ofInt_natCast, BitVec.toNat_ofNat]
    apply Nat.eq_of_testBit_eq
    intro i
    have h64 : (-1 : BitVec 64).toNat = 2 ^ 64 - 1 := rfl
    rw [h64, Nat.testBit_mod_two_pow, Nat.testBit_two_pow_sub_one, Nat.testBit_two_pow_sub_one]
    by_cases hi : i < w
    · simp [hi, show i < 64 by omega]
    · simp [hi]
  · rename_i hlt
    refine (mkNumeral_bits (W := W) (by omega) _).bind fun r hr => ?_
    refine (numeral_bits W (by omega) (BitVec.isLt (-1))).bind fun low hlow => ?_
    have hcat := mkConcat_bits hr hlow
    rw [Nat.sub_add_cancel (by omega)] at hcat
    refine hcat.imp fun _ h => h.congr fun _ => ?_
    apply Nat.eq_of_testBit_eq
    intro i
    have h64 : (-1 : BitVec 64).toNat = 2 ^ 64 - 1 := rfl
    have hhigh : (BitVec.ofInt (w - 64) (-1)).toNat = 2 ^ (w - 64) - 1 := by
      rw [show (-1 : ℤ) = -((1 : ℕ) : ℤ) by rfl, BitVec.ofInt_neg, BitVec.ofInt_natCast,
        BitVec.neg_one_eq_allOnes, BitVec.toNat_allOnes]
    rw [if_pos (by decide), h64, hhigh, Nat.testBit_or, Nat.testBit_shiftLeft,
      Nat.testBit_two_pow_sub_one, Nat.testBit_two_pow_sub_one, Nat.testBit_two_pow_sub_one]
    by_cases hi : i < 64
    · simp [hi, show i < w by omega]
    · simp [hi, show i - 64 < w - 64 ↔ i < w by omega, show 64 ≤ i by omega]

end constants

theorem bvBoolExtract_truth (h : expr.Bits W w x) {bit : ℕ} (hbit : bit < w) :
    Gives (bvBoolExtract expr bit) (Truth W (x.testBit bit = true)) := by
  refine (mkExtract_bits h (Nat.le_refl bit) hbit).bind fun b hb => ?_
  rw [Nat.add_sub_cancel_left] at hb
  refine (bvOne_bits W (by omega)).bind fun one hone => ?_
  refine (mkEq_bits hb hone).imp fun _ h => h.congr fun _ => ?_
  rw [Nat.testBit_eq_decide_div_mod_eq, decide_eq_true_eq, Nat.shiftRight_eq_div_pow, pow_one]

theorem bvRightShift_bits (h : expr.Bits W w x) (hw : 0 < w) (s : ℕ) :
    Gives (bvRightShift expr s) (Bits W w (x >>> s)) := by
  unfold bvRightShift getBVLength
  rw [h.width_eq]
  dsimp only [Option.bind_eq_bind, Option.bind_some]
  split
  · rename_i hs
    subst hs
    exact .pure h
  · split
    · refine (bvZero_bits W hw).imp fun _ hz => hz.congr fun hW => ?_
      have hlt := (Bits.lt h hW).trans_le (Nat.pow_le_pow_right (by omega) ‹s ≥ w›)
      rw [Nat.shiftRight_eq_div_pow, Nat.div_eq_of_lt hlt]
    · refine (bvZero_bits W (by omega)).bind fun zero hzero => ?_
      refine (mkExtract_bits h (by omega) (by omega)).bind fun high hhigh => ?_
      have hcat := mkConcat_bits hzero hhigh
      rw [Nat.zero_shiftLeft, Nat.zero_or, show w - 1 + 1 - s = w - s by omega,
        show s + (w - s) = w by omega] at hcat
      refine hcat.imp fun _ hc => hc.congr fun hW => ?_
      rw [Nat.shiftRight_eq_div_pow]
      refine Nat.mod_eq_of_lt (Nat.div_lt_of_lt_mul ?_)
      rw [← pow_add, show s + (w - s) = w by omega]
      exact Bits.lt h hW

theorem bvLeftShift_bits (h : expr.Bits W w x) (hw : 0 < w) (s : ℕ) :
    Gives (bvLeftShift expr s) (Bits W w (x <<< s % 2 ^ w)) := by
  unfold bvLeftShift getBVLength
  rw [h.width_eq]
  dsimp only [Option.bind_eq_bind, Option.bind_some]
  split
  · rename_i hs
    subst hs
    refine .pure (h.congr fun hW => ?_)
    rw [Nat.shiftLeft_zero, Nat.mod_eq_of_lt (Bits.lt h hW)]
  · split
    · refine (bvZero_bits W hw).imp fun _ hz => hz.congr fun _ => ?_
      rw [Nat.shiftLeft_eq]
      exact (Nat.mod_eq_zero_of_dvd ((Nat.pow_dvd_pow 2 ‹s ≥ w›).mul_left x)).symm
    · refine (mkExtract_bits h (Nat.zero_le _) (by omega)).bind fun low hlow => ?_
      refine (bvZero_bits W (by omega)).bind fun zero hzero => ?_
      have hcat := mkConcat_bits hlow hzero
      rw [Nat.or_zero, Nat.shiftRight_zero, show w - s - 1 + 1 - 0 = w - s by omega,
        Nat.sub_add_cancel (by omega)] at hcat
      refine hcat.imp fun _ hc => hc.congr fun _ => ?_
      rw [Nat.shiftLeft_eq, Nat.shiftLeft_eq, ← Nat.mul_mod_mul_right, ← pow_add,
        Nat.sub_add_cancel (by omega)]

/-- An arithmetic shift as the builder puts it together. -/
theorem filled_eq {s : ℕ} (hx : x < 2 ^ w) (hs : s < w) (b : Bool) (hb : x.testBit (w - 1) = b) :
    (if b = true then (2 ^ s - 1) <<< (w - s) ||| (x >>> s) % 2 ^ (w - s) else x >>> s) =
      ((BitVec.ofNat w x).sshiftRight s).toNat := by
  apply Nat.eq_of_testBit_eq
  intro i
  rw [BitVec.testBit_toNat, BitVec.getLsbD_sshiftRight, BitVec.msb_eq_getLsbD_last,
    BitVec.getLsbD_ofNat, BitVec.getLsbD_ofNat, hb]
  have hbeyond : ∀ j, w ≤ j → x.testBit j = false := fun j hj =>
    Nat.testBit_lt_two_pow (hx.trans_le (Nat.pow_le_pow_right (by omega) hj))
  cases b with
  | true =>
    rw [if_pos rfl, Nat.testBit_or, Nat.testBit_shiftLeft, Nat.testBit_two_pow_sub_one,
      Nat.testBit_mod_two_pow, Nat.testBit_shiftRight]
    by_cases hlow : i < w - s
    · simp [hlow, show ¬ w - s ≤ i by omega, show s + i < w by omega, show ¬ w ≤ i by omega]
    · simp [hlow, show w - s ≤ i by omega, show ¬ s + i < w by omega, show 0 < w by omega,
        show i - (w - s) < s ↔ i < w by omega]
      rw [← decide_not, decide_eq_decide]
      exact Nat.not_le.symm
  | false =>
    rw [if_neg Bool.false_ne_true, Nat.testBit_shiftRight]
    by_cases hlow : s + i < w
    · simp [hlow, show ¬ w ≤ i by omega]
    · simp [hlow, hbeyond (s + i) (by omega)]

/-- What an arithmetic shift gives. -/
def ashr (w x s : ℕ) : ℕ := if s < w then ((BitVec.ofNat w x).sshiftRight s).toNat else 0

theorem constructAShrByConstant_bits (h : expr.Bits W w x) (hw : 0 < w) (s : ℕ)
    (hsign : isSigned.Truth W (x.testBit (w - 1) = true)) :
    Gives (constructAShrByConstant expr s isSigned) (Bits W w (ashr w x s)) := by
  unfold constructAShrByConstant getBVLength
  rw [h.width_eq]
  dsimp only [Option.bind_eq_bind, Option.bind_some]
  split
  · rename_i hs
    subst hs
    refine .pure (h.congr fun hW => ?_)
    rw [ashr, if_pos hw, BitVec.sshiftRight_zero, BitVec.toNat_ofNat,
      Nat.mod_eq_of_lt (Bits.lt h hW)]
  · split
    · refine (bvZero_bits W hw).imp fun _ hz => hz.congr fun _ => ?_
      rw [ashr, if_neg (by omega)]
    · refine (bvMinusOne_bits W (by omega)).bind fun ones hones => ?_
      refine (mkExtract_bits h (by omega) (by omega)).bind fun high hhigh => ?_
      refine (mkConcat_bits hones hhigh).bind fun filled hfilled => ?_
      refine (bvRightShift_bits h hw s).bind fun plain hplain => ?_
      rw [show w - 1 + 1 - s = w - s by omega, show s + (w - s) = w by omega] at hfilled
      refine (mkIte_bits hsign hfilled hplain).imp fun _ hite => hite.congr fun hW => ?_
      have hlt := Bits.lt h hW
      rw [ashr, if_pos (show s < w by omega)]
      exact filled_eq hlt (by omega) _ rfl

theorem shiftCases_bits {shifted : ℕ → Option Handle} {g : ℕ → ℕ} (hw : 0 < w) (h32 : w < 2 ^ 32)
    (hshift : shift.Bits W w y) (hshifted : ∀ i < w, Gives (shifted i) (Bits W w (g i)))
    {n r : ℕ} (hn : n ≤ w) (hres : res.Bits W w r) :
    Gives (shiftCases shifted shift w n res) (Bits W w (if y < n then g y else r)) := by
  induction n generalizing res r with
  | zero => exact .pure (hres.congr fun _ => by simp)
  | succ i ih =>
    unfold shiftCases
    have hi : i < 2 ^ w := (Nat.lt_of_succ_le hn).trans Nat.lt_two_pow_self
    refine (bvConst32_bits W hw hi (by omega)).bind fun amount hamount => ?_
    refine (mkEq_bits hshift hamount).bind fun here hhere => ?_
    refine (hshifted i (by omega)).bind fun value hvalue => ?_
    refine (mkIte_bits hhere hvalue hres).bind fun res' hres' => ?_
    refine (ih (by omega) hres').imp fun _ hr => hr.congr fun _ => ?_
    by_cases hy : y = i
    · subst hy
      simp
    · simp [hy, show y < i + 1 ↔ y < i by omega]

theorem unlessOvershift_bits (hw : 0 < w) (h32 : w < 2 ^ 32) (hshift : shift.Bits W w y)
    {r : ℕ} (hres : res.Bits W w r) :
    Gives (unlessOvershift shift w res) (Bits W w (if y < w then r else 0)) := by
  unfold unlessOvershift getBVLength
  rw [hshift.width_eq]
  dsimp only [Option.bind_eq_bind, Option.bind_some]
  refine (bvConst32_bits W hw Nat.lt_two_pow_self h32).bind fun bound hbound => ?_
  refine (mkCompare_bits .ult hshift hbound).bind fun ex hex => ?_
  refine (bvZero_bits W hw).bind fun zero hzero => ?_
  have hlt : ex.Truth W (y < w) := by
    refine hex.congr fun hW => ?_
    rw [Smt.Relation.holds, BitVec.ult, decide_eq_true_eq, BitVec.toNat_ofNat, BitVec.toNat_ofNat,
      Nat.mod_eq_of_lt (Bits.lt hshift hW), Nat.mod_eq_of_lt Nat.lt_two_pow_self]
  exact mkIte_bits hlt hres hzero

theorem bvVarLeftShift_bits (h : expr.Bits W w x) (hw : 0 < w) (h32 : w < 2 ^ 32)
    (hshift : shift.Bits W w y) :
    Gives (bvVarLeftShift expr shift) (Bits W w (x <<< y % 2 ^ w)) := by
  unfold bvVarLeftShift getBVLength
  rw [h.width_eq]
  dsimp only [Option.bind_eq_bind, Option.bind_some]
  refine (bvZero_bits W hw).bind fun zero hzero => ?_
  refine (shiftCases_bits hw h32 hshift (fun i _ => bvLeftShift_bits h hw i) (Nat.le_refl w)
    hzero).bind fun r hr => ?_
  refine (unlessOvershift_bits hw h32 hshift hr).imp fun _ hu => hu.congr fun _ => ?_
  split
  · rfl
  · rw [Nat.shiftLeft_eq]
    exact (Nat.mod_eq_zero_of_dvd ((Nat.pow_dvd_pow 2 (by omega)).mul_left x)).symm

theorem bvVarRightShift_bits (h : expr.Bits W w x) (hw : 0 < w) (h32 : w < 2 ^ 32)
    (hshift : shift.Bits W w y) :
    Gives (bvVarRightShift expr shift) (Bits W w (x >>> y)) := by
  unfold bvVarRightShift getBVLength
  rw [h.width_eq]
  dsimp only [Option.bind_eq_bind, Option.bind_some]
  refine (bvZero_bits W hw).bind fun zero hzero => ?_
  refine (shiftCases_bits hw h32 hshift (fun i _ => bvRightShift_bits h hw i) (Nat.le_refl w)
    hzero).bind fun r hr => ?_
  refine (unlessOvershift_bits hw h32 hshift hr).imp fun _ hu => hu.congr fun hW => ?_
  split
  · rfl
  · have hlt := (Bits.lt h hW).trans_le (Nat.pow_le_pow_right (by omega) (show w ≤ y by omega))
    rw [Nat.shiftRight_eq_div_pow, Nat.div_eq_of_lt hlt]

theorem bvVarArithRightShift_bits (h : expr.Bits W w x) (hw : 0 < w) (h32 : w < 2 ^ 32)
    (hshift : shift.Bits W w y) :
    Gives (bvVarArithRightShift expr shift) (Bits W w (ashr w x y)) := by
  unfold bvVarArithRightShift getBVLength
  rw [h.width_eq]
  dsimp only [Option.bind_eq_bind, Option.bind_some]
  refine (bvBoolExtract_truth h (by omega)).bind fun sign hsign => ?_
  refine (constructAShrByConstant_bits h hw (w - 1) hsign).bind fun last hlast => ?_
  refine (shiftCases_bits hw h32 hshift (fun i _ => constructAShrByConstant_bits h hw i hsign)
    (Nat.sub_le w 1) hlast).bind fun r hr => ?_
  refine (unlessOvershift_bits hw h32 hshift hr).imp fun _ hu => hu.congr fun _ => ?_
  by_cases hy : y < w - 1
  · rw [if_pos (by omega), if_pos hy]
  · by_cases hlt : y < w
    · rw [if_pos hlt, if_neg hy, show y = w - 1 by omega]
    · rw [if_neg hlt, ashr, if_neg hlt]

/-- The words of one bit are shown as booleans. -/
def Shows (W : Set Model) (w n : ℕ) (h : Handle) : Prop :=
  if w = 1 then h.Truth W (n = 1) else h.Bits W w n

/-- The lowest word in front of which the others stand. -/
theorem words_eq (t n : ℕ) : (t >>> 64) <<< (64 + n) ||| (t % 2 ^ 64) <<< n = t <<< n := by
  apply Nat.eq_of_testBit_eq
  intro i
  rw [Nat.testBit_or, Nat.testBit_shiftLeft, Nat.testBit_shiftLeft, Nat.testBit_shiftLeft,
    Nat.testBit_shiftRight, Nat.testBit_mod_two_pow]
  by_cases hn : n ≤ i
  · by_cases hlow : i - n < 64
    · simp [hn, hlow, show ¬ 64 + n ≤ i by omega]
    · simp [hn, hlow, show 64 + n ≤ i by omega, show 64 + (i - (64 + n)) = i - n by omega]
  · simp [hn, show ¬ 64 + n ≤ i by omega]

theorem constantWords_bits (tmp : BitVec w) (h : res.Bits W n x) :
    Gives (constantWords w tmp res) (Bits W (w - 64 + n) ((tmp.toNat >>> 64) <<< n ||| x)) := by
  induction w using Nat.strong_induction_on generalizing res n x with
  | _ w ih =>
    unfold constantWords
    split
    · have htmp : (tmp.extractLsb' 64 (w - 64)).toNat = tmp.toNat >>> 64 := by
        rw [BitVec.extractLsb'_toNat, Nat.shiftRight_eq_div_pow]
        refine Nat.mod_eq_of_lt (Nat.div_lt_of_lt_mul ?_)
        rw [← pow_add, show 64 + (w - 64) = w by omega]
        exact tmp.isLt
      have hlt := (tmp.extractLsb' 64 (w - 64)).isLt
      have hword : ((tmp.extractLsb' 64 (w - 64)).setWidth 64).toNat =
          (tmp.toNat >>> 64) % 2 ^ 64 := by
        rw [BitVec.toNat_setWidth, htmp]
      rw [htmp] at hlt
      have hfits : (tmp.toNat >>> 64) % 2 ^ 64 < 2 ^ min 64 (w - 64) := by
        rcases Nat.le_total 64 (w - 64) with hle | hle
        · rw [Nat.min_eq_left hle]
          exact Nat.mod_lt _ (Nat.two_pow_pos 64)
        · rw [Nat.min_eq_right hle]
          exact (Nat.mod_le _ _).trans_lt hlt
      refine (numeral_bits W (w := min 64 (w - 64)) (by omega) (hword ▸ hfits)).bind
        fun word hw => ?_
      refine (mkConcat_bits hw h).bind fun res' hres' => ?_
      have hrest := ih (w - 64) (by omega) (tmp.extractLsb' 64 (w - 64)) hres'
      rw [show w - 64 - 64 + (min 64 (w - 64) + n) = w - 64 + n by omega, htmp, hword] at hrest
      refine hrest.imp fun _ hr => hr.congr fun _ => ?_
      rw [← Nat.or_assoc]
      refine congrArg (· ||| x) ?_
      rcases Nat.le_total 64 (w - 64) with hle | hle
      · rw [Nat.min_eq_left hle, words_eq]
      · have hsmall := hlt.trans_le (Nat.pow_le_pow_right (by omega) hle)
        rw [Nat.mod_eq_of_lt hsmall, Nat.shiftRight_eq_div_pow (tmp.toNat >>> 64),
          Nat.div_eq_of_lt hsmall, Nat.zero_shiftLeft, Nat.zero_or]
    · refine .pure ?_
      rw [show w - 64 + n = n by omega]
      refine h.congr fun _ => ?_
      have hlt := tmp.isLt.trans_le (Nat.pow_le_pow_right (by omega) (show w ≤ 64 by omega))
      rw [Nat.shiftRight_eq_div_pow, Nat.div_eq_of_lt hlt, Nat.zero_shiftLeft, Nat.zero_or]

theorem setWidth_bits (hw : 0 < w) (v : BitVec w) {m : ℕ} (hm : w ≤ m) :
    Gives (mkNumeral w (v.setWidth m).toNat) (Bits W w v.toNat) := by
  have hv : (v.setWidth m).toNat = v.toNat := by
    rw [BitVec.toNat_setWidth]
    exact Nat.mod_eq_of_lt (v.isLt.trans_le (Nat.pow_le_pow_right (by omega) hm))
  have hlt := v.isLt
  rw [← hv] at hlt ⊢
  exact numeral_bits W hw hlt

theorem constructConstant_shows (hw : 0 < w) (v : BitVec w) :
    Gives (constructConstant w v) (Shows W w v.toNat) := by
  unfold constructConstant Shows
  split
  · refine .pure ?_
    split
    · rename_i hv
      exact (mkBool_truth true).congr fun _ => by simp [hv]
    · rename_i hv
      exact (mkBool_truth false).congr fun _ => by simp [hv]
  · split
    · exact setWidth_bits hw v ‹_›
    · split
      · exact setWidth_bits hw v ‹_›
      · refine (numeral_bits W (w := 64) (by omega) (BitVec.isLt _)).bind fun low hlow => ?_
        have hrest := constantWords_bits v hlow
        rw [Nat.sub_add_cancel (by omega), BitVec.toNat_setWidth] at hrest
        refine hrest.imp fun _ hr => hr.congr fun _ => ?_
        simpa using words_eq v.toNat 0

end Encider.Z3Builder
