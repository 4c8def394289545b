import Encider.Lib.Stp
import Encider.Lib.BitPrefix
import Encider.Solver.ConstantDivision

/-! `STPBuilder`: shifts by a constant and multiplication by a constant. -/

namespace Encider.STPBuilder

open Stp ConstantDivision

/-- The constants of more than 64 bits are put together from words of 64. -/
def zextWords (expr : Term) (width : ℕ) : Term :=
  if width > 64 then zextWords (.concat (.const 64 0) expr) (width - 64)
  else .concat (.const width 0) expr
termination_by width

def bvZExtConst (width : ℕ) (value : BitVec 64) : Term :=
  if width ≤ 64 then .const width value.toNat
  else zextWords (.const 64 value.toNat) (width - 64)

def bvSExtConst (width : ℕ) (value : BitVec 64) : Term :=
  if width ≤ 64 then .const width value.toNat else .signExtend (.const 64 value.toNat) width

def bvConst32 (width : ℕ) (value : BitVec 32) : Term := .const width value.toNat

def bvOne (width : ℕ) : Term := bvZExtConst width 1

def bvZero (width : ℕ) : Term := bvZExtConst width 0

def bvMinusOne (width : ℕ) : Term := bvSExtConst width (-1)

def bvBoolExtract (expr : Term) (bit : ℕ) : Term := .eq (.extract expr bit bit) (bvOne 1)

def bvRightShift (expr : Term) (shift : ℕ) : Term :=
  if shift = 0 then expr
  else if shift ≥ expr.width then bvZero expr.width
  else .concat (bvZero shift) (.extract expr (expr.width - 1) shift)

def bvLeftShift (expr : Term) (shift : ℕ) : Term :=
  if shift = 0 then expr
  else if shift ≥ expr.width then bvZero expr.width
  else .concat (.extract expr (expr.width - shift - 1) 0) (bvZero shift)

/-- The bit `j` of the constants, for which a shifted copy of `expr` comes in. -/
def addCopy (expr : Term) (width : ℕ) (add sub : BitVec 64) (j : ℕ) (res : Option Term) :
    Option (Option Term) :=
  let bit := 1#64 <<< j
  if add &&& bit ≠ 0 ∨ sub &&& bit ≠ 0 then
    if add &&& bit ≠ 0 ∧ sub &&& bit ≠ 0 then none
    else
      let op := bvLeftShift expr j
      if add &&& bit ≠ 0 then
        match res with
        | some res => some (some (.word .plus width res op))
        | none => some (some op)
      else
        match res with
        | some res => some (some (.word .minus width res op))
        | none => some (some (.uminus op))
  else some res

/-- `for (int j=63; j>=0; j--)`, from the bit below the given one. -/
def addCopies (expr : Term) (width : ℕ) (add sub : BitVec 64) :
    ℕ → Option Term → Option (Option Term)
  | 0, res => some res
  | j + 1, res => (addCopy expr width add sub j res).bind (addCopies expr width add sub j)

/-- `none` is a failed assertion, or too few turns of the loop of `ComputeMultConstants64`. -/
def constructMulByConstant (turns : ℕ) (expr : Term) (width : ℕ) (x : BitVec 64) : Option Term := do
  let (add, sub) ← computeMultConstants64 turns x
  let add ← bits64.truncateToNBits add width
  let sub ← bits64.truncateToNBits sub width
  let res ← addCopies expr width add sub 64 none
  return res.getD (bvZero width)

section
variable {ρ : String → (w : ℕ) → BitVec w} {expr t : Term} {w n j : ℕ}

theorem bvZero_is (hw : w ≤ 64) : (bvZero w).Is ρ w 0 := by
  unfold bvZero bvZExtConst
  rw [if_pos hw]
  exact Nat.zero_mod (2 ^ w) ▸ Term.is_const w 0

theorem bvLeftShift_is (h : expr.Is ρ w n) (hw : w ≤ 64) (shift : ℕ) :
    (bvLeftShift expr shift).Is ρ w (n * 2 ^ shift % 2 ^ w) := by
  unfold bvLeftShift
  rw [h.width_eq]
  split
  · next h0 =>
    subst h0
    rw [pow_zero, Nat.mul_one, Nat.mod_eq_of_lt h.1]
    exact h
  · split
    · next hge =>
      have hdvd : 2 ^ w ∣ n * 2 ^ shift := (Nat.pow_dvd_pow 2 hge).mul_left n
      rw [Nat.mod_eq_zero_of_dvd hdvd]
      exact bvZero_is hw
    · have he := (h.extract (Nat.zero_le (w - shift - 1)) (by omega)).concat
        (bvZero_is (ρ := ρ) (w := shift) (by omega))
      have hwidth : w - shift - 1 + 1 - 0 + shift = w := by omega
      have hval : n / 2 ^ 0 % 2 ^ (w - shift - 1 + 1 - 0) * 2 ^ shift + 0 =
          n * 2 ^ shift % 2 ^ w := by
        rw [pow_zero, Nat.div_one, Nat.add_zero, ← Nat.mul_mod_mul_right, ← Nat.pow_add, hwidth]
      rwa [hwidth, hval] at he

theorem bvRightShift_is (h : expr.Is ρ w n) (hw : w ≤ 64) (shift : ℕ) :
    (bvRightShift expr shift).Is ρ w (n / 2 ^ shift) := by
  unfold bvRightShift
  rw [h.width_eq]
  split
  · next h0 =>
    subst h0
    rw [pow_zero, Nat.div_one]
    exact h
  · split
    · next hge =>
      rw [Nat.div_eq_of_lt (h.1.trans_le (Nat.pow_le_pow_right (by omega) hge))]
      exact bvZero_is hw
    · have he := (bvZero_is (ρ := ρ) (w := shift) (by omega)).concat
        (h.extract (show shift ≤ w - 1 by omega) (by omega))
      have hwidth : shift + (w - 1 + 1 - shift) = w := by omega
      have hval : 0 * 2 ^ (w - 1 + 1 - shift) + n / 2 ^ shift % 2 ^ (w - 1 + 1 - shift) =
          n / 2 ^ shift := by
        rw [Nat.zero_mul, Nat.zero_add]
        apply Nat.mod_eq_of_lt
        rw [Nat.div_lt_iff_lt_mul (Nat.two_pow_pos shift), ← Nat.pow_add, Nat.add_comm, hwidth]
        exact h.1
      rwa [hwidth, hval] at he

/-- A sum that has no term yet is zero. -/
def Holds (ρ : String → (w : ℕ) → BitVec w) (z : BitVec w) : Option Term → Prop
  | none => z = 0
  | some t => t.Is ρ w z.toNat

variable {v z : BitVec w} {add sub : BitVec 64} {res : Option Term}

theorem bvLeftShift_word (h : expr.Is ρ w v.toNat) (hw : w ≤ 64) (j : ℕ) :
    (bvLeftShift expr j).Is ρ w (v <<< j).toNat := by
  rw [BitVec.toNat_shiftLeft, Nat.shiftLeft_eq]
  exact bvLeftShift_is h hw j

/-- One bit of the constants. -/
theorem addCopy_spec (h : expr.Is ρ w v.toNat) (hw : w ≤ 64) (hres : Holds ρ z res) (hj : j < 64)
    (hapart : (add.getLsbD j && sub.getLsbD j) = false) :
    ∃ res', addCopy expr w add sub j res = some res' ∧
      Holds ρ (z + (if add.getLsbD j then v <<< j else 0) - (if sub.getLsbD j then v <<< j else 0))
        res' := by
  have hop := bvLeftShift_word h hw j
  unfold addCopy
  simp only [SingleBit.and_ne_zero hj]
  cases ha : add.getLsbD j with
  | true =>
    have hs : sub.getLsbD j = false := by simpa [ha] using hapart
    simp only [hs]
    cases res with
    | none =>
      refine ⟨_, rfl, ?_⟩
      rw [Holds] at hres
      simpa [Holds, hres] using hop
    | some t =>
      refine ⟨_, rfl, ?_⟩
      simpa [Holds, WordOp.apply] using hres.word (o := .plus) hop
  | false =>
    cases hs : sub.getLsbD j with
    | true =>
      cases res with
      | none =>
        refine ⟨_, rfl, ?_⟩
        rw [Holds] at hres
        simpa [Holds, hres] using hop.uminus
      | some t =>
        refine ⟨_, rfl, ?_⟩
        simpa [Holds, WordOp.apply] using hres.word (o := .minus) hop
    | false =>
      refine ⟨res, rfl, ?_⟩
      simpa using hres

/-- The bits from `j` up, as a number. -/
def upper (x : BitVec 64) (w j : ℕ) : BitVec w := BitVec.ofNat w (x.toNat / 2 ^ j * 2 ^ j)

theorem upper_succ (x : BitVec 64) (j : ℕ) : v * upper x w j =
    v * upper x w (j + 1) + if x.getLsbD j then v <<< j else 0 := by
  have hn : x.toNat / 2 ^ j * 2 ^ j =
      x.toNat / 2 ^ (j + 1) * 2 ^ (j + 1) + (x.getLsbD j).toNat * 2 ^ j := by
    rw [BitPrefix.div_two_pow x.toNat, BitVec.testBit_toNat, pow_succ]
    ring
  unfold upper
  rw [hn, BitVec.ofNat_add, BitVec.mul_add]
  cases x.getLsbD j with
  | true =>
    have hp : BitVec.ofNat w (1 * 2 ^ j) = BitVec.twoPow w j :=
      BitVec.eq_of_toNat_eq (by rw [BitVec.toNat_ofNat, BitVec.toNat_twoPow, Nat.one_mul])
    rw [Bool.toNat_true, hp, BitVec.mul_twoPow_eq_shiftLeft, if_pos rfl]
  | false => simp

theorem addCopies_spec (h : expr.Is ρ w v.toNat) (hw : w ≤ 64)
    (hapart : ∀ j, (add.getLsbD j && sub.getLsbD j) = false) (n : ℕ) (hn : n ≤ 64)
    (hres : Holds ρ (v * upper add w n - v * upper sub w n) res) :
    ∃ res', addCopies expr w add sub n res = some res' ∧
      Holds ρ (v * upper add w 0 - v * upper sub w 0) res' := by
  induction n generalizing res with
  | zero => exact ⟨res, rfl, hres⟩
  | succ j ih =>
    obtain ⟨res₁, hcopy, h₁⟩ := addCopy_spec h hw hres (by omega) (hapart j)
    unfold addCopies
    rw [hcopy, Option.bind_some]
    refine ih (by omega) ?_
    rw [upper_succ, upper_succ (x := sub)]
    convert h₁ using 1
    ring

theorem truncateToNBits_spec (x : BitVec 64) (h0 : 0 < n) (hn : n ≤ 64) :
    ∃ y, bits64.truncateToNBits x n = some y ∧ y.toNat = x.toNat % 2 ^ n ∧
      ∀ j, y.getLsbD j = (decide (j < n) && x.getLsbD j) := by
  have hbit : ∀ j, (x &&& (BitVec.allOnes 64 >>> (64 - n))).getLsbD j =
      (decide (j < n) && x.getLsbD j) := by
    intro j
    rw [BitVec.getLsbD_and, BitVec.getLsbD_ushiftRight, BitVec.getLsbD_allOnes, Bool.and_comm]
    congr 1
    exact decide_eq_decide.mpr (by omega)
  refine ⟨_, ?_, ?_, hbit⟩
  · unfold bits64.truncateToNBits
    simp [h0, hn]
  · apply Nat.eq_of_testBit_eq
    intro j
    rw [BitVec.testBit_toNat, hbit, Nat.testBit_mod_two_pow, BitVec.testBit_toNat]

theorem upper_zero (x y : BitVec 64) (h : y.toNat = x.toNat % 2 ^ w) :
    upper y w 0 = x.setWidth w := by
  apply BitVec.eq_of_toNat_eq
  unfold upper
  rw [pow_zero, Nat.div_one, Nat.mul_one, BitVec.toNat_ofNat, h, Nat.mod_mod, BitVec.toNat_setWidth]

/-- The term is the product. -/
theorem constructMulByConstant_spec (x : BitVec 64) (h0 : 0 < w) (hw : w ≤ 64)
    (h : expr.Is ρ w v.toNat) :
    ∃ t, (∀ turns ≥ 64, constructMulByConstant turns expr w x = some t) ∧
      t.Is ρ w (v * x.setWidth w).toNat := by
  obtain ⟨add, sub, hc, htotal, hapart⟩ := computeMultConstants64_spec x
  obtain ⟨add', ha, hav, hab⟩ := truncateToNBits_spec add h0 hw
  obtain ⟨sub', hs, hsv, hsb⟩ := truncateToNBits_spec sub h0 hw
  have hapart' : ∀ j, (add'.getLsbD j && sub'.getLsbD j) = false := by
    intro j
    have hj := congrArg (fun y : BitVec 64 => y.getLsbD j) hapart
    simp only [BitVec.getLsbD_and, BitVec.ofNat_eq_ofNat, BitVec.getLsbD_zero] at hj
    rw [hab, hsb]
    cases ha : add.getLsbD j with
    | true => simp [ha] at hj; simp [hj]
    | false => simp
  have hstart : Holds ρ (v * upper add' w 64 - v * upper sub' w 64) none := by
    have hz : ∀ y : BitVec 64, upper y w 64 = 0 := by
      intro y
      unfold upper
      rw [Nat.div_eq_of_lt y.isLt, Nat.zero_mul]
      rfl
    simp [Holds, hz]
  obtain ⟨res, hr, hres⟩ := addCopies_spec h hw hapart' 64 (Nat.le_refl _) hstart
  have hval : v * upper add' w 0 - v * upper sub' w 0 = v * x.setWidth w := by
    rw [upper_zero add add' hav, upper_zero sub sub' hsv, ← htotal, sub_eq_add_neg add,
      BitVec.setWidth_add _ _ hw, BitVec.setWidth_neg_of_le hw]
    ring
  rw [hval] at hres
  refine ⟨res.getD (bvZero w), fun turns ht => ?_, ?_⟩
  · simp only [constructMulByConstant, hc turns ht, ha, hs, hr, Option.bind_eq_bind,
      Option.bind_some]
    rfl
  · cases res with
    | none =>
      rw [Holds] at hres
      rw [hres]
      exact bvZero_is hw
    | some t => exact hres

/-- The constants of a multiplication add up to it, and so does the term that is built of them. -/
theorem mulByConstant_eq (x : BitVec 64) :
    (∃ add sub, (∀ turns ≥ 64, computeMultConstants64 turns x = some (add, sub)) ∧
      add - sub = x ∧ add &&& sub = 0) ∧
    ∀ (w : ℕ) (expr : Term) (ρ : String → (w : ℕ) → BitVec w) (v : BitVec w), 0 < w → w ≤ 64 →
      expr.eval ρ = some (.bits w v) →
      ∃ t, (∀ turns ≥ 64, constructMulByConstant turns expr w x = some t) ∧
        t.eval ρ = some (.bits w (v * x.setWidth w)) := by
  refine ⟨computeMultConstants64_spec x, fun w expr ρ v h0 hw he => ?_⟩
  obtain ⟨t, ht, hv⟩ := constructMulByConstant_spec x h0 hw (Term.is_of_eval he rfl rfl)
  refine ⟨t, ht, hv.2.trans ?_⟩
  rw [BitVec.ofNat_toNat, BitVec.setWidth_eq]

theorem mulByConstant_eq_seven :
    (∃ add sub, (∀ turns ≥ 64, computeMultConstants64 turns 7 = some (add, sub)) ∧
      add - sub = 7 ∧ add &&& sub = 0) ∧
    ∃ t, (∀ turns ≥ 64, constructMulByConstant turns (.var "x" 8) 8 7 = some t) ∧
      t.eval (fun _ _ => 5) = some (.bits 8 35) :=
  ⟨(mulByConstant_eq 7).1,
    (mulByConstant_eq 7).2 8 (.var "x" 8) (fun _ _ => 5) 5 (by omega) (by omega) rfl⟩

end

end Encider.STPBuilder
