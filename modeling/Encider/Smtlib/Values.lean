import Encider.Smtlib.Sorts

/-! The values of the printed terms: those of the expressions, wherever no divisor is zero. -/

namespace Encider.Smtlib

open Smt Encider.Expr

/-- No division by zero, for which the expressions have no value. -/
abbrev NonzeroDivisor (σ : Assignment) : BinaryKind → Expr → Expr → Prop :=
  fun k _ r => k.isDivision = true → r.value σ ≠ 0

theorem smtUDiv_eq {w : ℕ} (x : BitVec w) {y : BitVec w} (hy : y ≠ 0) : x.smtUDiv y = x / y := by
  rw [BitVec.smtUDiv, if_neg hy]
  rfl

theorem smtSDiv_eq {w : ℕ} (x : BitVec w) {y : BitVec w} (hy : y ≠ 0) : x.smtSDiv y = x.sdiv y := by
  have hneg : y.neg ≠ 0 := by
    intro h
    exact hy (BitVec.neg_eq_zero_iff.mp h)
  unfold BitVec.smtSDiv BitVec.sdiv
  split <;> simp only [smtUDiv_eq _ hy, smtUDiv_eq _ hneg] <;> rfl

/-- The operations on words are those of the expressions. -/
theorem word_apply {k : BinaryKind} {w : ℕ} (x y : BitVec w) (hcmp : k.isCmp = false)
    (hashr : k ≠ .ashr) (hy : k.isDivision = true → y ≠ 0) :
    ∃ op, getSMTLIBKeyword k = .word op ∧ (op.apply x y).toNat = k.apply x y := by
  cases k with
  | udiv => exact ⟨.udiv, rfl, congrArg BitVec.toNat (smtUDiv_eq x (hy rfl))⟩
  | sdiv => exact ⟨.sdiv, rfl, congrArg BitVec.toNat (smtSDiv_eq x (hy rfl))⟩
  | ashr => exact absurd rfl hashr
  | _ => first | exact absurd hcmp (by decide) | exact ⟨_, rfl, rfl⟩

/-- So are the comparisons. -/
theorem compare_apply {k : BinaryKind} {w : ℕ} (x y : BitVec w) (hcmp : k.isCmp = true) :
    Op.apply (getSMTLIBKeyword k) [.bits w x, .bits w y] =
      some (.bool (decide (k.apply x y = 1))) := by
  cases k with
  | eq => simp [getSMTLIBKeyword, Op.apply, BinaryKind.apply, beq_eq_decide]
  | ne => simp [getSMTLIBKeyword, Op.apply, BinaryKind.apply, bne, beq_eq_decide]
  | _ => first
    | exact absurd hcmp (by decide)
    | simp [getSMTLIBKeyword, Op.apply, BinaryKind.apply, Relation.holds]

theorem bits_congr {w w' : ℕ} {x : BitVec w} {y : BitVec w'} (hw : w = w')
    (h : x.toNat = y.toNat) : Value.bits w x = Value.bits w' y := by
  subst hw
  rw [BitVec.eq_of_toNat_eq h]

section
variable (σ : Assignment)

/-- The value of an expression as a word. -/
def wordValue (e : Expr) : Value := .bits e.getWidth (BitVec.ofNat e.getWidth (e.value σ))

theorem bits_eq_wordValue {e : Expr} {w : ℕ} {x : BitVec w} (hw : w = e.getWidth)
    (h : x.toNat = e.value σ) : Value.bits w x = wordValue σ e :=
  bits_congr hw (by rw [h, bits_toNat])

/-- A word of the width that is expected. -/
theorem setWidth_bits {e : Expr} {w : ℕ} (hw : e.getWidth = w) :
    ((BitVec.ofNat e.getWidth (e.value σ)).setWidth w) = BitVec.ofNat w (e.value σ) := by
  subst hw
  exact BitVec.setWidth_eq _

theorem toNat_bits {e : Expr} {w : ℕ} (hw : e.getWidth = w) :
    (BitVec.ofNat w (e.value σ)).toNat = e.value σ := by
  subst hw
  exact bits_toNat σ e

theorem wordValue_width {e : Expr} {w : ℕ} (hw : e.getWidth = w) :
    wordValue σ e = .bits w (BitVec.ofNat w (e.value σ)) := by
  subst hw
  rfl

theorem truthValue_eq {e : Expr} (h : e.getWidth = 1) :
    e.value σ = (decide (e.value σ = 1)).toNat := by
  obtain h0 | h1 := width_one_value (σ := σ) h <;> simp [*]

/-- The contents of an array after its writes, as a function of the index. -/
def arrayValue (a : Array) (us : UpdateList) : Value :=
  .array a.domain a.range fun i => us.contents σ a i.toNat

theorem ashr_value {l r : Expr} (hw : l.getWidth = r.getWidth) :
    (Expr.binary .ashr l r).value σ = if r.value σ < l.getWidth then
      ((BitVec.ofNat l.getWidth (l.value σ)).sshiftRight (r.value σ)).toNat else 0 := by
  have hr : (BitVec.ofNat l.getWidth (r.value σ)).toNat = r.value σ := by
    rw [hw]
    exact bits_toNat σ r
  rw [binary_value]
  simp only [BinaryKind.apply, hr]

end

section
variable (Arr : Array → Prop) (o : Options) (σ : Assignment)

/-- The values of the printed terms. -/
def valueReading : Reading Arr (Printable o.cdm) (NonzeroDivisor σ) o values where
  word e := wordValue σ e
  truth e := .bool (decide (e.value σ = 1))
  contents a us := arrayValue σ a us
  constant {w} v hw sc := by
    rw [printConstant_run values v hw sc]
    simp only [values, wordValue, getWidth, Expr.value, BitVec.ofNat_toNat, BitVec.setWidth_eq]
    rfl
  toWord {e} _ hw := by
    have hv := truthValue_eq σ hw
    simp only [values, Op.apply]
    rw [if_pos trivial]
    refine congrArg some (bits_eq_wordValue σ hw.symm ?_)
    split <;> simp_all
  toTruth {e} _ hw := by
    simp only [values, Op.apply, wordValue, hw, if_true, Relation.holds, BitVec.ult]
    obtain h0 | h1 := width_one_value (σ := σ) hw <;> simp [*]
  notOptimized _ := ⟨rfl, rfl⟩
  read {a us i} h := by
    have hw : i.getWidth = a.domain := h.typed.2.2
    simp only [values, Op.apply, wordValue, arrayValue, if_pos hw, setWidth_bits σ hw]
    refine congrArg some (bits_congr rfl ?_)
    rw [bits_toNat σ (.read a us i)]
    simp only [Expr.value]
    rw [toNat_bits σ hw]
  store {a i v next} h := by
    have hi : i.getWidth = a.domain := h.typed.2.2.1
    have hv : v.getWidth = a.range := h.typed.2.2.2.1
    simp only [values, Op.apply, wordValue, arrayValue, if_pos (And.intro hi hv),
      setWidth_bits σ hi, setWidth_bits σ hv]
    refine congrArg (fun f => some (Value.array a.domain a.range f)) (funext fun j => ?_)
    have hj : i.value σ = j.toNat ↔ j = BitVec.ofNat a.domain (i.value σ) := by
      rw [← BitVec.toNat_inj, toNat_bits σ hi]
      exact eq_comm
    rw [UpdateList.contents, Function.update_apply]
    simp only [hj]
  select {c t f} h := by
    have hw : t.getWidth = f.getWidth := h.typed.2.2.2.2
    simp only [values, Op.apply, wordValue, if_pos hw, setWidth_bits σ hw.symm]
    refine congrArg some (bits_congr rfl ?_)
    rw [bits_toNat σ (.select c t f)]
    simp only [Expr.value, decide_eq_true_eq]
    split
    · exact bits_toNat σ t
    · exact BitVec.toNat_ofNat _ _
  concat {l r} h := by
    simp only [values, Op.apply]
    refine congrArg some (bits_eq_wordValue σ rfl ?_)
    rw [BitVec.toNat_append, bits_toNat, bits_toNat]
    simp only [Expr.value]
  extract {e low w} h := by
    have hw : (0 : ℕ) < w ∧ low + w ≤ (e.getWidth : ℕ) := h.typed.2
    have hwidth : low + w - 1 + 1 - low = w := by omega
    simp only [values, Op.apply, wordValue]
    rw [if_pos (by omega)]
    refine congrArg some (bits_eq_wordValue σ hwidth ?_)
    rw [BitVec.extractLsb'_toNat, bits_toNat, hwidth]
    simp only [Expr.value]
  zext {e w} h := by
    have hw : e.getWidth + (w - e.getWidth) = w := Nat.add_sub_of_le h.typed.2
    simp only [values, Op.apply, wordValue]
    refine congrArg some (bits_eq_wordValue σ hw ?_)
    rw [BitVec.toNat_setWidth, bits_toNat, hw]
    simp only [Expr.value]
  sext {e w} h := by
    have hw : e.getWidth + (w - e.getWidth) = w := Nat.add_sub_of_le h.typed.2
    simp only [values, Op.apply, wordValue]
    refine congrArg some (bits_eq_wordValue σ hw ?_)
    rw [hw]
    simp only [Expr.value]
  notWord {e} _ := by
    simp only [values, Op.apply, wordValue]
    exact congrArg some (bits_eq_wordValue σ rfl (by simp only [Expr.value]))
  notTruth {e} _ hw := by
    simp only [values, Op.apply, Expr.value]
    obtain h0 | h1 := width_one_value (σ := σ) hw <;> simp [*]
  equalWord {k l r} h hk := by
    have hw : l.getWidth = r.getWidth := h.typed.2.2
    have hcmp : k.isCmp = true := by obtain rfl | rfl := hk <;> rfl
    have happ := compare_apply (BitVec.ofNat l.getWidth (l.value σ))
      (BitVec.ofNat l.getWidth (r.value σ)) hcmp
    rw [binary_value, wordValue_width σ hw.symm]
    exact happ
  equalTruth {k l r} h hk hw := by
    have hr : r.getWidth = 1 := h.typed.2.2.symm.trans hw
    obtain rfl | rfl := hk <;>
      simp only [values, getSMTLIBKeyword, Op.apply, binary_value, BinaryKind.apply] <;>
      obtain h0 | h1 := width_one_value (σ := σ) hw <;>
      obtain h2 | h3 := width_one_value (σ := σ) hr <;> simp [*]
  logicalTruth {k l r} h hk hw := by
    have hr : r.getWidth = 1 := h.typed.2.2.symm.trans hw
    obtain h0 | h1 := width_one_value (σ := σ) hw <;>
      obtain h2 | h3 := width_one_value (σ := σ) hr <;> cases k <;> first
        | exact absurd hk (by decide)
        | simp [values, logicalKeyword, Op.apply, binary_value, BinaryKind.apply, *]
  arithmetic {k l r} h hcmp hashr := by
    have hw : l.getWidth = r.getWidth := h.typed.2.2
    have hdiv : k.isDivision = true → BitVec.ofNat l.getWidth (r.value σ) ≠ 0 := by
      intro hk h0
      have := congrArg BitVec.toNat h0
      rw [hw, bits_toNat] at this
      exact h.all.2.2 hk (by simpa using this)
    obtain ⟨op, hop, hval⟩ := word_apply (BitVec.ofNat l.getWidth (l.value σ))
      (BitVec.ofNat l.getWidth (r.value σ)) hcmp hashr hdiv
    simp only [values, hop, Op.apply, wordValue, if_pos hw, setWidth_bits σ hw.symm]
    refine congrArg some (bits_eq_wordValue σ (by simp [getWidth, hcmp]) ?_)
    rw [hval, binary_value]
  compare {k l r} h hcmp := by
    have hw : l.getWidth = r.getWidth := h.typed.2.2
    have happ := compare_apply (BitVec.ofNat l.getWidth (l.value σ))
      (BitVec.ofNat l.getWidth (r.value σ)) hcmp
    rw [binary_value, wordValue_width σ hw.symm]
    exact happ
  ashr {l r} h := by
    have hw : l.getWidth = r.getWidth := h.typed.2.2
    have hr := toNat_bits σ hw.symm
    have hwidth : (BitVec.ofNat l.getWidth l.getWidth).toNat = l.getWidth := by
      rw [BitVec.toNat_ofNat, Nat.mod_eq_of_lt Nat.lt_two_pow_self]
    refine ⟨.bool (decide (l.getWidth ≤ r.value σ)),
      .bits l.getWidth ((BitVec.ofNat l.getWidth (l.value σ)).sshiftRight (r.value σ)), ?_, ?_, ?_⟩
    · rw [wordValue_width σ hw.symm]
      simp only [values, Op.apply, wordValue, getWidth, if_true, Relation.holds, Expr.value,
        BitVec.setWidth_eq, BitVec.ule, hwidth, hr]
    · rw [wordValue_width σ hw.symm]
      simp only [values, Op.apply, wordValue, if_true, WordOp.apply, BitVec.setWidth_eq, hr]
    · have hzero : wordValue σ (.constant l.getWidth (BitVec.ofNat l.getWidth 0)) =
          .bits l.getWidth 0#l.getWidth := bits_congr rfl (by simp [Expr.value])
      rw [hzero]
      simp only [values, Op.apply, if_true, BitVec.setWidth_eq, decide_eq_true_eq]
      refine congrArg some (bits_eq_wordValue σ rfl ?_)
      rw [ashr_value σ hw]
      split
      · rename_i hle
        rw [if_neg (Nat.not_lt.mpr hle)]
        simp
      · rename_i hlt
        rw [if_pos (Nat.not_le.mp hlt)]

end

end Encider.Smtlib
