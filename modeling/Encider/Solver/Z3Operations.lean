import Encider.Solver.Z3Caches

/-! The terms that `Z3Builder` puts together from those of the operands have the values of the
operations. -/

namespace Encider.Z3Builder

open Z3 Z3.Handle Encider.Expr Encider.Smtlib

/-- A power of two has one bit. -/
theorem isPowerOfTwo_eq {x : BitVec 64} (h : bits64.isPowerOfTwo x = true) :
    ∃ i < 64, x = 1#64 <<< i := by
  rw [bits64.isPowerOfTwo, Bool.and_eq_true, bne_iff_ne, beq_iff_eq] at h
  obtain ⟨i, hi⟩ := SingleBit.exists_isLowest h.1
  refine ⟨i, hi.lt, ?_⟩
  have hnot : -x = ~~~(x - 1#64) := by
    rw [← BitVec.not_neg, BitVec.not_not]
  rw [← hi.and_neg, hnot]
  apply BitVec.eq_of_getLsbD_eq
  intro j hj
  have hb := congrArg (fun y => y.getLsbD j) h.2
  simp only [BitVec.getLsbD_and, BitVec.getLsbD_not, BitVec.ofNat_eq_ofNat,
    BitVec.getLsbD_zero] at hb ⊢
  cases hx : x.getLsbD j <;> simp_all

/-- What is found out about a divisor. -/
theorem singleBitDivisor_eq {r : Expr} {d : BitVec 64} (h : singleBitDivisor r = some d) :
    (∀ P, r.Over P) ∧
    ∃ i, bits64.indexOfSingleBit d = some i ∧ i < r.getWidth ∧ ∀ σ, r.value σ = 2 ^ i := by
  unfold singleBitDivisor at h
  split at h
  · rename_i w v
    split at h
    · rename_i hc
      cases h
      obtain ⟨i, hi, heq⟩ := isPowerOfTwo_eq hc.2
      have hv : v.toNat = 2 ^ i := by
        have hnat := congrArg BitVec.toNat heq
        rwa [BitVec.toNat_setWidth, Nat.mod_eq_of_lt
            (v.isLt.trans_le (Nat.pow_le_pow_right (by omega) hc.1)),
          ← BitVec.twoPow_eq, BitVec.toNat_twoPow,
          Nat.mod_eq_of_lt (Nat.pow_lt_pow_right (by omega) hi)] at hnat
      refine ⟨fun _ => trivial, i, ?_, ?_, fun σ => ?_⟩
      · rw [heq]
        exact bits64.indexOfSingleBit_one_shiftLeft hi
      · exact (Nat.pow_lt_pow_iff_right (by omega)).mp (hv ▸ v.isLt)
      · rw [Expr.value, hv]
    · cases h
  · cases h

section terms

variable {W : Set Model} {σ : Assignment} {c t f e l r : Expr} {k : BinaryKind} {a b d : Handle}

section words

variable (hwide : l.getWidth ≠ 1) (ha : Shows W l.getWidth (l.value σ) a)
  (hw : l.getWidth = r.getWidth) (hb : Shows W r.getWidth (r.value σ) b)

include hwide ha hw hb

theorem word_shows {op : Smt.WordOp} (hop : getSMTLIBKeyword k = .word op)
    (hcmp : k.isCmp = false) (hashr : k ≠ .ashr)
    (hdiv : W.Nonempty → k.isDivision = true → r.value σ ≠ 0) :
    Gives (mkWord op a b) (Shows W l.getWidth ((binary k l r).value σ)) := by
  rw [← hw] at hb
  refine (mkWord_bits op (ha.bits hwide) (hb.bits hwide)).imp fun _ h => ?_
  refine Bits.shows (h.congr fun hW => ?_) hwide
  have hne : k.isDivision = true → BitVec.ofNat l.getWidth (r.value σ) ≠ 0 := by
    intro hk h0
    have hzero := congrArg BitVec.toNat h0
    rw [hw, bits_toNat] at hzero
    exact hdiv hW hk (by simpa using hzero)
  obtain ⟨op', hop', hval⟩ := word_apply (BitVec.ofNat l.getWidth (l.value σ))
    (BitVec.ofNat l.getWidth (r.value σ)) hcmp hashr hne
  rw [hop] at hop'
  cases hop'
  rw [hval, binary_value]

theorem compare_shows {relation : Smt.Relation} (hrel : getSMTLIBKeyword k = .compare relation)
    (hcmp : k.isCmp = true) :
    Gives (mkCompare relation a b) (Shows W 1 ((binary k l r).value σ)) := by
  rw [← hw] at hb
  refine (mkCompare_bits relation (ha.bits hwide) (hb.bits hwide)).imp fun _ h => ?_
  refine Truth.shows (h.congr fun _ => ?_) rfl
  have happ := compare_apply (BitVec.ofNat l.getWidth (l.value σ))
    (BitVec.ofNat l.getWidth (r.value σ)) hcmp
  simp only [hrel, Smt.Op.apply, if_true, BitVec.setWidth_eq] at happ
  rw [binary_value, Smt.Value.bool.inj (Option.some.inj happ), decide_eq_true_eq]

theorem mkEq_shows : Gives (mkEq a b) (Shows W 1 ((binary .eq l r).value σ)) := by
  rw [← hw] at hb
  refine (mkEq_bits (ha.bits hwide) (hb.bits hwide)).imp fun _ h => ?_
  refine Truth.shows (h.congr fun _ => ?_) rfl
  rw [binary_value, BinaryKind.apply, Bool.toNat_eq_one, decide_eq_true_eq, ← BitVec.toNat_inj,
    bits_toNat, toNat_bits σ hw.symm]

end words

section truths

variable (hone : l.getWidth = 1) (ha : Shows W l.getWidth (l.value σ) a)
  (hw : l.getWidth = r.getWidth) (hb : Shows W r.getWidth (r.value σ) b)

include hone ha hw hb

/-- An operation that is right on the pairs of booleans. -/
theorem truth_shows (p : Prop → Prop → Prop) {o : Option Handle}
    (ho : a.Truth W (l.value σ = 1) → b.Truth W (r.value σ = 1) →
      Gives o (Truth W (p (l.value σ = 1) (r.value σ = 1))))
    (htable : ∀ x y : BitVec 1, p (x.toNat = 1) (y.toNat = 1) ↔ k.apply x y = 1) :
    Gives o (Shows W 1 ((binary k l r).value σ)) := by
  have hone' := hw.symm.trans hone
  refine (ho (ha.truth hone) (hb.truth hone')).imp fun _ h => Truth.shows (h.congr fun _ => ?_) rfl
  have h := htable (BitVec.ofNat 1 (l.value σ)) (BitVec.ofNat 1 (r.value σ))
  rw [toNat_bits σ hone, toNat_bits σ hone'] at h
  rw [binary_value, hone]
  exact h

theorem mkAnd_shows : Gives (mkAnd a b) (Shows W 1 ((binary .and l r).value σ)) :=
  truth_shows hone ha hw hb (· ∧ ·) mkAnd_truth (by decide)

theorem mkOr_shows : Gives (mkOr a b) (Shows W 1 ((binary .or l r).value σ)) :=
  truth_shows hone ha hw hb (· ∨ ·) mkOr_truth (by decide)

theorem xorTruth_shows : Gives (xorTruth a b) (Shows W 1 ((binary .xor l r).value σ)) := by
  refine truth_shows hone ha hw hb (fun p q => (p ∧ ¬ q) ∨ (¬ p ∧ q)) (fun hp hq => ?_) (by decide)
  exact (mkNot_truth hq).bind fun other hother => mkIte_truth hp hother hq

theorem eqTruth_shows : Gives (eqTruth l a b) (Shows W 1 ((binary .eq l r).value σ)) := by
  unfold eqTruth
  split
  · rename_i w v
    have hv : v.toNat = (constant w v).value σ := by rw [Expr.value]
    refine truth_shows hone ha hw hb (· ↔ ·) (fun _ hq => ?_) (by decide)
    split
    · rename_i hc
      exact .pure (hq.congr fun _ => by rw [← hv]; simp [hc.2])
    · rename_i hc
      exact (mkNot_truth hq).imp fun _ h => h.congr fun _ => by
        rw [← hv]
        simp [show ¬ v.toNat = 1 from fun h => hc ⟨hone, h⟩]
  · exact truth_shows hone ha hw hb (· ↔ ·) mkIff_truth (by decide)

end truths

section divisions

variable (hwide : l.getWidth ≠ 1) (ha : Shows W l.getWidth (l.value σ) a)
  (hw : l.getWidth = r.getWidth) {i : ℕ} (hi : i < l.getWidth) (hr : r.value σ = 2 ^ i)

include hwide ha hw hi hr

theorem udivByPower_shows :
    Gives (bvRightShift a i) (Shows W l.getWidth ((binary .udiv l r).value σ)) := by
  refine (bvRightShift_bits (ha.bits hwide) (by omega) i).imp fun _ h => ?_
  refine Bits.shows (h.congr fun _ => ?_) hwide
  rw [binary_value]
  simp only [BinaryKind.apply]
  rw [BitVec.toNat_udiv, bits_toNat, toNat_bits σ hw.symm, hr, Nat.shiftRight_eq_div_pow]

theorem uremByPower_shows :
    Gives (lowBits a l.getWidth i) (Shows W l.getWidth ((binary .urem l r).value σ)) := by
  have hvalue : (binary .urem l r).value σ = l.value σ % 2 ^ i := by
    rw [binary_value]
    simp only [BinaryKind.apply]
    rw [BitVec.toNat_umod, bits_toNat, toNat_bits σ hw.symm, hr]
  have hbits := ha.bits hwide
  rw [hvalue]
  unfold lowBits
  split
  · rename_i h0
    subst h0
    exact (bvZero_bits W (by omega)).imp fun _ h =>
      Bits.shows (h.congr fun _ => by rw [pow_zero, Nat.mod_one]) hwide
  · refine (bvZero_bits W (by omega)).bind fun zero hzero => ?_
    refine (mkExtract_bits hbits (Nat.zero_le _) (by omega)).bind fun low hlow => ?_
    have hcat := mkConcat_bits hzero hlow
    rw [Nat.sub_zero, Nat.sub_add_cancel (by omega), Nat.sub_add_cancel (by omega),
      Nat.zero_shiftLeft, Nat.zero_or, Nat.shiftRight_zero] at hcat
    exact hcat.imp fun _ h => Bits.shows h hwide

end divisions

section shifts

/-- What the shifts give. -/
def shiftOf (w x : ℕ) : BinaryKind → ℕ → ℕ
  | .shl, s => x <<< s % 2 ^ w
  | .lshr, s => x >>> s
  | _, s => ashr w x s

theorem shiftOf_value (hk : k = .shl ∨ k = .lshr ∨ k = .ashr) (hw : l.getWidth = r.getWidth) :
    (binary k l r).value σ = shiftOf l.getWidth (l.value σ) k (r.value σ) := by
  rw [binary_value]
  obtain rfl | rfl | rfl := hk
  · simp only [BinaryKind.apply, shiftOf]
    rw [BitVec.toNat_shiftLeft, bits_toNat, toNat_bits σ hw.symm]
  · simp only [BinaryKind.apply, shiftOf]
    rw [BitVec.toNat_ushiftRight, bits_toNat, toNat_bits σ hw.symm]
  · simp only [BinaryKind.apply, shiftOf, ashr]
    rw [toNat_bits σ hw.symm]

theorem shiftOf_over {w x s : ℕ} (hx : x < 2 ^ w) (hk : k = .shl ∨ k = .lshr ∨ k = .ashr)
    (hs : w ≤ s) : shiftOf w x k s = 0 := by
  obtain rfl | rfl | rfl := hk
  · rw [shiftOf, Nat.shiftLeft_eq]
    exact Nat.mod_eq_zero_of_dvd ((Nat.pow_dvd_pow 2 hs).mul_left x)
  · rw [shiftOf, Nat.shiftRight_eq_div_pow]
    exact Nat.div_eq_of_lt (hx.trans_le (Nat.pow_le_pow_right (by omega) hs))
  · exact if_neg (Nat.not_lt.mpr hs)

/-- The amount matters only below the width. -/
theorem shiftOf_limited {w n x : ℕ} {v : BitVec n} (hx : x < 2 ^ w)
    (hk : k = .shl ∨ k = .lshr ∨ k = .ashr) (h32 : w < 2 ^ 32)
    (hv : w ≤ v.toNat → w ≤ limitedValue v) :
    shiftOf w x k (limitedValue v) = shiftOf w x k v.toNat := by
  by_cases hle : w ≤ v.toNat
  · rw [shiftOf_over hx hk hle, shiftOf_over hx hk (hv hle)]
  · rw [limitedValue, Nat.min_eq_left (by omega), Nat.mod_eq_of_lt (by omega)]

variable {w x y : ℕ} (h : a.Bits W w x) (hw : 0 < w)

include h hw

theorem ashrByConstant_bits (s : ℕ) :
    Gives (ashrByConstant a w s) (Bits W w (shiftOf w x .ashr s)) :=
  (bvBoolExtract_truth h (by omega)).bind fun _ hsign => constructAShrByConstant_bits h hw s hsign

end shifts


section operands

variable {w offset : ℕ}

theorem extractTerm_shows (hwide : e.getWidth ≠ 1) (hw : 0 < w) (hle : offset + w ≤ e.getWidth)
    (ha : Shows W e.getWidth (e.value σ) a) :
    Gives (extractTerm a offset w) (Shows W w ((extract e offset w).value σ)) := by
  have hbits := ha.bits hwide
  unfold extractTerm
  simp only [Expr.value]
  split
  · rename_i hone
    subst hone
    refine (bvBoolExtract_truth hbits (by omega)).imp fun _ h => ?_
    refine Truth.shows (h.congr fun _ => ?_) rfl
    rw [Nat.testBit_eq_decide_div_mod_eq, decide_eq_true_eq, Nat.shiftRight_eq_div_pow, pow_one]
  · rename_i hne
    refine (mkExtract_bits hbits (by omega) (by omega)).imp fun _ h => ?_
    rw [show offset + w - 1 + 1 - offset = w by omega] at h
    exact Bits.shows h hne

/-- A boolean as a word. -/
theorem ofTruth_shows {one : Option Handle} {x : ℕ} (hone : e.getWidth = 1) (hw : 1 < w)
    (ha : Shows W e.getWidth (e.value σ) a) (hx : Gives one (Bits W w x))
    {o : Option Handle} (ho : o = do mkIte a (← one) (← bvZero w)) :
    Gives o (Shows W w (if e.value σ = 1 then x else 0)) := by
  subst ho
  refine hx.bind fun one hone' => ?_
  refine (bvZero_bits W (by omega)).bind fun zero hzero => ?_
  exact (mkIte_bits (ha.truth hone) hone' hzero).imp fun _ h => Bits.shows h (by omega)

theorem zextTerm_shows (hpos : (0 : ℕ) < e.getWidth) (hw : w > e.getWidth)
    (ha : Shows W e.getWidth (e.value σ) a) :
    Gives (zextTerm a e.getWidth w) (Shows W w ((zext e w).value σ)) := by
  have hvalue : (zext e w).value σ = e.value σ := by
    rw [Expr.value]
    exact Nat.mod_eq_of_lt ((e.value_lt σ).trans_le (Nat.pow_le_pow_right (by omega) hw.le))
  rw [hvalue]
  unfold zextTerm
  split
  · rename_i hone
    have hgives := ofTruth_shows hone (by omega) ha (bvOne_bits W (w := w) (by omega)) rfl
    refine hgives.imp fun _ h => h.congr fun _ => ?_
    obtain h0 | h1 := width_one_value (σ := σ) hone <;> simp [*]
  · rename_i hwide
    refine (bvZero_bits W (by omega)).bind fun zero hzero => ?_
    have hcat := mkConcat_bits hzero (ha.bits hwide)
    rw [Nat.sub_add_cancel hw.le, Nat.zero_shiftLeft, Nat.zero_or] at hcat
    exact hcat.imp fun _ h => Bits.shows h (by omega)

theorem sextTerm_shows (hw : w ≥ e.getWidth) (hne : w ≠ 1)
    (ha : Shows W e.getWidth (e.value σ) a) :
    Gives (sextTerm a e.getWidth w) (Shows W w ((sext e w).value σ)) := by
  rw [Expr.value]
  unfold sextTerm
  split
  · rename_i hone
    have hgives := ofTruth_shows hone (by omega) ha (bvMinusOne_bits W (w := w) (by omega)) rfl
    refine hgives.imp fun _ h => h.congr fun _ => ?_
    have hpow : 2 ≤ 2 ^ w := Nat.le_self_pow (by omega) 2
    rw [hone, BitVec.toNat_signExtend]
    obtain h0 | h1 := width_one_value (σ := σ) hone
    · simp [h0]
    · rw [if_pos h1, h1, if_pos (by decide), BitVec.toNat_setWidth,
        Nat.mod_eq_of_lt (by simp; omega)]
      simp
      omega
  · rename_i hwide
    have hbits := ha.bits hwide
    unfold bvSignExtend getBVLength
    rw [hbits.width_eq]
    dsimp only [Option.bind_eq_bind, Option.bind_some]
    rw [if_pos hw]
    refine (mkSignExt_bits _ hbits).imp fun _ h => ?_
    rw [Nat.add_sub_of_le hw] at h
    exact Bits.shows h hne

theorem not_shows (ha : Shows W e.getWidth (e.value σ) a) :
    Gives (if e.getWidth = 1 then mkNot a else mkBvnot a)
      (Shows W e.getWidth ((Expr.not e).value σ)) := by
  rw [Expr.value]
  split
  · rename_i hone
    refine (mkNot_truth (ha.truth hone)).imp fun _ h => Truth.shows (h.congr fun _ => ?_) hone
    rw [hone]
    obtain h0 | h1 := width_one_value (σ := σ) hone <;> simp [*]
  · rename_i hwide
    exact (mkBvnot_bits (ha.bits hwide)).imp fun _ h => Bits.shows h hwide

theorem mkIte_shows (hone : c.getWidth = 1) (hw : t.getWidth = f.getWidth)
    (hc : Shows W c.getWidth (c.value σ) a) (ht : Shows W t.getWidth (t.value σ) b)
    (hf : Shows W f.getWidth (f.value σ) d) :
    Gives (mkIte a b d) (Shows W t.getWidth ((select c t f).value σ)) := by
  have hvalue : (select c t f).value σ = if c.value σ = 1 then t.value σ else f.value σ := by
    have hlt := f.value_lt σ
    rw [Expr.value, hw, Nat.mod_eq_of_lt hlt]
  rw [hvalue]
  rw [← hw] at hf
  by_cases hbool : t.getWidth = 1
  · refine (mkIte_truth (hc.truth hone) (ht.truth hbool) (hf.truth hbool)).imp fun _ h => ?_
    refine Truth.shows (h.congr fun _ => ?_) hbool
    split <;> simp [*]
  · exact (mkIte_bits (hc.truth hone) (ht.bits hbool) (hf.bits hbool)).imp fun _ h =>
      Bits.shows h hbool

theorem mkConcat_shows (hl : l.getWidth ≠ 1) (hr : r.getWidth ≠ 1) (hpos : (0 : ℕ) < l.getWidth)
    (ha : Shows W l.getWidth (l.value σ) a) (hb : Shows W r.getWidth (r.value σ) b) :
    Gives (mkConcat a b) (Shows W (l.getWidth + r.getWidth) ((concat l r).value σ)) := by
  have hne : l.getWidth + r.getWidth ≠ 1 := by
    intro hone
    obtain ⟨h, -⟩ | ⟨h, -⟩ := Nat.add_eq_one_iff.mp hone
    · exact hpos.ne' h
    · exact hl h
  rw [Expr.value]
  exact (mkConcat_bits (ha.bits hl) (hb.bits hr)).imp fun _ h => Bits.shows h hne

end operands

end terms

end Encider.Z3Builder
