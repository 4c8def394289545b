import Encider.Expr.Sums

/-! `ExtractExpr::create` and `ConcatExpr::create`, which call each other: an extract of a
concatenation is a concatenation of extracts, and contiguous extracts of one expression are one
extract. -/

namespace Encider

open Encider.Expr

def ConstantExpr.extract {v : Width} (c : BitVec v) (off : Nat) (w : Width) : Expr :=
  constant w ((c.sshiftRight off).setWidth w)

def ConstantExpr.concat {u v : Width} (l : BitVec u) (r : BitVec v) : Expr :=
  constant (u + v) (l.setWidth (u + v) <<< v ||| r.setWidth (u + v))

/-- The expression and the offset of two contiguous extracts. -/
def ConcatExpr.merged? : Expr → Expr → Option (Expr × Nat)
  | .extract e off _, .extract e' off' w' =>
    if e = e' ∧ off' + w' = off then some (e, off') else none
  | _, _ => none

/-- `ConcatExpr::create` where there is nothing to merge. -/
def ConcatExpr.join : Expr → Expr → Expr
  | .constant _ cl, .constant _ cr => ConstantExpr.concat cl cr
  | l, r => .concat l r

/-- If it is an extract, then of an expression no larger than `n`. -/
def Expr.SourceWithin (n : Nat) (e : Expr) : Prop :=
  ∀ s off w, e = .extract s off w → s.size ≤ n

theorem Expr.SourceWithin.mono {n m : Nat} {e : Expr} (h : e.SourceWithin n) (hle : n ≤ m) :
    e.SourceWithin m := by
  intro s off w he
  exact (h s off w he).trans hle

theorem Expr.sourceWithin_self (e : Expr) : e.SourceWithin e.size := by
  intro s off w he
  rw [he, Expr.size]
  omega

theorem Expr.sourceWithin_extract (e : Expr) (off : Nat) (w : Width) :
    (Expr.extract e off w).SourceWithin e.size := by
  intro s off' w' he
  cases he
  exact Nat.le_refl _

theorem Expr.size_lt_concat_left (l r : Expr) : l.size < (Expr.concat l r).size := by
  rw [Expr.size]
  omega

theorem Expr.size_lt_concat_right (l r : Expr) : r.size < (Expr.concat l r).size := by
  rw [Expr.size]
  omega

theorem ConstantExpr.extract_within {v : Width} (c : BitVec v) (off : Nat) (w : Width) (n : Nat) :
    (ConstantExpr.extract c off w).SourceWithin n := by
  intro s off' w' he
  cases he

theorem ConcatExpr.join_within (l r : Expr) (n : Nat) : (ConcatExpr.join l r).SourceWithin n := by
  intro s off w he
  unfold ConcatExpr.join at he
  split at he
  · cases he
  · cases he

theorem ConcatExpr.merged_within {l r s : Expr} {o n : Nat}
    (h : ConcatExpr.merged? l r = some (s, o)) (hl : l.SourceWithin n) : s.size ≤ n := by
  unfold ConcatExpr.merged? at h
  split at h
  · split at h
    · cases h
      exact hl _ _ _ rfl
    · cases h
  · cases h

/-- `ExtractExpr::create`, with what bounds its calls: an extract that comes back is of an
expression no larger than the argument, so merging two of them extracts from something smaller. -/
def ExtractExpr.createWithin (e : Expr) (off : Nat) (w : Width) :
    {r : Expr // r.SourceWithin e.size} :=
  if w = e.getWidth then ⟨e, e.sourceWithin_self⟩
  else
    match e with
    | .constant _ c => ⟨ConstantExpr.extract c off w, ConstantExpr.extract_within c off w _⟩
    | .concat l r =>
      have hl : l.size < (Expr.concat l r).size := l.size_lt_concat_left r
      have hr : r.size < (Expr.concat l r).size := l.size_lt_concat_right r
      if r.getWidth ≤ off then
        have x := createWithin l (off - r.getWidth) w
        ⟨x.1, x.2.mono hl.le⟩
      else if off + w ≤ r.getWidth then
        have x := createWithin r off w
        ⟨x.1, x.2.mono hr.le⟩
      else
        match createWithin l 0 (w + off - r.getWidth), createWithin r off (r.getWidth - off) with
        | ⟨x, hx⟩, ⟨y, _⟩ =>
          match hm : ConcatExpr.merged? x y with
          | some (s, o) =>
            have hs := ConcatExpr.merged_within hm hx
            have z := createWithin s o (x.getWidth + y.getWidth)
            ⟨z.1, z.2.mono (hs.trans hl.le)⟩
          | none => ⟨ConcatExpr.join x y, ConcatExpr.join_within x y _⟩
    | e => ⟨.extract e off w, e.sourceWithin_extract off w⟩
termination_by e.size

def ExtractExpr.create (e : Expr) (off : Nat) (w : Width) : Expr :=
  (ExtractExpr.createWithin e off w).1

def ConcatExpr.create (l r : Expr) : Expr :=
  match ConcatExpr.merged? l r with
  | some (s, off) => ExtractExpr.create s off (l.getWidth + r.getWidth)
  | none => ConcatExpr.join l r

/-- The two constructors as they call each other. -/
theorem ExtractExpr.create_concat (l r : Expr) (off : Nat) (w : Width) :
    ExtractExpr.create (.concat l r) off w =
      if w = l.getWidth + r.getWidth then .concat l r
      else if r.getWidth ≤ off then ExtractExpr.create l (off - r.getWidth) w
      else if off + w ≤ r.getWidth then ExtractExpr.create r off w
      else ConcatExpr.create (ExtractExpr.create l 0 (w + off - r.getWidth))
        (ExtractExpr.create r off (r.getWidth - off)) := by
  rw [ExtractExpr.create, ExtractExpr.createWithin]
  simp only [getWidth]
  split
  · rfl
  · split
    · rfl
    · split
      · rfl
      · unfold ConcatExpr.create ExtractExpr.create
        split
        · rename_i s o hm
          simp only [hm]
        · rename_i hm
          simp only [hm]

theorem ExtractExpr.create_whole (e : Expr) (off : Nat) : ExtractExpr.create e off e.getWidth = e := by
  unfold ExtractExpr.create ExtractExpr.createWithin
  rw [if_pos rfl]

theorem ExtractExpr.create_constant {v : Width} (c : BitVec v) (off : Nat) {w : Width}
    (hw : w ≠ v) : ExtractExpr.create (.constant v c) off w = ConstantExpr.extract c off w := by
  have hne : ¬ w = (Expr.constant v c).getWidth := hw
  unfold ExtractExpr.create ExtractExpr.createWithin
  rw [if_neg hne]

theorem ExtractExpr.create_other {e : Expr} (off : Nat) {w : Width} (hw : w ≠ e.getWidth)
    (hc : e.isConstant = false) (hcat : ∀ l r, e ≠ .concat l r) :
    ExtractExpr.create e off w = .extract e off w := by
  unfold ExtractExpr.create ExtractExpr.createWithin
  rw [if_neg hw]
  cases e with
  | constant => cases hc
  | concat l r => exact absurd rfl (hcat l r)
  | _ => rfl

theorem ExtractExpr.create_within (e : Expr) (off : Nat) (w : Width) :
    (ExtractExpr.create e off w).SourceWithin e.size := (ExtractExpr.createWithin e off w).2

/-- What an extract of `e` must give. -/
def ExtractExpr.Correct (σ : Assignment) (e : Expr) : Prop :=
  ∀ (off : Nat) (w : Width), e.WellTyped → 0 < w → off + w ≤ e.getWidth →
    (ExtractExpr.create e off w).Means σ w ((e.value σ >>> off) % 2 ^ w)

theorem concat_value (σ : Assignment) (l r : Expr) :
    (concat l r).value σ = l.value σ <<< r.getWidth ||| r.value σ := by
  rw [Expr.value]

/-- The bits of contiguous parts, put together. -/
theorem merge_parts (x off v w : Nat) :
    (x >>> (off + w) % 2 ^ v) <<< w ||| (x >>> off % 2 ^ w) = x >>> off % 2 ^ (v + w) := by
  apply Nat.eq_of_testBit_eq
  intro i
  simp only [Nat.testBit_or, Nat.testBit_shiftLeft, Nat.testBit_mod_two_pow, Nat.testBit_shiftRight]
  by_cases hi : i < w
  · have hiv : i < v + w := by omega
    have hle : ¬ w ≤ i := by omega
    simp [hi, hiv, hle]
  · have hle : w ≤ i := by omega
    have hsum : off + w + (i - w) = off + i := by omega
    have hiff : i - w < v ↔ i < v + w := by omega
    simp [hi, hle, hsum, hiff]

theorem testBit_beyond {x w i : Nat} (hx : x < 2 ^ w) (hi : w ≤ i) : x.testBit i = false :=
  Nat.testBit_eq_false_of_lt (hx.trans_le (Nat.pow_le_pow_right (by omega) hi))

theorem extract_left {x y v off w : Nat} (hy : y < 2 ^ v) (h : v ≤ off) :
    (x <<< v ||| y) >>> off % 2 ^ w = x >>> (off - v) % 2 ^ w := by
  apply Nat.eq_of_testBit_eq
  intro i
  have hle : v ≤ off + i := by omega
  have hsum : off + i - v = off - v + i := by omega
  simp only [Nat.testBit_or, Nat.testBit_shiftLeft, Nat.testBit_mod_two_pow,
    Nat.testBit_shiftRight, testBit_beyond hy hle, hsum, hle, decide_true, Bool.true_and,
    Bool.or_false]

theorem extract_right {x y v off w : Nat} (h : off + w ≤ v) :
    (x <<< v ||| y) >>> off % 2 ^ w = y >>> off % 2 ^ w := by
  apply Nat.eq_of_testBit_eq
  intro i
  simp only [Nat.testBit_or, Nat.testBit_shiftLeft, Nat.testBit_mod_two_pow,
    Nat.testBit_shiftRight]
  by_cases hi : i < w
  · have hle : ¬ v ≤ off + i := by omega
    simp [hle]
  · simp [hi]

/-- An extract that takes bits of both sides. -/
theorem extract_both {x y v off w : Nat} (hy : y < 2 ^ v) (hoff : off < v) (hw : v < off + w) :
    (x >>> 0 % 2 ^ (w + off - v)) <<< (v - off) ||| (y >>> off % 2 ^ (v - off)) =
      (x <<< v ||| y) >>> off % 2 ^ w := by
  apply Nat.eq_of_testBit_eq
  intro i
  simp only [Nat.testBit_or, Nat.testBit_shiftLeft, Nat.testBit_mod_two_pow,
    Nat.testBit_shiftRight]
  by_cases hi : i < v - off
  · have h1 : ¬ v - off ≤ i := by omega
    have h2 : ¬ v ≤ off + i := by omega
    have h3 : i < w := by omega
    simp [hi, h1, h2, h3]
  · have h1 : v - off ≤ i := by omega
    have h2 : v ≤ off + i := by omega
    have h3 : 0 + (i - (v - off)) = off + i - v := by omega
    have h4 : i - (v - off) < w + off - v ↔ i < w := by omega
    simp [hi, h1, h2, h3, h4, testBit_beyond hy h2]

theorem ConstantExpr.extract_means (σ : Assignment) {v : Width} (c : BitVec v) {off : Nat}
    {w : Width} (h : off + w ≤ v) :
    (ConstantExpr.extract c off w).Means σ w (((constant v c).value σ >>> off) % 2 ^ w) := by
  refine ⟨trivial, rfl, ?_⟩
  rw [ConstantExpr.extract, constant_value, constant_value]
  apply Nat.eq_of_testBit_eq
  intro i
  rw [Nat.testBit_mod_two_pow, Nat.testBit_shiftRight, BitVec.testBit_toNat, BitVec.testBit_toNat,
    BitVec.getLsbD_setWidth, BitVec.getLsbD_sshiftRight]
  by_cases hi : i < w
  · have h1 : i < v := by lia
    have h2 : off + i < v := by lia
    simp [hi, Nat.not_le.mpr h1, h2]
  · simp [hi]

theorem ConcatExpr.join_means (σ : Assignment) {l r : Expr} (hl : l.WellTyped) (hr : r.WellTyped) :
    (ConcatExpr.join l r).Means σ (l.getWidth + r.getWidth) ((concat l r).value σ) := by
  unfold ConcatExpr.join
  split
  · rename_i u cl v cr
    refine ⟨trivial, rfl, ?_⟩
    rw [ConstantExpr.concat, concat_value, constant_value, constant_value, constant_value]
    have hlt : cl.toNat <<< v < 2 ^ (u + v) := by
      rw [Nat.shiftLeft_eq, Nat.pow_add]
      exact Nat.mul_lt_mul_of_pos_right cl.isLt (Nat.two_pow_pos v)
    have hu : cl.toNat < 2 ^ (u + v) := cl.isLt.trans_le (Nat.pow_le_pow_right (by lia) (by lia))
    have hv : cr.toNat < 2 ^ (u + v) := cr.isLt.trans_le (Nat.pow_le_pow_right (by lia) (by lia))
    rw [BitVec.toNat_or, BitVec.toNat_shiftLeft, BitVec.toNat_setWidth, BitVec.toNat_setWidth,
      Nat.mod_eq_of_lt hu, Nat.mod_eq_of_lt hv, Nat.mod_eq_of_lt hlt]
    rfl
  · exact ⟨⟨hl, hr⟩, rfl, rfl⟩

/-- A concatenation is right when the extracts it may merge into are. -/
theorem ConcatExpr.create_of_extract {σ : Assignment} {l r : Expr} (hl : l.WellTyped)
    (hr : r.WellTyped)
    (hs : ∀ s off, ConcatExpr.merged? l r = some (s, off) → ExtractExpr.Correct σ s) :
    (ConcatExpr.create l r).Means σ (l.getWidth + r.getWidth) ((concat l r).value σ) := by
  unfold ConcatExpr.create
  split
  · rename_i s off hm
    have hcorrect : ExtractExpr.Correct σ s := hs s off hm
    unfold ConcatExpr.merged? at hm
    split at hm
    · rename_i e o v e' o' w
      split at hm
      · rename_i hsame
        cases hm
        obtain ⟨rfl, rfl⟩ := hsame
        obtain ⟨he, hv, hle⟩ := hl
        have hpos : 0 < v + w := by lia
        have hle' : off + (v + w) ≤ s.getWidth := by lia
        have h := hcorrect off (v + w) he hpos hle'
        refine ⟨h.typed, h.width, h.value.trans ?_⟩
        rw [concat_value, ← merge_parts]
        simp only [Expr.value, getWidth]
      · cases hm
    · cases hm
  · exact ConcatExpr.join_means σ hl hr

/-- An extract of a concatenation is right when the extracts of its sides, and those that their
results are of, are. -/
theorem ExtractExpr.concat_correct {σ : Assignment} {l r : Expr}
    (ih : ∀ e : Expr, e.size < (Expr.concat l r).size → ExtractExpr.Correct σ e) :
    ExtractExpr.Correct σ (.concat l r) := by
  have hl : l.size < (Expr.concat l r).size := by
    rw [Expr.size]
    omega
  have hr : r.size < (Expr.concat l r).size := by
    rw [Expr.size]
    omega
  intro off w ht hpos hle
  obtain ⟨htl, htr⟩ := ht
  have hlt := r.value_lt σ
  simp only [getWidth] at hle
  rw [ExtractExpr.create_concat, concat_value]
  split
  · rename_i hw
    obtain rfl : off = 0 := by lia
    have hv : (concat l r).value σ < 2 ^ (l.getWidth + r.getWidth) := (concat l r).value_lt σ
    rw [concat_value] at hv
    refine ⟨⟨htl, htr⟩, hw.symm, ?_⟩
    rw [concat_value, Nat.shiftRight_zero, hw, Nat.mod_eq_of_lt hv]
  · split
    · rename_i hoff
      have h := ih l hl (off - r.getWidth) w htl hpos (by lia)
      rwa [extract_left hlt hoff]
    · split
      · rename_i hoff
        have h := ih r hr off w htr hpos hoff
        rwa [extract_right hoff]
      · have hx := ih l hl 0 (w + off - r.getWidth) htl (by lia) (by lia)
        have hy := ih r hr off (r.getWidth - off) htr (by lia) (by lia)
        have h := ConcatExpr.create_of_extract hx.typed hy.typed fun s o hm =>
          ih s ((ConcatExpr.merged_within hm (ExtractExpr.create_within l 0 _)).trans_lt hl)
        rw [hx.width, hy.width, concat_value, hx.value, hy.value, hy.width] at h
        have hw : w + off - r.getWidth + (r.getWidth - off) = w := by lia
        rwa [hw, extract_both hlt (by lia) (by lia)] at h

/-- Every extract is right, by induction on the size of what is extracted from. -/
theorem ExtractExpr.create_correct (σ : Assignment) (e : Expr) : ExtractExpr.Correct σ e := by
  induction hn : e.size using Nat.strong_induction_on generalizing e with
  | h n ih =>
    intro off w ht hpos hle
    by_cases hw : w = e.getWidth
    · obtain rfl : off = 0 := by lia
      rw [hw, ExtractExpr.create_whole, Nat.shiftRight_zero, Nat.mod_eq_of_lt (e.value_lt σ)]
      exact ht.means σ
    · have hplain : ∀ hc : e.isConstant = false, (∀ l r, e ≠ .concat l r) →
          (ExtractExpr.create e off w).Means σ w ((e.value σ >>> off) % 2 ^ w) := by
        intro hc hcat
        rw [ExtractExpr.create_other off hw hc hcat]
        exact ⟨⟨ht, hpos, hle⟩, rfl, by rw [Expr.value]⟩
      cases e with
      | constant v c =>
        rw [ExtractExpr.create_constant c off hw]
        exact ConstantExpr.extract_means σ c hle
      | concat l r =>
        have hsmaller : ∀ e : Expr, e.size < (Expr.concat l r).size → ExtractExpr.Correct σ e := by
          intro e hlt
          exact ih e.size (hn ▸ hlt) e rfl
        exact ExtractExpr.concat_correct hsmaller off w ht hpos hle
      | _ => exact hplain rfl (by intro l r he; cases he)

theorem ConcatExpr.create_means (σ : Assignment) {l r : Expr} (hl : l.WellTyped)
    (hr : r.WellTyped) :
    (ConcatExpr.create l r).Means σ (l.getWidth + r.getWidth) ((concat l r).value σ) :=
  ConcatExpr.create_of_extract hl hr fun s _ _ => ExtractExpr.create_correct σ s

def ZExtExpr.create (e : Expr) (w : Width) : Expr :=
  if w = e.getWidth then e
  else if w < e.getWidth then ExtractExpr.create e 0 w
  else
    match e with
    | .constant _ c => constant w (c.setWidth w)
    | e => .zext e w

def SExtExpr.create (e : Expr) (w : Width) : Expr :=
  if w = e.getWidth then e
  else if w < e.getWidth then ExtractExpr.create e 0 w
  else
    match e with
    | .constant _ c => constant w (c.signExtend w)
    | e => .sext e w

theorem ZExtExpr.create_means (σ : Assignment) {e : Expr} {w : Width} (he : e.WellTyped)
    (hw : w < e.getWidth → 0 < w) : (ZExtExpr.create e w).Means σ w ((zext e w).value σ) := by
  unfold ZExtExpr.create
  split
  · rename_i h
    refine ⟨he, h.symm, ?_⟩
    rw [Expr.value, h, Nat.mod_eq_of_lt (e.value_lt σ)]
  · split
    · rename_i h
      have hx := ExtractExpr.create_correct σ e 0 w he (hw h) (by lia)
      rwa [Nat.shiftRight_zero] at hx
    · split
      · refine ⟨trivial, rfl, ?_⟩
        rw [constant_value, Expr.value, constant_value, BitVec.toNat_setWidth]
      · exact ⟨⟨he, by lia⟩, rfl, rfl⟩

theorem SExtExpr.create_means (σ : Assignment) {e : Expr} {w : Width} (he : e.WellTyped)
    (hw : w < e.getWidth → 0 < w) : (SExtExpr.create e w).Means σ w ((sext e w).value σ) := by
  have hv : (sext e w).value σ = ((e.bits σ e.getWidth).signExtend w).toNat := by
    rw [Expr.value, Expr.bits]
  unfold SExtExpr.create
  split
  · rename_i h
    subst h
    refine ⟨he, rfl, ?_⟩
    rw [hv, BitVec.signExtend_eq, Expr.bits_toNat rfl]
  · split
    · rename_i h
      have hx := ExtractExpr.create_correct σ e 0 w he (hw h) (by lia)
      rw [Nat.shiftRight_zero] at hx
      rwa [hv, BitVec.signExtend_eq_setWidth_of_le _ h.le, BitVec.toNat_setWidth,
        Expr.bits_toNat rfl]
    · split
      · refine ⟨trivial, rfl, ?_⟩
        rw [hv, constant_value]
        simp only [getWidth, bits_constant]
      · exact ⟨⟨he, by lia⟩, rfl, rfl⟩

end Encider
