import Encider.Expr.Value
import Encider.Solver.ValueRange

/-! `ExprRangeEvaluator`: a range for an expression from ranges for the bytes of its arrays. -/

namespace Encider

open Encider.Expr

namespace ExprRangeEvaluator

/-- Ranges of elements, for an array as it was before all writes and a range of indices. -/
structure Environment where
  getInitialReadRange : Array → ValueRange → ValueRange
  fits : ∀ a index, index.isEmpty = false → a.range ≤ 64 →
    (getInitialReadRange a index).Fits a.range

/-- The contents of all arrays are in their ranges. -/
def Environment.Within (env : Environment) (σ : Assignment) : Prop :=
  ∀ (a : Array) (index : ValueRange) (i : Nat), a.range ≤ 64 → index.Contains i →
    (env.getInitialReadRange a index).Contains (a.initial σ i).toNat

/-- Of the kinds whose operands are evaluated. -/
def transfer (k : BinaryKind) (width : Width) (left right : ValueRange) : Option ValueRange :=
  match k with
  | .add => left.add right width
  | .sub => left.sub right width
  | .mul => left.mul right width
  | .udiv => left.udiv right width
  | .sdiv => left.sdiv right width
  | .urem => left.urem right width
  | .srem => left.srem right width
  | .and => left.binaryAnd right
  | .or => left.binaryOr right
  | .xor => left.binaryXor right
  | .eq =>
    if left.mustEqual right then some (.ofValue 1)
    else if !left.mayEqual right then some (.ofValue 0)
    else ValueRange.full 1
  | .ult => do
    if (← left.max) < (← right.min) then some (.ofValue 1)
    else if (← left.min) ≥ (← right.max) then some (.ofValue 0)
    else ValueRange.full 1
  | .ule => do
    if (← left.max) ≤ (← right.min) then some (.ofValue 1)
    else if (← left.min) > (← right.max) then some (.ofValue 0)
    else ValueRange.full 1
  | .slt => do
    if (← left.maxSigned width) < (← right.minSigned width) then some (.ofValue 1)
    else if (← left.minSigned width) ≥ (← right.maxSigned width) then some (.ofValue 0)
    else ValueRange.full 1
  | .sle => do
    if (← left.maxSigned width) ≤ (← right.minSigned width) then some (.ofValue 1)
    else if (← left.minSigned width) > (← right.maxSigned width) then some (.ofValue 0)
    else ValueRange.full 1
  -- shifts have no operands evaluated, and the others are asserted away
  | .shl | .lshr | .ashr | .ne | .ugt | .uge | .sgt | .sge => none

mutual
/-- `none` is a failed assertion or an undefined shift. -/
def evaluate (env : Environment) : Expr → Option ValueRange
  | .constant _ v => some (.ofConstant v)
  | .read a us i => do
    let index ← evaluate env i
    evalRead env a index .empty us
  | .select c t f => do
    let cond ← evaluate env c
    if cond.mustBe 1 then evaluate env t
    else if cond.mustBe 0 then evaluate env f
    else
      let left ← evaluate env t
      let right ← evaluate env f
      return left.setUnion right
  -- eight bits for each kid
  | .concat l r => do
    let left ← evaluate env l
    let res ← (ValueRange.ofValue 0).concat left 8
    let right ← evaluate env r
    res.concat right 8
  | .binary k l r =>
    match k with
    | .shl | .lshr | .ashr => ValueRange.full l.getWidth
    | .ne | .ugt | .uge | .sgt | .sge => none
    | k => do
      let left ← evaluate env l
      let right ← evaluate env r
      transfer k l.getWidth left right
  | .notOptimized e => ValueRange.full e.getWidth
  | .extract _ _ w => ValueRange.full w
  | .zext _ w => ValueRange.full w
  | .sext _ w => ValueRange.full w
  | .not e => ValueRange.full e.getWidth

/-- The loop over the writes, newest first. -/
def evalRead (env : Environment) (root : Array) (index res : ValueRange) :
    UpdateList → Option ValueRange
  | .nil => some (res.setUnion (env.getInitialReadRange root index))
  | .cons i v next => do
    let ui ← evaluate env i
    if ui.mustEqual index then
      let value ← evaluate env v
      return res.setUnion value
    else if ui.mayEqual index then
      let value ← evaluate env v
      if ← (res.setUnion value).isFullRange 8 then return res.setUnion value
      else evalRead env root index (res.setUnion value) next
    else evalRead env root index res next
end

/-- An expression has a range that has all its values. -/
def Ranged (e : Expr) : Prop :=
  ∀ env : Environment, ∃ r, evaluate env e = some r ∧
    ∀ σ, env.Within σ → r.Contains (e.value σ)

mutual
/-- A condition on the expression and on all parts of it. -/
def Throughout (P : Expr → Prop) : Expr → Prop
  | .constant w v => P (.constant w v)
  | .notOptimized e => P (.notOptimized e) ∧ Throughout P e
  | .read a us i => P (.read a us i) ∧ ThroughoutWrites P us ∧ Throughout P i
  | .select c t f => P (.select c t f) ∧ Throughout P c ∧ Throughout P t ∧ Throughout P f
  | .concat l r => P (.concat l r) ∧ Throughout P l ∧ Throughout P r
  | .extract e off w => P (.extract e off w) ∧ Throughout P e
  | .zext e w => P (.zext e w) ∧ Throughout P e
  | .sext e w => P (.sext e w) ∧ Throughout P e
  | .not e => P (.not e) ∧ Throughout P e
  | .binary k l r => P (.binary k l r) ∧ Throughout P l ∧ Throughout P r

def ThroughoutWrites (P : Expr → Prop) : UpdateList → Prop
  | .nil => True
  | .cons i v next => Throughout P i ∧ Throughout P v ∧ ThroughoutWrites P next
end

/-- The widths that a word has room for. -/
def Sized (e : Expr) : Prop := 0 < e.getWidth ∧ e.getWidth ≤ 64

/-- Comparisons are canonical, and those of signed words leave a bit of the word. -/
def Canonical : Expr → Prop
  | .binary .ne _ _ | .binary .ugt _ _ | .binary .uge _ _ | .binary .sgt _ _ | .binary .sge _ _ =>
    False
  | .binary .slt l _ | .binary .sle l _ => l.getWidth < 64
  | _ => True

/-- The right side of a concatenation is a byte, and what has been written are bytes. -/
def Bytewise : Expr → Prop
  | .concat _ r => r.getWidth = 8
  | .read a us _ => us = .nil ∨ a.range ≤ 8
  | _ => True

variable {env : Environment} {left right res index : ValueRange} {w : Width}

/-! Operations -/

/-- A comparison that the ranges decide, or not. -/
theorem compare_eq {c d : Prop} [Decidable c] [Decidable d] {S : BitVec w → BitVec w → Prop}
    {B : BitVec w → BitVec w → Bool} (hc : c → ∀ x y, S x y → B x y = true)
    (hd : d → ∀ x y, S x y → B x y = false) :
    ∃ s, (if c then some (ValueRange.ofValue 1) else if d then some (ValueRange.ofValue 0)
      else ValueRange.full 1) = some s ∧ s.Fits 1 ∧ ∀ x y, S x y → s.Contains (B x y).toNat := by
  split
  · next h =>
    refine ⟨_, rfl, ValueRange.fits_ofValue (by decide), fun x y hS => ?_⟩
    rw [hc h x y hS, ValueRange.contains_ofValue]
    rfl
  · split
    · next h =>
      refine ⟨_, rfl, ValueRange.fits_ofValue (by decide), fun x y hS => ?_⟩
      rw [hd h x y hS, ValueRange.contains_ofValue]
      rfl
    · obtain ⟨s, hs, hfits, hcontains⟩ := ValueRange.full_eq (w := 1) (by decide)
      exact ⟨s, hs, hfits, fun x y _ => hcontains _ (Bool.toNat_lt _)⟩

theorem min_eq (h : left.Fits w) : left.min = some left.m_min :=
  if_neg (by simp [h.not_isEmpty])

theorem max_eq (h : left.Fits w) : left.max = some left.m_max :=
  if_neg (by simp [h.not_isEmpty])

theorem signed_toNat (x : BitVec w) : ValueRange.signed w x.toNat = x.toInt := by
  rw [ValueRange.signed, BitVec.ofNat_toNat, BitVec.setWidth_eq]

/-- The result of an operation has all results on numbers of the ranges. -/
def Covers (k : BinaryKind) (w : Width) (left right : ValueRange) : Prop :=
  ∃ s, transfer k w left right = some s ∧ s.Fits (if k.isCmp then 1 else w) ∧
    ∀ x y : BitVec w, left.Contains x.toNat ∧ right.Contains y.toNat → s.Contains (k.apply x y)

theorem covers_full {k : BinaryKind} (hw : w ≤ 64) (hk : k.isCmp = false)
    (h : transfer k w left right = ValueRange.full w) : Covers k w left right := by
  obtain ⟨s, hs, hfits, hcontains⟩ := ValueRange.full_eq hw
  have hwidth : (if k.isCmp then 1 else w) = w := by rw [hk]; rfl
  refine ⟨s, h.trans hs, by rwa [hwidth], fun x y _ => hcontains _ ?_⟩
  have hlt := k.apply_lt x y
  rwa [hwidth] at hlt

theorem covers_eq : Covers .eq w left right := by
  refine compare_eq (fun h x y hS => ?_) (fun h x y hS => ?_)
  · exact decide_eq_true (BitVec.eq_of_toNat_eq (ValueRange.eq_of_mustEqual h hS.1 hS.2))
  · refine decide_eq_false fun hxy => ?_
    subst hxy
    rw [ValueRange.mayEqual_of_contains hS.1 hS.2] at h
    cases h

theorem covers_ult (hl : left.Fits w) (hr : right.Fits w) : Covers .ult w left right := by
  unfold Covers transfer
  simp only [min_eq hl, max_eq hl, min_eq hr, max_eq hr, Option.bind_eq_bind, Option.bind_some]
  refine compare_eq (fun h x y hS => ?_) (fun h x y hS => ?_)
  · have hlt := hS.1.2.trans_lt ((BitVec.lt_def.mp h).trans_le hS.2.1)
    exact decide_eq_true hlt
  · have hle := hS.2.2.trans ((BitVec.le_def.mp h).trans hS.1.1)
    exact decide_eq_false (Nat.not_lt.mpr hle)

theorem covers_ule (hl : left.Fits w) (hr : right.Fits w) : Covers .ule w left right := by
  unfold Covers transfer
  simp only [min_eq hl, max_eq hl, min_eq hr, max_eq hr, Option.bind_eq_bind, Option.bind_some]
  refine compare_eq (fun h x y hS => ?_) (fun h x y hS => ?_)
  · have hle := hS.1.2.trans ((BitVec.le_def.mp h).trans hS.2.1)
    exact decide_eq_true hle
  · have hlt := hS.2.2.trans_lt ((BitVec.lt_def.mp h).trans_le hS.1.1)
    exact decide_eq_false (Nat.not_le.mpr hlt)

/-- The signed bounds of a range. -/
theorem signed_bounds {r : ValueRange} (hr : r.Fits w) (h0 : 0 < w) (hw : w < 64) :
    ∃ low high, r.minSigned w = some low ∧ r.maxSigned w = some high ∧
      ∀ x : BitVec w, r.Contains x.toNat → low ≤ x.toInt ∧ x.toInt ≤ high := by
  obtain ⟨low, hlow, hmin⟩ := ValueRange.minSigned_eq hr h0 hw
  obtain ⟨high, hhigh, hmax⟩ := ValueRange.maxSigned_eq hr h0 hw
  refine ⟨low, high, hlow, hhigh, fun x hx => ?_⟩
  rw [← signed_toNat]
  exact ⟨hmin _ hx, hmax _ hx⟩

theorem covers_slt (hl : left.Fits w) (hr : right.Fits w) (h0 : 0 < w) (hw : w < 64) :
    Covers .slt w left right := by
  obtain ⟨lmin, lmax, hlmin, hlmax, hlbounds⟩ := signed_bounds hl h0 hw
  obtain ⟨rmin, rmax, hrmin, hrmax, hrbounds⟩ := signed_bounds hr h0 hw
  unfold Covers transfer
  simp only [hlmin, hlmax, hrmin, hrmax, Option.bind_eq_bind, Option.bind_some]
  refine compare_eq (fun h x y hS => ?_) (fun h x y hS => ?_)
  · have hlt := (hlbounds x hS.1).2.trans_lt (h.trans_le (hrbounds y hS.2).1)
    exact decide_eq_true hlt
  · have hle := (hrbounds y hS.2).2.trans (h.trans (hlbounds x hS.1).1)
    exact decide_eq_false (Int.not_lt.mpr hle)

theorem covers_sle (hl : left.Fits w) (hr : right.Fits w) (h0 : 0 < w) (hw : w < 64) :
    Covers .sle w left right := by
  obtain ⟨lmin, lmax, hlmin, hlmax, hlbounds⟩ := signed_bounds hl h0 hw
  obtain ⟨rmin, rmax, hrmin, hrmax, hrbounds⟩ := signed_bounds hr h0 hw
  unfold Covers transfer
  simp only [hlmin, hlmax, hrmin, hrmax, Option.bind_eq_bind, Option.bind_some]
  refine compare_eq (fun h x y hS => ?_) (fun h x y hS => ?_)
  · have hle := (hlbounds x hS.1).2.trans (h.trans (hrbounds y hS.2).1)
    exact decide_eq_true hle
  · have hlt := (hrbounds y hS.2).2.trans_lt (h.trans_le (hlbounds x hS.1).1)
    exact decide_eq_false (Int.not_le.mpr hlt)

theorem covers_and (hl : left.Fits w) (hr : right.Fits w) : Covers .and w left right := by
  obtain ⟨s, hs, hfits, hcontains⟩ := ValueRange.binaryAnd_eq hl hr
  refine ⟨s, hs, hfits, fun x y h => ?_⟩
  rw [BinaryKind.apply, BitVec.toNat_and]
  exact hcontains _ _ h.1 h.2

theorem covers_or (hl : left.Fits w) (hr : right.Fits w) : Covers .or w left right := by
  obtain ⟨s, hs, hfits, hcontains⟩ := ValueRange.binaryOr_eq hl hr
  refine ⟨s, hs, hfits, fun x y h => ?_⟩
  rw [BinaryKind.apply, BitVec.toNat_or]
  exact hcontains _ _ h.1 h.2

theorem covers_xor (hl : left.Fits w) (hr : right.Fits w) (hw : w ≤ 64) :
    Covers .xor w left right := by
  obtain ⟨s, hs, hfits, hcontains⟩ := ValueRange.binaryXor_eq hl hr hw
  refine ⟨s, hs, hfits, fun x y h => ?_⟩
  rw [BinaryKind.apply, BitVec.toNat_xor]
  exact hcontains _ _ h.1 h.2

/-! Expressions -/

/-- There is a range of the width with all values of the expression. -/
def Evaluated (env : Environment) (e : Expr) : Prop :=
  ∃ r, evaluate env e = some r ∧ r.Fits e.getWidth ∧ ∀ σ, env.Within σ → r.Contains (e.value σ)

theorem evaluated_full {e : Expr} (h : evaluate env e = ValueRange.full e.getWidth)
    (hw : e.getWidth ≤ 64) : Evaluated env e := by
  obtain ⟨r, hr, hfits, hcontains⟩ := ValueRange.full_eq hw
  exact ⟨r, h.trans hr, hfits, fun σ _ => hcontains _ (e.value_lt σ)⟩

theorem evaluated_constant {v : BitVec w} (hw : w ≤ 64) : Evaluated env (.constant w v) := by
  have hlt : v.toNat < 2 ^ 64 := v.isLt.trans_le (Nat.pow_le_pow_right (by omega) hw)
  have hv : (BitVec.ofNat 64 (min v.toNat (2 ^ 64 - 1))).toNat = v.toNat := by
    rw [BitVec.toNat_ofNat, Nat.min_eq_left (by omega), Nat.mod_eq_of_lt hlt]
  refine ⟨_, rfl, ValueRange.fits_ofValue ?_, fun σ _ => ValueRange.contains_ofValue.mpr hv⟩
  rw [hv]
  exact v.isLt

theorem evaluated_binary {k : BinaryKind} {l r : Expr} (hl : Evaluated env l)
    (hr : Evaluated env r) (hw : l.getWidth = r.getWidth)
    (hevaluate : evaluate env (.binary k l r) = (evaluate env l).bind fun left =>
      (evaluate env r).bind fun right => transfer k l.getWidth left right)
    (h : ∀ left right : ValueRange, left.Fits l.getWidth → right.Fits l.getWidth →
      Covers k l.getWidth left right) : Evaluated env (.binary k l r) := by
  obtain ⟨left, hleft, hlfits, hlvalue⟩ := hl
  obtain ⟨right, hright, hrfits, hrvalue⟩ := hr
  obtain ⟨s, hs, hfits, hcontains⟩ := h left right hlfits (hw ▸ hrfits)
  refine ⟨s, ?_, hfits, fun σ hσ => ?_⟩
  · rw [hevaluate, hleft, hright]
    exact hs
  · have hx := hlvalue σ hσ
    have hy := hrvalue σ hσ
    have hlt := r.value_lt σ
    rw [← hw] at hlt
    apply hcontains
    constructor
    · rwa [BitVec.toNat_ofNat, Nat.mod_eq_of_lt (l.value_lt σ)]
    · rwa [BitVec.toNat_ofNat, Nat.mod_eq_of_lt hlt]

theorem evaluated_kind (k : BinaryKind) {l r : Expr} (hl : Evaluated env l)
    (hr : Evaluated env r) (hw : l.getWidth = r.getWidth) (hsize : Sized l)
    (hcanonical : Canonical (.binary k l r)) : Evaluated env (.binary k l r) := by
  obtain ⟨h0, h64⟩ := hsize
  cases k with
  | add | sub | mul | udiv | sdiv | urem | srem =>
    exact evaluated_binary hl hr hw rfl fun _ _ _ _ => covers_full h64 rfl rfl
  | and => exact evaluated_binary hl hr hw rfl fun _ _ => covers_and
  | or => exact evaluated_binary hl hr hw rfl fun _ _ => covers_or
  | xor =>
    exact evaluated_binary hl hr hw rfl fun _ _ hl hr => covers_xor hl hr h64
  | shl | lshr | ashr => exact evaluated_full rfl h64
  | eq => exact evaluated_binary hl hr hw rfl fun _ _ _ _ => covers_eq
  | ult => exact evaluated_binary hl hr hw rfl fun _ _ => covers_ult
  | ule => exact evaluated_binary hl hr hw rfl fun _ _ => covers_ule
  | slt =>
    exact evaluated_binary hl hr hw rfl fun _ _ hl hr =>
      covers_slt hl hr h0 hcanonical
  | sle =>
    exact evaluated_binary hl hr hw rfl fun _ _ hl hr =>
      covers_sle hl hr h0 hcanonical
  | ne | ugt | uge | sgt | sge => exact hcanonical.elim

theorem evaluated_select {c t f : Expr} (hc : Evaluated env c) (ht : Evaluated env t)
    (hf : Evaluated env f) (hw : t.getWidth = f.getWidth) : Evaluated env (.select c t f) := by
  obtain ⟨cond, hcond, -, hcvalue⟩ := hc
  obtain ⟨left, hleft, hlfits, hlvalue⟩ := ht
  obtain ⟨right, hright, hrfits, hrvalue⟩ := hf
  have hfalse : ∀ σ, f.value σ % 2 ^ t.getWidth = f.value σ := by
    intro σ
    rw [hw]
    exact Nat.mod_eq_of_lt (f.value_lt σ)
  unfold Evaluated
  rw [evaluate, hcond, hleft, hright]
  simp only [Option.bind_eq_bind, Option.bind_some, Option.pure_def, Expr.value, hfalse]
  split
  · next hone =>
    refine ⟨left, rfl, hlfits, fun σ hσ => ?_⟩
    have hc : c.value σ = 1 := ValueRange.eq_of_mustBe hone (hcvalue σ hσ)
    rw [if_pos hc]
    exact hlvalue σ hσ
  · split
    · next hzero =>
      refine ⟨right, rfl, hw ▸ hrfits, fun σ hσ => ?_⟩
      have hc : c.value σ = 0 := ValueRange.eq_of_mustBe hzero (hcvalue σ hσ)
      rw [hc]
      exact hrvalue σ hσ
    · refine ⟨left.setUnion right, rfl, (hw ▸ hrfits).union hlfits.below, fun σ hσ => ?_⟩
      split
      · exact (hlvalue σ hσ).union_left
      · exact (hrvalue σ hσ).union_right

theorem evaluated_concat {l r : Expr} (hl : Evaluated env l) (hr : Evaluated env r)
    (hbyte : r.getWidth = 8) (hw : l.getWidth + 8 ≤ 64) : Evaluated env (.concat l r) := by
  obtain ⟨left, hleft, hlfits, hlvalue⟩ := hl
  obtain ⟨right, hright, hrfits, hrvalue⟩ := hr
  rw [hbyte] at hrfits
  obtain ⟨first, hfirst, hffits, hfvalue⟩ := ValueRange.concat_first_eq hlfits
  obtain ⟨s, hs, hfits, hcontains⟩ := ValueRange.concat_eq hffits hrfits hw
  refine ⟨s, ?_, ?_, fun σ hσ => ?_⟩
  · rw [evaluate, hleft, hright]
    simp only [Option.bind_eq_bind, Option.bind_some, hfirst, hs]
  · rwa [Expr.getWidth, hbyte]
  · rw [Expr.value, hbyte]
    exact hcontains _ _ (hfvalue _ (hlvalue σ hσ)) (hrvalue σ hσ)

/-! Reads -/

/-- The loop ends in a range that has what it has found and every element read. -/
def Reads (env : Environment) (a : Array) (us : UpdateList) : Prop :=
  ∀ index res : ValueRange, index.isEmpty = false → res.m_max.toNat < 2 ^ a.range →
    ∃ s, evalRead env a index res us = some s ∧ s.Fits a.range ∧
      (∀ n, res.Contains n → s.Contains n) ∧
      ∀ σ, env.Within σ → ∀ i, index.Contains i → s.Contains (us.contents σ a i).toNat

theorem isFullRange_eight (r : ValueRange) :
    r.isFullRange 8 = some (decide (r.m_min = 0 ∧ r.m_max = 255)) := by
  unfold ValueRange.isFullRange
  split
  · next h =>
    rw [ValueRange.maxValueOfNBits_eq (by decide)]
    simp [h]
  · next h => rw [decide_eq_false fun hfull => h hfull.1]

theorem reads_nil {a : Array} (ha : a.range ≤ 64) : Reads env a .nil := by
  intro index res hindex hres
  refine ⟨_, rfl, (env.fits a index hindex ha).union hres, fun n hn => hn.union_left, ?_⟩
  intro σ hσ i hi
  exact (hσ a index i ha hi).union_right

theorem reads_cons {a : Array} {i v : Expr} {next : UpdateList} (hi : Evaluated env i)
    (hv : Evaluated env v) (hnext : Reads env a next) (hvw : v.getWidth = a.range)
    (ha : a.range ≤ 8) : Reads env a (.cons i v next) := by
  intro index res hindex hres
  obtain ⟨ui, hui, -, hivalue⟩ := hi
  obtain ⟨value, hvalue, hvfits, hvvalue⟩ := hv
  rw [hvw] at hvfits
  have hwritten : ∀ σ, (BitVec.ofNat a.range (v.value σ)).toNat = v.value σ := by
    intro σ
    rw [BitVec.toNat_ofNat, Nat.mod_eq_of_lt (hvw ▸ v.value_lt σ)]
  have hunion := hvfits.union hres
  rw [evalRead, hui, hvalue]
  simp only [Option.bind_eq_bind, Option.bind_some, Option.pure_def, isFullRange_eight]
  split
  · next hmust =>
    refine ⟨_, rfl, hunion, fun n hn => hn.union_left, fun σ hσ j hj => ?_⟩
    rw [UpdateList.contents, if_pos (ValueRange.eq_of_mustEqual hmust (hivalue σ hσ) hj), hwritten]
    exact (hvvalue σ hσ).union_right
  · split
    · split
      · next hfull =>
        refine ⟨_, rfl, hunion, fun n hn => hn.union_left, fun σ hσ j hj => ?_⟩
        obtain ⟨hzero, hmax⟩ := of_decide_eq_true hfull
        have hlt := ((UpdateList.cons i v next).contents σ a j).isLt
        have hle := Nat.pow_le_pow_right (n := 2) (by omega) ha
        unfold ValueRange.Contains
        rw [hzero, hmax]
        exact ⟨Nat.zero_le _, Nat.le_of_lt_succ (hlt.trans_le hle)⟩
      · obtain ⟨s, hs, hfits, hkeeps, hcontains⟩ := hnext index _ hindex hunion.below
        refine ⟨s, hs, hfits, fun n hn => hkeeps n hn.union_left, fun σ hσ j hj => ?_⟩
        rw [UpdateList.contents]
        split
        · rw [hwritten]
          exact hkeeps _ (hvvalue σ hσ).union_right
        · exact hcontains σ hσ j hj
    · next hmay =>
      obtain ⟨s, hs, hfits, hkeeps, hcontains⟩ := hnext index res hindex hres
      refine ⟨s, hs, hfits, hkeeps, fun σ hσ j hj => ?_⟩
      rw [UpdateList.contents, if_neg ?_]
      · exact hcontains σ hσ j hj
      · rintro rfl
        exact hmay (ValueRange.mayEqual_of_contains (hivalue σ hσ) hj)

theorem Throughout.self {P : Expr → Prop} {e : Expr} (h : Throughout P e) : P e := by
  cases e with
  | constant w v => exact h
  | _ => exact h.1

/-- The loop starts from the empty range. -/
theorem evaluated_read {a : Array} {us : UpdateList} {i : Expr} (hi : Evaluated env i)
    (hus : Reads env a us) : Evaluated env (.read a us i) := by
  obtain ⟨index, hindex, hifits, hivalue⟩ := hi
  obtain ⟨s, hs, hfits, -, hcontains⟩ := hus index .empty hifits.not_isEmpty (Nat.two_pow_pos _)
  refine ⟨s, ?_, hfits, fun σ hσ => ?_⟩
  · rw [evaluate, hindex]
    exact hs
  · exact hcontains σ hσ _ (hivalue σ hσ)

theorem evaluated (env : Environment) {e : Expr} (he : e.WellTyped) (hsize : Throughout Sized e)
    (hcanonical : Throughout Canonical e) (hbyte : Throughout Bytewise e) : Evaluated env e := by
  induction e using Expr.rec (motive_2 := fun us => ∀ a, us.WellTyped a → a.range ≤ 64 →
    us = .nil ∨ a.range ≤ 8 → ThroughoutWrites Sized us → ThroughoutWrites Canonical us →
    ThroughoutWrites Bytewise us → Reads env a us) with
  | constant w v => exact evaluated_constant hsize.2
  | notOptimized e _ => exact evaluated_full rfl hsize.1.2
  | read a us i hus hi =>
    refine evaluated_read (hi he.2.1 hsize.2.2 hcanonical.2.2 hbyte.2.2) ?_
    exact hus a he.1 hsize.1.2 hbyte.1 hsize.2.1 hcanonical.2.1 hbyte.2.1
  | select c t f hc ht hf =>
    obtain ⟨hct, htt, hft, -, hw⟩ := he
    exact evaluated_select (hc hct hsize.2.1 hcanonical.2.1 hbyte.2.1)
      (ht htt hsize.2.2.1 hcanonical.2.2.1 hbyte.2.2.1)
      (hf hft hsize.2.2.2 hcanonical.2.2.2 hbyte.2.2.2) hw
  | concat l r hl hr =>
    have hw : l.getWidth + r.getWidth ≤ 64 := hsize.1.2
    rw [show r.getWidth = 8 from hbyte.1] at hw
    exact evaluated_concat (hl he.1 hsize.2.1 hcanonical.2.1 hbyte.2.1)
      (hr he.2 hsize.2.2 hcanonical.2.2 hbyte.2.2) hbyte.1 hw
  | extract e off w _ | zext e w _ | sext e w _ | not e _ =>
    exact evaluated_full rfl hsize.1.2
  | binary k l r hl hr =>
    exact evaluated_kind k (hl he.1 hsize.2.1 hcanonical.2.1 hbyte.2.1)
      (hr he.2.1 hsize.2.2 hcanonical.2.2 hbyte.2.2) he.2.2 hsize.2.1.self hcanonical.1
  | nil =>
    rename_i a _ ha _ _ _ _
    exact reads_nil ha
  | cons i v next hi hv hnext =>
    rename_i a hus _ hrange hsize hcanonical hbyte
    have ha : a.range ≤ 8 := hrange.resolve_left nofun
    exact reads_cons (hi hus.1 hsize.1 hcanonical.1 hbyte.1)
      (hv hus.2.1 hsize.2.1 hcanonical.2.1 hbyte.2.1)
      (hnext a hus.2.2.2.2 (by omega) (.inr ha) hsize.2.2 hcanonical.2.2 hbyte.2.2)
      hus.2.2.2.1 ha

/-! What a range of every value needs -/

/-- All elements of the width are in range. -/
def Environment.all : Environment where
  getInitialReadRange a _ := ⟨0, BitVec.ofNat 64 (2 ^ a.range - 1)⟩
  fits := by
    intro a _ _ ha
    have hpos := Nat.two_pow_pos a.range
    refine ⟨Nat.zero_le _, ?_⟩
    rw [BitVec.toNat_ofNat]
    exact (Nat.mod_le _ _).trans_lt (Nat.sub_lt hpos Nat.one_pos)

theorem Environment.within_all (σ : Assignment) : Environment.all.Within σ := by
  intro a index i ha _
  have hle := Nat.pow_le_pow_right (n := 2) (by omega) ha
  have hlt := (a.initial σ i).isLt
  refine ⟨Nat.zero_le _, ?_⟩
  simp only [Environment.all, BitVec.toNat_ofNat]
  rw [Nat.mod_eq_of_lt (by omega)]
  omega

theorem maxSigned_wide (hw : 64 ≤ w) : left.maxSigned w = none := by
  have hwithin : left.within w = false := decide_eq_false fun h => absurd h.2.1 (Nat.not_lt.mpr hw)
  rw [ValueRange.maxSigned, hwithin]
  rfl

theorem transfer_signed_wide {k : BinaryKind} (hk : k = .slt ∨ k = .sle) (hw : 64 ≤ w) :
    transfer k w left right = none := by
  rcases hk with rfl | rfl
  · rw [transfer, maxSigned_wide hw]
    rfl
  · rw [transfer, maxSigned_wide hw]
    rfl

theorem evaluate_signed_wide {k : BinaryKind} {l r : Expr} (hk : k = .slt ∨ k = .sle)
    (hw : 64 ≤ l.getWidth) : evaluate env (.binary k l r) = none := by
  have hevaluate : evaluate env (.binary k l r) = (evaluate env l).bind fun left =>
      (evaluate env r).bind fun right => transfer k l.getWidth left right := by
    rcases hk with rfl | rfl
    · rfl
    · rfl
  rw [hevaluate]
  cases evaluate env l with
  | none => rfl
  | some left =>
    cases evaluate env r with
    | none => rfl
    | some right => exact transfer_signed_wide hk hw

theorem canonical_of_ranged {e : Expr} (h : Ranged e) : Canonical e := by
  obtain ⟨s, hs, -⟩ := h .all
  cases e with
  | binary k l r =>
    cases k with
    | ne | ugt | uge | sgt | sge => cases hs
    | slt =>
      by_contra hw
      rw [evaluate_signed_wide (.inl rfl) (Nat.not_lt.mp hw)] at hs
      cases hs
    | sle =>
      by_contra hw
      rw [evaluate_signed_wide (.inr rfl) (Nat.not_lt.mp hw)] at hs
      cases hs
    | _ => trivial
  | _ => trivial

theorem Throughout.mono {P Q : Expr → Prop} (h : ∀ e, P e → Q e) {e : Expr}
    (he : Throughout P e) : Throughout Q e := by
  induction e using Expr.rec
    (motive_2 := fun us => ThroughoutWrites P us → ThroughoutWrites Q us) with
  | constant w v => exact h _ he
  | notOptimized e ih | extract e off w ih | zext e w ih | sext e w ih | not e ih =>
    exact ⟨h _ he.1, ih he.2⟩
  | read a us i hus hi => exact ⟨h _ he.1, hus he.2.1, hi he.2.2⟩
  | select c t f hc ht hf => exact ⟨h _ he.1, hc he.2.1, ht he.2.2.1, hf he.2.2.2⟩
  | concat l r hl hr | binary k l r hl hr => exact ⟨h _ he.1, hl he.2.1, hr he.2.2⟩
  | nil => trivial
  | cons i v next hi hv hnext =>
    rename_i hus
    exact ⟨hi hus.1, hv hus.2.1, hnext hus.2.2⟩

def byteAt (i : Nat) : Expr := .read { name := "x", size := 4 } .nil (const i 32)

theorem byteAt_sized (i : Nat) : Throughout Sized (byteAt i) := by
  have hbyte : 0 < 8 ∧ 8 ≤ 64 := by decide
  have hindex : 0 < 32 ∧ 32 ≤ 64 := by decide
  exact ⟨hbyte, trivial, hindex⟩

theorem byteAt_typed (i : Nat) : (byteAt i).WellTyped := ⟨trivial, trivial, rfl⟩

/-- A word of four bytes, as it is read from memory. -/
def fourBytes : Expr :=
  .concat (byteAt 3) (.concat (byteAt 2) (.concat (byteAt 1) (byteAt 0)))

end ExprRangeEvaluator

end Encider
