import Encider.Solver.BitBounds

/-! The ranges of words that the fast counterexample solver computes with. -/

namespace Encider

open BitBounds

namespace Bits64

/-- `none` is a failed assertion. -/
def maxValueOfNBits (n : Nat) : Option (BitVec 64) :=
  if n ≤ 64 then
    if n = 0 then some 0 else some ((-1 : BitVec 64) >>> (64 - n))
  else none

def withoutRightmostBit (x : BitVec 64) : BitVec 64 := x &&& (x - 1)

def isPowerOfTwo (x : BitVec 64) : Bool :=
  if x = 0 then false else decide (x &&& (x - 1) = 0)

end Bits64

open Bits64

/-- The words from `m_min` to `m_max`, none where `m_max` is the lower one. -/
structure ValueRange where
  m_min : BitVec 64
  m_max : BitVec 64
deriving DecidableEq, Repr

namespace ValueRange

/-- `ValueRange()`. -/
def empty : ValueRange := ⟨1, 0⟩

def ofValue (value : BitVec 64) : ValueRange := ⟨value, value⟩

/-- The range of a constant, by `getLimitedValue`. -/
def ofConstant {w : Nat} (ce : BitVec w) : ValueRange :=
  ofValue (BitVec.ofNat 64 (min ce.toNat (2 ^ 64 - 1)))

def isEmpty (r : ValueRange) : Bool := decide (r.m_max < r.m_min)

def isFixed (r : ValueRange) : Bool := decide (r.m_min = r.m_max)

def isFullRange (r : ValueRange) (bits : Nat) : Option Bool :=
  if r.m_min = 0 then (maxValueOfNBits bits).map fun m => decide (r.m_max = m) else some false

def setIntersection (r b : ValueRange) : ValueRange where
  m_min := if r.m_min < b.m_min then b.m_min else r.m_min
  m_max := if b.m_max < r.m_max then b.m_max else r.m_max

def setUnion (r b : ValueRange) : ValueRange where
  m_min := if b.m_min < r.m_min then b.m_min else r.m_min
  m_max := if r.m_max < b.m_max then b.m_max else r.m_max

def intersects (r b : ValueRange) : Bool := !(r.setIntersection b).isEmpty

def binaryAnd (r b : ValueRange) : Option ValueRange :=
  if r.isEmpty ∨ b.isEmpty then none
  else if r.isFixed ∧ b.isFixed then some (ofValue (r.m_min &&& b.m_min))
  else some ⟨minAND r.m_min r.m_max b.m_min b.m_max, maxAND r.m_min r.m_max b.m_min b.m_max⟩

def binaryOr (r b : ValueRange) : Option ValueRange :=
  if r.isEmpty ∨ b.isEmpty then none
  else if r.isFixed ∧ b.isFixed then some (ofValue (r.m_min ||| b.m_min))
  else some ⟨minOR r.m_min r.m_max b.m_min b.m_max, maxOR r.m_min r.m_max b.m_min b.m_max⟩

theorem withoutRightmostBit_lt {t : BitVec 64} (h : t ≠ 0) :
    (withoutRightmostBit t).toNat < t.toNat := by
  have hpos : 0 < t.toNat := Nat.pos_of_ne_zero fun h0 => h (BitVec.eq_of_toNat_eq h0)
  have hpred : (t - 1).toNat = t.toNat - 1 := by
    have hlt := t.isLt
    rw [BitVec.toNat_sub, show (1 : BitVec 64).toNat = 1 from rfl]
    omega
  rw [withoutRightmostBit, BitVec.toNat_and, hpred]
  exact Nat.and_le_right.trans_lt (Nat.sub_lt hpos Nat.one_pos)

/-- The loop of `binaryXor`, which does not end at zero. -/
def leftmostBit (t : BitVec 64) : Option (BitVec 64) :=
  if isPowerOfTwo t then some t
  else if h : t = 0 then none
  else
    have := withoutRightmostBit_lt h
    leftmostBit (withoutRightmostBit t)
termination_by t.toNat

def binaryXor (r b : ValueRange) : Option ValueRange :=
  if r.isFixed ∧ b.isFixed then some (ofValue (r.m_min ^^^ b.m_min))
  else do
    let t ← leftmostBit (r.m_max ||| b.m_max)
    return ⟨0, (t <<< 1) - 1⟩

def binaryShiftLeft (r : ValueRange) (bits : Nat) : ValueRange :=
  ⟨r.m_min <<< bits, r.m_max <<< bits⟩

def concat (r b : ValueRange) (bits : Nat) : Option ValueRange :=
  (r.binaryShiftLeft bits).binaryOr b

/-- All words of a width. -/
def full (width : Nat) : Option ValueRange := (maxValueOfNBits width).map fun m => ⟨0, m⟩

def add (_ _ : ValueRange) (width : Nat) : Option ValueRange := full width

def sub (_ _ : ValueRange) (width : Nat) : Option ValueRange := full width

def mul (_ _ : ValueRange) (width : Nat) : Option ValueRange := full width

def udiv (_ _ : ValueRange) (width : Nat) : Option ValueRange := full width

def sdiv (_ _ : ValueRange) (width : Nat) : Option ValueRange := full width

def urem (_ _ : ValueRange) (width : Nat) : Option ValueRange := full width

def srem (_ _ : ValueRange) (width : Nat) : Option ValueRange := full width

/-- `mustEqual` of a word. -/
def mustBe (r : ValueRange) (b : BitVec 64) : Bool := decide (r.m_min = r.m_max ∧ r.m_min = b)

def mustEqual (r b : ValueRange) : Bool := r.isFixed && b.isFixed && decide (r.m_min = b.m_min)

def mayEqual (r b : ValueRange) : Bool := r.intersects b

def min (r : ValueRange) : Option (BitVec 64) := if r.isEmpty then none else some r.m_min

def max (r : ValueRange) : Option (BitVec 64) := if r.isEmpty then none else some r.m_max

/-- `ints::sext` to 64 bits. -/
def sext (l : BitVec 64) (inWidth : Nat) : BitVec 64 :=
  (l <<< (64 - inWidth)).sshiftRight (64 - inWidth)

/-- The assertion of the signed bounds; shifts by 64 and more are undefined, as by `bits - 1`. -/
def within (r : ValueRange) (bits : Nat) : Bool :=
  decide (0 < bits ∧ bits < 64 ∧ r.m_min >>> bits = 0 ∧ r.m_max >>> bits = 0)

def minSigned (r : ValueRange) (bits : Nat) : Option Int :=
  if r.within bits then
    let smallest := 1#64 <<< (bits - 1)
    some (if smallest ≤ r.m_max then (sext smallest bits).toInt else r.m_min.toInt)
  else none

def maxSigned (r : ValueRange) (bits : Nat) : Option Int :=
  if r.within bits then
    let smallest := 1#64 <<< (bits - 1)
    some (if r.m_min < smallest ∧ smallest ≤ r.m_max then (smallest - 1).toInt
      else (sext r.m_max bits).toInt)
  else none

/-- The number is in the range. -/
def Contains (r : ValueRange) (n : Nat) : Prop := r.m_min.toNat ≤ n ∧ n ≤ r.m_max.toNat

/-- There are words in the range, all of them of the width. -/
structure Fits (r : ValueRange) (w : Nat) : Prop where
  nonempty : r.m_min.toNat ≤ r.m_max.toNat
  below : r.m_max.toNat < 2 ^ w

variable {r b : ValueRange} {w x y n : Nat}

/-! Sets -/

theorem contains_ofValue {v : BitVec 64} : (ofValue v).Contains n ↔ v.toNat = n := by
  constructor
  · intro h
    exact Nat.le_antisymm h.1 h.2
  · rintro rfl
    exact ⟨Nat.le_refl _, Nat.le_refl _⟩

theorem fits_ofValue {v : BitVec 64} (h : v.toNat < 2 ^ w) : (ofValue v).Fits w :=
  ⟨Nat.le_refl _, h⟩

theorem Fits.contains_min (h : r.Fits w) : r.Contains r.m_min.toNat := ⟨Nat.le_refl _, h.nonempty⟩

theorem Fits.mono (h : r.Fits w) {w' : Nat} (hw : w ≤ w') : r.Fits w' :=
  ⟨h.nonempty, h.below.trans_le (Nat.pow_le_pow_right (by omega) hw)⟩

theorem Fits.not_isEmpty (h : r.Fits w) : r.isEmpty = false := by
  have hle := h.nonempty
  simp only [isEmpty, BitVec.lt_def, decide_eq_false_iff_not]
  omega

theorem eq_of_isFixed (h : r.isFixed = true) : r = ofValue r.m_min := by
  obtain ⟨low, high⟩ := r
  obtain rfl : low = high := of_decide_eq_true h
  rfl

theorem eq_of_mustEqual (h : r.mustEqual b = true) (hx : r.Contains x) (hy : b.Contains y) :
    x = y := by
  simp only [mustEqual, Bool.and_eq_true, decide_eq_true_eq] at h
  obtain ⟨⟨hr, hb⟩, hmin⟩ := h
  rw [eq_of_isFixed hr, contains_ofValue] at hx
  rw [eq_of_isFixed hb, contains_ofValue] at hy
  rw [← hx, ← hy, hmin]

theorem eq_of_mustBe {v : BitVec 64} (h : r.mustBe v = true) (hx : r.Contains x) :
    x = v.toNat := by
  obtain ⟨hfix, rfl⟩ := of_decide_eq_true h
  rw [eq_of_isFixed (decide_eq_true hfix), contains_ofValue] at hx
  exact hx.symm

theorem mayEqual_of_contains (hr : r.Contains n) (hb : b.Contains n) : r.mayEqual b = true := by
  obtain ⟨hr1, hr2⟩ := hr
  obtain ⟨hb1, hb2⟩ := hb
  simp only [mayEqual, intersects, isEmpty, setIntersection, Bool.not_eq_true',
    decide_eq_false_iff_not, BitVec.lt_def]
  split
  · split
    · omega
    · omega
  · split
    · omega
    · omega

theorem Contains.union_left (h : r.Contains n) : (r.setUnion b).Contains n := by
  obtain ⟨h1, h2⟩ := h
  simp only [Contains, setUnion, BitVec.lt_def]
  constructor
  · split
    · omega
    · omega
  · split
    · omega
    · omega

theorem Contains.union_right (h : b.Contains n) : (r.setUnion b).Contains n := by
  obtain ⟨h1, h2⟩ := h
  simp only [Contains, setUnion, BitVec.lt_def]
  constructor
  · split
    · omega
    · omega
  · split
    · omega
    · omega

/-- The range before may be the empty one that a read starts from. -/
theorem Fits.union (h : b.Fits w) (hr : r.m_max.toNat < 2 ^ w) : (r.setUnion b).Fits w := by
  obtain ⟨h1, h2⟩ := h
  constructor
  · exact (Contains.union_right (r := r) ⟨h1, Nat.le_refl _⟩).1.trans
      (Contains.union_right (r := r) ⟨h1, Nat.le_refl _⟩).2
  · simp only [setUnion]
    split
    · exact h2
    · exact hr

/-! Full ranges -/

theorem maxValueOfNBits_eq (h : w ≤ 64) :
    maxValueOfNBits w = some (BitVec.ofNat 64 (2 ^ w - 1)) := by
  unfold maxValueOfNBits
  rw [if_pos h]
  split
  · next h0 =>
    subst h0
    rfl
  · congr 1
    apply BitVec.eq_of_getLsbD_eq
    intro i hi
    have hones : (-1 : BitVec 64) = BitVec.allOnes 64 := by decide
    rw [hones, BitVec.getLsbD_ushiftRight, BitVec.getLsbD_allOnes, BitVec.getLsbD_ofNat,
      Nat.testBit_two_pow_sub_one]
    by_cases hw : i < w
    · have hsum : 64 - w + i < 64 := by omega
      simp [hw, hi, hsum]
    · have hsum : ¬ 64 - w + i < 64 := by omega
      simp [hw, hsum]

theorem full_eq (h : w ≤ 64) : ∃ r, full w = some r ∧ r.Fits w ∧ ∀ n < 2 ^ w, r.Contains n := by
  refine ⟨⟨0, BitVec.ofNat 64 (2 ^ w - 1)⟩, ?_, ⟨Nat.zero_le _, ?_⟩,
    fun n hn => ⟨Nat.zero_le _, ?_⟩⟩
  · rw [full, maxValueOfNBits_eq h]
    rfl
  · have hpos := Nat.two_pow_pos w
    rw [BitVec.toNat_ofNat]
    exact (Nat.mod_le _ _).trans_lt (Nat.sub_lt hpos Nat.one_pos)
  · have hle := Nat.pow_le_pow_right (n := 2) (by omega) h
    have hpos := Nat.two_pow_pos w
    rw [BitVec.toNat_ofNat, Nat.mod_eq_of_lt (by omega)]
    omega

/-! Bit operations -/

theorem Contains.lt (h : r.Contains n) : n < 2 ^ 64 := h.2.trans_lt r.m_max.isLt

/-- A number in the range, as a word. -/
theorem Contains.word (h : r.Contains n) :
    r.m_min ≤ BitVec.ofNat 64 n ∧ BitVec.ofNat 64 n ≤ r.m_max := by
  rw [BitVec.le_def, BitVec.le_def, BitVec.toNat_ofNat, Nat.mod_eq_of_lt h.lt]
  exact h

theorem ofNat_toNat (h : n < 2 ^ 64) : (BitVec.ofNat 64 n).toNat = n := by
  rw [BitVec.toNat_ofNat, Nat.mod_eq_of_lt h]

/-- The bounds of an operation that keeps to the width, where they are attained. -/
theorem bounds_of_attained {op : BitVec 64 → BitVec 64 → BitVec 64} {low high : BitVec 64}
    (hr : r.Fits w) (hb : b.Fits w)
    (hop : ∀ x y : BitVec 64, x.toNat < 2 ^ w → y.toNat < 2 ^ w → (op x y).toNat < 2 ^ w)
    (hlow : IsLeastOn op r.m_min r.m_max b.m_min b.m_max low)
    (hhigh : IsGreatestOn op r.m_min r.m_max b.m_min b.m_max high) :
    Fits ⟨low, high⟩ w ∧ ∀ x y, r.Contains x → b.Contains y →
      Contains ⟨low, high⟩ (op (BitVec.ofNat 64 x) (BitVec.ofNat 64 y)).toNat := by
  have hcontains : ∀ x y, r.Contains x → b.Contains y →
      Contains ⟨low, high⟩ (op (BitVec.ofNat 64 x) (BitVec.ofNat 64 y)).toNat := by
    intro x y hx hy
    constructor
    · exact BitVec.le_def.mp (hlow.2 _ _ hx.word.1 hx.word.2 hy.word.1 hy.word.2)
    · exact BitVec.le_def.mp (hhigh.2 _ _ hx.word.1 hx.word.2 hy.word.1 hy.word.2)
  refine ⟨⟨?_, ?_⟩, hcontains⟩
  · have h := hcontains _ _ hr.contains_min hb.contains_min
    exact h.1.trans h.2
  · obtain ⟨x, y, -, hx, -, hy, rfl⟩ := hhigh.1
    exact hop x y ((BitVec.le_def.mp hx).trans_lt hr.below)
      ((BitVec.le_def.mp hy).trans_lt hb.below)

/-- An operation bit by bit: fixed ranges give the result, others its bounds. -/
theorem bitwise_eq {op : BitVec 64 → BitVec 64 → BitVec 64} {f : Nat → Nat → Nat}
    {low high : BitVec 64} (hr : r.Fits w) (hb : b.Fits w)
    (hf : ∀ x y, (op x y).toNat = f x.toNat y.toNat)
    (hlt : ∀ x y, x < 2 ^ w → y < 2 ^ w → f x y < 2 ^ w)
    (hlow : IsLeastOn op r.m_min r.m_max b.m_min b.m_max low)
    (hhigh : IsGreatestOn op r.m_min r.m_max b.m_min b.m_max high) :
    ∃ s, (if r.isEmpty ∨ b.isEmpty then none
      else if r.isFixed ∧ b.isFixed then some (ofValue (op r.m_min b.m_min))
      else some ⟨low, high⟩) = some s ∧ s.Fits w ∧
      ∀ x y, r.Contains x → b.Contains y → s.Contains (f x y) := by
  have hop : ∀ x y : BitVec 64, x.toNat < 2 ^ w → y.toNat < 2 ^ w → (op x y).toNat < 2 ^ w := by
    intro x y hx hy
    rw [hf]
    exact hlt _ _ hx hy
  rw [if_neg (by simp [hr.not_isEmpty, hb.not_isEmpty])]
  split
  · next hfix =>
    refine ⟨_, rfl, fits_ofValue (hop _ _ (hr.nonempty.trans_lt hr.below)
      (hb.nonempty.trans_lt hb.below)), fun x y hx hy => ?_⟩
    rw [eq_of_isFixed hfix.1, contains_ofValue] at hx
    rw [eq_of_isFixed hfix.2, contains_ofValue] at hy
    rw [contains_ofValue, hf, hx, hy]
  · obtain ⟨hfits, hcontains⟩ := bounds_of_attained hr hb hop hlow hhigh
    refine ⟨_, rfl, hfits, fun x y hx hy => ?_⟩
    have h := hcontains x y hx hy
    rwa [hf, ofNat_toNat hx.lt, ofNat_toNat hy.lt] at h

theorem binaryOr_eq (hr : r.Fits w) (hb : b.Fits w) : ∃ s, r.binaryOr b = some s ∧ s.Fits w ∧
    ∀ x y, r.Contains x → b.Contains y → s.Contains (x ||| y) :=
  bitwise_eq hr hb BitVec.toNat_or (fun _ _ => Nat.or_lt_two_pow)
    (isLeastOn_minOR (BitVec.le_def.mpr hr.nonempty) (BitVec.le_def.mpr hb.nonempty))
    (isGreatestOn_maxOR (BitVec.le_def.mpr hr.nonempty) (BitVec.le_def.mpr hb.nonempty))

theorem binaryAnd_eq (hr : r.Fits w) (hb : b.Fits w) : ∃ s, r.binaryAnd b = some s ∧ s.Fits w ∧
    ∀ x y, r.Contains x → b.Contains y → s.Contains (x &&& y) :=
  bitwise_eq hr hb BitVec.toNat_and (fun _ _ hx _ => Nat.and_le_left.trans_lt hx)
    (isLeastOn_minAND (BitVec.le_def.mpr hr.nonempty) (BitVec.le_def.mpr hb.nonempty))
    (isGreatestOn_maxAND (BitVec.le_def.mpr hr.nonempty) (BitVec.le_def.mpr hb.nonempty))

/-- A number above its leftmost bit keeps this bit when the rightmost one goes. -/
theorem le_and_pred {k t : Nat} (h : 2 ^ k < t) (h' : t < 2 ^ (k + 1)) :
    2 ^ k ≤ t &&& (t - 1) := by
  have ht := Nat.testBit_of_two_pow_le_and_two_pow_add_one_gt h.le h'
  have hpred := Nat.testBit_of_two_pow_le_and_two_pow_add_one_gt (n := t - 1) (i := k) (by omega)
    (by omega)
  apply Nat.ge_two_pow_of_testBit
  rw [Nat.testBit_and, ht, hpred]
  rfl

theorem pred_toNat {t : BitVec 64} (h : 0 < t.toNat) : (t - 1).toNat = t.toNat - 1 := by
  have hlt := t.isLt
  rw [BitVec.toNat_sub, show (1 : BitVec 64).toNat = 1 from rfl]
  omega

theorem leftmostBit_eq {k : Nat} (t : BitVec 64) (h : 2 ^ k ≤ t.toNat)
    (h' : t.toNat < 2 ^ (k + 1)) : ∃ s, leftmostBit t = some s ∧ s.toNat = 2 ^ k := by
  induction hn : t.toNat using Nat.strong_induction_on generalizing t with
  | _ n ih =>
    subst hn
    have hpos : 0 < t.toNat := (Nat.two_pow_pos k).trans_le h
    have hne : t ≠ 0 := by
      rintro rfl
      exact Nat.lt_irrefl 0 hpos
    have hand : (t &&& (t - 1)).toNat = t.toNat &&& (t.toNat - 1) := by
      rw [BitVec.toNat_and, pred_toNat hpos]
    unfold leftmostBit
    by_cases hlt : 2 ^ k < t.toNat
    · have hle := le_and_pred hlt h'
      have htwo : ¬ isPowerOfTwo t = true := by
        unfold isPowerOfTwo
        rw [if_neg hne, decide_eq_true_eq]
        intro h0
        rw [← hand, h0] at hle
        exact absurd hle (Nat.not_le.mpr (Nat.two_pow_pos k))
      rw [if_neg htwo, dif_neg hne]
      have hdec := withoutRightmostBit_lt hne
      exact ih _ hdec _ (by rwa [withoutRightmostBit, hand]) (hdec.trans h') rfl
    · have heq : t.toNat = 2 ^ k := by omega
      have htwo : isPowerOfTwo t = true := by
        unfold isPowerOfTwo
        rw [if_neg hne, decide_eq_true_eq]
        apply BitVec.eq_of_toNat_eq
        rw [hand, heq, Nat.and_two_pow_sub_one_eq_mod]
        exact Nat.mod_self _
      exact ⟨t, if_pos htwo, heq⟩

theorem two_pow_double_pred {k : Nat} (hk : k < 64) {s : BitVec 64} (h : s.toNat = 2 ^ k) :
    ((s <<< 1) - 1).toNat = 2 ^ (k + 1) - 1 := by
  rw [BitVec.toNat_sub, BitVec.toNat_shiftLeft, h, Nat.shiftLeft_eq, ← pow_add,
    show (1 : BitVec 64).toNat = 1 from rfl]
  rcases Nat.lt_or_eq_of_le (Nat.le_of_lt_succ hk) with hlt | rfl
  · have hle : 2 ^ (k + 1) ≤ 2 ^ 63 := Nat.pow_le_pow_right (by omega) (by omega)
    have hpos := Nat.two_pow_pos (k + 1)
    omega
  · rfl

theorem binaryXor_eq (hr : r.Fits w) (hb : b.Fits w) (hw : w ≤ 64) :
    ∃ s, r.binaryXor b = some s ∧ s.Fits w ∧
      ∀ x y, r.Contains x → b.Contains y → s.Contains (x ^^^ y) := by
  unfold binaryXor
  split
  · next hfix =>
    refine ⟨_, rfl, fits_ofValue ?_, fun x y hx hy => ?_⟩
    · rw [BitVec.toNat_xor]
      exact Nat.xor_lt_two_pow (hr.nonempty.trans_lt hr.below) (hb.nonempty.trans_lt hb.below)
    · rw [eq_of_isFixed hfix.1, contains_ofValue] at hx
      rw [eq_of_isFixed hfix.2, contains_ofValue] at hy
      rw [contains_ofValue, BitVec.toNat_xor, hx, hy]
  · next hfix =>
    have hor : (r.m_max ||| b.m_max).toNat = r.m_max.toNat ||| b.m_max.toNat := BitVec.toNat_or _ _
    have hne : (r.m_max ||| b.m_max).toNat ≠ 0 := by
      rw [hor]
      intro h0
      have hr0 : r.m_max.toNat ≤ 0 := h0 ▸ Nat.left_le_or
      have hb0 : b.m_max.toNat ≤ 0 := h0 ▸ Nat.right_le_or
      have hr1 := hr.nonempty
      have hb1 := hb.nonempty
      refine hfix ⟨decide_eq_true (BitVec.eq_of_toNat_eq ?_),
        decide_eq_true (BitVec.eq_of_toNat_eq ?_)⟩
      · omega
      · omega
    have hlow := Nat.log2_self_le hne
    have hhigh := Nat.lt_log2_self (n := (r.m_max ||| b.m_max).toNat)
    obtain ⟨s, hs, hpow⟩ := leftmostBit_eq _ hlow hhigh
    have hbelow : (r.m_max ||| b.m_max).toNat < 2 ^ w := by
      rw [hor]
      exact Nat.or_lt_two_pow hr.below hb.below
    have hk : (r.m_max ||| b.m_max).toNat.log2 < w :=
      (Nat.pow_lt_pow_iff_right (by omega)).mp (hlow.trans_lt hbelow)
    have hmax := two_pow_double_pred (hk.trans_le hw) hpow
    have hle : 2 ^ ((r.m_max ||| b.m_max).toNat.log2 + 1) ≤ 2 ^ w :=
      Nat.pow_le_pow_right (by omega) hk
    have hpos := Nat.two_pow_pos ((r.m_max ||| b.m_max).toNat.log2 + 1)
    refine ⟨⟨0, (s <<< 1) - 1⟩, by rw [hs]; rfl, ⟨Nat.zero_le _, ?_⟩,
      fun x y hx hy => ⟨Nat.zero_le _, ?_⟩⟩
    · rw [hmax]
      omega
    · have hx' : x < 2 ^ ((r.m_max ||| b.m_max).toNat.log2 + 1) :=
        (hx.2.trans (hor ▸ Nat.left_le_or)).trans_lt hhigh
      have hy' : y < 2 ^ ((r.m_max ||| b.m_max).toNat.log2 + 1) :=
        (hy.2.trans (hor ▸ Nat.right_le_or)).trans_lt hhigh
      have hxor := Nat.xor_lt_two_pow hx' hy'
      rw [hmax]
      omega

/-! Concatenation -/

theorem shiftLeft_toNat {v : BitVec 64} (h : v.toNat < 2 ^ w) (hw : w + 8 ≤ 64) :
    (v <<< 8).toNat = v.toNat * 2 ^ 8 := by
  have hlt : v.toNat * 2 ^ 8 < 2 ^ (w + 8) := by
    rw [Nat.pow_add]
    exact Nat.mul_lt_mul_of_pos_right h (Nat.two_pow_pos 8)
  rw [BitVec.toNat_shiftLeft, Nat.shiftLeft_eq]
  exact Nat.mod_eq_of_lt (hlt.trans_le (Nat.pow_le_pow_right (by omega) hw))

theorem shiftLeft_spec (hr : r.Fits w) (hw : w + 8 ≤ 64) : (r.binaryShiftLeft 8).Fits (w + 8) ∧
    ∀ x, r.Contains x → (r.binaryShiftLeft 8).Contains (x <<< 8) := by
  have hmin := shiftLeft_toNat (hr.nonempty.trans_lt hr.below) hw
  have hmax := shiftLeft_toNat hr.below hw
  refine ⟨⟨?_, ?_⟩, fun x hx => ?_⟩
  · simp only [binaryShiftLeft, hmin, hmax]
    exact Nat.mul_le_mul_right _ hr.nonempty
  · simp only [binaryShiftLeft, hmax]
    rw [Nat.pow_add]
    exact Nat.mul_lt_mul_of_pos_right hr.below (Nat.two_pow_pos 8)
  · simp only [Contains, binaryShiftLeft, hmin, hmax, Nat.shiftLeft_eq]
    exact ⟨Nat.mul_le_mul_right _ hx.1, Nat.mul_le_mul_right _ hx.2⟩

/-- The first round of a concatenation starts from the range of zero. -/
theorem concat_first_eq (hr : r.Fits w) : ∃ s, (ofValue 0).concat r 8 = some s ∧ s.Fits w ∧
    ∀ x, r.Contains x → s.Contains x := by
  have hzero : (ofValue 0).binaryShiftLeft 8 = ofValue 0 := by decide
  obtain ⟨s, hs, hfits, hcontains⟩ :=
    binaryOr_eq (r := ofValue 0) (fits_ofValue (w := w) (Nat.two_pow_pos w)) hr
  refine ⟨s, by rw [concat, hzero, hs], hfits, fun x hx => ?_⟩
  have h := hcontains 0 x (contains_ofValue.mpr rfl) hx
  rwa [Nat.zero_or] at h

theorem concat_eq (hr : r.Fits w) (hb : b.Fits 8) (hw : w + 8 ≤ 64) :
    ∃ s, r.concat b 8 = some s ∧ s.Fits (w + 8) ∧
      ∀ x y, r.Contains x → b.Contains y → s.Contains (x <<< 8 ||| y) := by
  obtain ⟨hfits, hshift⟩ := shiftLeft_spec hr hw
  obtain ⟨s, hs, hfits, hcontains⟩ := binaryOr_eq hfits (hb.mono (by omega))
  exact ⟨s, hs, hfits, fun x y hx hy => hcontains _ _ (hshift x hx) hy⟩

/-! Signed bounds -/

/-- The number that a word of `w` bits stands for when it is signed. -/
def signed (w n : Nat) : Int := (BitVec.ofNat w n).toInt

theorem signed_eq (h : n < 2 ^ w) :
    signed w n = if 2 * n < 2 ^ w then (n : Int) else n - (2 ^ w : Nat) := by
  rw [signed, BitVec.toInt_eq_toNat_cond, BitVec.toNat_ofNat, Nat.mod_eq_of_lt h]

theorem two_pow_pred (h : 0 < w) : 2 ^ w = 2 * 2 ^ (w - 1) := by
  rw [← pow_succ', Nat.sub_add_cancel h]

theorem sext_toInt {v : BitVec 64} (h : v.toNat < 2 ^ w) (hw : w < 64) :
    (sext v w).toInt = signed w v.toNat := by
  have hsplit : (2 : Nat) ^ 64 = 2 ^ w * 2 ^ (64 - w) := by
    rw [← Nat.pow_add]
    congr 1
    omega
  have hpos := Nat.two_pow_pos (64 - w)
  have hlt : v.toNat * 2 ^ (64 - w) < 2 ^ 64 := by
    rw [hsplit]
    exact Nat.mul_lt_mul_of_pos_right h hpos
  have hshift : (v <<< (64 - w)).toNat = v.toNat * 2 ^ (64 - w) := by
    rw [BitVec.toNat_shiftLeft, Nat.shiftLeft_eq, Nat.mod_eq_of_lt hlt]
  have hdouble : 2 * (v.toNat * 2 ^ (64 - w)) < 2 ^ 64 ↔ 2 * v.toNat < 2 ^ w := by
    rw [hsplit, ← Nat.mul_assoc]
    exact Nat.mul_lt_mul_right hpos
  have hpow : ((2 ^ (64 - w) : Nat) : Int) ≠ 0 := by
    exact_mod_cast hpos.ne'
  rw [signed_eq h, sext, BitVec.toInt_sshiftRight, Int.shiftRight_eq_div_pow,
    BitVec.toInt_eq_toNat_cond, hshift]
  by_cases hhalf : 2 * v.toNat < 2 ^ w
  · rw [if_pos (hdouble.mpr hhalf), if_pos hhalf, Nat.cast_mul]
    exact Int.mul_ediv_cancel _ hpow
  · have hdiff : ((v.toNat * 2 ^ (64 - w) : Nat) : Int) - ((2 ^ 64 : Nat) : Int) =
        (v.toNat - (2 ^ w : Nat)) * ((2 ^ (64 - w) : Nat) : Int) := by
      rw [hsplit]
      push_cast
      ring
    rw [if_neg (mt hdouble.mp hhalf), if_neg hhalf, hdiff]
    exact Int.mul_ediv_cancel _ hpow

theorem within_of_fits (hr : r.Fits w) (h0 : 0 < w) (hw : w < 64) : r.within w = true := by
  have hzero : ∀ v : BitVec 64, v.toNat < 2 ^ w → v >>> w = 0 := by
    intro v hv
    apply BitVec.eq_of_toNat_eq
    rw [BitVec.toNat_ushiftRight, Nat.shiftRight_eq_div_pow, Nat.div_eq_of_lt hv]
    rfl
  exact decide_eq_true ⟨h0, hw, hzero _ (hr.nonempty.trans_lt hr.below), hzero _ hr.below⟩

theorem smallest_toNat (h0 : 0 < w) (hw : w < 64) :
    (1#64 <<< (w - 1)).toNat = 2 ^ (w - 1) := by
  rw [BitVec.toNat_shiftLeft, Nat.shiftLeft_eq, show (1#64).toNat = 1 from rfl, Nat.one_mul]
  exact Nat.mod_eq_of_lt (Nat.pow_lt_pow_right (by omega) (by omega))

theorem toInt_of_small {v : BitVec 64} (h : v.toNat < 2 ^ 63) : v.toInt = v.toNat := by
  rw [BitVec.toInt_eq_toNat_cond, if_pos (by omega)]

theorem minSigned_eq (hr : r.Fits w) (h0 : 0 < w) (hw : w < 64) :
    ∃ v, r.minSigned w = some v ∧ ∀ n, r.Contains n → v ≤ signed w n := by
  have hsmall := smallest_toNat h0 hw
  have hdouble := two_pow_pred h0
  have hpos := Nat.two_pow_pos (w - 1)
  have hle : 2 ^ (w - 1) ≤ 2 ^ 63 := Nat.pow_le_pow_right (by omega) (by omega)
  refine ⟨_, if_pos (within_of_fits hr h0 hw), fun n hn => ?_⟩
  have hlow := hn.1
  have hhigh := hn.2
  have hbelow := hr.below
  have hn := signed_eq (hhigh.trans_lt hbelow)
  simp only [BitVec.le_def, hsmall]
  split
  · rw [sext_toInt (by omega) hw, hsmall, signed_eq (by omega), if_neg (by omega), hn]
    split
    · omega
    · omega
  · rw [toInt_of_small (by omega), hn, if_pos (by omega)]
    exact_mod_cast hlow

theorem maxSigned_eq (hr : r.Fits w) (h0 : 0 < w) (hw : w < 64) :
    ∃ v, r.maxSigned w = some v ∧ ∀ n, r.Contains n → signed w n ≤ v := by
  have hsmall := smallest_toNat h0 hw
  have hdouble := two_pow_pred h0
  have hpos := Nat.two_pow_pos (w - 1)
  have hle : 2 ^ (w - 1) ≤ 2 ^ 63 := Nat.pow_le_pow_right (by omega) (by omega)
  refine ⟨_, if_pos (within_of_fits hr h0 hw), fun n hn => ?_⟩
  have hlow := hn.1
  have hhigh := hn.2
  have hbelow := hr.below
  have hn := signed_eq (hhigh.trans_lt hbelow)
  simp only [BitVec.le_def, BitVec.lt_def, hsmall]
  split
  · have hpred : (1#64 <<< (w - 1) - 1).toNat = 2 ^ (w - 1) - 1 := by
      rw [pred_toNat (by omega), hsmall]
    rw [toInt_of_small (by omega), hpred, hn]
    split
    · omega
    · omega
  · rw [sext_toInt hbelow hw, signed_eq hbelow, hn]
    split
    · split
      · omega
      · omega
    · split
      · omega
      · omega

end ValueRange

end Encider
