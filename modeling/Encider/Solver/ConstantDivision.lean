import Encider.Lib.SingleBit

/-! `ConstantDivision.cpp`: the constants that stand for a multiplication. -/

namespace Encider

namespace bits32

/-- `none` is a failed assertion. -/
def indexOfSingleBit (x : BitVec 32) : Option ℕ := do
  guard (x &&& (x - 1) = 0)
  let res := (if x &&& 0xFFFF0000 ≠ 0 then 16 else 0) + (if x &&& 0xFF00FF00 ≠ 0 then 8 else 0) +
    (if x &&& 0xF0F0F0F0 ≠ 0 then 4 else 0) + (if x &&& 0xCCCCCCCC ≠ 0 then 2 else 0) +
    (if x &&& 0xAAAAAAAA ≠ 0 then 1 else 0)
  guard (res < 32)
  guard (1#32 <<< res = x)
  return res

end bits32

namespace bits64

def isolateRightmostBit (x : BitVec 64) : BitVec 64 := x &&& -x

def isPowerOfTwo (x : BitVec 64) : Bool := x != 0 && x &&& (x - 1) == 0

def indexOfSingleBit (x : BitVec 64) : Option ℕ := do
  guard (x &&& (x - 1) = 0)
  let low ← bits32.indexOfSingleBit ((x ||| x >>> 32).setWidth 32)
  let res := if x &&& 0xFFFFFFFF <<< 32 ≠ 0 then low + 32 else low
  guard (res < 64)
  guard (1#64 <<< res = x)
  return res

def indexOfRightmostBit (x : BitVec 64) : Option ℕ := indexOfSingleBit (isolateRightmostBit x)

def truncateToNBits (x : BitVec 64) (n : ℕ) : Option (BitVec 64) := do
  guard (0 < n ∧ n ≤ 64)
  return x &&& (BitVec.allOnes 64 >>> (64 - n))

theorem indexOfSingleBit_one_shiftLeft {i : ℕ} (hi : i < 64) :
    indexOfSingleBit (1#64 <<< i) = some i := by
  have h : ∀ i : Fin 64, indexOfSingleBit (1#64 <<< (i : ℕ)) = some (i : ℕ) := by decide +kernel
  exact h ⟨i, hi⟩

end bits64

namespace ConstantDivision

/-- The variables of the loop of `ComputeMultConstants64`. -/
structure Parts where
  x : BitVec 64
  add : BitVec 64
  sub : BitVec 64
deriving DecidableEq

/-- `- (1 << low)`, or `+(1 << (low-1)) - (1 << low)` as `-(1 << (low-1))`. -/
def subLow (add sub : BitVec 64) (low : ℕ) : BitVec 64 × BitVec 64 :=
  let lowbit := 1#64 <<< low
  if low ≠ 0 ∧ add &&& (lowbit >>> 1) ≠ 0 then (add ^^^ (lowbit >>> 1), sub ^^^ (lowbit >>> 1))
  else (add, sub ||| lowbit)

/-- The constants with a run of ones from `low` up to `high`. -/
def addRun (add sub : BitVec 64) (low high : ℕ) : BitVec 64 × BitVec 64 :=
  if high = low + 1 then (add ||| 1#64 <<< low, sub)
  else
    let (add, sub) := subLow add sub low
    (if high ≠ 64 then add ||| 1#64 <<< high else add, sub)

/-- `q ? indexOfSingleBit(q) : 64` -/
def endOfRun (q : BitVec 64) : Option ℕ := if q ≠ 0 then bits64.indexOfSingleBit q else some 64

/-- One turn of the loop, for the lowest run of ones of `x`. -/
def Parts.turn (s : Parts) : Option Parts := do
  let low ← bits64.indexOfRightmostBit s.x
  let p := s.x + 1#64 <<< low
  let q := bits64.isolateRightmostBit p
  let high ← endOfRun q
  let (add, sub) := addRun s.add s.sub low high
  return { x := p ^^^ q, add := add, sub := sub }

/-- `while (x)`, for at most so many turns; `none` also where they do not suffice. -/
def Parts.loop : ℕ → Parts → Option Parts
  | 0, s => if s.x = 0 then some s else none
  | n + 1, s => if s.x = 0 then some s else s.turn.bind (loop n)

/-- `ComputeMultConstants64` with so many turns of its loop. -/
def computeMultConstants64 (turns : ℕ) (multiplicand : BitVec 64) :
    Option (BitVec 64 × BitVec 64) := do
  let s ← Parts.loop turns { x := multiplicand, add := 0, sub := 0 }
  guard (multiplicand = s.add - s.sub)
  return (s.add, s.sub)

open SingleBit

/-- Constants that have no bit in common, and none from bit `k` up. -/
structure Below (k : ℕ) (add sub : BitVec 64) : Prop where
  apart : ∀ j, (add.getLsbD j && sub.getLsbD j) = false
  add : ∀ j, k ≤ j → add.getLsbD j = false
  sub : ∀ j, k ≤ j → sub.getLsbD j = false

variable {add sub add' sub' : BitVec 64} {k low high : ℕ}

theorem one_shiftLeft_succ (i : ℕ) : 1#64 <<< (i + 1) = 1#64 <<< i + 1#64 <<< i := by
  rw [BitVec.shiftLeft_add, ← BitVec.two_mul, BitVec.shiftLeft_eq_mul_twoPow _ 1, BitVec.mul_comm]
  rfl

theorem Below.mono {k' : ℕ} (h : Below k add sub) (hk : k ≤ k') : Below k' add sub where
  apart := h.apart
  add := fun j hj => h.add j (hk.trans hj)
  sub := fun j hj => h.sub j (hk.trans hj)

theorem Below.add_bit (h : Below k add sub) (hk : k < 64) :
    Below (k + 1) (add ||| 1#64 <<< k) sub where
  apart := by
    intro j
    rw [BitVec.getLsbD_or, getLsbD_one_shiftLeft hk]
    by_cases hj : k = j
    · simp [h.sub j (Nat.le_of_eq hj)]
    · simpa [hj] using h.apart j
  add := by
    intro j hj
    rw [BitVec.getLsbD_or, getLsbD_one_shiftLeft hk, h.add j (by omega)]
    exact decide_eq_false (by omega)
  sub := fun j hj => h.sub j (by omega)

theorem Below.swap (h : Below k add sub) : Below k sub add where
  apart := fun j => by rw [Bool.and_comm]; exact h.apart j
  add := h.sub
  sub := h.add

/-- Moving a bit from the one constant to the other. -/
theorem Below.move_bit (h : Below (k + 1) add sub) (hk : k < 64) (hb : add.getLsbD k = true) :
    Below (k + 1) (add ^^^ 1#64 <<< k) (sub ^^^ 1#64 <<< k) where
  apart := by
    intro j
    have hj := h.apart j
    rw [BitVec.getLsbD_xor, BitVec.getLsbD_xor, getLsbD_one_shiftLeft hk]
    by_cases hkj : k = j
    · subst hkj
      simp [hb]
    · simpa [hkj] using hj
  add := by
    intro j hj
    rw [BitVec.getLsbD_xor, getLsbD_one_shiftLeft hk, h.add j hj]
    simp
    omega
  sub := by
    intro j hj
    rw [BitVec.getLsbD_xor, getLsbD_one_shiftLeft hk, h.sub j hj]
    simp
    omega

theorem subLow_spec (h : Below low add sub) (hl : low < 64)
    (hs : subLow add sub low = (add', sub')) :
    Below (low + 1) add' sub' ∧ add' - sub' = add - sub - 1#64 <<< low := by
  unfold subLow at hs
  dsimp only at hs
  split at hs
  · next hc =>
    obtain ⟨l, rfl⟩ := Nat.exists_eq_succ_of_ne_zero hc.1
    have hlow : (1#64 <<< (l + 1)) >>> 1 = 1#64 <<< l := by
      apply BitVec.eq_of_getLsbD_eq
      intro j _
      rw [BitVec.getLsbD_ushiftRight, getLsbD_one_shiftLeft hl, getLsbD_one_shiftLeft (by omega)]
      exact decide_eq_decide.mpr (by omega)
    simp only [Nat.succ_eq_add_one, hlow] at hc hs
    have hb := (and_ne_zero (by omega)).mp hc.2
    have hb' := h.apart l
    rw [hb, Bool.true_and] at hb'
    cases hs
    refine ⟨(h.move_bit (by omega) hb).mono (by omega), ?_⟩
    rw [xor_of_true (by omega) hb, xor_of_false (by omega) hb', Nat.succ_eq_add_one,
      one_shiftLeft_succ]
    ring
  · cases hs
    refine ⟨(h.swap.add_bit hl).swap, ?_⟩
    rw [or_of_false hl (h.sub low (Nat.le_refl _))]
    ring

theorem addRun_spec (h : Below low add sub) (hlh : low < high) (hh : high ≤ 64)
    (hs : addRun add sub low high = (add', sub')) :
    Below (high + 1) add' sub' ∧ add' - sub' = add - sub + 1#64 <<< high - 1#64 <<< low := by
  unfold addRun at hs
  split at hs
  · next he =>
    cases hs
    subst he
    refine ⟨(h.add_bit (by omega)).mono (by omega), ?_⟩
    rw [or_of_false (by omega) (h.add low (Nat.le_refl _)), one_shiftLeft_succ]
    ring
  · obtain ⟨hb, ht⟩ := subLow_spec h (by omega) (Prod.mk.eta (p := subLow add sub low)).symm
    generalize subLow add sub low = r at hs hb ht
    have hb := hb.mono hlh
    cases hs
    split
    · have hlt : high < 64 := by omega
      refine ⟨hb.add_bit hlt, ?_⟩
      rw [or_of_false hlt (hb.add high (Nat.le_refl _)), add_sub_right_comm, ht]
      ring
    · next h64 =>
      rw [not_not] at h64
      subst h64
      refine ⟨hb.mono (by omega), ht.trans ?_⟩
      simp

/-- The constants hold what has left `x`, in bits below `k`, which `x` has no more. -/
structure Parts.Split (multiplicand : BitVec 64) (k : ℕ) (s : Parts) : Prop where
  total : s.add - s.sub + s.x = multiplicand
  clear : ∀ j < k, s.x.getLsbD j = false
  below : Below k s.add s.sub

/-- Where the run ends: `q` is the bit above it, which leaves `x`. -/
theorem run_end {x : BitVec 64} (h : IsLowest x low) : ∃ high, low < high ∧ high ≤ 64 ∧
    (let p := x + 1#64 <<< low
     let q := bits64.isolateRightmostBit p
     endOfRun q = some high ∧
      p ^^^ q = p - 1#64 <<< high ∧ ∀ j < high + 1, (p ^^^ q).getLsbD j = false) := by
  have hclear := h.add_clear
  unfold bits64.isolateRightmostBit endOfRun
  generalize x + 1#64 <<< low = p at hclear
  by_cases hp : p = 0
  · subst hp
    exact ⟨64, h.lt, Nat.le_refl _, by simp⟩
  · obtain ⟨high, hhigh⟩ := exists_isLowest hp
    have hlt := hhigh.lt
    have hle : low < high := by
      by_contra hno
      have hb := hhigh.bit
      rw [hclear high (by omega)] at hb
      cases hb
    refine ⟨high, hle, hlt.le, ?_⟩
    dsimp only
    rw [hhigh.and_neg, if_pos (one_shiftLeft_ne_zero hlt)]
    refine ⟨bits64.indexOfSingleBit_one_shiftLeft hlt, xor_of_true hlt hhigh.bit, ?_⟩
    intro j hj
    rw [BitVec.getLsbD_xor, getLsbD_one_shiftLeft hlt]
    rcases Nat.lt_or_eq_of_le (Nat.le_of_lt_succ hj) with hlow | rfl
    · simp [hhigh.below j hlow, Nat.ne_of_gt hlow]
    · simp [hhigh.bit]

theorem Parts.Split.turn {multiplicand : BitVec 64} {s : Parts} (h : s.Split multiplicand k)
    (hx : s.x ≠ 0) : ∃ s', s.turn = some s' ∧ ∃ k' > k, s'.Split multiplicand k' := by
  obtain ⟨low, hlow⟩ := exists_isLowest hx
  have hk : k ≤ low := by
    by_contra hno
    have hb := hlow.bit
    rw [h.clear low (by omega)] at hb
    cases hb
  obtain ⟨high, hlt, hle, hhigh, hxor, hclear⟩ := run_end hlow
  obtain ⟨hbelow, htotal⟩ := addRun_spec (h.below.mono hk) hlt hle Prod.mk.eta.symm
  have hindex : bits64.indexOfRightmostBit s.x = some low := by
    unfold bits64.indexOfRightmostBit bits64.isolateRightmostBit
    rw [hlow.and_neg]
    exact bits64.indexOfSingleBit_one_shiftLeft hlow.lt
  refine ⟨{
    x := s.x + 1#64 <<< low ^^^ bits64.isolateRightmostBit (s.x + 1#64 <<< low)
    add := (addRun s.add s.sub low high).1
    sub := (addRun s.add s.sub low high).2 }, ?_, high + 1, by omega, ?_, hclear, hbelow⟩
  · unfold Parts.turn
    simp only [hindex, Option.bind_eq_bind, Option.bind_some, hhigh]
    rfl
  · rw [hxor, htotal, ← h.total]
    ring

theorem Parts.Split.eq_zero {multiplicand : BitVec 64} {s : Parts} (h : s.Split multiplicand k)
    (hk : 64 ≤ k) : s.x = 0 :=
  BitVec.eq_of_getLsbD_eq fun j hj => by
    rw [h.clear j (by omega), BitVec.ofNat_eq_ofNat, BitVec.getLsbD_zero]

theorem Parts.Split.loop {multiplicand : BitVec 64} (turns : ℕ) {s : Parts}
    (h : s.Split multiplicand k) (hk : 64 ≤ k + turns) :
    ∃ s', s.loop turns = some s' ∧ s'.x = 0 ∧ ∃ k', s'.Split multiplicand k' := by
  induction turns generalizing s k with
  | zero =>
    have hx := h.eq_zero hk
    exact ⟨s, if_pos hx, hx, k, h⟩
  | succ n ih =>
    unfold Parts.loop
    by_cases hx : s.x = 0
    · exact ⟨s, if_pos hx, hx, k, h⟩
    · obtain ⟨s₁, hturn, k₁, hk₁, h₁⟩ := h.turn hx
      rw [if_neg hx, hturn, Option.bind_some]
      exact ih h₁ (by omega)

theorem Parts.loop_mono {n : ℕ} {s s' : Parts} (h : s.loop n = some s') :
    s.loop (n + 1) = some s' := by
  induction n generalizing s with
  | zero =>
    unfold Parts.loop at h ⊢
    split at h
    · next hx => rwa [if_pos hx]
    · cases h
  | succ n ih =>
    unfold Parts.loop at h ⊢
    by_cases hx : s.x = 0
    · rwa [if_pos hx] at h ⊢
    · rw [if_neg hx] at h ⊢
      obtain ⟨s₁, h₁, h⟩ := Option.bind_eq_some_iff.mp h
      rw [h₁, Option.bind_some]
      exact ih h

/-- The loop ends, and its constants stand for the multiplicand. -/
theorem computeMultConstants64_spec (x : BitVec 64) :
    ∃ add sub, (∀ turns ≥ 64, computeMultConstants64 turns x = some (add, sub)) ∧ add - sub = x ∧
      add &&& sub = 0 := by
  have hstart : Parts.Split x 0 { x := x, add := 0, sub := 0 } :=
    ⟨by simp, fun _ hj => absurd hj (Nat.not_lt_zero _), ⟨by simp, by simp, by simp⟩⟩
  obtain ⟨s, hloop, hx, k, h⟩ := hstart.loop 64 (Nat.le_refl _)
  have htotal := h.total
  rw [hx, BitVec.ofNat_eq_ofNat, BitVec.add_zero] at htotal
  refine ⟨s.add, s.sub, fun turns ht => ?_, htotal, ?_⟩
  · have hloop' : Parts.loop turns { x := x, add := 0, sub := 0 } = some s := by
      induction turns, ht using Nat.le_induction with
      | base => exact hloop
      | succ n _ ih => exact Parts.loop_mono ih
    unfold computeMultConstants64
    rw [hloop', Option.bind_eq_bind, Option.bind_some, htotal]
    simp
  · apply BitVec.eq_of_getLsbD_eq
    intro j _
    rw [BitVec.getLsbD_and, h.below.apart, BitVec.ofNat_eq_ofNat, BitVec.getLsbD_zero]

end ConstantDivision
end Encider
