import Mathlib

/-! A memory of bytes, in which numbers of several bytes are stored in either byte order. -/

abbrev Bytes := Nat → BitVec 8

namespace Bytes

/-- The place of the `i`-th byte, the least significant first, of a number of `n` bytes. -/
def lane (little : Bool) (n i : Nat) : Nat := if little then i else n - i - 1

/-- The number in the `n` bytes at `a`. -/
def load (little : Bool) (n : Nat) (m : Bytes) (a : Nat) : Nat :=
  ∑ i ∈ Finset.range n, (m (a + lane little n i)).toNat * 2 ^ (8 * i)

/-- The memory once the `k` least significant of the `n` bytes of `v` are stored at `a`. -/
def storeFirst (little : Bool) (n : Nat) (m : Bytes) (a v k : Nat) : Bytes := fun b =>
  if a ≤ b ∧ b < a + n ∧ lane little n (b - a) < k then
    BitVec.ofNat 8 (v >>> (8 * lane little n (b - a)))
  else m b

/-- The memory once the `n` bytes of `v` are stored at `a`. -/
def store (little : Bool) (n : Nat) (m : Bytes) (a v : Nat) : Bytes := fun b =>
  if a ≤ b ∧ b < a + n then BitVec.ofNat 8 (v >>> (8 * lane little n (b - a))) else m b

section
variable {little : Bool} {n i k : Nat}

theorem lane_lt (h : i < n) : lane little n i < n := by
  unfold lane
  split <;> omega

theorem lane_lane (h : i < n) : lane little n (lane little n i) = i := by
  unfold lane
  split <;> omega

variable (m : Bytes) (a v : Nat)

theorem storeFirst_zero : storeFirst little n m a v 0 = m := by
  funext b
  simp [storeFirst]

theorem storeFirst_all : storeFirst little n m a v n = store little n m a v := by
  funext b
  unfold storeFirst store
  refine if_congr ?_ rfl rfl
  constructor
  · intro h
    exact ⟨h.1, h.2.1⟩
  · intro h
    exact ⟨h.1, h.2, lane_lt (by omega)⟩

/-- The next byte goes to its lane. -/
theorem storeFirst_succ (hk : k < n) : storeFirst little n m a v (k + 1) =
    Function.update (storeFirst little n m a v k) (a + lane little n k)
      (BitVec.ofNat 8 (v >>> (8 * k))) := by
  funext b
  have hlt : lane little n k < n := lane_lt hk
  by_cases hb : b = a + lane little n k
  · subst hb
    have hlane : lane little n (a + lane little n k - a) = k := by
      rw [Nat.add_sub_cancel_left, lane_lane hk]
    rw [Function.update_self, storeFirst, hlane, if_pos ⟨by omega, by omega, by omega⟩]
  · rw [Function.update_of_ne hb]
    unfold storeFirst
    refine if_congr ?_ rfl rfl
    have hne : a ≤ b → b < a + n → lane little n (b - a) ≠ k := by
      intro hab hbn he
      have hback : lane little n (lane little n (b - a)) = b - a := lane_lane (by omega)
      rw [he] at hback
      omega
    constructor
    · intro ⟨hab, hbn, hl⟩
      have := hne hab hbn
      exact ⟨hab, hbn, by omega⟩
    · intro ⟨hab, hbn, hl⟩
      exact ⟨hab, hbn, by omega⟩

theorem store_one : store little 1 m a v = Function.update m a (BitVec.ofNat 8 v) := by
  have hlane : lane little 1 0 = 0 := Nat.lt_one_iff.mp (lane_lt Nat.one_pos)
  rw [← storeFirst_all, storeFirst_succ m a v Nat.one_pos, storeFirst_zero, hlane]
  rfl

end

end Bytes
