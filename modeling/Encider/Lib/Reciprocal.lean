import Mathlib

/-! Division by multiplication: `M = N / d + 1` for a large `N`, and dividing by `N`. -/

namespace Reciprocal

variable {n d N : ℕ}

theorem le_mul (hd : 0 < d) : N + 1 ≤ d * (N / d + 1) := by
  have := Nat.div_add_mod N d
  have := Nat.mod_lt N hd
  rw [Nat.mul_add, Nat.mul_one]
  omega

theorem mul_le (N d : ℕ) : d * (N / d + 1) ≤ N + d := by
  have := Nat.mul_div_le N d
  rw [Nat.mul_add, Nat.mul_one]
  omega

theorem succ_le (n : ℕ) (hd : 0 < d) : n + 1 ≤ (n / d + 1) * d :=
  Nat.succ_le_of_lt (Nat.lt_mul_of_div_lt (Nat.lt_succ_self _) hd)

/-- The product lies above the quotient and not above the next one. -/
theorem bounds (hd : 0 < d) (hn : 0 < n) (h : n * d ≤ N) :
    n / d * N < n * (N / d + 1) ∧ n * (N / d + 1) ≤ (n / d + 1) * N := by
  have hq : n / d * d ≤ n := Nat.div_mul_le_self n d
  constructor
  · by_cases h0 : n / d = 0
    · rw [h0, Nat.zero_mul]
      exact Nat.mul_pos hn (Nat.succ_pos _)
    · calc n / d * N < n / d * (d * (N / d + 1)) :=
            Nat.mul_lt_mul_of_pos_left (le_mul hd) (Nat.pos_of_ne_zero h0)
        _ = n / d * d * (N / d + 1) := by ring
        _ ≤ n * (N / d + 1) := Nat.mul_le_mul_right _ hq
  · apply Nat.le_of_mul_le_mul_left (c := d) _ hd
    calc d * (n * (N / d + 1)) = n * (d * (N / d + 1)) := by ring
      _ ≤ n * (N + d) := Nat.mul_le_mul_left _ (mul_le N d)
      _ = n * N + n * d := by ring
      _ ≤ n * N + N := Nat.add_le_add_left h _
      _ = (n + 1) * N := by ring
      _ ≤ (n / d + 1) * d * N := Nat.mul_le_mul_right _ (succ_le n hd)
      _ = d * ((n / d + 1) * N) := by ring

/-- Rounding down gives the quotient. -/
theorem mul_div (hd : 0 < d) (h : n * d < N) : n * (N / d + 1) / N = n / d := by
  rcases Nat.eq_zero_or_pos n with rfl | hn
  · simp
  have hN : 0 < N := Nat.zero_lt_of_lt h
  apply Nat.div_eq_of_lt_le (bounds hd hn h.le).1.le
  apply Nat.lt_of_mul_lt_mul_left (a := d)
  calc d * (n * (N / d + 1)) = n * (d * (N / d + 1)) := by ring
    _ ≤ n * (N + d) := Nat.mul_le_mul_left _ (mul_le N d)
    _ = n * N + n * d := by ring
    _ < n * N + N := Nat.add_lt_add_left h _
    _ = (n + 1) * N := by ring
    _ ≤ (n / d + 1) * d * N := Nat.mul_le_mul_right _ (succ_le n hd)
    _ = d * ((n / d + 1) * N) := by ring

/-- For a negative dividend rounding down and adding one gives the quotient. -/
theorem neg_mul_div (hd : 0 < d) (hn : 0 < n) (h : n * d ≤ N) :
    -((n * (N / d + 1) : ℕ) : ℤ) / (N : ℤ) + 1 = -((n / d : ℕ) : ℤ) := by
  obtain ⟨hlo, hhi⟩ := bounds hd hn h
  have hN : 0 < N := (Nat.mul_pos hn hd).trans_le h
  have hdiv : -((n * (N / d + 1) : ℕ) : ℤ) / (N : ℤ) = -((n / d : ℕ) : ℤ) - 1 := by
    apply (Int.ediv_eq_iff_of_pos (by exact_mod_cast hN)).mpr
    zify at hlo hhi ⊢
    constructor
    · linarith
    · linarith
  omega

end Reciprocal
