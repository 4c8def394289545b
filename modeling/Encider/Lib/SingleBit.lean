import Mathlib

/-! Words with a single bit, and the lowest bit of a word. -/

namespace SingleBit

variable {w : ℕ} {x y : BitVec w} {i : ℕ}

theorem getLsbD_one_shiftLeft (hi : i < w) (j : ℕ) : (1#w <<< i).getLsbD j = decide (i = j) := by
  rw [← BitVec.twoPow_eq, BitVec.getLsbD_twoPow]
  simp [hi]

theorem one_shiftLeft_ne_zero (hi : i < w) : 1#w <<< i ≠ 0 := by
  intro h
  have hb := getLsbD_one_shiftLeft hi i
  rw [h, BitVec.ofNat_eq_ofNat, BitVec.getLsbD_zero] at hb
  simp at hb

theorem and_ne_zero (hi : i < w) : x &&& 1#w <<< i ≠ 0 ↔ x.getLsbD i = true := by
  rw [← BitVec.twoPow_eq, BitVec.and_twoPow]
  split
  · next h => exact iff_of_true (by rw [BitVec.twoPow_eq]; exact one_shiftLeft_ne_zero hi) h
  · next h => simp [h]

/-- Taking the bit away from a number that has it clears it. -/
theorem sub_eq (hi : i < w) (h : x.getLsbD i = true) : x - 1#w <<< i = x &&& ~~~(1#w <<< i) := by
  symm
  apply BitVec.eq_sub_iff_add_eq.mpr
  rw [BitVec.add_eq_or_of_and_eq_zero]
  · apply BitVec.eq_of_getLsbD_eq
    intro j hj
    rw [BitVec.getLsbD_or, BitVec.getLsbD_and, BitVec.getLsbD_not, getLsbD_one_shiftLeft hi]
    by_cases hij : i = j
    · subst hij
      simp [h]
    · simp [hij, hj]
  · rw [BitVec.and_assoc]
    simp

theorem xor_of_true (hi : i < w) (h : x.getLsbD i = true) : x ^^^ 1#w <<< i = x - 1#w <<< i := by
  rw [sub_eq hi h]
  apply BitVec.eq_of_getLsbD_eq
  intro j hj
  rw [BitVec.getLsbD_xor, BitVec.getLsbD_and, BitVec.getLsbD_not, getLsbD_one_shiftLeft hi]
  by_cases hij : i = j
  · subst hij
    simp [h]
  · simp [hij, hj]

theorem or_of_false (hi : i < w) (h : x.getLsbD i = false) : x ||| 1#w <<< i = x + 1#w <<< i := by
  rw [BitVec.add_eq_or_of_and_eq_zero]
  by_contra hne
  have := (and_ne_zero hi).mp hne
  simp [h] at this

theorem xor_of_false (hi : i < w) (h : x.getLsbD i = false) : x ^^^ 1#w <<< i = x + 1#w <<< i := by
  rw [← or_of_false hi h]
  apply BitVec.eq_of_getLsbD_eq
  intro j hj
  rw [BitVec.getLsbD_xor, BitVec.getLsbD_or, getLsbD_one_shiftLeft hi]
  by_cases hij : i = j
  · subst hij
    simp [h]
  · simp [hij]

theorem neg_one_shiftLeft (i : ℕ) : -(1#w <<< i) = BitVec.allOnes w <<< i := by
  rw [← BitVec.neg_one_eq_allOnes, BitVec.shiftLeft_eq_mul_twoPow, BitVec.shiftLeft_eq_mul_twoPow,
    BitVec.neg_mul]

/-- Bit `i` is the lowest that is set. -/
structure IsLowest (x : BitVec w) (i : ℕ) : Prop where
  bit : x.getLsbD i = true
  below : ∀ j < i, x.getLsbD j = false

theorem IsLowest.lt (h : IsLowest x i) : i < w := by
  by_contra hi
  have hb := h.bit
  rw [BitVec.getLsbD_of_ge x i (Nat.le_of_not_lt hi)] at hb
  cases hb

theorem exists_isLowest (h : x ≠ 0) : ∃ i, IsLowest x i := by
  have hex : ∃ i, x.getLsbD i = true := by
    by_contra hno
    apply h
    apply BitVec.eq_of_getLsbD_eq
    intro j _
    rw [BitVec.ofNat_eq_ofNat, BitVec.getLsbD_zero]
    exact Bool.eq_false_iff.mpr fun hj => hno ⟨j, hj⟩
  exact ⟨Nat.find hex, Nat.find_spec hex,
    fun j hj => Bool.eq_false_iff.mpr (Nat.find_min hex hj)⟩

theorem IsLowest.and_neg (h : IsLowest x i) : x &&& -x = 1#w <<< i := by
  apply BitVec.eq_of_getLsbD_eq
  intro j hj
  rw [BitVec.getLsbD_and, BitVec.getLsbD_neg, getLsbD_one_shiftLeft h.lt]
  rcases Nat.lt_trichotomy j i with hlt | rfl | hgt
  · rw [h.below j hlt]
    simp [Nat.ne_of_gt hlt]
  · have hno : ¬ ∃ k < j, x.getLsbD k = true := by
      rintro ⟨k, hk, hb⟩
      rw [h.below k hk] at hb
      cases hb
    simp [h.bit, hno, hj]
  · have hex : ∃ k < j, x.getLsbD k = true := ⟨i, hgt, h.bit⟩
    simp only [hj, hex, decide_true, Bool.true_and, Bool.bne_true, Bool.and_not_self]
    exact (decide_eq_false (Nat.ne_of_lt hgt)).symm

/-- The bits below `k` are clear exactly of the multiples of `2 ^ k`. -/
theorem clear_iff {k : ℕ} : (∀ j < k, x.getLsbD j = false) ↔ x.toNat % 2 ^ k = 0 := by
  constructor
  · intro h
    apply Nat.eq_of_testBit_eq
    intro j
    rw [Nat.testBit_mod_two_pow, BitVec.testBit_toNat, Nat.zero_testBit]
    by_cases hj : j < k
    · simp [h j hj]
    · simp [hj]
  · intro h j hj
    have hb := congrArg (fun n => n.testBit j) h
    simpa [Nat.testBit_mod_two_pow, BitVec.testBit_toNat, hj] using hb

theorem IsLowest.toNat_mod (h : IsLowest x i) : x.toNat % 2 ^ (i + 1) = 2 ^ i := by
  apply Nat.eq_of_testBit_eq
  intro j
  rw [Nat.testBit_mod_two_pow, BitVec.testBit_toNat, Nat.testBit_two_pow]
  rcases Nat.lt_trichotomy j i with hlt | rfl | hgt
  · simp [h.below j hlt, Nat.ne_of_gt hlt]
  · simp [h.bit]
  · simp [Nat.not_lt.mpr hgt, Nat.ne_of_lt hgt]

/-- Adding the lowest bit carries it away. -/
theorem IsLowest.add_clear (h : IsLowest x i) :
    ∀ j < i + 1, (x + 1#w <<< i).getLsbD j = false := by
  have hi := h.lt
  rw [clear_iff, ← BitVec.twoPow_eq, BitVec.toNat_add, BitVec.toNat_twoPow,
    Nat.add_mod_mod, Nat.mod_mod_of_dvd _ (Nat.pow_dvd_pow 2 (by omega)), Nat.add_mod,
    h.toNat_mod, Nat.mod_eq_of_lt (Nat.pow_lt_pow_succ (by omega)), ← Nat.two_mul, ← pow_succ',
    Nat.mod_self]

end SingleBit
