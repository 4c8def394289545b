import Mathlib

/-! Numbers compared from the top bit down, under an operation that works bit by bit. -/

namespace BitPrefix

theorem div_two_pow (x i : ℕ) : x / 2 ^ i = 2 * (x / 2 ^ (i + 1)) + (x.testBit i).toNat := by
  have h : x / 2 ^ i / 2 = x / 2 ^ (i + 1) := by rw [Nat.div_div_eq_div_mul, pow_succ]
  rw [Nat.toNat_testBit]
  omega

/-- The upper bits decide; where they agree, the lower ones do. -/
theorem le_of_div {u v i : ℕ} (h : u / 2 ^ i ≤ v / 2 ^ i)
    (hm : u / 2 ^ i = v / 2 ^ i → u % 2 ^ i ≤ v % 2 ^ i) : u ≤ v := by
  have hu := Nat.div_add_mod u (2 ^ i)
  have hv := Nat.div_add_mod v (2 ^ i)
  have hp := Nat.mod_lt u (Nat.two_pow_pos i)
  rcases Nat.lt_or_eq_of_le h with hlt | heq
  · have hs : 2 ^ i * (u / 2 ^ i) + 2 ^ i ≤ 2 ^ i * (v / 2 ^ i) := by
      rw [← Nat.mul_succ]
      exact Nat.mul_le_mul_left _ hlt
    omega
  · have := hm heq
    rw [heq] at hu
    omega

theorem mod_le_of_le {u v i : ℕ} (h : u ≤ v) (he : u / 2 ^ i = v / 2 ^ i) :
    u % 2 ^ i ≤ v % 2 ^ i := by
  have hu := Nat.div_add_mod u (2 ^ i)
  have hv := Nat.div_add_mod v (2 ^ i)
  rw [he] at hu
  omega

theorem div_congr {x y k : ℕ} (h : ∀ j, k ≤ j → x.testBit j = y.testBit j) :
    x / 2 ^ k = y / 2 ^ k := by
  apply Nat.eq_of_testBit_eq
  intro j
  rw [Nat.testBit_div_two_pow, Nat.testBit_div_two_pow]
  exact h _ (Nat.le_add_left k j)

theorem testBit_of_div_eq {x y k j : ℕ} (h : x / 2 ^ k = y / 2 ^ k) (hj : k ≤ j) :
    x.testBit j = y.testBit j := by
  have hb := congrArg (fun n => n.testBit (j - k)) h
  simp only [Nat.testBit_div_two_pow] at hb
  rwa [Nat.sub_add_cancel hj] at hb

/-- The number with bit `i` set and the bits below it cleared. -/
structure Raised (i x r : ℕ) : Prop where
  above : r / 2 ^ (i + 1) = x / 2 ^ (i + 1)
  bit : r.testBit i = true
  below : r % 2 ^ i = 0

namespace Raised
variable {i x y r : ℕ}

theorem le (h : Raised i x r) (he : y / 2 ^ (i + 1) = x / 2 ^ (i + 1))
    (hb : y.testBit i = true) : r ≤ y := by
  apply le_of_div (i := i)
  · rw [div_two_pow r, div_two_pow y, h.above, he, h.bit, hb]
  · intro _
    rw [h.below]
    exact Nat.zero_le _

theorem lt (h : Raised i x r) (hb : x.testBit i = false) : x < r := by
  apply Nat.lt_of_div_lt_div (c := 2 ^ i)
  rw [div_two_pow r, div_two_pow x, h.above, h.bit, hb]
  simp

end Raised

section
variable {β : Bool → Bool → Bool} {f : ℕ → ℕ → ℕ}
variable (hf : ∀ x y i, (f x y).testBit i = β (x.testBit i) (y.testBit i))
variable {i x y a c r : ℕ}

include hf

theorem apply_div_congr {k x' y' : ℕ} (hx : x / 2 ^ k = x' / 2 ^ k) (hy : y / 2 ^ k = y' / 2 ^ k) :
    f x y / 2 ^ k = f x' y' / 2 ^ k := by
  apply div_congr
  intro j hj
  rw [hf, hf, testBit_of_div_eq hx hj, testBit_of_div_eq hy hj]

theorem apply_div (x y i : ℕ) : f x y / 2 ^ i =
    2 * (f x y / 2 ^ (i + 1)) + (β (x.testBit i) (y.testBit i)).toNat := by
  rw [div_two_pow, hf]

omit hf

/-- From bit `i` up, `x` and `y` are `a` and `c`, or their result is already above. -/
def Follows (f : ℕ → ℕ → ℕ) (i x y a c : ℕ) : Prop :=
  f a c / 2 ^ i < f x y / 2 ^ i ∨ x / 2 ^ i = a / 2 ^ i ∧ y / 2 ^ i = c / 2 ^ i

theorem Follows.start (hx : x / 2 ^ i = 0) (hy : y / 2 ^ i = 0) (ha : a / 2 ^ i = 0)
    (hc : c / 2 ^ i = 0) : Follows f i x y a c :=
  .inr ⟨hx.trans ha.symm, hy.trans hc.symm⟩

theorem Follows.le (h : Follows f 0 x y a c) : f a c ≤ f x y := by
  simp only [Follows, pow_zero, Nat.div_one] at h
  rcases h with h | ⟨rfl, rfl⟩
  · exact Nat.le_of_lt h
  · exact Nat.le_refl _

theorem Follows.swap (h : Follows f i x y a c) : Follows (fun x y => f y x) i y x c a :=
  h.imp_right And.symm

include hf

theorem Follows.lt_of_lt (h : f a c / 2 ^ (i + 1) < f x y / 2 ^ (i + 1)) :
    f a c / 2 ^ i < f x y / 2 ^ i := by
  have h1 := apply_div hf a c i
  have h2 := apply_div hf x y i
  have h3 := Bool.toNat_le (β (a.testBit i) (c.testBit i))
  omega

/-- One bit further down. -/
theorem Follows.step (h : Follows f (i + 1) x y a c)
    (hb : x / 2 ^ (i + 1) = a / 2 ^ (i + 1) → y / 2 ^ (i + 1) = c / 2 ^ (i + 1) →
      β (a.testBit i) (c.testBit i) = false ∧ β (x.testBit i) (y.testBit i) = true ∨
        x.testBit i = a.testBit i ∧ y.testBit i = c.testBit i) :
    Follows f i x y a c := by
  rcases h with h | ⟨hx, hy⟩
  · exact .inl (Follows.lt_of_lt hf h)
  · rcases hb hx hy with ⟨h0, h1⟩ | ⟨hxi, hyi⟩
    · left
      rw [apply_div hf a c, apply_div hf x y, h0, h1, apply_div_congr hf hx hy]
      simp
    · right
      rw [div_two_pow x, div_two_pow y, hx, hy, hxi, hyi, ← div_two_pow, ← div_two_pow]
      exact ⟨rfl, rfl⟩

/-- The result with one bound raised at bit `i`. -/
theorem Follows.raised_left (h : Follows f (i + 1) x y a c) (hr : Raised i a r)
    (hb : y / 2 ^ (i + 1) = c / 2 ^ (i + 1) → (β true (c.testBit i)).toNat ≤
      (β (x.testBit i) (y.testBit i)).toNat)
    (hm : y / 2 ^ (i + 1) = c / 2 ^ (i + 1) → f r c % 2 ^ i ≤ f x y % 2 ^ i) :
    f r c ≤ f x y := by
  have hp := apply_div_congr hf (y := c) hr.above rfl
  rcases h with h | ⟨hx, hy⟩
  · exact (Nat.lt_of_div_lt_div (hp.trans_lt h)).le
  · apply le_of_div (i := i)
    · rw [apply_div hf r c, apply_div hf x y, hp, apply_div_congr hf hx hy, hr.bit]
      exact Nat.add_le_add_left (hb hy) _
    · exact fun _ => hm hy

theorem Follows.raised_right (h : Follows f (i + 1) x y a c) (hr : Raised i c r)
    (hb : x / 2 ^ (i + 1) = a / 2 ^ (i + 1) → (β (a.testBit i) true).toNat ≤
      (β (x.testBit i) (y.testBit i)).toNat)
    (hm : x / 2 ^ (i + 1) = a / 2 ^ (i + 1) → f a r % 2 ^ i ≤ f x y % 2 ^ i) :
    f a r ≤ f x y :=
  Follows.raised_left (β := fun p q => β q p) (f := fun x y => f y x)
    (fun x y i => hf y x i) h.swap hr hb hm

end

end BitPrefix
