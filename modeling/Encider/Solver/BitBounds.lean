import Encider.Lib.BitPrefix
import Encider.Lib.SingleBit

/-!
The bounds that the fast counterexample solver puts on `|` and `&` of two ranges. Each function
walks down the bits and moves one end of a range where that changes no bit of the result above.
-/

namespace Encider.BitBounds

/-- The loop over `m`, from `1 << 63` down to `1`: a round breaks with new ends or goes on. -/
def scan {α : Type} (round : BitVec 64 → Option α) (start : α) : ℕ → α
  | 0 => start
  | i + 1 => (round (1#64 <<< i)).getD (scan round start i)

def minORRound (a b c d m : BitVec 64) : Option (BitVec 64 × BitVec 64) :=
  if ~~~a &&& c &&& m ≠ 0 then
    let temp := (a ||| m) &&& -m
    if temp ≤ b then some (temp, c) else none
  else if a &&& ~~~c &&& m ≠ 0 then
    let temp := (c ||| m) &&& -m
    if temp ≤ d then some (a, temp) else none
  else none

def minOR (a b c d : BitVec 64) : BitVec 64 :=
  let (a, c) := scan (minORRound a b c d) (a, c) 64
  a ||| c

def maxORRound (a b c d m : BitVec 64) : Option (BitVec 64 × BitVec 64) :=
  if b &&& d &&& m ≠ 0 then
    let temp := (b - m) ||| (m - 1)
    if temp ≥ a then some (temp, d)
    else
      let temp := (d - m) ||| (m - 1)
      if temp ≥ c then some (b, temp) else none
  else none

def maxOR (a b c d : BitVec 64) : BitVec 64 :=
  let (b, d) := scan (maxORRound a b c d) (b, d) 64
  b ||| d

def minANDRound (a b c d m : BitVec 64) : Option (BitVec 64 × BitVec 64) :=
  if ~~~a &&& ~~~c &&& m ≠ 0 then
    let temp := (a ||| m) &&& -m
    if temp ≤ b then some (temp, c)
    else
      let temp := (c ||| m) &&& -m
      if temp ≤ d then some (a, temp) else none
  else none

def minAND (a b c d : BitVec 64) : BitVec 64 :=
  let (a, c) := scan (minANDRound a b c d) (a, c) 64
  a &&& c

def maxANDRound (a b c d m : BitVec 64) : Option (BitVec 64 × BitVec 64) :=
  if b &&& ~~~d &&& m ≠ 0 then
    let temp := (b &&& ~~~m) ||| (m - 1)
    if temp ≥ a then some (temp, d) else none
  else if ~~~b &&& d &&& m ≠ 0 then
    let temp := (d &&& ~~~m) ||| (m - 1)
    if temp ≥ c then some (b, temp) else none
  else none

def maxAND (a b c d : BitVec 64) : BitVec 64 :=
  let (b, d) := scan (maxANDRound a b c d) (b, d) 64
  b &&& d

/-- A loop that ends in its start or breaks keeps what both keep. -/
theorem scan_spec {α : Type} {round : BitVec 64 → Option α} {start : α} {P : ℕ → Prop}
    {Q : α → Prop} (hb : ∀ i, i < 64 → P (i + 1) → ∀ s, round (1#64 <<< i) = some s → Q s)
    (hn : ∀ i, i < 64 → P (i + 1) → round (1#64 <<< i) = none → P i) (hq : P 0 → Q start)
    (n : ℕ) (hle : n ≤ 64) (hp : P n) : Q (scan round start n) := by
  induction n with
  | zero => exact hq hp
  | succ i ih =>
    unfold scan
    cases h : round (1#64 <<< i) with
    | none => exact ih (by omega) (hn i (by omega) hp h)
    | some s => exact hb i (by omega) hp s h

variable {a b c d x y : BitVec 64} {i : ℕ}

/-- Bit `m` set, the bits below it cleared. -/
def raise (m x : BitVec 64) : BitVec 64 := (x ||| m) &&& -m

theorem getLsbD_raise (hi : i < 64) (j : ℕ) : (raise (1#64 <<< i) x).getLsbD j =
    (decide (i ≤ j) && (x.getLsbD j || decide (i = j))) := by
  unfold raise
  rw [SingleBit.neg_one_shiftLeft, BitVec.getLsbD_and, BitVec.getLsbD_or,
    SingleBit.getLsbD_one_shiftLeft hi, BitVec.getLsbD_shiftLeft, BitVec.getLsbD_allOnes]
  by_cases hij : i ≤ j
  · by_cases hj : j < 64
    · have : j - i < 64 := by omega
      simp [hij, hj, this]
    · have : ¬ i = j := by omega
      simp [hj, this, BitVec.getLsbD_of_ge x j (by omega)]
  · simp [hij]

theorem raised (hi : i < 64) : BitPrefix.Raised i x.toNat (raise (1#64 <<< i) x).toNat where
  above := by
    apply BitPrefix.div_congr
    intro j hj
    rw [BitVec.testBit_toNat, BitVec.testBit_toNat, getLsbD_raise hi]
    have h1 : i ≤ j := by omega
    have h2 : ¬ i = j := by omega
    simp [h1, h2]
  bit := by
    rw [BitVec.testBit_toNat, getLsbD_raise hi]
    simp
  below := by
    apply Nat.eq_of_testBit_eq
    intro j
    rw [Nat.testBit_mod_two_pow, BitVec.testBit_toNat, getLsbD_raise hi, Nat.zero_testBit]
    by_cases hij : i ≤ j
    · simp [Nat.not_lt.mpr hij]
    · simp [hij]

theorem minORRound_eq (hi : i < 64) : minORRound a b c d (1#64 <<< i) =
    if a.getLsbD i = false ∧ c.getLsbD i = true then
      if raise (1#64 <<< i) a ≤ b then some (raise (1#64 <<< i) a, c) else none
    else if a.getLsbD i = true ∧ c.getLsbD i = false then
      if raise (1#64 <<< i) c ≤ d then some (a, raise (1#64 <<< i) c) else none
    else none := by
  simp only [minORRound, SingleBit.and_ne_zero hi, BitVec.getLsbD_and, BitVec.getLsbD_not, hi,
    decide_true, Bool.true_and, Bool.and_eq_true, Bool.not_eq_true', raise]
  congr

theorem minANDRound_eq (hi : i < 64) : minANDRound a b c d (1#64 <<< i) =
    if a.getLsbD i = false ∧ c.getLsbD i = false then
      if raise (1#64 <<< i) a ≤ b then some (raise (1#64 <<< i) a, c)
      else if raise (1#64 <<< i) c ≤ d then some (a, raise (1#64 <<< i) c) else none
    else none := by
  simp only [minANDRound, SingleBit.and_ne_zero hi, BitVec.getLsbD_and, BitVec.getLsbD_not, hi,
    decide_true, Bool.true_and, Bool.and_eq_true, Bool.not_eq_true', raise]
  congr

/-- What a break of either loop leaves: ends within the ranges whose result none is below. -/
structure Least (f : ℕ → ℕ → ℕ) (a b c d : BitVec 64) (s : BitVec 64 × BitVec 64) : Prop where
  left_le : a ≤ s.1
  le_left : s.1 ≤ b
  right_le : c ≤ s.2
  le_right : s.2 ≤ d
  least : ∀ x y, a ≤ x → x ≤ b → c ≤ y → y ≤ d → f s.1.toNat s.2.toNat ≤ f x.toNat y.toNat

/-- No pair of the ranges that agrees with the lower ends down to bit `i` does better below. -/
def Unbeaten (f : ℕ → ℕ → ℕ) (a b c d : BitVec 64) (i : ℕ) : Prop :=
  ∀ x y, a ≤ x → x ≤ b → c ≤ y → y ≤ d →
    BitPrefix.Follows f i x.toNat y.toNat a.toNat c.toNat

theorem unbeaten_start (f : ℕ → ℕ → ℕ) : Unbeaten f a b c d 64 := by
  intro x y _ _ _ _
  have h : ∀ z : BitVec 64, z.toNat / 2 ^ 64 = 0 := fun z => Nat.div_eq_of_lt z.isLt
  exact .start (h x) (h y) (h a) (h c)

theorem Unbeaten.least {f : ℕ → ℕ → ℕ} (h : Unbeaten f a b c d 0) (hab : a ≤ b) (hcd : c ≤ d) :
    Least f a b c d (a, c) where
  left_le := BitVec.le_refl a
  le_left := hab
  right_le := BitVec.le_refl c
  le_right := hcd
  least := fun x y hx hx' hy hy' => (h x y hx hx' hy hy').le

/-- A bit that the lower end has, all numbers that agree with it above have. -/
theorem bit_of_le (hle : a ≤ x) (he : x.toNat / 2 ^ (i + 1) = a.toNat / 2 ^ (i + 1))
    (ha : a.getLsbD i = true) : x.getLsbD i = true := by
  rw [← BitVec.testBit_toNat] at ha ⊢
  have h1 := Nat.div_le_div_right (c := 2 ^ i) (BitVec.le_def.mp hle)
  rw [BitPrefix.div_two_pow a.toNat, BitPrefix.div_two_pow x.toNat, he, ha] at h1
  cases hx : x.toNat.testBit i with
  | true => rfl
  | false =>
    rw [hx] at h1
    simp at h1

/-- Where the raised end is out of the range, all numbers that agree above lack the bit. -/
theorem bit_of_not_raise_le (hi : i < 64) (h : ¬ raise (1#64 <<< i) a ≤ b) (hle : x ≤ b)
    (he : x.toNat / 2 ^ (i + 1) = a.toNat / 2 ^ (i + 1)) : x.getLsbD i = false := by
  cases hx : x.getLsbD i with
  | false => rfl
  | true =>
    rw [← BitVec.testBit_toNat] at hx
    have h1 := (raised (x := a) hi).le he hx
    rw [BitVec.le_def] at h hle
    omega

theorem le_raise (hi : i < 64) (h : a.getLsbD i = false) : a ≤ raise (1#64 <<< i) a := by
  rw [← BitVec.testBit_toNat] at h
  exact BitVec.le_def.mpr ((raised hi).lt h).le

theorem unbeaten_or_step (hi : i < 64) (hu : Unbeaten (· ||| ·) a b c d (i + 1))
    (h : minORRound a b c d (1#64 <<< i) = none) : Unbeaten (· ||| ·) a b c d i := by
  rw [minORRound_eq hi] at h
  intro x y hx hx' hy hy'
  refine (hu x y hx hx' hy hy').step Nat.testBit_or ?_
  intro hex hey
  simp only [BitVec.testBit_toNat]
  cases ha : a.getLsbD i with
  | true =>
    cases hc : c.getLsbD i with
    | true => exact .inr ⟨bit_of_le hx hex ha, bit_of_le hy hey hc⟩
    | false =>
      right
      refine ⟨bit_of_le hx hex ha, bit_of_not_raise_le hi (fun hr => ?_) hy' hey⟩
      simp [ha, hc, hr] at h
  | false =>
    cases hc : c.getLsbD i with
    | true =>
      right
      refine ⟨bit_of_not_raise_le hi (fun hr => ?_) hx' hex, bit_of_le hy hey hc⟩
      simp [ha, hc, hr] at h
    | false =>
      cases x.getLsbD i with
      | true => simp
      | false =>
        cases y.getLsbD i with
        | true => simp
        | false => simp

theorem unbeaten_and_step (hi : i < 64) (hu : Unbeaten (· &&& ·) a b c d (i + 1))
    (h : minANDRound a b c d (1#64 <<< i) = none) : Unbeaten (· &&& ·) a b c d i := by
  rw [minANDRound_eq hi] at h
  intro x y hx hx' hy hy'
  refine (hu x y hx hx' hy hy').step Nat.testBit_and ?_
  intro hex hey
  simp only [BitVec.testBit_toNat]
  cases ha : a.getLsbD i with
  | true =>
    rw [bit_of_le hx hex ha]
    cases hc : c.getLsbD i with
    | true => exact .inr ⟨rfl, bit_of_le hy hey hc⟩
    | false =>
      cases y.getLsbD i with
      | true => simp
      | false => simp
  | false =>
    cases hc : c.getLsbD i with
    | true =>
      rw [bit_of_le hy hey hc]
      cases x.getLsbD i with
      | true => simp
      | false => simp
    | false =>
      rw [if_pos ⟨ha, hc⟩] at h
      right
      constructor
      · refine bit_of_not_raise_le hi (fun hr => ?_) hx' hex
        simp [hr] at h
      · refine bit_of_not_raise_le hi (fun hr => ?_) hy' hey
        split at h
        · cases h
        · cases h

/-- Raising the lower end of the range whose bit the other end has loses nothing. -/
theorem least_or_break (hi : i < 64) (hab : a ≤ b) (hcd : c ≤ d)
    (hu : Unbeaten (· ||| ·) a b c d (i + 1)) {s : BitVec 64 × BitVec 64}
    (h : minORRound a b c d (1#64 <<< i) = some s) : Least (· ||| ·) a b c d s := by
  rw [minORRound_eq hi] at h
  split at h
  · next hac =>
    split at h
    · next hle =>
      cases h
      refine ⟨le_raise hi hac.1, hle, BitVec.le_refl c, hcd, fun x y hx hx' hy hy' => ?_⟩
      have hyi (hey) := bit_of_le (i := i) hy hey hac.2
      apply (hu x y hx hx' hy hy').raised_left Nat.testBit_or (raised hi)
      · intro hey
        simp [BitVec.testBit_toNat, hyi hey]
      · intro hey
        rw [Nat.or_mod_two_pow, Nat.or_mod_two_pow, (raised hi).below, Nat.zero_or]
        refine (BitPrefix.mod_le_of_le (BitVec.le_def.mp hy) ?_).trans Nat.right_le_or
        rw [BitPrefix.div_two_pow c.toNat, BitPrefix.div_two_pow y.toNat, hey,
          BitVec.testBit_toNat, BitVec.testBit_toNat, hyi hey, hac.2]
    · cases h
  · split at h
    · next hac =>
      split at h
      · next hle =>
        cases h
        refine ⟨BitVec.le_refl a, hab, le_raise hi hac.2, hle, fun x y hx hx' hy hy' => ?_⟩
        have hxi (hex) := bit_of_le (i := i) hx hex hac.1
        apply (hu x y hx hx' hy hy').raised_right Nat.testBit_or (raised hi)
        · intro hex
          simp [BitVec.testBit_toNat, hxi hex]
        · intro hex
          rw [Nat.or_mod_two_pow, Nat.or_mod_two_pow, (raised hi).below, Nat.or_zero]
          refine (BitPrefix.mod_le_of_le (BitVec.le_def.mp hx) ?_).trans Nat.left_le_or
          rw [BitPrefix.div_two_pow a.toNat, BitPrefix.div_two_pow x.toNat, hex,
            BitVec.testBit_toNat, BitVec.testBit_toNat, hxi hex, hac.1]
      · cases h
    · cases h

/-- Raising either end where the other lacks the bit clears everything below. -/
theorem least_and_break (hi : i < 64) (hab : a ≤ b) (hcd : c ≤ d)
    (hu : Unbeaten (· &&& ·) a b c d (i + 1)) {s : BitVec 64 × BitVec 64}
    (h : minANDRound a b c d (1#64 <<< i) = some s) : Least (· &&& ·) a b c d s := by
  rw [minANDRound_eq hi] at h
  split at h
  · next hac =>
    split at h
    · next hle =>
      cases h
      refine ⟨le_raise hi hac.1, hle, BitVec.le_refl c, hcd, fun x y hx hx' hy hy' => ?_⟩
      apply (hu x y hx hx' hy hy').raised_left Nat.testBit_and (raised hi)
      · simp [BitVec.testBit_toNat, hac.2]
      · intro _
        rw [Nat.and_mod_two_pow, (raised hi).below, Nat.zero_and]
        exact Nat.zero_le _
    · split at h
      · next hle =>
        cases h
        refine ⟨BitVec.le_refl a, hab, le_raise hi hac.2, hle, fun x y hx hx' hy hy' => ?_⟩
        apply (hu x y hx hx' hy hy').raised_right Nat.testBit_and (raised hi)
        · simp [BitVec.testBit_toNat, hac.1]
        · intro _
          rw [Nat.and_mod_two_pow, (raised hi).below, Nat.and_zero]
          exact Nat.zero_le _
      · cases h
  · cases h

theorem least_or (hab : a ≤ b) (hcd : c ≤ d) :
    Least (· ||| ·) a b c d (scan (minORRound a b c d) (a, c) 64) :=
  scan_spec (P := Unbeaten (· ||| ·) a b c d)
    (fun _ hi hu _ h => least_or_break hi hab hcd hu h)
    (fun _ hi hu h => unbeaten_or_step hi hu h) (fun hu => hu.least hab hcd) 64 (Nat.le_refl _)
    (unbeaten_start _)

theorem least_and (hab : a ≤ b) (hcd : c ≤ d) :
    Least (· &&& ·) a b c d (scan (minANDRound a b c d) (a, c) 64) :=
  scan_spec (P := Unbeaten (· &&& ·) a b c d)
    (fun _ hi hu _ h => least_and_break hi hab hcd hu h)
    (fun _ hi hu h => unbeaten_and_step hi hu h) (fun hu => hu.least hab hcd) 64 (Nat.le_refl _)
    (unbeaten_start _)

/-- The ends of both ranges complemented. -/
def flip (s : BitVec 64 × BitVec 64) : BitVec 64 × BitVec 64 := (~~~s.1, ~~~s.2)

theorem scan_flip {r r' : BitVec 64 → Option (BitVec 64 × BitVec 64)}
    {s : BitVec 64 × BitVec 64} (h : ∀ i < 64, r' (1#64 <<< i) = (r (1#64 <<< i)).map flip)
    (n : ℕ) (hn : n ≤ 64) : scan r' (flip s) n = flip (scan r s n) := by
  induction n with
  | zero => rfl
  | succ i ih =>
    unfold scan
    rw [h i (by omega), ih (by omega)]
    cases r (1#64 <<< i) with
    | none => rfl
    | some t => rfl

theorem le_not_comm : x ≤ ~~~y ↔ y ≤ ~~~x := by
  have hx := x.isLt
  have hy := y.isLt
  rw [BitVec.le_def, BitVec.le_def, BitVec.toNat_not, BitVec.toNat_not]
  omega

theorem not_raise_not (m : BitVec 64) : ~~~(raise m (~~~x)) = (x &&& ~~~m) ||| (m - 1) := by
  unfold raise
  rw [BitVec.not_and, BitVec.not_or, BitVec.not_not, BitVec.not_neg]
  rfl

theorem maxORRound_eq (hi : i < 64) : maxORRound a b c d (1#64 <<< i) =
    (minANDRound (~~~b) (~~~a) (~~~d) (~~~c) (1#64 <<< i)).map flip := by
  rw [minANDRound_eq hi]
  simp only [maxORRound, SingleBit.and_ne_zero hi, BitVec.getLsbD_and, BitVec.getLsbD_not, hi,
    decide_true, Bool.true_and, Bool.and_eq_true, Bool.not_eq_false', le_not_comm (y := a),
    le_not_comm (y := c), not_raise_not, ge_iff_le]
  by_cases h : b.getLsbD i = true ∧ d.getLsbD i = true
  · rw [if_pos h, if_pos h, SingleBit.sub_eq hi h.1, SingleBit.sub_eq hi h.2]
    split
    · simp [flip, not_raise_not]
    · split
      · simp [flip, not_raise_not]
      · rfl
  · rw [if_neg h, if_neg h]
    rfl

theorem maxANDRound_eq (hi : i < 64) : maxANDRound a b c d (1#64 <<< i) =
    (minORRound (~~~b) (~~~a) (~~~d) (~~~c) (1#64 <<< i)).map flip := by
  rw [minORRound_eq hi]
  simp only [maxANDRound, SingleBit.and_ne_zero hi, BitVec.getLsbD_and, BitVec.getLsbD_not, hi,
    decide_true, Bool.true_and, Bool.and_eq_true, Bool.not_eq_false', Bool.not_eq_true',
    le_not_comm (y := a), le_not_comm (y := c), not_raise_not, ge_iff_le]
  by_cases h : b.getLsbD i = true ∧ d.getLsbD i = false
  · rw [if_pos h, if_pos h]
    split
    · simp [flip, not_raise_not]
    · rfl
  · rw [if_neg h, if_neg h]
    by_cases h' : b.getLsbD i = false ∧ d.getLsbD i = true
    · rw [if_pos h', if_pos h']
      split
      · simp [flip, not_raise_not]
      · rfl
    · rw [if_neg h', if_neg h']
      rfl

theorem maxOR_eq (a b c d : BitVec 64) :
    maxOR a b c d = ~~~(minAND (~~~b) (~~~a) (~~~d) (~~~c)) := by
  have h := scan_flip (s := (~~~b, ~~~d)) (fun i hi => maxORRound_eq (a := a) (b := b) (c := c)
    (d := d) hi) 64 (Nat.le_refl _)
  simp only [flip, BitVec.not_not] at h
  unfold maxOR minAND
  rw [h, BitVec.not_and]

theorem maxAND_eq (a b c d : BitVec 64) :
    maxAND a b c d = ~~~(minOR (~~~b) (~~~a) (~~~d) (~~~c)) := by
  have h := scan_flip (s := (~~~b, ~~~d)) (fun i hi => maxANDRound_eq (a := a) (b := b) (c := c)
    (d := d) hi) 64 (Nat.le_refl _)
  simp only [flip, BitVec.not_not] at h
  unfold maxAND minOR
  rw [h, BitVec.not_or]

/-- `v` is the least result of `op` on numbers of the ranges. -/
def IsLeastOn (op : BitVec 64 → BitVec 64 → BitVec 64) (a b c d v : BitVec 64) : Prop :=
  (∃ x y, a ≤ x ∧ x ≤ b ∧ c ≤ y ∧ y ≤ d ∧ op x y = v) ∧
    ∀ x y, a ≤ x → x ≤ b → c ≤ y → y ≤ d → v ≤ op x y

def IsGreatestOn (op : BitVec 64 → BitVec 64 → BitVec 64) (a b c d v : BitVec 64) : Prop :=
  (∃ x y, a ≤ x ∧ x ≤ b ∧ c ≤ y ∧ y ≤ d ∧ op x y = v) ∧
    ∀ x y, a ≤ x → x ≤ b → c ≤ y → y ≤ d → op x y ≤ v

theorem isLeastOn_minOR (hab : a ≤ b) (hcd : c ≤ d) :
    IsLeastOn (· ||| ·) a b c d (minOR a b c d) := by
  have h := least_or hab hcd
  refine ⟨⟨_, _, h.left_le, h.le_left, h.right_le, h.le_right, rfl⟩, ?_⟩
  intro x y hx hx' hy hy'
  exact BitVec.le_def.mpr (by simpa [minOR] using h.least x y hx hx' hy hy')

theorem isLeastOn_minAND (hab : a ≤ b) (hcd : c ≤ d) :
    IsLeastOn (· &&& ·) a b c d (minAND a b c d) := by
  have h := least_and hab hcd
  refine ⟨⟨_, _, h.left_le, h.le_left, h.right_le, h.le_right, rfl⟩, ?_⟩
  intro x y hx hx' hy hy'
  exact BitVec.le_def.mpr (by simpa [minAND] using h.least x y hx hx' hy hy')

theorem not_le_not : ~~~x ≤ ~~~y ↔ y ≤ x := by
  rw [le_not_comm, BitVec.not_not]

/-- Complementing turns the least results of one operation into the greatest of the other. -/
theorem IsLeastOn.flip {f g : BitVec 64 → BitVec 64 → BitVec 64} {v : BitVec 64}
    (h : IsLeastOn f (~~~b) (~~~a) (~~~d) (~~~c) v) (hfg : ∀ x y, g x y = ~~~(f (~~~x) (~~~y))) :
    IsGreatestOn g a b c d (~~~v) := by
  obtain ⟨⟨x, y, hx, hx', hy, hy', rfl⟩, hl⟩ := h
  constructor
  · refine ⟨~~~x, ~~~y, le_not_comm.mp hx', ?_, le_not_comm.mp hy', ?_, ?_⟩
    · rwa [← not_le_not, BitVec.not_not]
    · rwa [← not_le_not, BitVec.not_not]
    · rw [hfg, BitVec.not_not, BitVec.not_not]
  · intro x y hx hx' hy hy'
    rw [hfg, not_le_not]
    exact hl _ _ (not_le_not.mpr hx') (not_le_not.mpr hx) (not_le_not.mpr hy') (not_le_not.mpr hy)

theorem isGreatestOn_maxOR (hab : a ≤ b) (hcd : c ≤ d) :
    IsGreatestOn (· ||| ·) a b c d (maxOR a b c d) := by
  rw [maxOR_eq]
  refine (isLeastOn_minAND (not_le_not.mpr hab) (not_le_not.mpr hcd)).flip fun x y => ?_
  rw [BitVec.not_and, BitVec.not_not, BitVec.not_not]

theorem isGreatestOn_maxAND (hab : a ≤ b) (hcd : c ≤ d) :
    IsGreatestOn (· &&& ·) a b c d (maxAND a b c d) := by
  rw [maxAND_eq]
  refine (isLeastOn_minOR (not_le_not.mpr hab) (not_le_not.mpr hcd)).flip fun x y => ?_
  rw [BitVec.not_or, BitVec.not_not, BitVec.not_not]

/-- The bounds are those of the results, which attain them. -/
theorem bounds_exact (a b c d : BitVec 64) (hab : a ≤ b) (hcd : c ≤ d) :
    IsLeastOn (· ||| ·) a b c d (minOR a b c d) ∧ IsGreatestOn (· ||| ·) a b c d (maxOR a b c d) ∧
      IsLeastOn (· &&& ·) a b c d (minAND a b c d) ∧
      IsGreatestOn (· &&& ·) a b c d (maxAND a b c d) :=
  ⟨isLeastOn_minOR hab hcd, isGreatestOn_maxOR hab hcd, isLeastOn_minAND hab hcd,
    isGreatestOn_maxAND hab hcd⟩

theorem bounds_exact_bytes : IsLeastOn (· ||| ·) 4 6 9 11 (minOR 4 6 9 11) ∧
    IsGreatestOn (· ||| ·) 4 6 9 11 (maxOR 4 6 9 11) ∧
    IsLeastOn (· &&& ·) 4 6 9 11 (minAND 4 6 9 11) ∧
    IsGreatestOn (· &&& ·) 4 6 9 11 (maxAND 4 6 9 11) :=
  bounds_exact 4 6 9 11 (by decide) (by decide)

end Encider.BitBounds
