import Encider.Smtlib.Prints

/-! The literals of the printer, and the sorts of the terms that it writes. -/

namespace Encider.Smtlib

open Smt

/-- The digits of a number that `width / bitsEach` digits have room for. -/
theorem length_radixDigits {k m n : ℕ} (hk : 0 < k) (hm : 0 < m) (hn : n < 2 ^ (k * m)) :
    (radixDigits (2 ^ k) n).length ≤ m := by
  unfold radixDigits
  split
  · exact hm
  · rw [List.length_reverse]
    refine (Nat.digits_length_le_iff (Nat.one_lt_two_pow hk.ne') n).mpr ?_
    rwa [← Nat.pow_mul]

theorem radixDigits_lt {k n d : ℕ} (hk : 0 < k) (h : d ∈ radixDigits (2 ^ k) n) : d < 2 ^ k := by
  unfold radixDigits at h
  split at h
  · rw [List.mem_singleton.mp h]
    exact Nat.two_pow_pos k
  · exact Nat.digits_lt_base (Nat.one_lt_two_pow hk.ne') (List.mem_reverse.mp h)

theorem ofDigits_radixDigits (k n : ℕ) :
    Nat.ofDigits (2 ^ k) (radixDigits (2 ^ k) n).reverse = n := by
  unfold radixDigits
  split
  · rename_i h
    rw [h]
    exact Nat.ofDigits_singleton
  · rw [List.reverse_reverse]
    exact Nat.ofDigits_digits _ _

section
variable {D : Type} (G : Algebra D)

/-- A literal whose width is made of whole digits. -/
theorem zeroPadded_run {k m w n : ℕ} (hw : w = k * m) (hk : 0 < k) (hm : 0 < m)
    (hm32 : m < 2 ^ 32) (hn : n < 2 ^ w) (sc : Scope D) :
    (zeroPadded k w (radixDigits (2 ^ k) n)).run G sc =
      some (G.bits w (BitVec.ofNat w n), sc) := by
  subst hw
  have hlen := length_radixDigits hk hm hn
  have hpad : (BitVec.ofInt 32 ((↑(k * m) : ℤ) / ↑k - ↑(radixDigits (2 ^ k) n).length)).toNat =
      m - (radixDigits (2 ^ k) n).length := by
    rw [Nat.cast_mul, Int.mul_ediv_cancel_left _ (by omega)]
    rw [show (m : ℤ) - (radixDigits (2 ^ k) n).length =
      ((m - (radixDigits (2 ^ k) n).length : ℕ) : ℤ) by omega, BitVec.ofInt_natCast,
      BitVec.toNat_ofNat, Nat.mod_eq_of_lt (by omega)]
  rw [zeroPadded, hpad, Term.run, if_pos]
  · have hvalue : Nat.ofDigits (2 ^ k) (List.replicate (m - (radixDigits (2 ^ k) n).length) 0 ++
        radixDigits (2 ^ k) n).reverse = n := by
      rw [List.reverse_append, List.reverse_replicate, Nat.ofDigits_append,
        Nat.ofDigits_replicate_zero, ofDigits_radixDigits, Nat.mul_zero, Nat.add_zero]
    have hlength : (List.replicate (m - (radixDigits (2 ^ k) n).length) 0 ++
        radixDigits (2 ^ k) n).length = m := by
      simp only [List.length_append, List.length_replicate]
      omega
    rw [hlength, hvalue, Algebra.literal, if_pos]
    · rw [BitVec.ofInt_natCast]
      rfl
    · exact ⟨Nat.mul_pos hk hm, by omega, by exact_mod_cast hn⟩
  · intro d hd
    obtain hd | hd := List.mem_append.mp hd
    · rw [List.eq_of_mem_replicate hd]
      exact Nat.two_pow_pos k
    · exact radixDigits_lt hk hd

/-- The widths that can be written: they are those of an `unsigned`, and hexadecimal literals are of
whole digits. -/
def Printable (cdm : ConstantDisplayMode) (w : ℕ) : Prop :=
  0 < w ∧ w < 2 ^ 32 ∧ (cdm = .hex → w = 1 ∨ 4 ∣ w)

theorem printable_one (cdm : ConstantDisplayMode) : Printable cdm 1 :=
  ⟨Nat.one_pos, by omega, fun _ => .inl rfl⟩

theorem printConstant_run {cdm : ConstantDisplayMode} {w : ℕ} (v : BitVec w)
    (hw : Printable cdm w) (sc : Scope D) :
    (printConstant cdm v).run G sc =
      some (if w = 1 then G.bool (decide (v.toNat = 1)) else G.bits w v, sc) := by
  obtain ⟨hpos, h32, hhex⟩ := hw
  unfold printConstant
  split
  · rename_i h
    simp [Term.run, h.1, h.2]
  · rename_i hne
    split
    · rename_i h
      simp [Term.run, h.1, h.2]
    · rename_i hne'
      have hw1 : w ≠ 1 := by
        intro h1
        subst h1
        obtain h | h : v.toNat = 0 ∨ v.toNat = 1 := by omega
        · exact hne' ⟨rfl, h⟩
        · exact hne ⟨rfl, h⟩
      rw [if_neg hw1]
      cases cdm with
      | binary =>
        have h := zeroPadded_run G (Nat.one_mul w).symm Nat.one_pos hpos h32 v.isLt sc
        rwa [BitVec.ofNat_toNat, BitVec.setWidth_eq] at h
      | hex =>
        obtain ⟨m, hm⟩ := (hhex rfl).resolve_left hw1
        have h := zeroPadded_run G hm (by omega) (by omega : 0 < m) (by omega) v.isLt sc
        rwa [BitVec.ofNat_toNat, BitVec.setWidth_eq] at h
      | decimal =>
        have hlt : (v.toNat : ℤ) < 2 ^ w := by exact_mod_cast v.isLt
        simp [Term.run, Algebra.literal, hpos, hlt]

end

section
variable (Arr : Array → Prop) (o : Options)

/-- No condition on the operations. -/
abbrev Anything : BinaryKind → Expr → Expr → Prop := fun _ _ _ => True

/-- The sorts of the printed terms. -/
def sortReading : Reading Arr (Printable o.cdm) Anything o sorts where
  word e := .bitVec e.getWidth
  truth _ := .bool
  contents a _ := .array a.domain a.range
  constant v hw sc := printConstant_run sorts v hw sc
  toWord _ hw := by simp [sorts, Op.rank, hw]
  toTruth _ hw := by simp [sorts, Op.rank, hw]
  notOptimized _ := ⟨rfl, rfl⟩
  read h := by
    have hw := h.typed.2.2
    simp [sorts, Op.rank, hw, Expr.getWidth]
  store h := by
    have hi := h.typed.2.2.1
    have hv := h.typed.2.2.2.1
    simp [sorts, Op.rank, hi, hv]
  select h := by
    have hw := h.typed.2.2.2.2
    simp [sorts, Op.rank, hw, Expr.getWidth]
  concat _ := rfl
  extract {e low w} h := by
    have hw : (0 : ℕ) < w ∧ low + w ≤ (e.getWidth : ℕ) := h.typed.2
    simp only [sorts, Op.rank, Expr.getWidth]
    rw [if_pos (by omega)]
    congr 2
    omega
  zext {e w} h := by
    have hw : e.getWidth + (w - e.getWidth) = w := Nat.add_sub_of_le h.typed.2
    simp only [sorts, Op.rank, Expr.getWidth, hw]
  sext {e w} h := by
    have hw : e.getWidth + (w - e.getWidth) = w := Nat.add_sub_of_le h.typed.2
    simp only [sorts, Op.rank, Expr.getWidth, hw]
  notWord _ := rfl
  notTruth _ _ := rfl
  equalWord h hk := by
    have hw := h.typed.2.2
    obtain rfl | rfl := hk <;> simp [sorts, Op.rank, getSMTLIBKeyword, hw]
  equalTruth _ hk _ := by
    obtain rfl | rfl := hk <;> rfl
  logicalTruth {k l r} _ hk _ := by
    cases k <;> first | rfl | cases hk
  arithmetic {k l r} h hk _ := by
    have hw := h.typed.2.2
    cases k <;> first
      | exact absurd hk (by decide)
      | simp [sorts, Op.rank, getSMTLIBKeyword, hw, Expr.getWidth, BinaryKind.isCmp]
  compare {k l r} h hk := by
    have hw := h.typed.2.2
    cases k <;> first
      | exact absurd hk (by decide)
      | simp [sorts, Op.rank, getSMTLIBKeyword, hw]
  ashr {l r} h := by
    have hw := h.typed.2.2
    exact ⟨.bool, .bitVec l.getWidth, by simp [sorts, Op.rank, Expr.getWidth, hw],
      by simp [sorts, Op.rank, hw],
      by simp [sorts, Op.rank, Expr.getWidth, BinaryKind.isCmp]⟩

end

end Encider.Smtlib
