import Encider.Solver.ImpliedValue

/-! When the reads that `getImpliedValues` reports are implied. -/

namespace Encider

open Encider.Expr

/-- The value of an expression, as a constant. -/
def Expr.asWord (σ : Assignment) (e : Expr) : ConstantWord :=
  ⟨e.getWidth, BitVec.ofNat e.getWidth (e.value σ)⟩

namespace ImpliedValue

variable {same : List Nat → Bool} {path : List Nat} {e l r : Expr} {k : BinaryKind}
  {v : ConstantWord}

/-- A condition on the calls with a value, from this one on. -/
def Along (same : List Nat → Bool) (C : List Nat → Expr → ConstantWord → Prop) :
    List Nat → Expr → ConstantWord → Prop
  | path, .select c t f, v => C path (.select c t f) v ∧
      ∀ x y, t.asConstant = some x → f.asConstant = some y → ¬ (x = y ∧ same path = true) →
        (v = x → Along same C (0 :: path) c ⟨1, 1⟩) ∧
          (v ≠ x → v = y → Along same C (0 :: path) c ⟨1, 0⟩)
  | path, .concat l r, v => C path (.concat l r) v ∧
      Along same C (0 :: path) l (v.extract r.getWidth l.getWidth) ∧
      Along same C (1 :: path) r (v.extract 0 r.getWidth)
  | path, .zext e w, v => C path (.zext e w) v ∧
      Along same C (0 :: path) e (v.extract 0 e.getWidth)
  | path, .sext e w, v => C path (.sext e w) v ∧
      Along same C (0 :: path) e (v.extract 0 e.getWidth)
  | path, .binary k l r, v => C path (.binary k l r) v ∧
    match k with
    | .add => ∀ c u, l.asConstant = some c → v.sub c = some u → Along same C (1 :: path) r u
    | .sub => ∀ c u, l.asConstant = some c → c.sub v = some u → Along same C (1 :: path) r u
    | .xor => ∀ c u, l.asConstant = some c → v.xor c = some u → Along same C (1 :: path) r u
    | .and => l.getWidth = 1 → v.isTrue = true →
        Along same C (0 :: path) l v ∧ Along same C (1 :: path) r v
    | .eq => ∀ c, l.asConstant = some c →
        (v.isTrue = true → Along same C (1 :: path) r c) ∧
          (v.isTrue = false → c.1 = 1 → Along same C (1 :: path) r c.not)
    | _ => True
  | path, e, v => C path e v

/-- The kinds that do nothing with the value they get. -/
def Ignores (same : List Nat → Bool) (path : List Nat) : Expr → Prop
  | .notOptimized _ | .extract _ _ _ | .not _ => True
  | .select _ t f => ∀ x y, t.asConstant = some x → f.asConstant = some y →
      x = y ∧ same path = true
  | .binary k l _ =>
    match k with
    | .add | .sub | .xor => l.asConstant = none
    | .and => l.getWidth ≠ 1
    | .or | .ne | .eq => False
    | _ => True
  | _ => False

/-- The null that is passed on below an `Or` of value zero is not used, and there is no `Ne`. -/
def KeepsOff (same : List Nat → Bool) (path : List Nat) : Expr → ConstantWord → Prop
  | .binary .or l r, v => v.isZero = true →
      Ignores same (0 :: path) l ∧ Ignores same (1 :: path) r
  | .binary .ne _ _, _ => False
  | _, _ => True

/-- Constant branches of a choice that are equal are one object. -/
def Distinct (same : List Nat → Bool) (path : List Nat) : Expr → ConstantWord → Prop
  | .select _ t f, _ => ∀ x, t.asConstant = some x → f.asConstant = some x → same path = true
  | _, _ => True

/-- The call returns, and no value it reports is null. -/
def Clean (o : Option (List Implied)) : Prop := ∃ rs, o = some rs ∧ ∀ p ∈ rs, p.2 ≠ none

/-- The read has its value in all these assignments. -/
def Right (A : Set Assignment) (p : Implied) : Prop :=
  ∃ c, p.2 = some c ∧ ∀ σ ∈ A, (Expr.read p.1.1 p.1.2.1 p.1.2.2).asWord σ = c

/-- The call returns, and all it reports is true. -/
def Sound (A : Set Assignment) (o : Option (List Implied)) : Prop :=
  ∃ rs, o = some rs ∧ ∀ p ∈ rs, Right A p

theorem Sound.nil {A : Set Assignment} : Sound A (some []) := ⟨[], rfl, by simp⟩

theorem Clean.nil : Clean (some []) := ⟨[], rfl, by simp⟩

theorem Sound.both {A : Set Assignment} {x y : Option (List Implied)} (hx : Sound A x)
    (hy : Sound A y) : Sound A (both x y) := by
  obtain ⟨xs, rfl, hxs⟩ := hx
  obtain ⟨ys, rfl, hys⟩ := hy
  refine ⟨xs ++ ys, rfl, fun p hp => ?_⟩
  rcases List.mem_append.mp hp with hp | hp
  · exact hxs p hp
  · exact hys p hp

theorem Clean.of_both {x y : Option (List Implied)} (h : Clean (both x y)) : Clean x ∧ Clean y := by
  obtain ⟨rs, hrs, hall⟩ := h
  obtain ⟨xs, rfl, hrest⟩ := Option.bind_eq_some_iff.mp hrs
  obtain ⟨ys, rfl, hdone⟩ := Option.bind_eq_some_iff.mp hrest
  cases hdone
  exact ⟨⟨xs, rfl, fun p hp => hall p (List.mem_append_left _ hp)⟩,
    ⟨ys, rfl, fun p hp => hall p (List.mem_append_right _ hp)⟩⟩

theorem Sound.clean {A : Set Assignment} {o : Option (List Implied)} (h : Sound A o) : Clean o := by
  obtain ⟨rs, rfl, hall⟩ := h
  refine ⟨rs, rfl, fun p hp hnone => ?_⟩
  obtain ⟨c, hc, -⟩ := hall p hp
  cases hnone.symm.trans hc

theorem not_clean_none : ¬ Clean none := by
  rintro ⟨rs, hrs, -⟩
  cases hrs

/-! What happens with the null -/

theorem ignores_of_clean (h : Clean (getImpliedValues same path e none)) : Ignores same path e := by
  cases e with
  | constant w c => exact not_clean_none h
  | notOptimized e => trivial
  | read a us i =>
    obtain ⟨rs, hrs, hall⟩ := h
    cases hrs
    exact hall _ (List.mem_singleton.mpr rfl) rfl
  | select c t f =>
    intro x y hx hy
    by_contra hno
    rw [getImpliedValues, hx, hy] at h
    change Clean (if x = y ∧ same path = true then _ else _) at h
    rw [if_neg hno] at h
    exact not_clean_none h
  | concat l r => exact not_clean_none h
  | extract e off w => trivial
  | zext e w => exact not_clean_none h
  | sext e w => exact not_clean_none h
  | not e => trivial
  | binary k l r =>
    cases k with
    | add | sub | xor =>
      change l.asConstant = none
      by_contra hc
      obtain ⟨c, hc⟩ := Option.ne_none_iff_exists'.mp hc
      simp only [getImpliedValues, throughConstant, hc] at h
      exact not_clean_none h
    | and =>
      intro hw
      change Clean (if l.getWidth = 1 then _ else _) at h
      rw [if_pos hw] at h
      exact not_clean_none h
    | or | ne | eq => exact not_clean_none h
    | _ => trivial

theorem ignores_run (h : Ignores same path e) : getImpliedValues same path e none = some [] := by
  cases e with
  | constant w c => cases h
  | notOptimized e => rfl
  | read a us i => cases h
  | select c t f =>
    rw [getImpliedValues]
    split
    · rename_i x y hx hy
      exact if_pos (h x y hx hy)
    · rfl
  | concat l r => cases h
  | extract e off w => rfl
  | zext e w => cases h
  | sext e w => cases h
  | not e => rfl
  | binary k l r =>
    cases k with
    | add | sub | xor =>
      have hc : l.asConstant = none := h
      simp only [getImpliedValues, throughConstant, hc]
    | and => exact if_neg h
    | or | ne | eq => cases h
    | _ => rfl

/-- A call that returns without null values keeps off the null, and so does every call below. -/
theorem along_of_clean (h : Clean (getImpliedValues same path e (some v))) :
    Along same (KeepsOff same) path e v := by
  induction e using Expr.rec (motive_2 := fun _ => True) generalizing path v with
  | constant w c => trivial
  | notOptimized e => trivial
  | read a us i => trivial
  | select c t f ihc =>
    refine ⟨trivial, fun x y hx hy hno => ?_⟩
    rw [getImpliedValues, hx, hy] at h
    change Clean (if x = y ∧ same path = true then _ else _) at h
    rw [if_neg hno] at h
    constructor
    · intro hv
      exact ihc (by simpa [hv] using h)
    · intro hvx hvy
      refine ihc ?_
      rw [Option.bind_eq_bind, Option.bind_some, if_neg hvx, if_pos hvy] at h
      exact h
  | concat l r hl hr =>
    have hboth := Clean.of_both h
    exact ⟨trivial, hl hboth.1, hr hboth.2⟩
  | extract e off w => trivial
  | zext e w ih => exact ⟨trivial, ih h⟩
  | sext e w ih => exact ⟨trivial, ih h⟩
  | not e => trivial
  | binary k l r hl hr =>
    cases k with
    | add | sub | xor =>
      refine ⟨trivial, fun c u hc hu => hr ?_⟩
      simpa [getImpliedValues, throughConstant, hc, hu] using h
    | and =>
      refine ⟨trivial, fun hw hv => ?_⟩
      have hboth := Clean.of_both (by simpa [getImpliedValues, hw, hv] using h)
      exact ⟨hl hboth.1, hr hboth.2⟩
    | or =>
      refine ⟨fun hv => ?_, trivial⟩
      have hboth := Clean.of_both (by simpa [getImpliedValues, hv] using h)
      exact ⟨ignores_of_clean hboth.1, ignores_of_clean hboth.2⟩
    | ne => exact absurd h not_clean_none
    | eq =>
      refine ⟨trivial, fun c hc => ⟨fun hv => hr ?_, fun hv hw => hr ?_⟩⟩
      · simpa [getImpliedValues, hc, hv] using h
      · simpa [getImpliedValues, hc, hv, hw] using h
    | _ => exact ⟨trivial, trivial⟩
  | nil => trivial
  | cons => trivial

/-! What the values of the parts are -/

variable {σ : Assignment}

theorem word_ext {x y : ConstantWord} (hw : x.1 = y.1) (hv : x.2.toNat = y.2.toNat) : x = y := by
  obtain ⟨w, x⟩ := x
  obtain ⟨u, y⟩ := y
  obtain rfl : w = u := hw
  exact congrArg (Sigma.mk w) (BitVec.eq_of_toNat_eq hv)

theorem word_toNat (e : Expr) : (e.asWord σ).2.toNat = e.value σ := bits_toNat σ e

theorem asConstant_word {c : ConstantWord} (h : e.asConstant = some c) : e.asWord σ = c := by
  cases e with
  | constant w x =>
    cases h
    exact word_ext rfl (word_toNat _)
  | _ => cases h

theorem extract_toNat {v : ConstantWord} {off w : Nat} (h : off + w ≤ v.1) :
    (v.extract off w).2.toNat = (v.2.toNat >>> off) % 2 ^ w := by
  have hm := (ConstantExpr.extract_means (fun _ _ => 0) v.2 h).value
  rw [ConstantExpr.extract, constant_value, constant_value] at hm
  exact hm

theorem concat_left : ((concat l r).asWord σ).extract r.getWidth l.getWidth = l.asWord σ := by
  refine word_ext rfl ?_
  rw [extract_toNat (by simp only [Expr.asWord, Expr.getWidth]; omega), word_toNat, word_toNat,
    Expr.value, extract_left (r.value_lt σ) (Nat.le_refl _), Nat.sub_self, Nat.shiftRight_zero,
    Nat.mod_eq_of_lt (l.value_lt σ)]

theorem concat_right : ((concat l r).asWord σ).extract 0 r.getWidth = r.asWord σ := by
  refine word_ext rfl ?_
  rw [extract_toNat (by simp only [Expr.asWord, Expr.getWidth]; omega), word_toNat, word_toNat,
    Expr.value, extract_right (by omega), Nat.shiftRight_zero, Nat.mod_eq_of_lt (r.value_lt σ)]

theorem zext_word {w : Width} (h : e.getWidth ≤ w) :
    ((zext e w).asWord σ).extract 0 e.getWidth = e.asWord σ := by
  have hlt := e.value_lt σ
  refine word_ext rfl ?_
  rw [extract_toNat ((Nat.zero_add _).trans_le h), word_toNat, word_toNat,
    Expr.value, Nat.mod_eq_of_lt (hlt.trans_le (Nat.pow_le_pow_right (by omega) h)),
    Nat.shiftRight_zero, Nat.mod_eq_of_lt hlt]

theorem sext_word {w : Width} (h : e.getWidth ≤ w) :
    ((sext e w).asWord σ).extract 0 e.getWidth = e.asWord σ := by
  refine word_ext rfl ?_
  have hcut : ((BitVec.ofNat e.getWidth (e.value σ)).signExtend w).setWidth e.getWidth =
      BitVec.ofNat e.getWidth (e.value σ) := by
    apply BitVec.eq_of_getLsbD_eq
    intro i hi
    rw [BitVec.getLsbD_setWidth, BitVec.getLsbD_signExtend]
    simp [hi, hi.trans_le h]
  rw [extract_toNat ((Nat.zero_add _).trans_le h), word_toNat, word_toNat,
    Expr.value, Nat.shiftRight_zero, ← BitVec.toNat_setWidth, hcut, bits_toNat]

/-- The word of an operation, and those of its operands, as words of one width. -/
theorem binary_word (h : (binary k l r).WellTyped) (hk : k.isCmp = false) :
    ∃ x y : BitVec l.getWidth, l.asWord σ = ⟨l.getWidth, x⟩ ∧ r.asWord σ = ⟨l.getWidth, y⟩ ∧
      (binary k l r).asWord σ = ⟨l.getWidth, BitVec.ofNat l.getWidth (k.apply x y)⟩ := by
  refine ⟨_, BitVec.ofNat l.getWidth (r.value σ), rfl, ?_, ?_⟩
  · rw [h.2.2]
    rfl
  · refine word_ext (by simp [Expr.asWord, Expr.getWidth, hk]) ?_
    rw [word_toNat, Expr.value, BitVec.toNat_ofNat, Nat.mod_eq_of_lt]
    have hlt := k.apply_lt (BitVec.ofNat l.getWidth (l.value σ))
      (BitVec.ofNat l.getWidth (r.value σ))
    rwa [hk] at hlt

theorem zipWith_same (f : {w : Width} → BitVec w → BitVec w → BitVec w) {w : Width}
    (x y : BitVec w) : ConstantWord.zipWith f ⟨w, x⟩ ⟨w, y⟩ = some ⟨w, f x y⟩ := by
  unfold ConstantWord.zipWith
  rw [dif_pos rfl]
  rfl

theorem add_word (h : (binary .add l r).WellTyped) :
    ((binary .add l r).asWord σ).sub (l.asWord σ) = some (r.asWord σ) := by
  obtain ⟨x, y, hx, hy, hxy⟩ := binary_word (σ := σ) h rfl
  rw [hxy, hx, hy, ConstantWord.sub, zipWith_same, BinaryKind.apply, BitVec.ofNat_toNat,
    BitVec.setWidth_eq, add_sub_cancel_left]

theorem sub_word (h : (binary .sub l r).WellTyped) :
    (l.asWord σ).sub ((binary .sub l r).asWord σ) = some (r.asWord σ) := by
  obtain ⟨x, y, hx, hy, hxy⟩ := binary_word (σ := σ) h rfl
  rw [hxy, hx, hy, ConstantWord.sub, zipWith_same, BinaryKind.apply, BitVec.ofNat_toNat,
    BitVec.setWidth_eq, sub_sub_cancel]

theorem xor_word (h : (binary .xor l r).WellTyped) :
    ((binary .xor l r).asWord σ).xor (l.asWord σ) = some (r.asWord σ) := by
  obtain ⟨x, y, hx, hy, hxy⟩ := binary_word (σ := σ) h rfl
  rw [hxy, hx, hy, ConstantWord.xor, zipWith_same]
  simp [BinaryKind.apply]

theorem bool_word (h : e.getWidth = 1) (h1 : e.value σ = 1) : e.asWord σ = ⟨1, 1⟩ :=
  word_ext h ((word_toNat e).trans h1)

theorem bool_word_zero (h : e.getWidth = 1) (h0 : e.value σ = 0) : e.asWord σ = ⟨1, 0⟩ :=
  word_ext h ((word_toNat e).trans h0)

/-- A conjunction of booleans is true where both are. -/
theorem and_word (h : (binary .and l r).WellTyped) (hw : l.getWidth = 1)
    (hv : ((binary .and l r).asWord σ).isTrue = true) :
    l.asWord σ = (binary .and l r).asWord σ ∧ r.asWord σ = (binary .and l r).asWord σ := by
  have hrw : r.getWidth = 1 := h.2.2.symm.trans hw
  have h1 : (binary .and l r).value σ = 1 := by
    simpa [ConstantWord.isTrue, word_toNat] using (Bool.and_eq_true_iff.mp hv).2
  have hand : l.value σ = 1 ∧ r.value σ = 1 := by
    rw [Expr.value, BinaryKind.apply, BitVec.toNat_and, bits_toNat, h.2.2, bits_toNat] at h1
    rcases width_one_value (σ := σ) hw with hl | hl
    · simp [hl] at h1
    rcases width_one_value (σ := σ) hrw with hr | hr
    · simp [hr] at h1
    exact ⟨hl, hr⟩
  rw [bool_word (e := binary .and l r) hw h1]
  exact ⟨bool_word hw hand.1, bool_word hrw hand.2⟩

theorem eq_word (h : (binary .eq l r).WellTyped)
    (hv : ((binary .eq l r).asWord σ).isTrue = true) : r.asWord σ = l.asWord σ := by
  have h1 : (binary .eq l r).value σ = 1 := by
    simpa [ConstantWord.isTrue, word_toNat] using (Bool.and_eq_true_iff.mp hv).2
  refine word_ext h.2.2.symm ?_
  rw [word_toNat, word_toNat]
  exact ((eq_value_iff h.2.2).mp h1).symm

/-- Booleans that are not equal are opposites. -/
theorem ne_word (h : (binary .eq l r).WellTyped) (hw : l.getWidth = 1)
    (hv : ((binary .eq l r).asWord σ).isTrue = false) : r.asWord σ = (l.asWord σ).not := by
  have hrw : r.getWidth = 1 := h.2.2.symm.trans hw
  have hne : l.value σ ≠ r.value σ := by
    intro heq
    have h1 := (eq_value_iff h.2.2).mpr heq
    rw [bool_word (e := binary .eq l r) rfl h1] at hv
    cases hv
  rcases width_one_value (σ := σ) hw with hl | hl <;>
    rcases width_one_value (σ := σ) hrw with hr | hr
  · exact absurd (hl.trans hr.symm) hne
  · rw [bool_word hrw hr, bool_word_zero hw hl]
    rfl
  · rw [bool_word_zero hrw hr, bool_word hw hl]
    rfl
  · exact absurd (hl.trans hr.symm) hne

/-- A choice is one of its branches. -/
theorem select_word {c t f : Expr} (h : (select c t f).WellTyped) :
    (c.asWord σ = ⟨1, 1⟩ ∧ (select c t f).asWord σ = t.asWord σ) ∨
      (c.asWord σ = ⟨1, 0⟩ ∧ (select c t f).asWord σ = f.asWord σ) := by
  obtain ⟨-, -, -, hc, htf⟩ := h
  have hv := select_value σ c t f htf
  rcases width_one_value (σ := σ) hc with h0 | h1
  · refine .inr ⟨bool_word_zero hc h0, word_ext htf ?_⟩
    rw [word_toNat, word_toNat, hv, if_neg (by omega)]
  · refine .inl ⟨bool_word hc h1, word_ext rfl ?_⟩
    rw [word_toNat, word_toNat, hv, if_pos h1]

/-! What is reported -/

variable {A : Set Assignment}

theorem throughConstant_sound (op : ConstantWord → ConstantWord → Option ConstantWord)
    {right : ConstantRef → Option (List Implied)}
    (hop : ∀ σ, op (e.asWord σ) (l.asWord σ) = some (r.asWord σ))
    (hA : A.Nonempty) (hv : ∀ σ ∈ A, e.asWord σ = v)
    (hright : ∀ c u, l.asConstant = some c → op v c = some u → (∀ σ ∈ A, r.asWord σ = u) →
      Sound A (right (some u))) : Sound A (throughConstant op l (some v) right) := by
  unfold throughConstant
  split
  · rename_i c hc
    obtain ⟨σ, hσ⟩ := hA
    have hall : ∀ τ ∈ A, op v c = some (r.asWord τ) := by
      intro τ hτ
      rw [← hop τ, hv τ hτ, asConstant_word hc]
    have hu := hall σ hσ
    rw [Option.bind_eq_bind, Option.bind_some, hu]
    refine hright c _ hc hu fun τ hτ => ?_
    exact Option.some.inj ((hall τ hτ).symm.trans hu)
  · exact .nil

/-- Where no call passes on the null or compares two objects that are the same constant, all that
is reported is true. -/
theorem getImpliedValues_sound (hA : A.Nonempty) (he : e.WellTyped) (hv : ∀ σ ∈ A, e.asWord σ = v)
    (hk : Along same (KeepsOff same) path e v) (hd : Along same (Distinct same) path e v) :
    Sound A (getImpliedValues same path e (some v)) := by
  induction e using Expr.rec (motive_2 := fun _ => True) generalizing path v with
  | constant w c =>
    obtain ⟨σ, hσ⟩ := hA
    have hc : v = ⟨w, c⟩ := (hv σ hσ).symm.trans (asConstant_word rfl)
    rw [getImpliedValues, Option.bind_eq_bind, Option.bind_some, if_pos hc]
    exact .nil
  | notOptimized e => exact .nil
  | read a us i =>
    refine ⟨_, rfl, fun p hp => ?_⟩
    cases List.mem_singleton.mp hp
    exact ⟨v, rfl, hv⟩
  | select c t f ihc =>
    rw [getImpliedValues]
    split
    · rename_i x y hx hy
      split
      · exact .nil
      · rename_i hno
        have hne : x ≠ y := by
          rintro rfl
          exact hno ⟨rfl, hd.1 x hx hy⟩
        have hword : ∀ σ ∈ A, (c.asWord σ = ⟨1, 1⟩ ∧ v = x) ∨ (c.asWord σ = ⟨1, 0⟩ ∧ v = y) := by
          intro σ hσ
          rw [← hv σ hσ, ← asConstant_word (σ := σ) hx, ← asConstant_word (σ := σ) hy]
          exact select_word he
        have hkc := hk.2 x y hx hy hno
        have hdc := hd.2 x y hx hy hno
        rw [Option.bind_eq_bind, Option.bind_some]
        split
        · rename_i hvx
          refine ihc he.1 (fun σ hσ => ?_) (hkc.1 hvx) (hdc.1 hvx)
          exact ((hword σ hσ).resolve_right fun h => hne (hvx.symm.trans h.2)).1
        · rename_i hvx
          have hfalse : ∀ σ ∈ A, c.asWord σ = ⟨1, 0⟩ ∧ v = y := fun σ hσ =>
            (hword σ hσ).resolve_left fun h => hvx h.2
          obtain ⟨σ, hσ⟩ := hA
          have hvy := (hfalse σ hσ).2
          rw [if_pos hvy]
          exact ihc he.1 (fun σ hσ => (hfalse σ hσ).1) (hkc.2 hvx hvy) (hdc.2 hvx hvy)
    · exact .nil
  | concat l r hl hr =>
    refine .both (hl he.1 (fun σ hσ => ?_) hk.2.1 hd.2.1) (hr he.2 (fun σ hσ => ?_) hk.2.2 hd.2.2)
    · rw [← hv σ hσ, concat_left]
    · rw [← hv σ hσ, concat_right]
  | extract e off w => exact .nil
  | zext e w ih =>
    refine ih he.1 (fun σ hσ => ?_) hk.2 hd.2
    rw [← hv σ hσ, zext_word he.2]
  | sext e w ih =>
    refine ih he.1 (fun σ hσ => ?_) hk.2 hd.2
    rw [← hv σ hσ, sext_word he.2]
  | not e => exact .nil
  | binary k l r hl hr =>
    cases k with
    | add =>
      exact throughConstant_sound ConstantWord.sub (fun σ => add_word he) hA hv fun c u hc hu hr' =>
        hr he.2.1 hr' (hk.2 c u hc hu) (hd.2 c u hc hu)
    | sub =>
      exact throughConstant_sound (fun v c => c.sub v) (fun σ => sub_word he) hA hv
        fun c u hc hu hr' => hr he.2.1 hr' (hk.2 c u hc hu) (hd.2 c u hc hu)
    | xor =>
      exact throughConstant_sound ConstantWord.xor (fun σ => xor_word he) hA hv fun c u hc hu hr' =>
        hr he.2.1 hr' (hk.2 c u hc hu) (hd.2 c u hc hu)
    | and =>
      change Sound A (if l.getWidth = 1 then (if v.isTrue then _ else _) else _)
      split
      · rename_i hw
        split
        · rename_i ht
          have hparts : ∀ σ ∈ A, l.asWord σ = v ∧ r.asWord σ = v := by
            intro σ hσ
            have hw := and_word (σ := σ) he hw
            rw [hv σ hσ] at hw
            exact hw ht
          exact .both (hl he.1 (fun σ hσ => (hparts σ hσ).1) (hk.2 hw ht).1 (hd.2 hw ht).1)
            (hr he.2.1 (fun σ hσ => (hparts σ hσ).2) (hk.2 hw ht).2 (hd.2 hw ht).2)
        · exact .nil
      · exact .nil
    | or =>
      change Sound A (if v.isZero then _ else _)
      split
      · rename_i hz
        have hboth := hk.1 hz
        rw [ignores_run hboth.1, ignores_run hboth.2]
        exact .both .nil .nil
      · exact .nil
    | ne => exact absurd hk.1 id
    | eq =>
      have hword : ∀ σ ∈ A, v = (binary .eq l r).asWord σ := fun σ hσ => (hv σ hσ).symm
      rw [getImpliedValues, Option.bind_eq_bind, Option.bind_some]
      split
      · rename_i c hc
        by_cases ht : v.isTrue = true
        · rw [if_pos ht]
          refine hr he.2.1 (fun σ hσ => ?_) ((hk.2 c hc).1 ht) ((hd.2 c hc).1 ht)
          rw [hword σ hσ] at ht
          exact (eq_word he ht).trans (asConstant_word hc)
        · rw [if_neg ht]
          have ht := Bool.eq_false_of_not_eq_true ht
          split
          · rename_i hw
            refine hr he.2.1 (fun σ hσ => ?_) ((hk.2 c hc).2 ht hw) ((hd.2 c hc).2 ht hw)
            have hl := asConstant_word (σ := σ) hc
            rw [hword σ hσ] at ht
            rw [← hl] at hw ⊢
            exact ne_word he hw ht
          · exact .nil
      · exact .nil
    | _ => exact .nil
  | nil => trivial
  | cons => trivial

/-- For a value that the expression can have: a call that is right passes on no null that is used
and meets no `Ne`, and one of which this holds is right, if it also compares no two objects that
are the same constant. -/
theorem implied_iff (same : List Nat → Bool) (e : Expr) (v : ConstantWord) (he : e.WellTyped)
    (hv : ∃ σ, e.asWord σ = v) :
    (Sound {σ | e.asWord σ = v} (getImpliedValues same [] e (some v)) →
      Along same (KeepsOff same) [] e v) ∧
    (Along same (KeepsOff same) [] e v → Along same (Distinct same) [] e v →
      Sound {σ | e.asWord σ = v} (getImpliedValues same [] e (some v))) := by
  constructor
  · intro h
    exact along_of_clean h.clean
  · intro hk hd
    exact getImpliedValues_sound hv he (fun σ hσ => hσ) hk hd

/-- A byte of two. -/
def byteOf (i : Nat) : Expr := .read { name := "k", size := 2 } .nil (const i 32)

/-- The first byte is three more than seven. -/
def isTen : Expr := .binary .eq (const 10 8) (byteOf 0)

theorem implied_iff_ten :
    (Sound {σ | isTen.asWord σ = ⟨1, 1⟩}
        (getImpliedValues (fun _ => false) [] isTen (some ⟨1, 1⟩)) →
      Along (fun _ => false) (KeepsOff fun _ => false) [] isTen ⟨1, 1⟩) ∧
    (Along (fun _ => false) (KeepsOff fun _ => false) [] isTen ⟨1, 1⟩ →
      Along (fun _ => false) (Distinct fun _ => false) [] isTen ⟨1, 1⟩ →
      Sound {σ | isTen.asWord σ = ⟨1, 1⟩}
        (getImpliedValues (fun _ => false) [] isTen (some ⟨1, 1⟩))) :=
  implied_iff (fun _ => false) isTen ⟨1, 1⟩ ⟨trivial, ⟨trivial, trivial, rfl⟩, rfl⟩
    ⟨fun _ _ => BitVec.ofNat _ 10, rfl⟩

/-- Below an `Or` that is zero the reads get null values. -/
theorem or_reports_null : ¬ ∀ same e v, e.WellTyped → (∃ σ, e.asWord σ = v) →
    Sound {σ | e.asWord σ = v} (getImpliedValues same [] e (some v)) := by
  intro hall
  have h := hall (fun _ => false) (.binary .or (byteOf 0) (byteOf 1)) ⟨8, 0⟩
    ⟨⟨trivial, trivial, rfl⟩, ⟨trivial, trivial, rfl⟩, rfl⟩ ⟨fun _ _ => 0, rfl⟩
  obtain ⟨rs, hrs, hclean⟩ := h.clean
  cases hrs
  exact hclean _ List.mem_cons_self rfl

end ImpliedValue

end Encider
