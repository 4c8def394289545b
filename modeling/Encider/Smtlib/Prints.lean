import Encider.Smtlib.Reading

/-! Every printed expression reads as what it means, by induction on the expression. -/

namespace Encider.Smtlib

open Smt

theorem sortOfWidth_bool {w : Width} : sortOfWidth w = .bool ↔ w = 1 := by
  unfold sortOfWidth
  split <;> simp [*]

theorem one_le_size (e : Expr) : 1 ≤ e.size := by
  cases e <;> simp [Expr.size]

theorem width_of_bitvector {w : Width} (h : SmtlibSort.bitvector = .bool) : w = 1 := by
  cases h

/-- What is printed as a boolean is one bit wide. -/
theorem width_of_bool {e : Expr} (h : getSort e = .bool) : e.getWidth = 1 := by
  induction e using Expr.rec (motive_2 := fun _ => True) with
  | constant w v => exact sortOfWidth_bool.mp h
  | notOptimized e ih => exact ih h
  | not e => exact sortOfWidth_bool.mp h
  | binary k l r =>
    simp only [getSort] at h
    simp only [Expr.getWidth]
    split at h
    · rename_i hk
      rw [if_pos hk]
    · rename_i hk
      rw [if_neg hk]
      split at h
      · exact sortOfWidth_bool.mp h
      · cases h
  | read => cases h
  | select => cases h
  | concat => cases h
  | extract => cases h
  | zext => cases h
  | sext => cases h
  | nil => trivial
  | cons => trivial

section
variable {Arr : Array → Prop} {W : Width → Prop} {Q : BinaryKind → Expr → Expr → Prop}
  {o : Options} {D : Type} {G : Algebra D} {R : Reading Arr W Q o G}
  {Declared : String → Prop} {N : Expr → ℤ → Prop}

/-- The literals of a cast. -/
theorem bit_run {v : ℤ} (h0 : 0 ≤ v) (h1 : v ≤ 1) (sc : Scope D) :
    (Term.numeral v 1).run G sc = some (G.bits 1 (BitVec.ofInt 1 v), sc) := by
  have hlit : G.literal 1 v = some (G.bits 1 (BitVec.ofInt 1 v)) := by
    rw [Algebra.literal, if_pos]
    omega
  rw [Term.run, hlit, Option.map_some]

/-- An expression is cast where the other sort is expected. -/
theorem Prints.expression (hN : Naming Arr Declared N) {e : Expr} (he : Fit Arr W Q e)
    {full : SmtlibSort → Printer} {s : SmtlibSort} (hs : s = .bool → e.getWidth = 1)
    (h : Prints R Declared N e.size (full (getSort e)) (R.den (getSort e) e)) :
    Prints R Declared N (e.size + 1) (printExpression o e full s) (R.den s e) := by
  have hplain := h.abbreviated hN
  unfold printExpression
  split
  · rename_i heq
    subst heq
    exact hplain
  · rename_i hne
    intro bindings sc hag
    obtain ⟨sc', hrun, hag', hframe⟩ := hplain bindings sc hag
    cases s with
    | bitvector =>
      have hsort : getSort e = .bool := by
        cases hsort : getSort e with
        | bool => rfl
        | bitvector => exact absurd hsort hne
      rw [hsort] at hrun
      refine ⟨sc', Term.run_app3 G ?_ (bit_run (by omega) (Int.le_refl 1) sc')
        (bit_run (Int.le_refl 0) (by omega) sc') (R.toWord he (width_of_bool hsort)), hag', hframe⟩
      rw [hsort]
      exact hrun
    | bool =>
      have hsort : getSort e = .bitvector := by
        cases hsort : getSort e with
        | bool => exact absurd hsort hne
        | bitvector => rfl
      rw [hsort] at hrun
      have hzero : (Term.numeral 0 e.getWidth).run G sc' =
          some (G.bits 1 (BitVec.ofInt 1 0), sc') := by
        rw [hs rfl]
        exact bit_run (Int.le_refl 0) (by omega) sc'
      refine ⟨sc', Term.run_app2 G ?_ hzero (R.toTruth he (hs rfl)), hag', hframe⟩
      rw [hsort]
      exact hrun

/-- An expression where a word is expected. -/
theorem Prints.expressionWord (hN : Naming Arr Declared N) {e : Expr} (he : Fit Arr W Q e)
    {full : SmtlibSort → Printer}
    (h : Prints R Declared N e.size (full (getSort e)) (R.den (getSort e) e)) :
    Prints R Declared N (e.size + 1) (printExpression o e full .bitvector) (R.word e) :=
  Prints.expression hN he width_of_bitvector h

theorem Prints.constant {w : Width} (v : BitVec w) (hw : W w) {n : ℕ} :
    Prints R Declared N n (fun bindings => (printConstant o.cdm v, bindings))
      (R.den (sortOfWidth w) (.constant w v)) := by
  intro bindings sc hag
  refine ⟨sc, (R.constant v hw sc).trans ?_, hag, fun _ _ => rfl⟩
  unfold sortOfWidth
  split <;> rfl

theorem Prints.word (hN : Naming Arr Declared N) {w : Width} (v : BitVec w) (hw : W w) {n : ℕ}
    (hn : 2 ≤ n) : Prints R Declared N n (printWord o v) (R.word (.constant w v)) := by
  have hfit : Fit Arr W Q (.constant w v) := ⟨trivial, hw, trivial⟩
  refine (Prints.expressionWord hN hfit ?_).mono hn
  exact Prints.constant v hw

variable (W1 : W 1)
include W1

/-- By induction on the expression; its kids and the writes below it are smaller. -/
theorem printFullExpression_prints (hN : Naming Arr Declared N) (e : Expr) : Fit Arr W Q e →
    Prints R Declared N e.size (printFullExpression o e (getSort e)) (R.den (getSort e) e) := by
  induction e using Expr.rec (motive_2 := fun us => ∀ a, Arr a → FitUpdates Arr W Q a us →
    Prints R Declared N us.size (printUpdatesAndArray o a us) (R.contents a us)) with
  | constant w v =>
    intro h
    exact Prints.constant v h.within
  | notOptimized e ih =>
    intro h
    have he : Fit Arr W Q e := ⟨h.typed, h.within, h.all⟩
    have hden : ∀ s, R.den s (.notOptimized e) = R.den s e := by
      intro s
      cases s
      · exact (R.notOptimized e).1
      · exact (R.notOptimized e).2
    rw [hden]
    exact Prints.expression hN he width_of_bool (ih he)
  | read a us i hus hi =>
    intro h
    have hi' : Fit Arr W Q i := ⟨h.typed.2.1, h.within.2.2.2, h.all.2⟩
    have hus' : FitUpdates Arr W Q a us := ⟨h.typed.1, h.within.2.2.1, h.all.1⟩
    refine Prints.app2 ((hus a h.within.1 hus').mono ?_)
      ((Prints.expressionWord hN hi' (hi hi')).mono ?_) (R.read h)
    · simp only [Expr.size]
      omega
    · simp only [Expr.size]
      omega
  | select c t f hc ht hf =>
    intro h
    have hc' : Fit Arr W Q c := ⟨h.typed.1, h.within.1, h.all.1⟩
    have ht' : Fit Arr W Q t := ⟨h.typed.2.1, h.within.2.1, h.all.2.1⟩
    have hf' : Fit Arr W Q f := ⟨h.typed.2.2.1, h.within.2.2, h.all.2.2⟩
    have hcw : c.getWidth = 1 := h.typed.2.2.2.1
    refine Prints.app3 ((Prints.expression hN hc' (fun _ => hcw) (hc hc')).mono ?_)
      ((Prints.expressionWord hN ht' (ht ht')).mono ?_)
      ((Prints.expressionWord hN hf' (hf hf')).mono ?_) (R.select h)
    all_goals
      simp only [Expr.size]
      omega
  | concat l r hl hr =>
    intro h
    have hl' : Fit Arr W Q l := ⟨h.typed.1, h.within.1, h.all.1⟩
    have hr' : Fit Arr W Q r := ⟨h.typed.2, h.within.2.1, h.all.2⟩
    refine Prints.app2 ((Prints.expressionWord hN hl' (hl hl')).mono ?_)
      ((Prints.expressionWord hN hr' (hr hr')).mono ?_) (R.concat h)
    all_goals
      simp only [Expr.size]
      omega
  | extract e low w ih =>
    intro h
    have he : Fit Arr W Q e := ⟨h.typed.1, h.within.1, h.all⟩
    exact Prints.app1 (Prints.expressionWord hN he (ih he)) (R.extract h)
  | zext e w ih =>
    intro h
    have he : Fit Arr W Q e := ⟨h.typed.1, h.within.1, h.all⟩
    exact Prints.app1 (Prints.expressionWord hN he (ih he)) (R.zext h)
  | sext e w ih =>
    intro h
    have he : Fit Arr W Q e := ⟨h.typed.1, h.within.1, h.all⟩
    exact Prints.app1 (Prints.expressionWord hN he (ih he)) (R.sext h)
  | not e ih =>
    intro h
    have he : Fit Arr W Q e := ⟨h.typed, h.within, h.all⟩
    rw [printFullExpression]
    cases hs : getSort (.not e) with
    | bitvector => exact Prints.app1 (Prints.expressionWord hN he (ih he)) (R.notWord h)
    | bool =>
      have hw : e.getWidth = 1 := sortOfWidth_bool.mp hs
      exact Prints.app1 (Prints.expression hN he (fun _ => hw) (ih he)) (R.notTruth h hw)
  | binary k l r hl hr =>
    intro h
    have hl' : Fit Arr W Q l := ⟨h.typed.1, h.within.1, h.all.1⟩
    have hr' : Fit Arr W Q r := ⟨h.typed.2.1, h.within.2, h.all.2.1⟩
    have hlr : l.getWidth = r.getWidth := h.typed.2.2
    have hprintl : ∀ s, (s = .bool → l.getWidth = 1) → Prints R Declared N (Expr.binary k l r).size
        (printExpression o l (printFullExpression o l) s) (R.den s l) := by
      intro s hs
      refine (Prints.expression hN hl' hs (hl hl')).mono ?_
      simp only [Expr.size]
      omega
    have hprintr : ∀ s, (s = .bool → l.getWidth = 1) → Prints R Declared N (Expr.binary k l r).size
        (printExpression o r (printFullExpression o r) s) (R.den s r) := by
      intro s hs
      refine (Prints.expression hN hr' (fun h => hlr ▸ hs h) (hr hr')).mono ?_
      simp only [Expr.size]
      omega
    rw [printFullExpression]
    split
    · rename_i hk
      have hsort : getSort (.binary k l r) = .bool := by
        obtain rfl | rfl := hk <;> rfl
      rw [hsort]
      refine Prints.app2 (hprintl _ width_of_bool) (hprintr _ width_of_bool) ?_
      cases hs : getSort l with
      | bitvector => exact R.equalWord h hk
      | bool => exact R.equalTruth h hk (width_of_bool hs)
    · rename_i heq
      split
      · rename_i hk
        have hcmp : k.isCmp = false := by
          cases k <;> first | rfl | cases hk
        have hsort : getSort (.binary k l r) = sortOfWidth l.getWidth := by
          simp [getSort, hcmp, hk]
        have hne : k ≠ .ashr := by
          rintro rfl
          cases hk
        cases hs : getSort (.binary k l r) with
        | bitvector =>
          exact Prints.app2 (hprintl _ width_of_bitvector) (hprintr _ width_of_bitvector) (R.arithmetic h hcmp hne)
        | bool =>
          have hw : l.getWidth = 1 := sortOfWidth_bool.mp (hsort.symm.trans hs)
          exact Prints.app2 (hprintl _ fun _ => hw) (hprintr _ fun _ => hw)
            (R.logicalTruth h hk hw)
      · rename_i hk
        split
        · rename_i hashr
          subst hashr
          have hw : W l.getWidth := hl'.within.width W1
          have hsize : 2 ≤ (Expr.binary .ashr l r).size := by
            have := one_le_size l
            simp only [Expr.size]
            omega
          obtain ⟨c, s, hc, hs, hite⟩ := R.ashr h
          exact Prints.app3 (Prints.app2 (hprintr _ width_of_bitvector) (Prints.word hN _ hw hsize) hc)
            (Prints.word hN _ hw hsize)
            (Prints.app2 (hprintl _ width_of_bitvector) (hprintr _ width_of_bitvector) hs) hite
        · rename_i hashr
          refine Prints.app2 (hprintl _ width_of_bitvector) (hprintr _ width_of_bitvector) ?_
          cases hcmp : k.isCmp with
          | true =>
            have hsort : getSort (.binary k l r) = .bool := by simp [getSort, hcmp]
            rw [hsort]
            exact R.compare h hcmp
          | false =>
            have hsort : getSort (.binary k l r) = .bitvector := by simp [getSort, hcmp, hk]
            rw [hsort]
            exact R.arithmetic h hcmp hashr
  | nil a ha _ =>
    intro bindings sc hag
    exact ⟨sc, Term.run_symbol G (hag.declared a ha), hag, fun _ _ => rfl⟩
  | cons i v next hi hv hnext a ha h =>
    have hi' : Fit Arr W Q i := ⟨h.typed.1, h.within.1, h.all.1⟩
    have hv' : Fit Arr W Q v := ⟨h.typed.2.1, h.within.2.1, h.all.2.1⟩
    have hnext' : FitUpdates Arr W Q a next :=
      ⟨h.typed.2.2.2.2, h.within.2.2, h.all.2.2⟩
    refine Prints.app3 ((hnext a ha hnext').mono ?_)
      ((Prints.expressionWord hN hi' (hi hi')).mono ?_)
      ((Prints.expressionWord hN hv' (hv hv')).mono ?_) (R.store h)
    all_goals
      simp only [UpdateList.size]
      omega

/-- A printed expression reads as its value at the sort that is expected. -/
theorem printExpression_prints (hN : Naming Arr Declared N) {e : Expr} (he : Fit Arr W Q e)
    {s : SmtlibSort} (hs : s = .bool → e.getWidth = 1) :
    Prints R Declared N (e.size + 1) (printExpression o e (printFullExpression o e) s) (R.den s e) :=
  Prints.expression hN he hs (printFullExpression_prints W1 hN e he)

end

end Encider.Smtlib
