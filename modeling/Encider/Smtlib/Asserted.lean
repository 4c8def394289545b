import Encider.Smtlib.Coverage
import Encider.Smtlib.Reading

/-! The expressions that are asserted: the constructors that build them bring in no array and no
width of their own. -/

namespace Encider

open Encider.Expr

section
variable {Arr : Array → Prop} {W : Width → Prop} {e l r : Expr}

theorem AndExpr.createPartial_within (hl : l.Within Arr W) {w : Width} (cr : BitVec w) (hw : W w) :
    (AndExpr.createPartial l cr).Within Arr W := by
  unfold AndExpr.createPartial
  split
  · exact hl
  · split
    · exact hw
    · exact ⟨hl, hw⟩

theorem AndExpr.create_within (hl : l.Within Arr W) (hr : r.Within Arr W) :
    (AndExpr.create l r).Within Arr W := by
  unfold AndExpr.create
  split
  · exact hl
  · exact AndExpr.createPartial_within hr _ hl
  · exact AndExpr.createPartial_within hl _ hr
  · exact ⟨hl, hr⟩

variable (W1 : W 1)
include W1

theorem EqExpr.createSame_within (hl : l.Within Arr W) (hr : r.Within Arr W) :
    (EqExpr.createSame l r).Within Arr W := by
  unfold EqExpr.createSame
  split
  · exact W1
  · exact ⟨hl, hr⟩

theorem EqExpr.createConst_within {w : Width} (c : BitVec w) (h : r.Within Arr W) :
    (EqExpr.createConst c e r).Within Arr W := by
  unfold EqExpr.createConst
  split
  · exact W1
  · exact h

/-- By induction on the expression that is compared with the constant. -/
theorem EqExpr.createPartialR_within (e : Expr) : ∀ {w : Width} (cl : BitVec w), W w →
    e.Within Arr W → (EqExpr.createPartialR cl e).Within Arr W := by
  have hsame : ∀ (e : Expr) {w : Width} (cl : BitVec w), W w → e.Within Arr W →
      (EqExpr.createSame (.constant w cl) e).Within Arr W := by
    intro e w cl hw he
    exact EqExpr.createSame_within W1 hw he
  induction e using Expr.rec (motive_2 := fun _ => True) with
  | nil => trivial
  | cons => trivial
  | binary k l r hl hr =>
    intro w cl hw he
    have ⟨hel, her⟩ := he
    unfold EqExpr.createPartialR
    split
    · split
      · exact he
      · split
        · exact her
        · split
          · exact AndExpr.create_within
              (EqExpr.createConst_within W1 _ (hl _ (hel.width W1) hel))
              (EqExpr.createConst_within W1 _ (hr _ (her.width W1) her))
          · exact hsame _ cl hw he
    · split
      · exact hr _ hw her
      · exact hr _ hw her
      · exact hsame _ cl hw he
  | sext src v ih =>
    intro w cl hw he
    unfold EqExpr.createPartialR
    split
    · split
      · exact he
      · exact hsame _ cl hw he
    · dsimp only
      split
      · exact EqExpr.createConst_within W1 _ (ih _ (he.1.width W1) he.1)
      · exact W1
  | zext src v ih =>
    intro w cl hw he
    unfold EqExpr.createPartialR
    split
    · split
      · exact he
      · exact hsame _ cl hw he
    · dsimp only
      split
      · exact EqExpr.createConst_within W1 _ (ih _ (he.1.width W1) he.1)
      · exact W1
  | _ =>
    intro w cl hw he
    rw [EqExpr.createPartialR]
    · split
      · exact he
      · exact hsame _ cl hw he
    all_goals intros; contradiction

theorem EqExpr.create_within (hl : l.Within Arr W) (hr : r.Within Arr W) :
    (EqExpr.create l r).Within Arr W := by
  unfold EqExpr.create
  split
  · exact W1
  · exact EqExpr.createPartialR_within W1 _ _ hl hr
  · exact EqExpr.createPartialR_within W1 _ _ hr hl
  · exact EqExpr.createSame_within W1 hl hr

theorem createIsZero_within (he : e.Within Arr W) : (createIsZero e).Within Arr W :=
  EqExpr.create_within W1 he (he.width W1)

end

/-- Two conditions on the widths give a third one, and the arrays are those that are read. -/
theorem Expr.Within.combine {Arr Arr' P : Array → Prop} {W W' V : Width → Prop}
    (hV : ∀ w, W w → W' w → V w) {e : Expr} (h : e.Within Arr W) (h' : e.Within Arr' W')
    (hP : ∀ r ∈ e.arrayReads, P r.1) : e.Within P V := by
  induction e using Expr.rec (motive_2 := fun us => us.Within Arr W → us.Within Arr' W' →
    (∀ r ∈ us.arrayReads, P r.1) → us.Within P V) with
  | constant w v => exact hV w h h'
  | notOptimized e ih => exact ih h h' hP
  | read a us i hus hi =>
    simp only [Expr.arrayReads, List.mem_cons, List.mem_append] at hP
    exact ⟨hP (a, us) (.inl rfl), hV _ h.2.1 h'.2.1,
      hus h.2.2.1 h'.2.2.1 fun r hr => hP r (.inr (.inl hr)),
      hi h.2.2.2 h'.2.2.2 fun r hr => hP r (.inr (.inr hr))⟩
  | select c t f hc ht hf =>
    simp only [Expr.arrayReads, List.mem_append] at hP
    exact ⟨hc h.1 h'.1 fun r hr => hP r (.inl (.inl hr)),
      ht h.2.1 h'.2.1 fun r hr => hP r (.inl (.inr hr)),
      hf h.2.2 h'.2.2 fun r hr => hP r (.inr hr)⟩
  | concat l r hl hr =>
    simp only [Expr.arrayReads, List.mem_append] at hP
    exact ⟨hl h.1 h'.1 fun r hr => hP r (.inl hr), hr h.2.1 h'.2.1 fun r hr => hP r (.inr hr),
      hV _ h.2.2 h'.2.2⟩
  | extract e low w ih => exact ⟨ih h.1 h'.1 hP, hV w h.2 h'.2⟩
  | zext e w ih => exact ⟨ih h.1 h'.1 hP, hV w h.2 h'.2⟩
  | sext e w ih => exact ⟨ih h.1 h'.1 hP, hV w h.2 h'.2⟩
  | not e ih => exact ih h h' hP
  | binary k l r hl hr =>
    simp only [Expr.arrayReads, List.mem_append] at hP
    exact ⟨hl h.1 h'.1 fun r hr => hP r (.inl hr), hr h.2 h'.2 fun r hr => hP r (.inr hr)⟩
  | nil => trivial
  | cons i v next hi hv hnext h h' hP =>
    simp only [UpdateList.arrayReads, List.mem_append] at hP
    exact ⟨hi h.1 h'.1 fun r hr => hP r (.inl (.inl hr)),
      hv h.2.1 h'.2.1 fun r hr => hP r (.inl (.inr hr)),
      hnext h.2.2 h'.2.2 fun r hr => hP r (.inr hr)⟩

namespace Smtlib

section
variable {Arr : Array → Prop} {W : Width → Prop} {Q : BinaryKind → Expr → Expr → Prop}

theorem fit_and (hQ : Regular Q) {l r : Expr} (hl : Fit Arr W Q l) (hr : Fit Arr W Q r)
    (hw : l.getWidth = r.getWidth) : Fit Arr W Q (AndExpr.create l r) where
  typed := (AndExpr.create_means (fun _ _ => 0) hl.typed hr.typed hw).typed
  within := AndExpr.create_within hl.within hr.within
  all := (AndExpr.create_tame hQ hl.all.tame hr.all.tame).all

theorem fit_isZero (W1 : W 1) (hQ : Regular Q) {e : Expr} (he : Fit Arr W Q e) :
    Fit Arr W Q (createIsZero e) where
  typed := (createIsZero_means (fun _ _ => 0) he.typed).typed
  within := createIsZero_within W1 he.within
  all := (createIsZero_tame hQ he.all.tame).all

/-- The conjunction of boolean expressions. -/
theorem fit_foldl (hQ : Regular Q) (cs : List Constraint) {e : Expr}
    (he : Fit Arr W Q e) (hw : e.getWidth = 1) (hcs : ∀ c ∈ cs, Fit Arr W Q c.val) :
    Fit Arr W Q (cs.foldl (fun e c => AndExpr.create e c.val) e) ∧
      (cs.foldl (fun e c => AndExpr.create e c.val) e).getWidth = 1 ∧
      ∀ σ, (cs.foldl (fun e c => AndExpr.create e c.val) e).value σ = 1 ↔
        e.value σ = 1 ∧ ∀ c ∈ cs, c.Holds σ := by
  induction cs generalizing e with
  | nil => exact ⟨he, hw, fun σ => by simp⟩
  | cons c cs ih =>
    have hc := hcs c List.mem_cons_self
    have hwc : e.getWidth = c.val.getWidth := hw.trans c.2.2.symm
    have hmeans := fun σ => AndExpr.create_means σ he.typed hc.typed hwc
    obtain ⟨hfit, hwidth, hvalue⟩ := ih (fit_and hQ he hc hwc) ((hmeans fun _ _ => 0).width.trans hw)
      fun d hd => hcs d (List.mem_cons_of_mem c hd)
    refine ⟨hfit, hwidth, ?_⟩
    intro σ
    have hand : (AndExpr.create e c.val).value σ = 1 ↔ e.value σ = 1 ∧ c.Holds σ :=
      Constraint.and_holds σ ⟨e, he.typed, hw⟩ c
    rw [List.foldl_cons, hvalue σ, hand, List.forall_mem_cons, and_assoc]

/-- What is asserted is boolean, and true where the constraints hold and the query is false. -/
theorem asserted_spec (W1 : W 1) (hQ : Regular Q) {q : Query} (o : Options)
    (hq : ∀ e ∈ q.roots, Fit Arr W Q e) :
    (∀ e ∈ q.asserted o, Fit Arr W Q e ∧ e.getWidth = 1) ∧
    ∀ σ, (∀ e ∈ q.asserted o, e.value σ = 1) ↔
      (∀ c ∈ q.constraints, c.Holds σ) ∧ q.expr.value σ = 0 := by
  have hexpr : Fit Arr W Q q.expr := hq _ (by simp [Query.roots])
  have hcs : ∀ c ∈ q.constraints, Fit Arr W Q c.val := by
    intro c hc
    exact hq _ (List.mem_append_left _ (List.mem_map_of_mem hc))
  have hzero := fun σ => createIsZero_means σ hexpr.typed
  have hfit := fit_isZero W1 hQ hexpr
  have hvalue : ∀ σ, (createIsZero q.expr).value σ = 1 ↔ q.expr.value σ = 0 := by
    intro σ
    rw [(hzero σ).value]
    unfold eqBit
    split <;> simp [*]
  unfold Query.asserted
  split
  · constructor
    · intro e he
      obtain he | he := List.mem_append.mp he
      · obtain ⟨c, hc, rfl⟩ := List.mem_map.mp he
        exact ⟨hcs c hc, c.2.2⟩
      · rw [List.mem_singleton.mp he]
        exact ⟨hfit, (hzero fun _ _ => 0).width⟩
    · intro σ
      simp only [List.forall_mem_append, List.forall_mem_singleton, hvalue σ, List.forall_mem_map]
      rfl
  · obtain ⟨hall, hwidth, hholds⟩ :=
      fit_foldl hQ q.constraints hfit (hzero fun _ _ => 0).width hcs
    constructor
    · intro e he
      rw [List.mem_singleton.mp he]
      exact ⟨hall, hwidth⟩
    · intro σ
      rw [List.forall_mem_singleton, hholds σ, hvalue σ]
      exact and_comm

end

end Smtlib

end Encider
