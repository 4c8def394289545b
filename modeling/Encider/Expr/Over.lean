import Encider.Expr.Constructors
import Encider.Expr.Weight

/-! The arrays that an expression reads. No constructor brings in another one. -/

namespace Encider

open Encider.Expr

mutual
/-- All arrays that are read satisfy a condition. -/
def Expr.Over (P : Array → Prop) : Expr → Prop
  | .constant _ _ => True
  | .notOptimized e => e.Over P
  | .read a us i => P a ∧ us.Over P ∧ i.Over P
  | .select c t f => c.Over P ∧ t.Over P ∧ f.Over P
  | .concat l r => l.Over P ∧ r.Over P
  | .extract e _ _ => e.Over P
  | .zext e _ => e.Over P
  | .sext e _ => e.Over P
  | .not e => e.Over P
  | .binary _ l r => l.Over P ∧ r.Over P

def UpdateList.Over (P : Array → Prop) : UpdateList → Prop
  | .nil => True
  | .cons i v next => i.Over P ∧ v.Over P ∧ next.Over P
end

section
variable {P P' : Array → Prop} {c e l r : Expr} {us : UpdateList}

theorem over_mono (h : ∀ a, P a → P' a) (he : e.Over P) : e.Over P' := by
  induction e using Expr.rec (motive_2 := fun us => us.Over P → us.Over P') with
  | constant w v => trivial
  | notOptimized e ih | extract e off w ih | zext e w ih | sext e w ih | not e ih => exact ih he
  | read a us i hus hi => exact ⟨h a he.1, hus he.2.1, hi he.2.2⟩
  | select c t f hc ht hf => exact ⟨hc he.1, ht he.2.1, hf he.2.2⟩
  | concat l r hl hr | binary k l r hl hr => exact ⟨hl he.1, hr he.2⟩
  | nil => trivial
  | cons i v next hi hv hnext =>
    rename_i hus
    exact ⟨hi hus.1, hv hus.2.1, hnext hus.2.2⟩

theorem writes_over_mono (h : ∀ a, P a → P' a) (hus : us.Over P) : us.Over P' := by
  induction us using UpdateList.rec (motive_1 := fun _ => True) with
  | nil => trivial
  | cons i v next _ _ ih => exact ⟨over_mono h hus.1, over_mono h hus.2.1, ih hus.2.2⟩
  | _ => trivial

theorem AndExpr.createPartial_over (hl : l.Over P) {w : Width} (cr : BitVec w) :
    (AndExpr.createPartial l cr).Over P := by
  unfold AndExpr.createPartial
  split
  · exact hl
  · split
    · trivial
    · exact ⟨hl, trivial⟩

theorem AndExpr.create_over (hl : l.Over P) (hr : r.Over P) : (AndExpr.create l r).Over P := by
  unfold AndExpr.create
  split
  · trivial
  · exact AndExpr.createPartial_over hr _
  · exact AndExpr.createPartial_over hl _
  · exact ⟨hl, hr⟩

theorem OrExpr.createPartial_over (hl : l.Over P) {w : Width} (cr : BitVec w) :
    (OrExpr.createPartial l cr).Over P := by
  unfold OrExpr.createPartial
  split
  · trivial
  · split
    · exact hl
    · exact ⟨hl, trivial⟩

theorem OrExpr.create_over (hl : l.Over P) (hr : r.Over P) : (OrExpr.create l r).Over P := by
  unfold OrExpr.create
  split
  · trivial
  · exact OrExpr.createPartial_over hr _
  · exact OrExpr.createPartial_over hl _
  · exact ⟨hl, hr⟩

theorem EqExpr.createSame_over (hl : l.Over P) (hr : r.Over P) :
    (EqExpr.createSame l r).Over P := by
  unfold EqExpr.createSame
  split
  · trivial
  · exact ⟨hl, hr⟩

theorem EqExpr.createConst_over {w : Width} (c : BitVec w) (h : r.Over P) :
    (EqExpr.createConst c e r).Over P := by
  unfold EqExpr.createConst
  split
  · trivial
  · exact h

theorem EqExpr.createPartialR_over {w : Width} (cl : BitVec w) (he : e.Over P) :
    (EqExpr.createPartialR cl e).Over P := by
  induction e using Expr.rec (motive_2 := fun _ => True) generalizing w with
  | nil => trivial
  | cons => trivial
  | binary k l r hl hr =>
    have hsame := EqExpr.createSame_over (l := constant w cl) trivial he
    unfold EqExpr.createPartialR
    split
    · split
      · exact he
      · split
        · exact he.2
        · split
          · exact AndExpr.create_over (EqExpr.createConst_over _ (hl _ he.1))
              (EqExpr.createConst_over _ (hr _ he.2))
          · exact hsame
    · split
      · exact hr _ he.2
      · exact hr _ he.2
      · exact hsame
  | sext src v ih | zext src v ih =>
    unfold EqExpr.createPartialR
    split
    · split
      · exact he
      · exact EqExpr.createSame_over (l := constant w cl) trivial he
    · dsimp only
      split
      · exact EqExpr.createConst_over _ (ih _ he)
      · trivial
  | _ =>
    rw [EqExpr.createPartialR]
    · split
      · exact he
      · exact EqExpr.createSame_over (l := constant w cl) trivial he
    all_goals intros; contradiction

theorem EqExpr.create_over (hl : l.Over P) (hr : r.Over P) : (EqExpr.create l r).Over P := by
  unfold EqExpr.create
  split
  · trivial
  · exact EqExpr.createPartialR_over _ hr
  · exact EqExpr.createPartialR_over _ hl
  · exact EqExpr.createSame_over hl hr

theorem createIsZero_over (he : e.Over P) : (createIsZero e).Over P :=
  EqExpr.create_over he trivial

theorem XorExpr.createPartialR_over {w : Width} (cl : BitVec w) (hr : r.Over P) :
    (XorExpr.createPartialR cl r).Over P := by
  unfold XorExpr.createPartialR
  split
  · exact hr
  · split
    · exact EqExpr.createPartialR_over _ hr
    · exact ⟨trivial, hr⟩

theorem XorExpr.create_over (hl : l.Over P) (hr : r.Over P) : (XorExpr.create l r).Over P := by
  unfold XorExpr.create
  split
  · trivial
  · exact XorExpr.createPartialR_over _ hr
  · exact XorExpr.createPartialR_over _ hl
  · exact ⟨hl, hr⟩

theorem MulExpr.createPartialR_over {w : Width} (cl : BitVec w) (hr : r.Over P) :
    (MulExpr.createPartialR cl r).Over P := by
  unfold MulExpr.createPartialR
  split
  · exact AndExpr.createPartial_over hr cl
  · split
    · exact hr
    · split
      · trivial
      · exact ⟨trivial, hr⟩

theorem MulExpr.create_over (hl : l.Over P) (hr : r.Over P) : (MulExpr.create l r).Over P := by
  unfold MulExpr.create
  split
  · trivial
  · exact MulExpr.createPartialR_over _ hr
  · exact MulExpr.createPartialR_over _ hl
  · split
    · exact ⟨hl, hr⟩
    · exact ⟨hl, hr⟩

theorem BinaryKind.createConst_over {k : BinaryKind} {w : Width} {c : BitVec w} (h : r.Over P) :
    (k.createConst c e r).Over P := by
  unfold BinaryKind.createConst
  split
  · trivial
  · exact h

/-- A sum and a difference of a word and an expression. -/
theorem Expr.offset_over {w : Width} (cl : BitVec w) (he : e.Over P) :
    (AddExpr.createPartialR cl e).Over P ∧ (SubExpr.createPartialR cl e).Over P := by
  induction e using Expr.rec (motive_2 := fun _ => True) generalizing w with
  | nil => trivial
  | cons => trivial
  | binary k l r _ ih =>
    constructor
    · unfold AddExpr.createPartialR
      split
      · exact XorExpr.createPartialR_over cl he
      · split
        · exact he
        · split
          · rename_i heq
            cases heq
            exact BinaryKind.createConst_over (ih _ he.2).1
          · rename_i heq
            cases heq
            exact BinaryKind.createConst_over (ih _ he.2).2
          · exact ⟨trivial, he⟩
    · unfold SubExpr.createPartialR
      split
      · exact XorExpr.createPartialR_over cl he
      · split
        · rename_i heq
          cases heq
          exact BinaryKind.createConst_over (ih _ he.2).2
        · rename_i heq
          cases heq
          exact BinaryKind.createConst_over (ih _ he.2).1
        · exact ⟨trivial, he⟩
  | _ =>
    rw [AddExpr.createPartialR, SubExpr.createPartialR]
    · split
      · exact ⟨XorExpr.createPartialR_over cl he, XorExpr.createPartialR_over cl he⟩
      · refine ⟨?_, ⟨trivial, he⟩⟩
        split
        · exact he
        · exact ⟨trivial, he⟩
    all_goals intros; contradiction

theorem AddExpr.createFront_over {w : Width} (k : BitVec w) (he : e.Over P) :
    (AddExpr.createFront k e).Over P :=
  BinaryKind.createConst_over (Expr.offset_over k he).1

theorem SubExpr.createFront_over {w : Width} (k : BitVec w) (he : e.Over P) :
    (SubExpr.createFront k e).Over P :=
  BinaryKind.createConst_over (Expr.offset_over k he).2

theorem SubExpr.createBy_over {w : Width} (k : BitVec w) (he : e.Over P) :
    (SubExpr.createBy e k).Over P := by
  unfold SubExpr.createBy
  cases e with
  | constant v x => trivial
  | _ => exact (Expr.offset_over (0 - k) he).1

/-- The constructors of sums and differences call each other on smaller operands. -/
theorem Expr.sum_over (hl : l.Over P) (hr : r.Over P) :
    (AddExpr.create l r).Over P ∧ (SubExpr.create l r).Over P := by
  induction hn : l.size + r.size using Nat.strong_induction_on generalizing l r with
  | h n ih =>
    have hless : ∀ a b : Expr, a.size + b.size < l.size + r.size → a.Over P → b.Over P →
        (AddExpr.create a b).Over P ∧ (SubExpr.create a b).Over P := by
      intro a b hlt ha hb
      exact ih _ (hn ▸ hlt) ha hb rfl
    constructor
    · unfold AddExpr.create
      split
      · trivial
      · exact (Expr.offset_over _ hr).1
      · exact (Expr.offset_over _ hl).1
      · split
        · exact ⟨hl, hr⟩
        · split
          · rename_i k a hk
            have hlt := Expr.size_plus hk
            cases Expr.offset_plus hk
            exact AddExpr.createFront_over k (hless a r (by omega) hl.2 hr).1
          · rename_i k a hk
            have hlt := Expr.size_minus hk
            cases Expr.offset_minus hk
            exact AddExpr.createFront_over k (hless r a (by omega) hr hl.2).2
          · split
            · rename_i k b hk
              have hlt := Expr.size_plus hk
              cases Expr.offset_plus hk
              exact AddExpr.createFront_over k (hless l b (by omega) hl hr.2).1
            · rename_i k b hk
              have hlt := Expr.size_minus hk
              cases Expr.offset_minus hk
              exact AddExpr.createFront_over k (hless l b (by omega) hl hr.2).2
            · exact ⟨hl, hr⟩
    · unfold SubExpr.create
      split
      · trivial
      · exact (Expr.offset_over _ hr).2
      · exact (Expr.offset_over _ hl).1
      · split
        · exact ⟨hl, hr⟩
        · split
          · trivial
          · split
            · rename_i k a hk
              have hlt := Expr.size_plus hk
              cases Expr.offset_plus hk
              exact AddExpr.createFront_over k (hless a r (by omega) hl.2 hr).2
            · rename_i k a hk
              have hlt := Expr.size_minus hk
              cases Expr.offset_minus hk
              exact SubExpr.createFront_over k (hless a r (by omega) hl.2 hr).1
            · split
              · rename_i k b hk
                have hlt := Expr.size_plus hk
                cases Expr.offset_plus hk
                exact SubExpr.createBy_over k (hless l b (by omega) hl hr.2).2
              · rename_i k b hk
                have hlt := Expr.size_minus hk
                cases Expr.offset_minus hk
                exact SubExpr.createBy_over k (hless l b (by omega) hl hr.2).1
              · exact ⟨hl, hr⟩

theorem UltExpr.create_over (hl : l.Over P) (hr : r.Over P) : (UltExpr.create l r).Over P := by
  unfold UltExpr.create
  split
  · trivial
  · split
    · exact AndExpr.create_over (createIsZero_over hl) hr
    · exact ⟨hl, hr⟩

theorem UleExpr.create_over (hl : l.Over P) (hr : r.Over P) : (UleExpr.create l r).Over P := by
  unfold UleExpr.create
  split
  · trivial
  · split
    · exact OrExpr.create_over (createIsZero_over hl) hr
    · exact ⟨hl, hr⟩

theorem SltExpr.create_over (hl : l.Over P) (hr : r.Over P) : (SltExpr.create l r).Over P := by
  unfold SltExpr.create
  split
  · trivial
  · split
    · exact AndExpr.create_over hl (createIsZero_over hr)
    · exact ⟨hl, hr⟩

theorem SleExpr.create_over (hl : l.Over P) (hr : r.Over P) : (SleExpr.create l r).Over P := by
  unfold SleExpr.create
  split
  · trivial
  · split
    · exact OrExpr.create_over hl (createIsZero_over hr)
    · exact ⟨hl, hr⟩

theorem BinaryKind.createFolded_over {k : BinaryKind} {f : Expr → Expr → Expr} {x : Expr}
    (h : k.createFolded f l r = some x) (hf : (f l r).Over P) : x.Over P := by
  unfold BinaryKind.createFolded at h
  split at h
  · split at h
    · cases h
    · cases h
      trivial
  · cases h
    exact hf

theorem BinaryKind.create_over {k : BinaryKind} {x : Expr} (h : k.create l r = some x)
    (hl : l.Over P) (hr : r.Over P) : x.Over P := by
  cases k with
  | add =>
    cases h
    exact (Expr.sum_over hl hr).1
  | sub =>
    cases h
    exact (Expr.sum_over hl hr).2
  | mul =>
    cases h
    exact MulExpr.create_over hl hr
  | udiv | sdiv | ashr =>
    refine BinaryKind.createFolded_over h ?_
    split
    · exact hl
    · exact ⟨hl, hr⟩
  | urem | srem =>
    refine BinaryKind.createFolded_over h ?_
    split
    · trivial
    · exact ⟨hl, hr⟩
  | shl | lshr =>
    refine BinaryKind.createFolded_over h ?_
    split
    · exact AndExpr.create_over hl (createIsZero_over hr)
    · exact ⟨hl, hr⟩
  | and =>
    cases h
    exact AndExpr.create_over hl hr
  | or =>
    cases h
    exact OrExpr.create_over hl hr
  | xor =>
    cases h
    exact XorExpr.create_over hl hr
  | eq =>
    cases h
    exact EqExpr.create_over hl hr
  | ne =>
    cases h
    exact EqExpr.create_over trivial (EqExpr.create_over hl hr)
  | ult =>
    cases h
    exact UltExpr.create_over hl hr
  | ule =>
    cases h
    exact UleExpr.create_over hl hr
  | ugt =>
    cases h
    exact UltExpr.create_over hr hl
  | uge =>
    cases h
    exact UleExpr.create_over hr hl
  | slt =>
    cases h
    exact SltExpr.create_over hl hr
  | sle =>
    cases h
    exact SleExpr.create_over hl hr
  | sgt =>
    cases h
    exact SltExpr.create_over hr hl
  | sge =>
    cases h
    exact SleExpr.create_over hr hl

theorem SelectExpr.create_over (hc : c.Over P) (hl : l.Over P) (hr : r.Over P) :
    (SelectExpr.create c l r).Over P := by
  unfold SelectExpr.create
  split
  · split
    · exact hl
    · exact hr
  · split
    · exact hl
    · split
      · split
        · split
          · exact OrExpr.create_over hc hr
          · exact AndExpr.create_over (createIsZero_over hc) hr
        · split
          · exact OrExpr.create_over (createIsZero_over hc) hl
          · exact AndExpr.create_over hc hl
        · exact ⟨hc, hl, hr⟩
      · exact ⟨hc, hl, hr⟩

theorem ConcatExpr.create_over_of_extract (hl : l.Over P) (hr : r.Over P)
    (hs : ∀ s off w, ConcatExpr.merged? l r = some (s, off) → s.Over P →
      (ExtractExpr.create s off w).Over P) : (ConcatExpr.create l r).Over P := by
  unfold ConcatExpr.create
  split
  · rename_i s off hm
    refine hs s off _ hm ?_
    unfold ConcatExpr.merged? at hm
    split at hm
    · split at hm
      · cases hm
        exact hl
      · cases hm
    · cases hm
  · unfold ConcatExpr.join
    split
    · trivial
    · exact ⟨hl, hr⟩

theorem ExtractExpr.create_over (he : e.Over P) (off : Nat) (w : Width) :
    (ExtractExpr.create e off w).Over P := by
  induction hn : e.size using Nat.strong_induction_on generalizing e off w with
  | h n ih =>
    by_cases hw : w = e.getWidth
    · rw [hw, ExtractExpr.create_whole]
      exact he
    · cases e with
      | constant v c =>
        rw [ExtractExpr.create_constant c off hw]
        trivial
      | concat l r =>
        have hl : l.size < (Expr.concat l r).size := by
          rw [Expr.size]
          omega
        have hr : r.size < (Expr.concat l r).size := by
          rw [Expr.size]
          omega
        have hwhole : ¬ w = l.getWidth + r.getWidth := hw
        rw [ExtractExpr.create_concat, if_neg hwhole]
        split
        · exact ih l.size (hn ▸ hl) he.1 _ _ rfl
        · split
          · exact ih r.size (hn ▸ hr) he.2 _ _ rfl
          · refine ConcatExpr.create_over_of_extract (ih l.size (hn ▸ hl) he.1 _ _ rfl)
              (ih r.size (hn ▸ hr) he.2 _ _ rfl) ?_
            intro s o v hm hs
            have hlt := (ConcatExpr.merged_within hm (ExtractExpr.create_within l 0 _)).trans_lt hl
            exact ih s.size (hn ▸ hlt) hs _ _ rfl
      | _ =>
        rw [ExtractExpr.create_other off hw rfl (by intro l r he; cases he)]
        exact he

theorem ConcatExpr.create_over (hl : l.Over P) (hr : r.Over P) : (ConcatExpr.create l r).Over P :=
  ConcatExpr.create_over_of_extract hl hr fun _ _ _ _ hs => ExtractExpr.create_over hs _ _

theorem ZExtExpr.create_over (he : e.Over P) (w : Width) : (ZExtExpr.create e w).Over P := by
  unfold ZExtExpr.create
  split
  · exact he
  · split
    · exact ExtractExpr.create_over he _ _
    · split
      · trivial
      · exact he

theorem SExtExpr.create_over (he : e.Over P) (w : Width) : (SExtExpr.create e w).Over P := by
  unfold SExtExpr.create
  split
  · exact he
  · split
    · exact ExtractExpr.create_over he _ _
    · split
      · trivial
      · exact he

end

end Encider
