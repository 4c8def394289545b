import Encider.Expr.Constructors
import Encider.Expr.Read

/-! What simplification never makes worse: a weight that no constructor increases, and conditions
on the operations of an expression that every constructor keeps. -/

namespace Encider

open Encider.Expr

/-- What an operation weighs itself. One that is rewritten into others on booleans weighs as much
as they do. -/
def BinaryKind.weight : BinaryKind → Nat
  | .or | .shl | .lshr | .ne | .ult | .ugt | .slt | .sgt => 3
  | .ule | .uge | .sle | .sge => 5
  | _ => 1

mutual
/-- An extract and an extension weigh twice their operand, for they may be distributed over the
parts of it. -/
def Expr.weight : Expr → Nat
  | .constant _ _ => 1
  | .notOptimized e => e.weight + 1
  | .read _ us i => us.weight + i.weight + 1
  | .select c t f => c.weight + t.weight + f.weight + 5
  | .concat l r => l.weight + r.weight + 1
  | .extract e _ _ => 2 * e.weight
  | .zext e _ => 2 * e.weight + 1
  | .sext e _ => 2 * e.weight + 1
  | .not e => e.weight + 1
  | .binary k l r => l.weight + r.weight + k.weight

def UpdateList.weight : UpdateList → Nat
  | .nil => 0
  | .cons i v next => i.weight + v.weight + next.weight
end

mutual
/-- A condition on each operation with its operands. -/
def Expr.All (Q : BinaryKind → Expr → Expr → Prop) : Expr → Prop
  | .constant _ _ => True
  | .notOptimized e => e.All Q
  | .read _ us i => us.All Q ∧ i.All Q
  | .select c t f => c.All Q ∧ t.All Q ∧ f.All Q
  | .concat l r => l.All Q ∧ r.All Q
  | .extract e _ _ => e.All Q
  | .zext e _ => e.All Q
  | .sext e _ => e.All Q
  | .not e => e.All Q
  | .binary k l r => l.All Q ∧ r.All Q ∧ Q k l r

def UpdateList.All (Q : BinaryKind → Expr → Expr → Prop) : UpdateList → Prop
  | .nil => True
  | .cons i v next => i.All Q ∧ v.All Q ∧ next.All Q
end

/-- The operations that the constructors build freely. -/
def BinaryKind.isPlain : BinaryKind → Bool
  | .add | .sub | .udiv | .sdiv | .urem | .srem | .shl | .lshr | .ashr => false
  | _ => true

/-- The constructors keep the condition: it says nothing of what they build freely, and of sums and
differences only what holds when an operand is not constant. -/
structure Regular (Q : BinaryKind → Expr → Expr → Prop) : Prop where
  plain : ∀ k l r, k.isPlain = true → Q k l r
  add : ∀ l r, (l.isConstant && r.isConstant) = false → Q .add l r
  sub : ∀ l r, (l.isConstant && r.isConstant) = false → Q .sub l r

/-- The condition holds throughout, and the weight is bounded. -/
structure Expr.Tame (Q : BinaryKind → Expr → Expr → Prop) (e : Expr) (n : Nat) : Prop where
  all : e.All Q
  weight : e.weight ≤ n

theorem Expr.weight_pos (e : Expr) : 1 ≤ e.weight := by
  induction e using Expr.rec (motive_2 := fun _ => True) with
  | nil => trivial
  | cons => trivial
  | _ =>
    simp only [Expr.weight]
    omega

section
variable {Q : BinaryKind → Expr → Expr → Prop} {e l r : Expr} {a b n : Nat}

theorem Expr.All.tame (h : e.All Q) : e.Tame Q e.weight := ⟨h, Nat.le_refl _⟩

namespace Expr.Tame

theorem pos (h : e.Tame Q n) : 1 ≤ n := e.weight_pos.trans h.weight

theorem mono (h : e.Tame Q a) (hn : a ≤ n) : e.Tame Q n := ⟨h.all, h.weight.trans hn⟩

theorem constant {w : Width} (v : BitVec w) (hn : 1 ≤ n) : (Expr.constant w v).Tame Q n :=
  ⟨trivial, hn⟩

theorem binary {k : BinaryKind} (hl : l.Tame Q a) (hr : r.Tame Q b) (hk : Q k l r)
    (hn : a + b + k.weight ≤ n) : (Expr.binary k l r).Tame Q n := by
  have hlw := hl.weight
  have hrw := hr.weight
  refine ⟨⟨hl.all, hr.all, hk⟩, ?_⟩
  rw [Expr.weight]
  omega

/-- A constant in front of an operand of an operation that is as light as can be. -/
theorem front {k : BinaryKind} (hk : k.weight = 1) {w : Width} (v : BitVec w) (hr : r.Tame Q b)
    (hkr : Q k (.constant w v) r) : (Expr.binary k (.constant w v) r).Tame Q (b + 2) :=
  .binary (.constant v (Nat.le_refl 1)) hr hkr (by omega)

end Expr.Tame

variable (hQ : Regular Q)
include hQ

theorem AndExpr.createPartial_tame (hl : l.Tame Q a) {w : Width} (cr : BitVec w) :
    (AndExpr.createPartial l cr).Tame Q (a + 2) := by
  unfold AndExpr.createPartial
  split
  · exact hl.mono (by omega)
  · split
    · exact .constant cr (by omega)
    · exact .binary hl (.constant cr (Nat.le_refl 1)) (hQ.plain _ _ _ rfl) (Nat.le_refl _)

theorem AndExpr.create_tame (hl : l.Tame Q a) (hr : r.Tame Q b) :
    (AndExpr.create l r).Tame Q (a + b + 1) := by
  have ha := hl.pos
  have hb := hr.pos
  unfold AndExpr.create
  split
  · exact .constant _ (by omega)
  · exact (AndExpr.createPartial_tame hQ hr _).mono (by omega)
  · exact (AndExpr.createPartial_tame hQ hl _).mono (by omega)
  · exact .binary hl hr (hQ.plain _ _ _ rfl) (Nat.le_refl _)

theorem OrExpr.createPartial_tame (hl : l.Tame Q a) {w : Width} (cr : BitVec w) :
    (OrExpr.createPartial l cr).Tame Q (a + 4) := by
  unfold OrExpr.createPartial
  split
  · exact .constant cr (by omega)
  · split
    · exact hl.mono (by omega)
    · exact .binary hl (.constant cr (Nat.le_refl 1)) (hQ.plain _ _ _ rfl) (Nat.le_refl _)

theorem OrExpr.create_tame (hl : l.Tame Q a) (hr : r.Tame Q b) :
    (OrExpr.create l r).Tame Q (a + b + 3) := by
  have ha := hl.pos
  have hb := hr.pos
  unfold OrExpr.create
  split
  · exact .constant _ (by omega)
  · exact (OrExpr.createPartial_tame hQ hr _).mono (by omega)
  · exact (OrExpr.createPartial_tame hQ hl _).mono (by omega)
  · exact .binary hl hr (hQ.plain _ _ _ rfl) (Nat.le_refl _)

theorem EqExpr.createSame_tame (hl : l.Tame Q a) (hr : r.Tame Q b) :
    (EqExpr.createSame l r).Tame Q (a + b + 1) := by
  unfold EqExpr.createSame
  split
  · exact .constant _ (by omega)
  · exact .binary hl hr (hQ.plain _ _ _ rfl) (Nat.le_refl _)

omit hQ in
theorem EqExpr.createConst_tame {w : Width} (c : BitVec w) (h : r.Tame Q n) :
    (EqExpr.createConst c e r).Tame Q n := by
  unfold EqExpr.createConst
  split
  · exact .constant _ h.pos
  · exact h

/-- The sides of a disjunction are compared on their own, which is why it weighs more. -/
theorem EqExpr.createPartialR_all (e : Expr) : ∀ {w : Width} (cl : BitVec w), e.All Q →
    (EqExpr.createPartialR cl e).Tame Q (e.weight + 2) := by
  have hsame : ∀ (e : Expr) {w : Width} (cl : BitVec w), e.All Q →
      (EqExpr.createSame (.constant w cl) e).Tame Q (e.weight + 2) := by
    intro e w cl he
    exact (EqExpr.createSame_tame hQ (.constant cl (Nat.le_refl 1)) he.tame).mono (by omega)
  have hself : ∀ e : Expr, e.All Q → e.Tame Q (e.weight + 2) := fun e he =>
    he.tame.mono (by omega)
  induction e using Expr.rec (motive_2 := fun _ => True) with
  | nil => trivial
  | cons => trivial
  | binary k l r hl hr =>
    intro w cl he
    have ⟨hel, her, hk⟩ := he
    unfold EqExpr.createPartialR
    split
    · split
      · exact hself _ he
      · split
        · refine her.tame.mono ?_
          rw [Expr.weight]
          omega
        · split
          · rename_i hor
            subst hor
            refine (AndExpr.create_tame hQ (EqExpr.createConst_tame _ (hl _ hel))
              (EqExpr.createConst_tame _ (hr _ her))).mono ?_
            simp only [Expr.weight, BinaryKind.weight]
            omega
          · exact hsame _ cl he
    · split
      · refine (hr _ her).mono ?_
        simp only [Expr.weight]
        omega
      · refine (hr _ her).mono ?_
        simp only [Expr.weight]
        omega
      · exact hsame _ cl he
  | sext src v ih =>
    intro w cl he
    unfold EqExpr.createPartialR
    split
    · split
      · exact hself _ he
      · exact hsame _ cl he
    · dsimp only
      split
      · refine (EqExpr.createConst_tame _ (ih _ he)).mono ?_
        rw [Expr.weight]
        omega
      · exact .constant _ (by omega)
  | zext src v ih =>
    intro w cl he
    unfold EqExpr.createPartialR
    split
    · split
      · exact hself _ he
      · exact hsame _ cl he
    · dsimp only
      split
      · refine (EqExpr.createConst_tame _ (ih _ he)).mono ?_
        rw [Expr.weight]
        omega
      · exact .constant _ (by omega)
  | _ =>
    intro w cl he
    rw [EqExpr.createPartialR]
    · split
      · exact hself _ he
      · exact hsame _ cl he
    all_goals intros; contradiction

theorem EqExpr.createPartialR_tame (he : e.Tame Q a) {w : Width} (cl : BitVec w) :
    (EqExpr.createPartialR cl e).Tame Q (a + 2) :=
  (EqExpr.createPartialR_all hQ e cl he.all).mono (Nat.add_le_add_right he.weight 2)

theorem EqExpr.create_tame (hl : l.Tame Q a) (hr : r.Tame Q b) :
    (EqExpr.create l r).Tame Q (a + b + 1) := by
  have ha := hl.pos
  have hb := hr.pos
  unfold EqExpr.create
  split
  · exact .constant _ (by omega)
  · exact (EqExpr.createPartialR_tame hQ hr _).mono (by omega)
  · exact (EqExpr.createPartialR_tame hQ hl _).mono (by omega)
  · exact EqExpr.createSame_tame hQ hl hr

theorem createIsZero_tame (he : e.Tame Q a) : (createIsZero e).Tame Q (a + 2) :=
  EqExpr.create_tame hQ he (.constant _ (Nat.le_refl 1))

theorem XorExpr.createPartialR_tame (hr : r.Tame Q a) {w : Width} (cl : BitVec w) :
    (XorExpr.createPartialR cl r).Tame Q (a + 2) := by
  unfold XorExpr.createPartialR
  split
  · exact hr.mono (by omega)
  · split
    · exact EqExpr.createPartialR_tame hQ hr _
    · exact .front rfl cl hr (hQ.plain _ _ _ rfl)

theorem MulExpr.createPartialR_tame (hr : r.Tame Q a) {w : Width} (cl : BitVec w) :
    (MulExpr.createPartialR cl r).Tame Q (a + 2) := by
  unfold MulExpr.createPartialR
  split
  · exact AndExpr.createPartial_tame hQ hr cl
  · split
    · exact hr.mono (by omega)
    · split
      · exact .constant cl (by omega)
      · exact .front rfl cl hr (hQ.plain _ _ _ rfl)

theorem MulExpr.create_tame (hl : l.Tame Q a) (hr : r.Tame Q b) :
    (MulExpr.create l r).Tame Q (a + b + 1) := by
  have ha := hl.pos
  have hb := hr.pos
  unfold MulExpr.create
  split
  · exact .constant _ (by omega)
  · exact (MulExpr.createPartialR_tame hQ hr _).mono (by omega)
  · exact (MulExpr.createPartialR_tame hQ hl _).mono (by omega)
  · split
    · exact .binary hl hr (hQ.plain _ _ _ rfl) (Nat.le_refl _)
    · exact .binary hl hr (hQ.plain _ _ _ rfl) (Nat.le_refl _)

theorem XorExpr.create_tame (hl : l.Tame Q a) (hr : r.Tame Q b) :
    (XorExpr.create l r).Tame Q (a + b + 1) := by
  have ha := hl.pos
  have hb := hr.pos
  unfold XorExpr.create
  split
  · exact .constant _ (by omega)
  · exact (XorExpr.createPartialR_tame hQ hr _).mono (by omega)
  · exact (XorExpr.createPartialR_tame hQ hl _).mono (by omega)
  · exact .binary hl hr (hQ.plain _ _ _ rfl) (Nat.le_refl _)

omit hQ in
theorem BinaryKind.createConst_tame {k : BinaryKind} {w : Width} {c : BitVec w}
    (h : e.isConstant = false → r.Tame Q n) (hn : 1 ≤ n) : (k.createConst c e r).Tame Q n := by
  unfold BinaryKind.createConst
  cases e with
  | constant v x => exact .constant _ hn
  | _ => exact h rfl

/-- A sum or a difference of a word and an expression, by the constants in front of the
expression. -/
theorem Expr.offset_tame (e : Expr) : ∀ {w : Width} (cl : BitVec w), e.isConstant = false →
    e.All Q → (AddExpr.createPartialR cl e).Tame Q (e.weight + 2) ∧
      (SubExpr.createPartialR cl e).Tame Q (e.weight + 2) := by
  have hadd : ∀ (e : Expr) {w : Width} (cl : BitVec w), e.isConstant = false → e.All Q →
      (Expr.binary .add (.constant w cl) e).Tame Q (e.weight + 2) := by
    intro e w cl hc he
    exact .front rfl cl he.tame (hQ.add _ _ hc)
  have hsub : ∀ (e : Expr) {w : Width} (cl : BitVec w), e.isConstant = false → e.All Q →
      (Expr.binary .sub (.constant w cl) e).Tame Q (e.weight + 2) := by
    intro e w cl hc he
    exact .front rfl cl he.tame (hQ.sub _ _ hc)
  induction e using Expr.rec (motive_2 := fun _ => True) with
  | nil => trivial
  | cons => trivial
  | binary k l r _ ih =>
    intro w cl hc he
    have hfront : ∀ (k' : BinaryKind) (d : BitVec w) (p : Expr),
        (r.isConstant = false → p.Tame Q (r.weight + 2)) →
        (BinaryKind.createConst k' d r p).Tame Q ((Expr.binary k l r).weight + 2) := by
      intro k' d p hp
      refine BinaryKind.createConst_tame (fun hr => (hp hr).mono ?_) (by omega)
      rw [Expr.weight]
      omega
    constructor
    · unfold AddExpr.createPartialR
      split
      · exact XorExpr.createPartialR_tame hQ he.tame cl
      · split
        · exact he.tame.mono (by omega)
        · split
          · rename_i heq
            cases heq
            exact hfront .add _ _ fun hr => (ih _ hr he.2.1).1
          · rename_i heq
            cases heq
            exact hfront .sub _ _ fun hr => (ih _ hr he.2.1).2
          · exact hadd _ cl hc he
    · unfold SubExpr.createPartialR
      split
      · exact XorExpr.createPartialR_tame hQ he.tame cl
      · split
        · rename_i heq
          cases heq
          exact hfront .sub _ _ fun hr => (ih _ hr he.2.1).2
        · rename_i heq
          cases heq
          exact hfront .add _ _ fun hr => (ih _ hr he.2.1).1
        · exact hsub _ cl hc he
  | _ =>
    intro w cl hc he
    rw [AddExpr.createPartialR, SubExpr.createPartialR]
    · split
      · exact ⟨XorExpr.createPartialR_tame hQ he.tame cl, XorExpr.createPartialR_tame hQ he.tame cl⟩
      · refine ⟨?_, hsub _ cl hc he⟩
        split
        · exact he.tame.mono (by omega)
        · exact hadd _ cl hc he
    all_goals intros; contradiction

theorem AddExpr.createFront_tame (he : e.Tame Q a) {w : Width} (k : BitVec w) :
    (AddExpr.createFront k e).Tame Q (a + 2) :=
  BinaryKind.createConst_tame (fun hc => ((e.offset_tame hQ k hc he.all).1).mono
    (Nat.add_le_add_right he.weight 2)) (by omega)

theorem SubExpr.createFront_tame (he : e.Tame Q a) {w : Width} (k : BitVec w) :
    (SubExpr.createFront k e).Tame Q (a + 2) :=
  BinaryKind.createConst_tame (fun hc => ((e.offset_tame hQ k hc he.all).2).mono
    (Nat.add_le_add_right he.weight 2)) (by omega)

theorem SubExpr.createBy_tame (he : e.Tame Q a) {w : Width} (k : BitVec w) :
    (SubExpr.createBy e k).Tame Q (a + 2) := by
  unfold SubExpr.createBy
  cases e with
  | constant v x => exact .constant _ (by omega)
  | _ => exact ((Expr.offset_tame hQ _ (0 - k) rfl he.all).1).mono (Nat.add_le_add_right he.weight 2)

omit hQ in
theorem Expr.nonconstant (h : ∀ w (c : BitVec w), e = .constant w c → False) :
    e.isConstant = false := by
  cases e with
  | constant w c => exact (h w c rfl).elim
  | _ => rfl

/-- What the sum and the difference of two operands must keep. -/
def Expr.SumTame (Q : BinaryKind → Expr → Expr → Prop) (l r : Expr) : Prop :=
  l.All Q → r.All Q → (AddExpr.create l r).Tame Q (l.weight + r.weight + 1) ∧
    (SubExpr.create l r).Tame Q (l.weight + r.weight + 1)

theorem AddExpr.create_tame_step
    (ih : ∀ a b : Expr, a.size + b.size < l.size + r.size → Expr.SumTame Q a b)
    (hl : l.All Q) (hr : r.All Q) : (AddExpr.create l r).Tame Q (l.weight + r.weight + 1) := by
  have hlw := l.weight_pos
  have hrw := r.weight_pos
  unfold AddExpr.create
  split
  · exact .constant _ (by omega)
  · rename_i hc
    exact ((Expr.offset_tame hQ r _ (Expr.nonconstant hc) hr).1).mono (by omega)
  · rename_i hc
    exact ((Expr.offset_tame hQ l _ (Expr.nonconstant hc) hl).1).mono (by omega)
  · rename_i hrc _
    have hboth : (l.isConstant && r.isConstant) = false := by
      rw [Expr.nonconstant hrc, Bool.and_false]
    split
    · exact .binary hl.tame hr.tame (hQ.plain _ _ _ rfl) (Nat.le_refl _)
    · split
      · rename_i k a hk
        have hlt := Expr.size_plus hk
        have he := Expr.offset_plus hk
        subst he
        refine (AddExpr.createFront_tame hQ (ih a r (by omega) hl.2.1 hr).1 k).mono ?_
        simp only [Expr.weight, BinaryKind.weight]
        omega
      · rename_i k a hk
        have hlt := Expr.size_minus hk
        have he := Expr.offset_minus hk
        subst he
        refine (AddExpr.createFront_tame hQ (ih r a (by omega) hr hl.2.1).2 k).mono ?_
        simp only [Expr.weight, BinaryKind.weight]
        omega
      · split
        · rename_i k b hk
          have hlt := Expr.size_plus hk
          have he := Expr.offset_plus hk
          subst he
          refine (AddExpr.createFront_tame hQ (ih l b (by omega) hl hr.2.1).1 k).mono ?_
          simp only [Expr.weight, BinaryKind.weight]
          omega
        · rename_i k b hk
          have hlt := Expr.size_minus hk
          have he := Expr.offset_minus hk
          subst he
          refine (AddExpr.createFront_tame hQ (ih l b (by omega) hl hr.2.1).2 k).mono ?_
          simp only [Expr.weight, BinaryKind.weight]
          omega
        · exact .binary hl.tame hr.tame (hQ.add _ _ hboth) (Nat.le_refl _)

theorem SubExpr.create_tame_step
    (ih : ∀ a b : Expr, a.size + b.size < l.size + r.size → Expr.SumTame Q a b)
    (hl : l.All Q) (hr : r.All Q) : (SubExpr.create l r).Tame Q (l.weight + r.weight + 1) := by
  have hlw := l.weight_pos
  have hrw := r.weight_pos
  unfold SubExpr.create
  split
  · exact .constant _ (by omega)
  · rename_i hc
    exact ((Expr.offset_tame hQ r _ (Expr.nonconstant hc) hr).2).mono (by omega)
  · rename_i hc
    exact ((Expr.offset_tame hQ l _ (Expr.nonconstant hc) hl).1).mono (by omega)
  · rename_i hrc _
    have hboth : (l.isConstant && r.isConstant) = false := by
      rw [Expr.nonconstant hrc, Bool.and_false]
    split
    · exact .binary hl.tame hr.tame (hQ.plain _ _ _ rfl) (Nat.le_refl _)
    · split
      · exact .constant _ (by omega)
      · split
        · rename_i k a hk
          have hlt := Expr.size_plus hk
          have he := Expr.offset_plus hk
          subst he
          refine (AddExpr.createFront_tame hQ (ih a r (by omega) hl.2.1 hr).2 k).mono ?_
          simp only [Expr.weight, BinaryKind.weight]
          omega
        · rename_i k a hk
          have hlt := Expr.size_minus hk
          have he := Expr.offset_minus hk
          subst he
          refine (SubExpr.createFront_tame hQ (ih a r (by omega) hl.2.1 hr).1 k).mono ?_
          simp only [Expr.weight, BinaryKind.weight]
          omega
        · split
          · rename_i k b hk
            have hlt := Expr.size_plus hk
            have he := Expr.offset_plus hk
            subst he
            refine (SubExpr.createBy_tame hQ (ih l b (by omega) hl hr.2.1).2 k).mono ?_
            simp only [Expr.weight, BinaryKind.weight]
            omega
          · rename_i k b hk
            have hlt := Expr.size_minus hk
            have he := Expr.offset_minus hk
            subst he
            refine (SubExpr.createBy_tame hQ (ih l b (by omega) hl hr.2.1).1 k).mono ?_
            simp only [Expr.weight, BinaryKind.weight]
            omega
          · exact .binary hl.tame hr.tame (hQ.sub _ _ hboth) (Nat.le_refl _)

theorem Expr.sumTame (l r : Expr) : Expr.SumTame Q l r := by
  induction hn : l.size + r.size using Nat.strong_induction_on generalizing l r with
  | h n ih =>
    have hsmaller : ∀ a b : Expr, a.size + b.size < l.size + r.size → Expr.SumTame Q a b := by
      intro a b hlt
      exact ih _ (hn ▸ hlt) a b rfl
    intro hl hr
    exact ⟨AddExpr.create_tame_step hQ hsmaller hl hr, SubExpr.create_tame_step hQ hsmaller hl hr⟩

theorem UltExpr.create_tame (hl : l.Tame Q a) (hr : r.Tame Q b) :
    (UltExpr.create l r).Tame Q (a + b + 3) := by
  have ha := hl.pos
  unfold UltExpr.create
  split
  · exact .constant _ (by omega)
  · split
    · exact (AndExpr.create_tame hQ (createIsZero_tame hQ hl) hr).mono (by omega)
    · exact .binary hl hr (hQ.plain _ _ _ rfl) (Nat.le_refl _)

theorem UleExpr.create_tame (hl : l.Tame Q a) (hr : r.Tame Q b) :
    (UleExpr.create l r).Tame Q (a + b + 5) := by
  have ha := hl.pos
  unfold UleExpr.create
  split
  · exact .constant _ (by omega)
  · split
    · exact (OrExpr.create_tame hQ (createIsZero_tame hQ hl) hr).mono (by omega)
    · exact .binary hl hr (hQ.plain _ _ _ rfl) (Nat.le_refl _)

theorem SltExpr.create_tame (hl : l.Tame Q a) (hr : r.Tame Q b) :
    (SltExpr.create l r).Tame Q (a + b + 3) := by
  have ha := hl.pos
  unfold SltExpr.create
  split
  · exact .constant _ (by omega)
  · split
    · exact (AndExpr.create_tame hQ hl (createIsZero_tame hQ hr)).mono (by omega)
    · exact .binary hl hr (hQ.plain _ _ _ rfl) (Nat.le_refl _)

theorem SleExpr.create_tame (hl : l.Tame Q a) (hr : r.Tame Q b) :
    (SleExpr.create l r).Tame Q (a + b + 5) := by
  have ha := hl.pos
  unfold SleExpr.create
  split
  · exact .constant _ (by omega)
  · split
    · exact (OrExpr.create_tame hQ hl (createIsZero_tame hQ hr)).mono (by omega)
    · exact .binary hl hr (hQ.plain _ _ _ rfl) (Nat.le_refl _)

theorem NeExpr.create_tame (hl : l.Tame Q a) (hr : r.Tame Q b) :
    (NeExpr.create l r).Tame Q (a + b + 3) :=
  (EqExpr.create_tame hQ (.constant _ (Nat.le_refl 1)) (EqExpr.create_tame hQ hl hr)).mono
    (by omega)

omit hQ in
/-- The operations that are folded, or given an operation of their own on booleans. -/
theorem BinaryKind.createFolded_tame {k : BinaryKind} {f : Expr → Expr → Expr} {x : Expr}
    (h : k.createFolded f l r = some x) (hn : 1 ≤ n) (hf : (f l r).Tame Q n) : x.Tame Q n := by
  unfold BinaryKind.createFolded at h
  split at h
  · split at h
    · cases h
    · cases h
      exact .constant _ hn
  · cases h
    exact hf

theorem BinaryKind.create_tame {k : BinaryKind} {x : Expr} (h : k.create l r = some x)
    (hl : l.Tame Q a) (hr : r.Tame Q b) (hk : Q k l r) : x.Tame Q (a + b + k.weight) := by
  have ha := hl.pos
  have hb := hr.pos
  have halloc := Expr.Tame.binary hl hr hk (Nat.le_refl _)
  have hsum : ∀ {y : Expr}, y.Tame Q (l.weight + r.weight + 1) → y.Tame Q (a + b + 1) := by
    intro y hy
    have hlw := hl.weight
    have hrw := hr.weight
    exact hy.mono (by omega)
  cases k with
  | add =>
    cases h
    exact hsum (Expr.sumTame hQ l r hl.all hr.all).1
  | sub =>
    cases h
    exact hsum (Expr.sumTame hQ l r hl.all hr.all).2
  | mul =>
    cases h
    exact MulExpr.create_tame hQ hl hr
  | udiv | sdiv | ashr =>
    refine BinaryKind.createFolded_tame h (by simp only [BinaryKind.weight]; omega) ?_
    split
    · exact hl.mono (by omega)
    · exact halloc
  | urem | srem =>
    refine BinaryKind.createFolded_tame h (by simp only [BinaryKind.weight]; omega) ?_
    split
    · exact .constant _ (by omega)
    · exact halloc
  | shl | lshr =>
    refine BinaryKind.createFolded_tame h (by simp only [BinaryKind.weight]; omega) ?_
    split
    · refine (AndExpr.create_tame hQ hl (createIsZero_tame hQ hr)).mono ?_
      simp only [BinaryKind.weight]
      omega
    · exact halloc
  | and =>
    cases h
    exact AndExpr.create_tame hQ hl hr
  | or =>
    cases h
    exact OrExpr.create_tame hQ hl hr
  | xor =>
    cases h
    exact XorExpr.create_tame hQ hl hr
  | eq =>
    cases h
    exact EqExpr.create_tame hQ hl hr
  | ne =>
    cases h
    exact NeExpr.create_tame hQ hl hr
  | ult =>
    cases h
    exact UltExpr.create_tame hQ hl hr
  | ule =>
    cases h
    exact UleExpr.create_tame hQ hl hr
  | ugt =>
    cases h
    rw [add_comm a b]
    exact UltExpr.create_tame hQ hr hl
  | uge =>
    cases h
    rw [add_comm a b]
    exact UleExpr.create_tame hQ hr hl
  | slt =>
    cases h
    exact SltExpr.create_tame hQ hl hr
  | sle =>
    cases h
    exact SleExpr.create_tame hQ hl hr
  | sgt =>
    cases h
    rw [add_comm a b]
    exact SltExpr.create_tame hQ hr hl
  | sge =>
    cases h
    rw [add_comm a b]
    exact SleExpr.create_tame hQ hr hl

theorem SelectExpr.create_tame {c : Expr} {m : Nat} (hc : c.Tame Q m) (hl : l.Tame Q a)
    (hr : r.Tame Q b) : (SelectExpr.create c l r).Tame Q (m + a + b + 5) := by
  have hm := hc.pos
  have ha := hl.pos
  have hb := hr.pos
  have halloc : (Expr.select c l r).Tame Q (m + a + b + 5) := by
    refine ⟨⟨hc.all, hl.all, hr.all⟩, ?_⟩
    have hcw := hc.weight
    have hlw := hl.weight
    have hrw := hr.weight
    rw [Expr.weight]
    omega
  unfold SelectExpr.create
  split
  · split
    · exact hl.mono (by omega)
    · exact hr.mono (by omega)
  · split
    · exact hl.mono (by omega)
    · split
      · split
        · split
          · exact (OrExpr.create_tame hQ hc hr).mono (by omega)
          · exact (AndExpr.create_tame hQ (createIsZero_tame hQ hc) hr).mono (by omega)
        · split
          · exact (OrExpr.create_tame hQ (createIsZero_tame hQ hc) hl).mono (by omega)
          · exact (AndExpr.create_tame hQ hc hl).mono (by omega)
        · exact halloc
      · exact halloc

end

section
variable {Q : BinaryKind → Expr → Expr → Prop} {e l r : Expr} {a b n : Nat}

theorem ConcatExpr.join_tame (hl : l.Tame Q a) (hr : r.Tame Q b) :
    (ConcatExpr.join l r).Tame Q (a + b + 1) := by
  have hlw := hl.weight
  have hrw := hr.weight
  unfold ConcatExpr.join
  split
  · exact .constant _ (by omega)
  · refine ⟨⟨hl.all, hr.all⟩, ?_⟩
    rw [Expr.weight]
    omega

/-- What extracts of an expression must keep. -/
def ExtractExpr.Tame (Q : BinaryKind → Expr → Expr → Prop) (e : Expr) : Prop :=
  ∀ (off : Nat) (w : Width), e.All Q → (ExtractExpr.create e off w).Tame Q (2 * e.weight)

/-- Merging two extracts of one expression gives one, which is lighter. -/
theorem ConcatExpr.create_tame_of_extract (hl : l.Tame Q a) (hr : r.Tame Q b)
    (hs : ∀ s off, ConcatExpr.merged? l r = some (s, off) → ExtractExpr.Tame Q s) :
    (ConcatExpr.create l r).Tame Q (a + b + 1) := by
  unfold ConcatExpr.create
  split
  · rename_i s off hm
    have hsource := hs s off hm
    unfold ConcatExpr.merged? at hm
    split at hm
    · split at hm
      · cases hm
        have hlw := hl.weight
        rw [Expr.weight] at hlw
        exact (hsource off _ hl.all).mono (by omega)
      · cases hm
    · cases hm
  · exact ConcatExpr.join_tame hl hr

theorem ExtractExpr.create_tame (e : Expr) : ExtractExpr.Tame Q e := by
  induction hn : e.size using Nat.strong_induction_on generalizing e with
  | h n ih =>
    intro off w he
    have hpos := e.weight_pos
    by_cases hw : w = e.getWidth
    · rw [hw, ExtractExpr.create_whole]
      exact he.tame.mono (by omega)
    · have hplain : e.isConstant = false → (∀ l r, e ≠ .concat l r) →
          (ExtractExpr.create e off w).Tame Q (2 * e.weight) := by
        intro hc hcat
        rw [ExtractExpr.create_other off hw hc hcat]
        exact ⟨he, Nat.le_refl _⟩
      cases e with
      | constant v c =>
        rw [ExtractExpr.create_constant c off hw]
        exact .constant _ (by omega)
      | concat l r =>
        have hsmaller : ∀ s : Expr, s.size < (Expr.concat l r).size → ExtractExpr.Tame Q s := by
          intro s hlt
          exact ih s.size (hn ▸ hlt) s rfl
        have hl : l.size < (Expr.concat l r).size := by
          rw [Expr.size]
          omega
        have hr : r.size < (Expr.concat l r).size := by
          rw [Expr.size]
          omega
        have hwhole : ¬ w = l.getWidth + r.getWidth := hw
        rw [ExtractExpr.create_concat, if_neg hwhole, Expr.weight]
        split
        · exact (hsmaller l hl _ _ he.1).mono (by omega)
        · split
          · exact (hsmaller r hr _ _ he.2).mono (by omega)
          · refine (ConcatExpr.create_tame_of_extract (hsmaller l hl _ _ he.1)
              (hsmaller r hr _ _ he.2) ?_).mono (by omega)
            intro s o hm
            exact hsmaller s
              ((ConcatExpr.merged_within hm (ExtractExpr.create_within l 0 _)).trans_lt hl)
      | _ => exact hplain rfl (by intro l r he; cases he)

theorem ConcatExpr.create_tame (hl : l.Tame Q a) (hr : r.Tame Q b) :
    (ConcatExpr.create l r).Tame Q (a + b + 1) :=
  ConcatExpr.create_tame_of_extract hl hr fun s _ _ => ExtractExpr.create_tame s

theorem ZExtExpr.create_tame (he : e.Tame Q a) (w : Width) :
    (ZExtExpr.create e w).Tame Q (2 * a + 1) := by
  have hw := he.weight
  unfold ZExtExpr.create
  split
  · exact he.mono (by omega)
  · split
    · exact (ExtractExpr.create_tame e _ _ he.all).mono (by omega)
    · split
      · exact .constant _ (by omega)
      · refine ⟨he.all, ?_⟩
        rw [Expr.weight]
        omega

theorem SExtExpr.create_tame (he : e.Tame Q a) (w : Width) :
    (SExtExpr.create e w).Tame Q (2 * a + 1) := by
  have hw := he.weight
  unfold SExtExpr.create
  split
  · exact he.mono (by omega)
  · split
    · exact (ExtractExpr.create_tame e _ _ he.all).mono (by omega)
    · split
      · exact .constant _ (by omega)
      · refine ⟨he.all, ?_⟩
        rw [Expr.weight]
        omega

theorem NotExpr.create_tame (he : e.Tame Q a) : (NotExpr.create e).Tame Q (a + 1) := by
  unfold NotExpr.create
  split
  · exact .constant _ (by omega)
  · refine ⟨he.all, ?_⟩
    rw [Expr.weight]
    exact Nat.add_le_add_right he.weight 1

theorem ReadExpr.rollback_tame {us : UpdateList} {v : Expr} (hus : us.All Q)
    (h : ReadExpr.rollback e us = .found v) : v.Tame Q us.weight := by
  induction us using UpdateList.rec (motive_1 := fun _ => True) with
  | nil => cases h
  | cons i value next _ _ ih =>
    obtain ⟨-, hv, hnext⟩ := hus
    rw [UpdateList.weight]
    unfold ReadExpr.rollback at h
    split at h
    · split at h
      · cases h
        exact hv.tame.mono (by omega)
      · exact (ih hnext h).mono (by omega)
    · cases h
  | _ => trivial

theorem ReadExpr.create_tame (root : Array) {us : UpdateList} (hus : us.All Q) (he : e.Tame Q a) :
    (ReadExpr.create root us e).Tame Q (us.weight + a + 1) := by
  have halloc : (Expr.read root us e).Tame Q (us.weight + a + 1) := by
    refine ⟨⟨hus, he.all⟩, ?_⟩
    have hw := he.weight
    rw [Expr.weight]
    omega
  unfold ReadExpr.create
  split
  · exact (ReadExpr.rollback_tame hus ‹_›).mono (by omega)
  · exact halloc
  · split
    · split
      · split
        · exact .constant _ (by omega)
        · exact halloc
      · exact halloc
    · exact halloc

end

end Encider
