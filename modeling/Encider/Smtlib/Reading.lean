import Encider.Expr.Weight
import Encider.Smtlib.Print

/-! What is read from the terms of the printer: in any algebra that reads the operations as the
expressions mean them, a printed term reads as its expression, abbreviated or not. -/

namespace Encider

mutual
/-- Conditions on the arrays of an expression and on the widths of all its parts. -/
def Expr.Within (Arr : Array → Prop) (W : Width → Prop) : Expr → Prop
  | .constant w _ => W w
  | .notOptimized e => e.Within Arr W
  | .read a us i => Arr a ∧ W a.range ∧ us.Within Arr W ∧ i.Within Arr W
  | .select c t f => c.Within Arr W ∧ t.Within Arr W ∧ f.Within Arr W
  | .concat l r => l.Within Arr W ∧ r.Within Arr W ∧ W (l.getWidth + r.getWidth)
  | .extract e _ w => e.Within Arr W ∧ W w
  | .zext e w => e.Within Arr W ∧ W w
  | .sext e w => e.Within Arr W ∧ W w
  | .not e => e.Within Arr W
  | .binary _ l r => l.Within Arr W ∧ r.Within Arr W

def UpdateList.Within (Arr : Array → Prop) (W : Width → Prop) : UpdateList → Prop
  | .nil => True
  | .cons i v next => i.Within Arr W ∧ v.Within Arr W ∧ next.Within Arr W
end

theorem Expr.Within.width {Arr : Array → Prop} {W : Width → Prop} (h1 : W 1) {e : Expr}
    (h : e.Within Arr W) : W e.getWidth := by
  induction e using Expr.rec (motive_2 := fun _ => True) with
  | constant w v => exact h
  | notOptimized e ih => exact ih h
  | read a us i => exact h.2.1
  | select c t f hc ht => exact ht h.2.1
  | concat l r => exact h.2.2
  | extract e low w => exact h.2
  | zext e w => exact h.2
  | sext e w => exact h.2
  | not e ih => exact ih h
  | binary k l r hl =>
    simp only [Expr.getWidth]
    split
    · exact h1
    · exact hl h.1
  | nil => trivial
  | cons => trivial

end Encider

namespace Encider.Smtlib

open Smt

section
variable (Arr : Array → Prop) (W : Width → Prop) (Q : BinaryKind → Expr → Expr → Prop)

/-- The expressions that the printer is given. -/
structure Fit (e : Expr) : Prop where
  typed : e.WellTyped
  within : e.Within Arr W
  all : e.All Q

structure FitUpdates (a : Array) (us : UpdateList) : Prop where
  typed : us.WellTyped a
  within : us.Within Arr W
  all : us.All Q

/-- What the expressions mean in an algebra, as words and as truth values. -/
structure Reading (o : Options) {D : Type} (G : Algebra D) where
  word : Expr → D
  truth : Expr → D
  contents : Array → UpdateList → D
  constant : ∀ {w : Width} (v : BitVec w), W w → ∀ sc, (printConstant o.cdm v).run G sc =
    some (if w = 1 then truth (.constant w v) else word (.constant w v), sc)
  toWord : ∀ {e}, Fit Arr W Q e → e.getWidth = 1 →
    G.op .ite [truth e, G.bits 1 (BitVec.ofInt 1 1), G.bits 1 (BitVec.ofInt 1 0)] = some (word e)
  toTruth : ∀ {e}, Fit Arr W Q e → e.getWidth = 1 →
    G.op (.compare .ugt) [word e, G.bits 1 (BitVec.ofInt 1 0)] = some (truth e)
  notOptimized : ∀ e, word (.notOptimized e) = word e ∧ truth (.notOptimized e) = truth e
  read : ∀ {a us i}, Fit Arr W Q (.read a us i) →
    G.op .select [contents a us, word i] = some (word (.read a us i))
  store : ∀ {a i v next}, FitUpdates Arr W Q a (.cons i v next) →
    G.op .store [contents a next, word i, word v] = some (contents a (.cons i v next))
  select : ∀ {c t f}, Fit Arr W Q (.select c t f) →
    G.op .ite [truth c, word t, word f] = some (word (.select c t f))
  concat : ∀ {l r}, Fit Arr W Q (.concat l r) →
    G.op .concat [word l, word r] = some (word (.concat l r))
  extract : ∀ {e low w}, Fit Arr W Q (.extract e low w) →
    G.op (.extract (low + w - 1) low) [word e] = some (word (.extract e low w))
  zext : ∀ {e w}, Fit Arr W Q (.zext e w) →
    G.op (.zeroExtend (w - e.getWidth)) [word e] = some (word (.zext e w))
  sext : ∀ {e w}, Fit Arr W Q (.sext e w) →
    G.op (.signExtend (w - e.getWidth)) [word e] = some (word (.sext e w))
  notWord : ∀ {e}, Fit Arr W Q (.not e) → G.op .bvnot [word e] = some (word (.not e))
  notTruth : ∀ {e}, Fit Arr W Q (.not e) → e.getWidth = 1 →
    G.op .not [truth e] = some (truth (.not e))
  equalWord : ∀ {k l r}, Fit Arr W Q (.binary k l r) → k = .eq ∨ k = .ne →
    G.op (getSMTLIBKeyword k) [word l, word r] = some (truth (.binary k l r))
  equalTruth : ∀ {k l r}, Fit Arr W Q (.binary k l r) → k = .eq ∨ k = .ne → l.getWidth = 1 →
    G.op (getSMTLIBKeyword k) [truth l, truth r] = some (truth (.binary k l r))
  logicalTruth : ∀ {k l r}, Fit Arr W Q (.binary k l r) → BinaryKind.isLogical k = true →
    l.getWidth = 1 → G.op (logicalKeyword k) [truth l, truth r] = some (truth (.binary k l r))
  arithmetic : ∀ {k l r}, Fit Arr W Q (.binary k l r) → k.isCmp = false → k ≠ .ashr →
    G.op (getSMTLIBKeyword k) [word l, word r] = some (word (.binary k l r))
  compare : ∀ {k l r}, Fit Arr W Q (.binary k l r) → k.isCmp = true →
    G.op (getSMTLIBKeyword k) [word l, word r] = some (truth (.binary k l r))
  ashr : ∀ {l r}, Fit Arr W Q (.binary .ashr l r) → ∃ c s,
    G.op (.compare .uge)
      [word r, word (.constant l.getWidth (BitVec.ofNat l.getWidth l.getWidth))] = some c ∧
    G.op (.word .ashr) [word l, word r] = some s ∧
    G.op .ite [c, word (.constant l.getWidth (BitVec.ofNat l.getWidth 0)), s] =
      some (word (.binary .ashr l r))

/-- The numbers of the expressions, and the declared names, none of which abbreviates one. -/
structure Naming (Declared : String → Prop) (N : Expr → ℤ → Prop) : Prop where
  pos : ∀ {e i}, N e i → 0 < i
  injective : ∀ {e e' i}, N e i → N e' i → e = e'
  array : ∀ {a}, Arr a → Declared a.name
  other : ∀ {x}, Declared x → ∀ {e i}, N e i → x ≠ abbreviation i

end

theorem abbreviation_injective {i j : ℤ} (hi : 0 < i) (hj : 0 < j)
    (h : abbreviation i = abbreviation j) : i = j := by
  obtain ⟨m, rfl⟩ := Int.eq_ofNat_of_zero_le hi.le
  obtain ⟨n, rfl⟩ := Int.eq_ofNat_of_zero_le hj.le
  have hdigits : Nat.toDigits 10 m = Nat.toDigits 10 n := by
    have := congrArg String.toList h
    simpa [abbreviation, toString, Int.repr] using this
  have hvalue := congrArg (Nat.ofDigitChars 10 · 0) hdigits
  simp only [Nat.ofDigitChars_ten_toDigits] at hvalue
  rw [hvalue]

theorem lookup_assign (bindings : BindingMap) (e x : Expr) (i : ℤ) :
    (bindings.assign e i).lookup x =
      if x = e then (bindings.lookup e).map fun _ => i else bindings.lookup x := by
  induction bindings with
  | nil => simp [BindingMap.assign]
  | cons b bs ih =>
    obtain ⟨y, j⟩ := b
    simp only [BindingMap.assign, List.map_cons] at ih ⊢
    by_cases hy : y = e
    · subst hy
      by_cases hx : x = y
      · subst hx
        simp [List.lookup]
      · have hxy : (x == y) = false := by simpa using hx
        simp only [if_true, List.lookup, hxy, if_neg hx] at ih ⊢
        exact ih
    · by_cases hx : x = y
      · subst hx
        simp [List.lookup, hy]
      · have hxy : (x == y) = false := by simpa using hx
        have hey : (e == y) = false := by simpa using Ne.symm hy
        simp only [if_neg hy, List.lookup, hxy, hey]
        exact ih

section
variable {Arr : Array → Prop} {W : Width → Prop} {Q : BinaryKind → Expr → Expr → Prop}
  {o : Options} {D : Type} {G : Algebra D} (R : Reading Arr W Q o G)
  (Declared : String → Prop) (N : Expr → ℤ → Prop)

/-- The meaning of an expression at a sort. -/
def Reading.den : SmtlibSort → Expr → D
  | .bitvector => R.word
  | .bool => R.truth

/-- The scope holds the arrays, and the abbreviations that may be used. -/
structure Agrees (bindings : BindingMap) (sc : Scope D) : Prop where
  declared : ∀ a, Arr a → sc.lookup a.name = some (R.contents a .nil)
  numbered : ∀ e i, bindings.lookup e = some i → o.abbrMode ≠ .abbrNone → N e |i|
  visible : ∀ e i, bindings.lookup e = some i → o.abbrMode = .abbrLet →
    0 < i ∧ sc.lookup (abbreviation i) = some (R.den (getSort e) e)
  written : ∀ e i, bindings.lookup e = some i → o.abbrMode = .abbrNamed → i < 0 →
    sc.lookup (abbreviation (-i)) = some (R.den (getSort e) e)
  fresh : ∀ e i, bindings.lookup e = some i → o.abbrMode = .abbrNamed → 0 < i →
    sc.lookup (abbreviation i) = none
  known : ∀ b ∈ sc, Declared b.1 ∨
    ∃ e i, N e i ∧ b = (abbreviation i, R.den (getSort e) e)

/-- The printer writes a term that reads as `d`, and leaves the numbers of expressions of size `n`
and more. -/
def Prints (n : ℕ) (p : Printer) (d : D) : Prop :=
  ∀ bindings sc, Agrees R Declared N bindings sc → ∃ sc', (p bindings).1.run G sc = some (d, sc') ∧
    Agrees R Declared N (p bindings).2 sc' ∧
    ∀ x, n ≤ x.size → (p bindings).2.lookup x = bindings.lookup x

variable {R Declared N}

namespace Prints

variable {n : ℕ} {p q r : Printer} {a b c d : D}

theorem mono {m : ℕ} (h : Prints R Declared N m p d) (hn : m ≤ n) : Prints R Declared N n p d := by
  intro bindings sc hag
  obtain ⟨sc', hrun, hag', hframe⟩ := h bindings sc hag
  exact ⟨sc', hrun, hag', fun x hx => hframe x (hn.trans hx)⟩

theorem app1 {op : Op} (hp : Prints R Declared N n p a) (ho : G.op op [a] = some d) :
    Prints R Declared N n (app1 op p) d := by
  intro bindings sc hag
  obtain ⟨sc₁, hrun, hag₁, hframe⟩ := hp bindings sc hag
  exact ⟨sc₁, Term.run_app1 G hrun ho, hag₁, hframe⟩

theorem app2 {op : Op} (hp : Prints R Declared N n p a) (hq : Prints R Declared N n q b)
    (ho : G.op op [a, b] = some d) : Prints R Declared N n (app2 op p q) d := by
  intro bindings sc hag
  obtain ⟨sc₁, hrun₁, hag₁, hframe₁⟩ := hp bindings sc hag
  obtain ⟨sc₂, hrun₂, hag₂, hframe₂⟩ := hq _ sc₁ hag₁
  refine ⟨sc₂, Term.run_app2 G hrun₁ hrun₂ ho, hag₂, ?_⟩
  intro x hx
  exact (hframe₂ x hx).trans (hframe₁ x hx)

theorem app3 {op : Op} (hp : Prints R Declared N n p a) (hq : Prints R Declared N n q b) (hr : Prints R Declared N n r c)
    (ho : G.op op [a, b, c] = some d) : Prints R Declared N n (app3 op p q r) d := by
  intro bindings sc hag
  obtain ⟨sc₁, hrun₁, hag₁, hframe₁⟩ := hp bindings sc hag
  obtain ⟨sc₂, hrun₂, hag₂, hframe₂⟩ := hq _ sc₁ hag₁
  obtain ⟨sc₃, hrun₃, hag₃, hframe₃⟩ := hr _ sc₂ hag₂
  refine ⟨sc₃, Term.run_app3 G hrun₁ hrun₂ hrun₃ ho, hag₃, ?_⟩
  intro x hx
  exact (hframe₃ x hx).trans ((hframe₂ x hx).trans (hframe₁ x hx))

end Prints

/-- The first writing of an expression gives it its name. -/
theorem Agrees.define (hN : Naming Arr Declared N) {bindings : BindingMap} {sc : Scope D}
    (h : Agrees R Declared N bindings sc) {e : Expr} {i : ℤ} (he : bindings.lookup e = some i)
    (hi : 0 < i) (hmode : o.abbrMode = .abbrNamed) :
    Agrees R Declared N (bindings.assign e (-i)) ((abbreviation i, R.den (getSort e) e) :: sc) := by
  have hnone : o.abbrMode ≠ .abbrNone := by simp [hmode]
  have hei : N e i := by
    have := h.numbered e i he hnone
    rwa [abs_of_pos hi] at this
  -- another expression has another number, and so another name
  have hother : ∀ x j, x ≠ e → bindings.lookup x = some j → ∀ m, 0 < m → |j| = m →
      abbreviation m ≠ abbreviation i := by
    intro x j hx hj m hm hjm heq
    have hmi := abbreviation_injective hm hi heq
    have hxm := h.numbered x j hj hnone
    rw [hjm, hmi] at hxm
    exact hx (hN.injective hxm hei)
  constructor
  · intro a ha
    have hne : (a.name == abbreviation i) = false := by simpa using hN.other (hN.array ha) hei
    simp only [List.lookup, hne]
    exact h.declared a ha
  · intro x j hj _
    rw [lookup_assign] at hj
    split at hj
    · rename_i hx
      subst hx
      rw [he] at hj
      cases hj
      rw [abs_neg, abs_of_pos hi]
      exact hei
    · exact h.numbered x j hj hnone
  · intro x j hj hlet
    rw [hmode] at hlet
    cases hlet
  · intro x j hj _ hneg
    rw [lookup_assign] at hj
    split at hj
    · rename_i hx
      subst hx
      rw [he] at hj
      cases hj
      simp [List.lookup]
    · rename_i hx
      have hne : (abbreviation (-j) == abbreviation i) = false := by
        simpa using hother x j hx hj (-j) (by omega) (abs_of_neg hneg)
      simp only [List.lookup, hne]
      exact h.written x j hj hmode hneg
  · intro x j hj _ hpos
    rw [lookup_assign] at hj
    split at hj
    · rw [he] at hj
      cases hj
      exact absurd (show 0 < -i from hpos) (by omega)
    · rename_i hx
      have hne : (abbreviation j == abbreviation i) = false := by
        simpa using hother x j hx hj j hpos (abs_of_pos hpos)
      simp only [List.lookup, hne]
      exact h.fresh x j hj hmode hpos
  · intro b hb
    obtain rfl | hb := List.mem_cons.mp hb
    · exact .inr ⟨e, i, hei, rfl⟩
    · exact h.known b hb

theorem Prints.abbreviated (hN : Naming Arr Declared N) {e : Expr} {full : Printer}
    (h : Prints R Declared N e.size full (R.den (getSort e) e)) :
    Prints R Declared N (e.size + 1) (abbreviated o e full) (R.den (getSort e) e) := by
  intro bindings sc hag
  unfold Smtlib.abbreviated
  split
  · rename_i i hmode hi
    exact ⟨sc, Term.run_symbol G (hag.visible e i hi hmode).2, hag, fun _ _ => rfl⟩
  · rename_i i hmode hi
    split
    · rename_i hpos
      obtain ⟨sc', hrun, hag', hframe⟩ := h bindings sc hag
      have hi' := (hframe e (Nat.le_refl _)).trans hi
      refine ⟨_, Term.run_named G hrun (hag'.fresh e i hi' hmode hpos),
        hag'.define hN hi' hpos hmode, ?_⟩
      intro x hx
      rw [lookup_assign, if_neg]
      · exact hframe x (by omega)
      · intro heq
        rw [heq] at hx
        omega
    · rename_i hpos
      have hne : i ≠ 0 := by
        intro h0
        have := hN.pos (hag.numbered e i hi (by simp [hmode]))
        simp [h0] at this
      exact ⟨sc, Term.run_symbol G (hag.written e i hi hmode (by omega)), hag, fun _ _ => rfl⟩
  · obtain ⟨sc', hrun, hag', hframe⟩ := h bindings sc hag
    exact ⟨sc', hrun, hag', fun x hx => hframe x (by omega)⟩

end

end Encider.Smtlib
