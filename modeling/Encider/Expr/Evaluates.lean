import Encider.Expr.Evaluator

/-! What `Assignment::evaluate` gives: the value of the expression, as a constant. -/

namespace Encider

open Encider.Expr Encider.Guarded

mutual
/-- A condition on all that an evaluation comes to. Below a read these are the writes up to the one
whose value is read. -/
def Expr.Meets (σ : Assignment) (P : Expr → Prop) : Expr → Prop
  | .constant w v => P (.constant w v)
  | .notOptimized e => P (.notOptimized e) ∧ e.Meets σ P
  | .read a us i => P (.read a us i) ∧ i.Meets σ P ∧ us.Meets σ P (i.value σ)
  | .select c t f => P (.select c t f) ∧ c.Meets σ P ∧ t.Meets σ P ∧ f.Meets σ P
  | .concat l r => P (.concat l r) ∧ l.Meets σ P ∧ r.Meets σ P
  | .extract e off w => P (.extract e off w) ∧ e.Meets σ P
  | .zext e w => P (.zext e w) ∧ e.Meets σ P
  | .sext e w => P (.sext e w) ∧ e.Meets σ P
  | .not e => P (.not e) ∧ e.Meets σ P
  | .binary k l r => P (.binary k l r) ∧ l.Meets σ P ∧ r.Meets σ P

def UpdateList.Meets (σ : Assignment) (P : Expr → Prop) (index : Nat) : UpdateList → Prop
  | .nil => True
  | .cons i v next => i.Meets σ P ∧
      (i.value σ = index → v.Meets σ P) ∧ (i.value σ ≠ index → next.Meets σ P index)
end

theorem Expr.Meets.self {σ : Assignment} {P : Expr → Prop} {e : Expr} (h : e.Meets σ P) : P e := by
  cases e with
  | constant w v => exact h
  | _ => exact h.1

/-- What follows from two conditions for one expression follows for all of them. -/
theorem Expr.Meets.imp {σ : Assignment} {P P' Q : Expr → Prop}
    (h : ∀ e, e.WellTyped → e.Meets σ P → e.Meets σ P' → Q e) {e : Expr} (he : e.WellTyped)
    (hP : e.Meets σ P) (hP' : e.Meets σ P') : e.Meets σ Q := by
  induction e using Expr.rec (motive_2 := fun us => ∀ a index, us.WellTyped a →
    us.Meets σ P index → us.Meets σ P' index → us.Meets σ Q index) with
  | constant w v => exact h _ he hP hP'
  | notOptimized e ih | not e ih => exact ⟨h _ he hP hP', ih he hP.2 hP'.2⟩
  | read a us i hus hi =>
    exact ⟨h _ he hP hP', hi he.2.1 hP.2.1 hP'.2.1, hus a _ he.1 hP.2.2 hP'.2.2⟩
  | select c t f hc ht hf =>
    exact ⟨h _ he hP hP', hc he.1 hP.2.1 hP'.2.1, ht he.2.1 hP.2.2.1 hP'.2.2.1,
      hf he.2.2.1 hP.2.2.2 hP'.2.2.2⟩
  | concat l r hl hr =>
    exact ⟨h _ he hP hP', hl he.1 hP.2.1 hP'.2.1, hr he.2 hP.2.2 hP'.2.2⟩
  | extract e off w ih | zext e w ih | sext e w ih => exact ⟨h _ he hP hP', ih he.1 hP.2 hP'.2⟩
  | binary k l r hl hr =>
    exact ⟨h _ he hP hP', hl he.1 hP.2.1 hP'.2.1, hr he.2.1 hP.2.2 hP'.2.2⟩
  | nil => trivial
  | cons i v next hi hv hnext =>
    rename_i a index ht hP hP'
    exact ⟨hi ht.1 hP.1 hP'.1, fun heq => hv ht.2.1 (hP.2.1 heq) (hP'.2.1 heq),
      fun hne => hnext a index ht.2.2.2.2 (hP.2.2 hne) (hP'.2.2 hne)⟩

namespace Bindings

/-- The values that the bytes give. -/
def assignment (b : Bindings) : Assignment := fun a i =>
  match (b.bindings a).bind (·[i]?) with
  | some byte => BitVec.ofNat a.range byte.toNat
  | none => 0

/-- The array has its full contents, of its own or bound to it. Sizes are `unsigned`. -/
structure Binds (b : Bindings) (a : Array) : Prop where
  size : a.size < 2 ^ 32
  constant : a.constantValues ≠ [] → a.constantValues.length = a.size
  bound : a.constantValues = [] → ∃ bytes, b.bindings a = some bytes ∧ bytes.length = a.size

/-- Reads are in bounds, of arrays with full contents, and divisors are not zero. -/
def Proper (b : Bindings) : Expr → Prop
  | .read a _ i => i.value b.assignment < a.size ∧ b.Binds a
  | .binary k _ r => k.isDivision = true → r.value b.assignment ≠ 0
  | _ => True

end Bindings

/-- No constant is hidden behind `NotOptimized`, and arrays are indexed by at most 64 bits. -/
def Expr.Foldable : Expr → Prop
  | .notOptimized e => e.isConstant = false
  | .read a _ _ => a.domain ≤ 64
  | _ => True

namespace ExprEvaluator

/-- What an expression should evaluate to. -/
def result (σ : Assignment) (e : Expr) : Expr := const (e.value σ) e.getWidth

section
variable {σ : Assignment} {b : Bindings} {e : Expr}

theorem result_value (e : Expr) : (result σ e).value σ = e.value σ := by
  rw [result, const_value, Nat.mod_eq_of_lt (e.value_lt σ)]

theorem result_constant (h : e.isConstant = true) : result σ e = e := by
  cases e with
  | constant w v => simp [result, const, Expr.value, Expr.getWidth]
  | _ => cases h

theorem eq_result {u : Expr} {w : Width} {v : Nat} (hm : u.Means σ w v) (hc : u.isConstant = true) :
    u = const v w := by
  obtain ⟨-, hw, hv⟩ := hm
  subst hw hv
  exact (result_constant hc).symm

/-- Two constants are folded. -/
theorem create_constants (k : BinaryKind) {w v : Width} (x : BitVec w) (y : BitVec v)
    (hy : k.isDivision = true → y ≠ 0) :
    ∃ r, k.create (constant w x) (constant v y) = some r ∧ r.isConstant = true := by
  cases k with
  | udiv | sdiv | urem | srem => exact ⟨_, if_neg fun h => hy rfl h.2, rfl⟩
  | add =>
    refine ⟨_, rfl, ?_⟩
    rw [AddExpr.create]
    rfl
  | sub =>
    refine ⟨_, rfl, ?_⟩
    rw [SubExpr.create]
    rfl
  | _ => exact ⟨_, rfl, rfl⟩

theorem create_result {k : BinaryKind} {l r : Expr} (h : (binary k l r).WellTyped)
    (hr : k.isDivision = true → r.value σ ≠ 0) :
    k.create (result σ l) (result σ r) = some (result σ (.binary k l r)) := by
  have hdiv : k.isDivision = true → BitVec.ofNat r.getWidth (r.value σ) ≠ 0 := by
    intro hk h0
    apply hr hk
    rw [← bits_toNat, h0]
    rfl
  obtain ⟨u, hu, hc⟩ := create_constants k (BitVec.ofNat l.getWidth (l.value σ))
    (BitVec.ofNat r.getWidth (r.value σ)) hdiv
  have hshift : ¬ (ConstructorCall.binary k (result σ l) (result σ r)).Overshifts := by
    intro ho
    unfold ConstructorCall.Overshifts at ho
    split at ho
    · rename_i heq
      cases heq
      exact Bool.noConfusion ho.2.1
    · exact ho
  have hzero : ¬ (ConstructorCall.binary k (result σ l) (result σ r)).DividesByZero := by
    intro hz
    apply hr hz.1
    rw [← result_value, hz.2.2, const_value, Nat.zero_mod]
  obtain ⟨u', hu', hs⟩ := BinaryKind.create_simplifies (k := k) (l := result σ l) (r := result σ r)
    ⟨trivial, trivial, h.2.2⟩ hshift hzero
  obtain rfl : u = u' := Option.some.inj (hu.symm.trans hu')
  have hv := hs.value σ ⟨trivial, trivial, fun hk => by
    rw [result_value]
    exact hr hk⟩
  have hm : u.Means σ (binary k l r).getWidth ((binary k l r).value σ) := by
    refine ⟨hs.typed, hs.width, hv.trans ?_⟩
    rw [Expr.value, Expr.value, result_value, result_value]
    rfl
  change k.create (result σ l) (result σ r) = some _ at hu
  rw [hu, eq_result hm hc]
  rfl

theorem extract_constant {w : Width} (c : BitVec w) (off : Nat) (v : Width) :
    (ExtractExpr.create (constant w c) off v).isConstant = true := by
  rw [ExtractExpr.create, ExtractExpr.createWithin]
  split <;> rfl

theorem zext_constant {w v : Width} (c : BitVec w) (h : w ≤ v) :
    (ZExtExpr.create (constant w c) v).isConstant = true := by
  have hle : ¬ v < (constant w c).getWidth := Nat.not_lt.mpr h
  unfold ZExtExpr.create
  rw [if_neg hle]
  split <;> rfl

theorem sext_constant {w v : Width} (c : BitVec w) (h : w ≤ v) :
    (SExtExpr.create (constant w c) v).isConstant = true := by
  have hle : ¬ v < (constant w c).getWidth := Nat.not_lt.mpr h
  unfold SExtExpr.create
  rw [if_neg hle]
  split <;> rfl

/-- A rebuilt expression whose kids are their values. -/
theorem rebuild_result (h : e.WellTyped) (hread : isRead e = false)
    (hopt : ∀ src, e ≠ .notOptimized src) (hconst : e.isConstant = false)
    (hdiv : ∀ k l r, e = .binary k l r → k.isDivision = true → r.value σ ≠ 0) :
    e.rebuild (e.kids.map (result σ)) = some (result σ e) := by
  cases e with
  | constant w v => cases hconst
  | notOptimized src => exact absurd rfl (hopt src)
  | read a us i => cases hread
  | select c t f =>
    have hm := SelectExpr.create_means σ (c := result σ c) (t := result σ t) (f := result σ f)
      ⟨trivial, trivial, trivial, h.2.2.2.1, h.2.2.2.2⟩
    have hc : (SelectExpr.create (result σ c) (result σ t) (result σ f)).isConstant = true := by
      change (if _ then _ else _ : Expr).isConstant = true
      split <;> rfl
    refine congrArg some ((eq_result hm hc).trans ?_)
    rw [Expr.value, result_value, result_value, result_value]
    rfl
  | concat l r =>
    have hm := ConcatExpr.create_means σ (l := result σ l) (r := result σ r) trivial trivial
    refine congrArg some ((eq_result hm rfl).trans ?_)
    rw [Expr.value, result_value, result_value]
    rfl
  | extract e off w =>
    have hm := ExtractExpr.create_correct σ (result σ e) off w trivial h.2.1 h.2.2
    refine congrArg some ((eq_result hm (extract_constant _ off w)).trans ?_)
    rw [result_value, result, Expr.value]
    rfl
  | zext e w =>
    have hm := ZExtExpr.create_means σ (e := result σ e) (w := w) trivial
      fun hw => absurd h.2 (Nat.not_le.mpr hw)
    refine congrArg some ((eq_result hm (zext_constant _ h.2)).trans ?_)
    rw [Expr.value, result_value]
    rfl
  | sext e w =>
    have hm := SExtExpr.create_means σ (e := result σ e) (w := w) trivial
      fun hw => absurd h.2 (Nat.not_le.mpr hw)
    refine congrArg some ((eq_result hm (sext_constant _ h.2)).trans ?_)
    rw [Expr.value, result_value]
    rfl
  | not e =>
    have hm := NotExpr.create_means σ (e := result σ e) trivial
    refine congrArg some ((eq_result hm rfl).trans ?_)
    rw [Expr.value, result_value]
    rfl
  | binary k l r => exact create_result h (hdiv k l r rfl)

/-! What a visitor remembers -/

/-- An expression that the visitor evaluates to its value. -/
structure Fit (b : Bindings) (e : Expr) : Prop where
  typed : e.WellTyped
  proper : e.Meets b.assignment b.Proper
  foldable : e.Meets b.assignment Foldable

/-- What is remembered of such an expression is its value. -/
def Sound (b : Bindings) (visited : Visited) : Prop :=
  ∀ p ∈ visited, Fit b p.1 → p.2 = result b.assignment p.1

theorem keeps_remember {actual : Visit Expr} (hk : Keeps (Sound b) actual)
    (hy : Fit b e → Yields (Sound b) actual (result b.assignment e)) :
    Keeps (Sound b) (remember e actual) := by
  intro visited r visited' hv h
  unfold remember at h
  split at h
  · cases h
    exact hv
  · obtain ⟨⟨r, visited₁⟩, hactual, hdone⟩ := Option.bind_eq_some_iff.mp h
    cases hdone
    intro p hp hfit
    rcases List.mem_append.mp hp with hp | hp
    · exact hk hv hactual p hp hfit
    · cases List.mem_singleton.mp hp
      obtain ⟨visited₂, hyield, -⟩ := hy hfit hv
      cases hactual.symm.trans hyield
      rfl

theorem yields_remember {actual : Visit Expr} (hfit : Fit b e)
    (hy : Yields (Sound b) actual (result b.assignment e)) :
    Yields (Sound b) (remember e actual) (result b.assignment e) := by
  intro visited hv
  unfold remember
  split
  · rename_i r hr
    have he : r = result b.assignment e := hv _ (Visited.mem_of_find hr) hfit
    rw [he]
    exact ⟨visited, rfl, hv⟩
  · obtain ⟨visited₁, hactual, hv₁⟩ := hy hv
    rw [hactual]
    refine ⟨_, rfl, ?_⟩
    intro p hp _
    rcases List.mem_append.mp hp with hp | hp
    · exact hv₁ p hp ‹_›
    · cases List.mem_singleton.mp hp
      rfl

/-! What a visit does -/

/-- A visit keeps the cache sound, and of a fit expression it gives the value. -/
structure Evaluates (b : Bindings) (e : Expr) : Prop where
  keeps : Keeps (Sound b) (visit b e)
  yields : Fit b e → Yields (Sound b) (visit b e) (result b.assignment e)

theorem Evaluates.of_actual {actual : Visit Expr} (hvisit : visit b e = remember e actual)
    (hk : Keeps (Sound b) actual)
    (hy : Fit b e → Yields (Sound b) actual (result b.assignment e)) : Evaluates b e := by
  constructor
  · rw [hvisit]
    exact keeps_remember hk hy
  · intro h
    rw [hvisit]
    exact yields_remember h (hy h)

theorem keeps_doChildren {kids : List (Visit Expr)} (h : ∀ m ∈ kids, Keeps (Sound b) m) :
    Keeps (Sound b) (doChildren e kids) :=
  .bind (.inTurn h) fun _ => .bind (.ite (.pure _) (.lift _)) fun _ => .pure _

theorem keeps_visitExpr {action : Visit Expr} (h : Keeps (Sound b) action) :
    Keeps (Sound b) (visitExpr e action) :=
  .ite (.lift _) h

/-- Either way, constant kids are put together. -/
theorem yields_visitExpr {action : Visit Expr}
    (hbuilt : e.rebuild (e.kids.map (result b.assignment)) = some (result b.assignment e))
    (haction : e.kids.map (result b.assignment) ≠ e.kids ∨ isRead e = true →
      Yields (Sound b) action (result b.assignment e)) :
    Yields (Sound b) (visitExpr e action) (result b.assignment e) := by
  unfold visitExpr
  split
  · rename_i hall
    have hself : e.kids.map (result b.assignment) = e.kids := by
      refine (List.map_congr_left fun k hk => ?_).trans (List.map_id _)
      exact result_constant (List.all_eq_true.mp hall.2 k hk)
    rw [hself] at hbuilt
    exact .lift hbuilt
  · rename_i hall
    apply haction
    by_contra hno
    rw [not_or, not_not, Bool.not_eq_true] at hno
    refine hall ⟨hno.2, ?_⟩
    rw [← hno.1, List.all_map]
    exact List.all_eq_true.mpr fun _ _ => rfl

/-- The kinds whose kids are visited and that are then put together again. -/
theorem evaluates_of_kids (hvisit : visit b e = remember e (visitExpr e
      (doChildren e (e.kids.map (visit b))))) (hread : isRead e = false)
    (hopt : ∀ src, e ≠ .notOptimized src) (hconst : e.isConstant = false)
    (hdiv : ∀ k l r, e = .binary k l r → k.isDivision = false)
    (hkids : ∀ k ∈ e.kids, Evaluates b k)
    (hfit : Fit b e → ∀ k ∈ e.kids, Fit b k) : Evaluates b e := by
  refine .of_actual hvisit ?_ ?_
  · refine keeps_visitExpr (keeps_doChildren ?_)
    intro m hm
    obtain ⟨k, hk, rfl⟩ := List.mem_map.mp hm
    exact (hkids k hk).keeps
  · intro h
    have hbuilt : e.rebuild (e.kids.map (result b.assignment)) = some (result b.assignment e) :=
      rebuild_result h.typed hread hopt hconst fun k l r he hk =>
        absurd hk (by rw [hdiv k l r he]; decide)
    refine yields_visitExpr hbuilt fun hne => ?_
    rw [hread] at hne
    refine .bind (a := e.kids.map (result b.assignment)) (.inTurn ?_) ?_
    · rw [List.forall₂_map_left_iff, List.forall₂_map_right_iff, List.forall₂_same]
      exact fun k hk => (hkids k hk).yields (hfit h k hk)
    · refine .bind (a := result b.assignment e) ?_ (.pure (result b.assignment e))
      unfold rebuildKids
      rw [if_neg (hne.resolve_right (by decide))]
      exact .lift hbuilt

theorem evaluates_notOptimized (he : Evaluates b e) : Evaluates b (.notOptimized e) := by
  refine .of_actual rfl ?_ ?_
  · refine keeps_visitExpr (keeps_doChildren fun m hm => ?_)
    cases List.mem_singleton.mp hm
    exact he.keeps
  · intro h
    have hconst : e.isConstant = false := h.foldable.1
    have hne : [result b.assignment e] ≠ (Expr.notOptimized e).kids := by
      intro heq
      rw [← (List.cons.inj heq).1] at hconst
      cases hconst
    unfold visitExpr
    rw [if_neg (by simp [Expr.kids, hconst])]
    refine .bind (a := [result b.assignment e]) (.inTurn (.cons ?_ .nil)) ?_
    · exact he.yields ⟨h.typed, h.proper.2, h.foldable.2⟩
    · refine .bind (a := .notOptimized (result b.assignment e)) ?_
        (.pure (result b.assignment e))
      unfold rebuildKids
      rw [if_neg hne]
      exact .lift rfl

/-- A divisor that is not zero is taken. -/
theorem unlessZero_result (h : e.value σ ≠ 0) : unlessZero e (result σ e) = result σ e := by
  refine if_neg fun h0 => h ?_
  rw [← bits_toNat, h0]
  rfl

theorem evaluates_division {k : BinaryKind} {l r : Expr} (hk : k.isDivision = true)
    (hl : Evaluates b l) (hr : Evaluates b r) : Evaluates b (.binary k l r) := by
  refine .of_actual (by rw [visit, if_pos hk]) ?_ ?_
  · exact keeps_visitExpr (.bind hl.keeps fun _ => .bind hr.keeps fun _ => .ite (.lift _) (.pure _))
  · intro h
    have hzero : r.value b.assignment ≠ 0 := h.proper.1 hk
    have hcreate := create_result h.typed fun _ => hzero
    refine yields_visitExpr hcreate fun hne => ?_
    refine .bind (hl.yields ⟨h.typed.1, h.proper.2.1, h.foldable.2.1⟩)
      (.bind (hr.yields ⟨h.typed.2.1, h.proper.2.2, h.foldable.2.2⟩) ?_)
    rw [unlessZero_result hzero, if_pos]
    · exact .lift hcreate
    · by_contra hno
      rw [not_or, not_not, not_not] at hno
      have hne := hne.resolve_right fun h => Bool.noConfusion h
      rw [Expr.kids, List.map_cons, List.map_cons, List.map_nil, hno.1, hno.2] at hne
      exact hne rfl

/-! Reads -/

/-- The writes below a read that an evaluation comes to are fit. -/
structure FitWrites (b : Bindings) (a : Array) (index : Nat) (us : UpdateList) : Prop where
  typed : us.WellTyped a
  proper : us.Meets b.assignment b.Proper index
  foldable : us.Meets b.assignment Foldable index
  domain : a.domain ≤ 64
  bound : index < a.size
  binds : b.Binds a

structure EvaluatesWrites (b : Bindings) (us : UpdateList) : Prop where
  keeps : ∀ a index, Keeps (Sound b) (evalRead b a index us)
  yields : ∀ a index, FitWrites b a index us → Yields (Sound b) (evalRead b a index us)
    (const (us.contents b.assignment a index).toNat a.range)

theorem const_toNat {w : Width} (v : BitVec w) : const v.toNat w = constant w v := by
  rw [const, BitVec.ofNat_toNat, BitVec.setWidth_eq]

theorem evaluatesWrites_nil : EvaluatesWrites b .nil := by
  refine ⟨fun _ _ => .ite (.lift _) (.pure _), fun a index h => ?_⟩
  unfold evalRead
  rw [UpdateList.contents, const_toNat, Array.initial]
  by_cases hc : a.constantValues = []
  · obtain ⟨bytes, hbytes, hlen⟩ := h.binds.bound hc
    have hlt : index < bytes.length := hlen.symm ▸ h.bound
    have hbyte : bytes[index]? = some bytes[index] := List.getElem?_eq_getElem hlt
    rw [if_neg fun hno => hno.1 hc, hc, Bindings.getInitialValue, Bindings.assignment, hbytes,
      Option.bind_some, hbyte]
    exact .pure _
  · have hlt : index < a.constantValues.length := (h.binds.constant hc).symm ▸ h.bound
    rw [if_pos ⟨hc, h.bound⟩, List.getElem?_eq_getElem hlt]
    exact .lift rfl

theorem evaluatesWrites_cons {i v : Expr} {next : UpdateList} (hi : Evaluates b i)
    (hv : Evaluates b v) (hnext : EvaluatesWrites b next) :
    EvaluatesWrites b (.cons i v next) := by
  refine ⟨fun a index => .bind hi.keeps fun r => ?_, fun a index h => ?_⟩
  · split
    · exact .ite (.ite hv.keeps (hnext.keeps a index)) fun _ _ _ _ h => by cases h
    · exact .pure _
  · have hw : i.getWidth ≤ 64 := h.typed.2.2.1 ▸ h.domain
    refine .bind (hi.yields ⟨h.typed.1, h.proper.1, h.foldable.1⟩) ?_
    change Yields _ (if i.getWidth ≤ 64 then _ else _) _
    rw [if_pos hw, bits_toNat, UpdateList.contents]
    split
    · rename_i heq
      have hvalue : const (BitVec.ofNat a.range (v.value b.assignment)).toNat a.range =
          result b.assignment v := by
        rw [const_toNat, ← h.typed.2.2.2.1]
        rfl
      rw [hvalue]
      exact hv.yields ⟨h.typed.2.1, h.proper.2.1 heq, h.foldable.2.1 heq⟩
    · rename_i hne
      exact hnext.yields a index ⟨h.typed.2.2.2.2, h.proper.2.2 hne, h.foldable.2.2 hne, h.domain,
        h.bound, h.binds⟩

theorem evaluates_read {a : Array} {us : UpdateList} {i : Expr} (hus : EvaluatesWrites b us)
    (hi : Evaluates b i) : Evaluates b (.read a us i) := by
  refine .of_actual rfl ?_ ?_
  · refine keeps_visitExpr (.bind hi.keeps fun r => ?_)
    split
    · exact .ite (hus.keeps _ _) fun _ _ _ _ h => by cases h
    · refine keeps_doChildren fun m hm => ?_
      cases List.mem_singleton.mp hm
      exact hi.keeps
  · intro h
    obtain ⟨⟨hbound, hbinds⟩, hproper, hwrites⟩ := h.proper
    obtain ⟨hdomain, hfoldable, hfoldables⟩ := h.foldable
    have hw : i.getWidth ≤ 64 := h.typed.2.2 ▸ hdomain
    unfold visitExpr
    rw [if_neg fun hno => Bool.noConfusion hno.1]
    refine .bind (hi.yields ⟨h.typed.2.1, hproper, hfoldable⟩) ?_
    change Yields _ (if i.getWidth ≤ 64 then _ else _) _
    rw [if_pos hw, bits_toNat, toUnsigned, Nat.mod_eq_of_lt (hbound.trans hbinds.size)]
    exact hus.yields a _ ⟨h.typed.1, hwrites, hfoldables, hdomain, hbound, hbinds⟩

/-- Every visit keeps the cache sound, and gives the value of what is fit. -/
theorem evaluates (b : Bindings) (e : Expr) : Evaluates b e := by
  induction e using Expr.rec (motive_2 := EvaluatesWrites b) with
  | constant w v =>
    refine ⟨.pure _, fun _ => ?_⟩
    rw [result_constant rfl]
    exact .pure _
  | notOptimized e ih => exact evaluates_notOptimized ih
  | read a us i hus hi => exact evaluates_read hus hi
  | select c t f hc ht hf =>
    refine evaluates_of_kids rfl rfl (by simp) rfl (by simp) (by simp [Expr.kids, hc, ht, hf]) fun h => ?_
    simp only [Expr.kids, List.forall_mem_cons]
    exact ⟨⟨h.typed.1, h.proper.2.1, h.foldable.2.1⟩,
      ⟨h.typed.2.1, h.proper.2.2.1, h.foldable.2.2.1⟩,
      ⟨h.typed.2.2.1, h.proper.2.2.2, h.foldable.2.2.2⟩, List.forall_mem_nil _⟩
  | concat l r hl hr =>
    refine evaluates_of_kids rfl rfl (by simp) rfl (by simp) (by simp [Expr.kids, hl, hr]) fun h => ?_
    simp only [Expr.kids, List.forall_mem_cons]
    exact ⟨⟨h.typed.1, h.proper.2.1, h.foldable.2.1⟩,
      ⟨h.typed.2, h.proper.2.2, h.foldable.2.2⟩, List.forall_mem_nil _⟩
  | extract e off w ih | zext e w ih | sext e w ih =>
    refine evaluates_of_kids rfl rfl (by simp) rfl (by simp) (by simp [Expr.kids, ih]) fun h => ?_
    simp only [Expr.kids, List.forall_mem_cons]
    exact ⟨⟨h.typed.1, h.proper.2, h.foldable.2⟩, List.forall_mem_nil _⟩
  | not e ih =>
    refine evaluates_of_kids rfl rfl (by simp) rfl (by simp) (by simp [Expr.kids, ih]) fun h => ?_
    simp only [Expr.kids, List.forall_mem_cons]
    exact ⟨⟨h.typed, h.proper.2, h.foldable.2⟩, List.forall_mem_nil _⟩
  | binary k l r hl hr =>
    by_cases hk : k.isDivision = true
    · exact evaluates_division hk hl hr
    · have hno : k.isDivision = false := Bool.eq_false_of_not_eq_true hk
      refine evaluates_of_kids ?_ rfl (by simp) rfl ?_ (by simp [Expr.kids, hl, hr]) fun h => ?_
      · rw [visit, if_neg hk]
        rfl
      · intro k' l' r' he
        cases he
        exact hno
      · simp only [Expr.kids, List.forall_mem_cons]
        exact ⟨⟨h.typed.1, h.proper.2.1, h.foldable.2.1⟩,
          ⟨h.typed.2.1, h.proper.2.2, h.foldable.2.2⟩, List.forall_mem_nil _⟩
  | nil => exact evaluatesWrites_nil
  | cons i v next hi hv hnext => exact evaluatesWrites_cons hi hv hnext

theorem Cached.sound {visited : Visited} (h : Cached b visited) : Sound b visited := by
  induction h with
  | start => exact fun p hp => absurd hp List.not_mem_nil
  | visit _ hv ih => exact (evaluates b _).keeps ih hv

/-- The expression evaluates to its value, as a constant of its width, whatever the visitor was
given before. -/
def GivesValue (b : Bindings) (e : Expr) : Prop :=
  ∀ visited, Cached b visited →
    ∃ visited', visit b e visited = some (const (e.value b.assignment) e.getWidth, visited')

theorem Fit.givesValue (h : Fit b e) : GivesValue b e := by
  intro visited hv
  obtain ⟨visited', hrun, -⟩ := (evaluates b e).yields h hv.sound
  exact ⟨visited', hrun⟩

theorem givesValue_foldable (he : e.WellTyped) (h : e.Meets b.assignment (GivesValue b)) :
    e.Foldable := by
  cases e with
  | notOptimized src =>
    by_contra hc
    obtain ⟨visited', hrun⟩ := h.1 [] .start
    have hsrc : src.isConstant = true := Bool.eq_true_of_not_eq_false hc
    have hkeep : visit b (.notOptimized src) [] =
        some (.notOptimized src, [(.notOptimized src, .notOptimized src)]) := by
      unfold visit visitExpr
      rw [if_pos (by simp [Expr.kids, isRead, hsrc])]
      rfl
    cases hkeep.symm.trans hrun
  | read a us i =>
    by_contra hd
    obtain ⟨visited₁, hindex⟩ := h.2.1.self [] .start
    obtain ⟨visited', hrun⟩ := h.1 [] .start
    have hw : ¬ i.getWidth ≤ 64 := he.2.2.symm ▸ hd
    have hnone : visit b (.read a us i) [] = none := by
      unfold visit visitExpr
      rw [if_neg fun hno => Bool.noConfusion hno.1]
      unfold remember
      change ((visit b i [] >>= _ : Option _) >>= _ : Option _) = none
      rw [hindex]
      change ((if i.getWidth ≤ 64 then _ else failure : Visit Expr) visited₁ >>= _ :
        Option _) = none
      rw [if_neg hw]
      rfl
    cases hnone.symm.trans hrun
  | _ => trivial

/-- With reads in bounds, of arrays that have their contents, and no divisor zero: an expression
and all that its evaluation comes to evaluate to their values exactly where no constant is hidden
behind `NotOptimized` and arrays are indexed by at most 64 bits. -/
theorem evaluate_iff (b : Bindings) (e : Expr) (he : e.WellTyped)
    (hp : e.Meets b.assignment b.Proper) :
    e.Meets b.assignment (GivesValue b) ↔ e.Meets b.assignment Foldable := by
  constructor
  · intro h
    exact .imp (fun e he h _ => givesValue_foldable he h) he h h
  · intro h
    exact .imp (fun e he hp hf => Fit.givesValue ⟨he, hp, hf⟩) he hp h

/-- Two bytes, of which the first is read. -/
def twoBytes : Array := { name := "k", size := 2 }

def sevenNine : Bindings := ⟨false, fun a => if a = twoBytes then some [7, 9] else none⟩

/-- The first byte and three more. -/
def firstPlusThree : Expr := .binary .add (const 3 8) (.read twoBytes .nil (const 0 32))

theorem evaluate_iff_sum : firstPlusThree.Meets sevenNine.assignment (GivesValue sevenNine) ↔
    firstPlusThree.Meets sevenNine.assignment Foldable := by
  refine evaluate_iff sevenNine firstPlusThree ⟨trivial, ⟨trivial, trivial, rfl⟩, rfl⟩ ?_
  have hread : sevenNine.Proper (.read twoBytes .nil (const 0 32)) :=
    ⟨by decide, by decide, nofun, fun _ => ⟨[7, 9], rfl, rfl⟩⟩
  exact ⟨nofun, trivial, hread, trivial, trivial⟩

/-- A constant behind `NotOptimized` stays there. -/
theorem hidden_constant :
    ¬ ∀ b e, e.WellTyped → e.Meets b.assignment b.Proper → GivesValue b e := by
  intro hall
  obtain ⟨visited', hrun⟩ :=
    hall sevenNine (.notOptimized (const 5 8)) trivial ⟨trivial, trivial⟩ [] .start
  cases hrun

end

end ExprEvaluator

end Encider
