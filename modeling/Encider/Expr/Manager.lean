import Encider.Expr.Constraint
import Encider.Expr.Reduce
import Encider.Lib.Fold

/-! `ConstraintManager`: the path constraints of a state, in which what an equality says of an
expression takes the place of the expression, with the option `rewrite-equalities` at its
default (on). -/

namespace Encider

open Encider.Expr

/-- `ExprReplaceVisitor`. -/
def replaceVisitor (src dst : Expr) : ExprVisitor where
  visitExpr e := if e = src then some dst else none
  visitExprPost e := if e = src then some dst else none
  recursive := false

/-- `ExprReplaceVisitor2`. -/
def replaceVisitor2 (replacements : List (Expr × Expr)) : ExprVisitor where
  visitExpr _ := none
  visitExprPost e := Visited.find replacements e
  recursive := true

namespace ConstraintManager

/-- What a constraint says of one expression: the right side of an equality with a constant is the
constant, and any other constraint is true. -/
def equality : Expr → Expr × Expr
  | .binary .eq l r => if l.isConstant then (r, l) else (.binary .eq l r, const 1 1)
  | e => (e, const 1 1)

def simplifyExpr (n : Nat) (constraints : List Expr) (e : Expr) : Option Expr :=
  if e.isConstant then some e
  else ((replaceVisitor2 (constraints.map equality)).visit n e []).map Prod.fst

/-- One turn of the loop of `rewriteConstraints`, on the constraints so far and what the visitor
remembers. -/
def rewriteConstraint (n : Nat) (addConstraintInternal : List Expr → Expr → Option (List Expr))
    (v : ExprVisitor) (s : List Expr × Visited) (ce : Expr) : Option (List Expr × Visited) := do
  let (e, visited) ← v.visit n ce s.2
  (if e = ce then some (s.1 ++ [ce]) else addConstraintInternal s.1 e).map (·, visited)

def rewriteConstraints (n : Nat) (addConstraintInternal : List Expr → Expr → Option (List Expr))
    (v : ExprVisitor) (old : List Expr) : Option (List Expr) :=
  (old.foldlM (rewriteConstraint n addConstraintInternal v) ([], [])).map Prod.fst

/-- `addConstraintInternal`, to a depth; `none` is a failed assertion, that the constraint is
invalid among them, or a call that goes deeper. -/
def addConstraintInternal : Nat → List Expr → Expr → Option (List Expr)
  | 0, _, _ => none
  | n + 1, constraints, e =>
    match e with
    | .constant w c => if w = 1 ∧ c.toNat = 1 then some constraints else none
    | .binary .and l r => do
      let constraints ← addConstraintInternal n constraints l
      addConstraintInternal n constraints r
    | .binary .eq l r =>
      if l.isConstant then do
        let constraints ← rewriteConstraints n (addConstraintInternal n) (replaceVisitor r l)
          constraints
        return constraints ++ [e]
      else some (constraints ++ [e])
    | e => some (constraints ++ [e])

def addConstraint (n : Nat) (constraints : List Expr) (e : Expr) : Option (List Expr) := do
  let e ← simplifyExpr n constraints e
  addConstraintInternal n constraints e

/-- The constraints once the expressions are added to none. -/
def addConstraints (n : Nat) (added : List Expr) : Option (List Expr) :=
  added.foldlM (addConstraint n) []

end ConstraintManager

section
variable {n m : Nat} {cs ds : List Expr} {e r : Expr}

namespace ConstraintManager

theorem simplifyExpr_mono (hnm : n ≤ m) (h : simplifyExpr n cs e = some r) :
    simplifyExpr m cs e = some r := by
  unfold simplifyExpr at *
  split
  · rwa [if_pos ‹_›] at h
  · rw [if_neg ‹_›] at h
    obtain ⟨x, hx, hr⟩ := Option.map_eq_some_iff.mp h
    exact Option.map_eq_some_iff.mpr ⟨x, ExprVisitor.visit_mono hnm hx, hr⟩

theorem rewriteConstraint_mono (hnm : n ≤ m) {f g : List Expr → Expr → Option (List Expr)}
    (hfg : ∀ {cs e ds}, f cs e = some ds → g cs e = some ds) {v : ExprVisitor}
    {s t : List Expr × Visited} (h : rewriteConstraint n f v s e = some t) :
    rewriteConstraint m g v s e = some t := by
  obtain ⟨⟨r, visited⟩, hvisit, hrest⟩ := Option.bind_eq_some_iff.mp h
  obtain ⟨ds, hds, hdone⟩ := Option.map_eq_some_iff.mp hrest
  refine Option.bind_eq_some_iff.mpr ⟨_, ExprVisitor.visit_mono hnm hvisit,
    Option.map_eq_some_iff.mpr ⟨ds, ?_, hdone⟩⟩
  split
  · rwa [if_pos ‹_›] at hds
  · rw [if_neg ‹_›] at hds
    exact hfg hds

theorem addConstraintInternal_mono (hnm : n ≤ m) (h : addConstraintInternal n cs e = some ds) :
    addConstraintInternal m cs e = some ds := by
  induction n generalizing m cs e ds with
  | zero => cases h
  | succ n ih =>
    obtain ⟨m, rfl⟩ := Nat.exists_eq_succ_of_ne_zero (Nat.ne_zero_of_lt hnm)
    have hle := Nat.le_of_succ_le_succ hnm
    unfold addConstraintInternal at h ⊢
    split at h
    · exact h
    · obtain ⟨mid, hl, hr⟩ := Option.bind_eq_some_iff.mp h
      exact Option.bind_eq_some_iff.mpr ⟨mid, ih hle hl, ih hle hr⟩
    · split
      · rw [if_pos ‹_›] at h
        obtain ⟨mid, hmid, hdone⟩ := Option.bind_eq_some_iff.mp h
        obtain ⟨s, hs, hfst⟩ := Option.map_eq_some_iff.mp hmid
        have hdeep := List.foldlM_mono (rewriteConstraint_mono hle (ih hle)) hs
        exact Option.bind_eq_some_iff.mpr
          ⟨mid, Option.map_eq_some_iff.mpr ⟨s, hdeep, hfst⟩, hdone⟩
      · rwa [if_neg ‹_›] at h
    · exact h

theorem addConstraint_mono (hnm : n ≤ m) (h : addConstraint n cs e = some ds) :
    addConstraint m cs e = some ds := by
  obtain ⟨r, hr, hadd⟩ := Option.bind_eq_some_iff.mp h
  exact Option.bind_eq_some_iff.mpr
    ⟨r, simplifyExpr_mono hnm hr, addConstraintInternal_mono hnm hadd⟩

/-- What is added to a depth is added to any greater depth. -/
theorem addConstraints_mono (hnm : n ≤ m) {added : List Expr} (h : addConstraints n added = some ds) :
    addConstraints m added = some ds :=
  List.foldlM_mono (addConstraint_mono hnm) h

end ConstraintManager

end

/-- A boolean that the constraints may hold. -/
def Expr.IsBool (e : Expr) : Prop := e.WellTyped ∧ e.getWidth = 1

def totalWeight (es : List Expr) : Nat := (es.map Expr.weight).sum

/-- Every constraint is defined and true. -/
def Satisfied (σ : Assignment) (cs : List Expr) : Prop := ∀ c ∈ cs, c.Defined σ ∧ c.Holds σ

/-- Some constraint is defined and false. -/
def Refuted (σ : Assignment) (cs : List Expr) : Prop := ∃ c ∈ cs, c.Defined σ ∧ ¬ c.Holds σ

/-- What adding an expression to constraints makes of them. -/
structure Adds (cs : List Expr) (e : Expr) (cs' : List Expr) : Prop where
  bool : ∀ c ∈ cs', c.IsBool
  weight : totalWeight cs' ≤ totalWeight cs + e.weight
  satisfied : ∀ σ, Satisfied σ cs → e.Defined σ → e.Holds σ → Satisfied σ cs'
  refuted : ∀ σ, Refuted σ cs ∨ (e.Defined σ ∧ ¬ e.Holds σ) → Refuted σ cs'

/-- What rewriting constraints makes of them, under the assignments that allow it. -/
structure Rewritten (A : Assignment → Prop) (old cs : List Expr) : Prop where
  bool : ∀ c ∈ cs, c.IsBool
  weight : totalWeight cs ≤ totalWeight old
  satisfied : ∀ σ, A σ → Satisfied σ old → Satisfied σ cs
  refuted : ∀ σ, A σ → Refuted σ old → Refuted σ cs

section
variable {A : Assignment → Prop} {σ : Assignment} {cs ds old : List Expr} {e l r : Expr}

theorem totalWeight_snoc (cs : List Expr) (e : Expr) :
    totalWeight (cs ++ [e]) = totalWeight cs + e.weight := by
  simp [totalWeight]

theorem forall_mem_snoc {p : Expr → Prop} : (∀ c ∈ cs ++ [e], p c) ↔ (∀ c ∈ cs, p c) ∧ p e := by
  rw [List.forall_mem_append, List.forall_mem_singleton]

theorem satisfied_snoc : Satisfied σ (cs ++ [e]) ↔ Satisfied σ cs ∧ e.Defined σ ∧ e.Holds σ :=
  forall_mem_snoc

theorem refuted_snoc :
    Refuted σ (cs ++ [e]) ↔ Refuted σ cs ∨ (e.Defined σ ∧ ¬ e.Holds σ) := by
  simp [Refuted, or_and_right, exists_or]

theorem Adds.push (hcs : ∀ c ∈ cs, c.IsBool) (he : e.IsBool) : Adds cs e (cs ++ [e]) where
  bool := forall_mem_snoc.mpr ⟨hcs, he⟩
  weight := (totalWeight_snoc cs e).le
  satisfied _ hs hd hh := satisfied_snoc.mpr ⟨hs, hd, hh⟩
  refuted _ := refuted_snoc.mpr

theorem and_holds_iff (hl : l.getWidth = 1) (hr : r.getWidth = 1) :
    (binary .and l r).Holds σ ↔ l.Holds σ ∧ r.Holds σ := by
  unfold Expr.Holds
  rw [binary_value, hl]
  obtain h1 | h1 := width_one_value (σ := σ) hl <;>
    obtain h2 | h2 := width_one_value (σ := σ) hr <;>
    rw [h1, h2] <;> decide

/-- A conjunction is added by its sides. -/
theorem Adds.and {mid : List Expr} (hl : l.getWidth = 1) (hr : r.getWidth = 1)
    (h : Adds cs l mid) (h' : Adds mid r ds) : Adds cs (binary .and l r) ds where
  bool := h'.bool
  weight := by
    have := h.weight
    have := h'.weight
    rw [Expr.weight]
    omega
  satisfied σ hs hd hh := by
    have hh := (and_holds_iff hl hr).mp hh
    exact h'.satisfied σ (h.satisfied σ hs hd.1 hh.1) hd.2.1 hh.2
  refuted σ hr' := by
    apply h'.refuted σ
    by_cases hmid : Refuted σ mid
    · exact .inl hmid
    · have hnot := mt (h.refuted σ) hmid
      rw [not_or] at hnot
      obtain hcs | ⟨hd, hh⟩ := hr'
      · exact absurd hcs hnot.1
      · rw [and_holds_iff hl hr] at hh
        have hl : l.Holds σ := by
          by_contra hl
          exact hnot.2 ⟨hd.1, hl⟩
        exact .inr ⟨hd.2.1, fun hr => hh ⟨hl, hr⟩⟩

theorem Rewritten.nil (A : Assignment → Prop) : Rewritten A [] [] :=
  ⟨nofun, Nat.le_refl _, fun _ _ => id, fun _ _ => id⟩

theorem Expr.Reduces.isBool (h : e.Reduces A r) (he : e.IsBool) : r.IsBool :=
  ⟨h.typed, h.width.trans he.2⟩

theorem Expr.Reduces.holds_iff (h : e.Reduces A r) (hA : A σ) (hd : e.Defined σ) :
    r.Holds σ ↔ e.Holds σ := by
  unfold Expr.Holds
  rw [h.value σ hA hd]

/-- One more constraint is rewritten, and what it became is added. -/
theorem Rewritten.snoc (h : Rewritten A old cs) (hred : e.Reduces A r) (hadd : Adds cs r ds) :
    Rewritten A (old ++ [e]) ds where
  bool := hadd.bool
  weight := by
    have := h.weight
    have := hadd.weight
    have := hred.weight_le
    rw [totalWeight_snoc]
    omega
  satisfied σ hA hs := by
    obtain ⟨hold, hd, hh⟩ := satisfied_snoc.mp hs
    exact hadd.satisfied σ (h.satisfied σ hA hold) (hred.defined σ hA hd)
      ((hred.holds_iff hA hd).mpr hh)
  refuted σ hA hr := by
    apply hadd.refuted σ
    obtain hold | ⟨hd, hh⟩ := refuted_snoc.mp hr
    · exact .inl (h.refuted σ hA hold)
    · exact .inr ⟨hred.defined σ hA hd, mt (hred.holds_iff hA hd).mp hh⟩

/-- An expression is added after the constraints are rewritten under the assignments that do not
make it false. -/
theorem Rewritten.push (h : Rewritten (fun σ => e.Defined σ → e.Holds σ) old cs) (he : e.IsBool) :
    Adds old e (cs ++ [e]) where
  bool := forall_mem_snoc.mpr ⟨h.bool, he⟩
  weight := by
    rw [totalWeight_snoc]
    exact Nat.add_le_add_right h.weight _
  satisfied σ hs hd hh := satisfied_snoc.mpr ⟨h.satisfied σ (fun _ => hh) hs, hd, hh⟩
  refuted σ hr := by
    rw [refuted_snoc]
    by_cases hA : e.Defined σ → e.Holds σ
    · obtain hr | ⟨hd, hh⟩ := hr
      · exact .inl (h.refuted σ hA hr)
      · exact absurd (hA hd) hh
    · push Not at hA
      exact .inr hA

end

section
variable {A : Assignment → Prop} {σ : Assignment} {cs ds old : List Expr} {e l r : Expr} {n : Nat}

theorem replaceVisitor_within (hr : r.WellTyped) (hc : r.isConstant = true)
    (hw : r.getWidth = e.getWidth) (hv : ∀ σ, A σ → e.Defined σ → r.value σ = e.value σ) :
    (replaceVisitor e r).Within (Rewrites A) := by
  have hreplace : ∀ {a b : Expr}, a.isConstant = false →
      (if a = e then some r else none) = some b → Rewrites A a b := by
    intro a b ha hab _
    split at hab
    · rename_i heq
      cases heq
      cases hab
      exact .constant hr hc ha hw hv
    · cases hab
  exact ExprVisitor.within_rewrites hreplace hreplace

/-- The right side of a true equality has the value of the left one. -/
theorem equality_within (he : (binary .eq l r).IsBool) (hl : l.isConstant = true) :
    (replaceVisitor r l).Within
      (Rewrites fun σ => (binary .eq l r).Defined σ → (binary .eq l r).Holds σ) := by
  obtain ⟨⟨hlt, -, hw⟩, -⟩ := he
  apply replaceVisitor_within hlt hl hw
  intro σ hA hr
  cases l with
  | constant w v => exact (eq_value_iff hw).mp (hA ⟨trivial, hr, nofun, nofun⟩)
  | _ => cases hl

namespace ConstraintManager

/-- What the loop of `rewriteConstraints` keeps. -/
def Loop (A : Assignment → Prop) (done : List Expr) (s : List Expr × Visited) : Prop :=
  Rewritten A done s.1 ∧ s.2.Within (Rewrites A)

theorem rewriteConstraint_loop {v : ExprVisitor} (hv : v.Within (Rewrites A))
    {add : List Expr → Expr → Option (List Expr)}
    (hadd : ∀ {cs e ds}, add cs e = some ds → (∀ c ∈ cs, c.IsBool) → e.IsBool → Adds cs e ds)
    {s t : List Expr × Visited} (he : e.IsBool) (hs : Loop A old s)
    (hrun : rewriteConstraint n add v s e = some t) : Loop A (old ++ [e]) t := by
  obtain ⟨⟨r, visited⟩, hvisit, hrest⟩ := Option.bind_eq_some_iff.mp hrun
  obtain ⟨cs, hcs, rfl⟩ := Option.map_eq_some_iff.mp hrest
  obtain ⟨hrel, hvisited⟩ := hv.visit hvisit hs.2
  have hred := hrel he.1
  refine ⟨?_, hvisited⟩
  split at hcs
  · cases hcs
    exact hs.1.snoc (.refl he.1) (.push hs.1.bool he)
  · exact hs.1.snoc hred (hadd hcs hs.1.bool (hred.isBool he))

theorem addConstraintInternal_adds (hcs : ∀ c ∈ cs, c.IsBool) (he : e.IsBool)
    (hrun : addConstraintInternal n cs e = some ds) : Adds cs e ds := by
  induction n generalizing cs e ds with
  | zero => cases hrun
  | succ n ih =>
    unfold addConstraintInternal at hrun
    split at hrun
    · rename_i w c
      split at hrun
      · rename_i hc
        cases hrun
        have hh : ∀ σ, (constant w c).Holds σ := fun σ => (constant_value σ c).trans hc.2
        refine ⟨hcs, Nat.le_add_right _ _, fun _ hs _ _ => hs, ?_⟩
        intro σ hr
        exact hr.resolve_right fun hf => hf.2 (hh σ)
      · cases hrun
    · rename_i l r
      obtain ⟨mid, hl, hr⟩ := Option.bind_eq_some_iff.mp hrun
      obtain ⟨⟨hlt, hrt, hw⟩, hlw⟩ := he
      have hadd := ih hcs ⟨hlt, hlw⟩ hl
      exact .and hlw (hw.symm.trans hlw) hadd (ih hadd.bool ⟨hrt, hw.symm.trans hlw⟩ hr)
    · rename_i l r
      split at hrun
      · rename_i hl
        obtain ⟨mid, hmid, hdone⟩ := Option.bind_eq_some_iff.mp hrun
        cases hdone
        obtain ⟨s, hs, rfl⟩ := Option.map_eq_some_iff.mp hmid
        have hv := equality_within he hl
        have hloop : Loop _ cs s := List.foldlM_inv (Loop _) hs ⟨.nil _, nofun⟩ fun pre x s t hx =>
          rewriteConstraint_loop hv (fun hrun hcs he => ih hcs he hrun) (hcs x hx)
        exact hloop.1.push he
      · cases hrun
        exact .push hcs he
    · cases hrun
      exact .push hcs he

theorem rewriteConstraint_returns {v : ExprVisitor} (hv : v.Within (Rewrites A)) (hA : A σ)
    {add : List Expr → Expr → Option (List Expr)}
    (hadd : ∀ {cs e}, (∀ c ∈ cs, c.IsBool) → e.IsBool → Satisfied σ cs → e.Defined σ → e.Holds σ →
      totalWeight cs + e.weight < n → ∃ ds, add cs e = some ds)
    {s : List Expr × Visited} (he : e.IsBool) (hd : e.Defined σ) (hh : e.Holds σ)
    (hs : Loop A old s) (hold : Satisfied σ old) (hn : totalWeight old + e.weight < n) :
    ∃ t, rewriteConstraint n add v s e = some t := by
  have hlt : e.weight < n := by omega
  obtain ⟨r, visited, hvisit⟩ := hv.returns hA he.1 hd hlt hs.2
  unfold rewriteConstraint
  rw [hvisit, Option.bind_eq_bind, Option.bind_some]
  dsimp only
  split
  · exact ⟨_, rfl⟩
  · have hred := (hv.visit hvisit hs.2).1 he.1
    have hw := hs.1.weight
    have hrw := hred.weight_le
    obtain ⟨ds, hds⟩ := hadd hs.1.bool (hred.isBool he) (hs.1.satisfied σ hA hold)
      (hred.defined σ hA hd) ((hred.holds_iff hA hd).mpr hh) (by omega)
    rw [hds]
    exact ⟨_, rfl⟩

theorem totalWeight_cons (e : Expr) (cs : List Expr) :
    totalWeight (e :: cs) = e.weight + totalWeight cs := by
  simp [totalWeight]

theorem totalWeight_append (cs ds : List Expr) :
    totalWeight (cs ++ ds) = totalWeight cs + totalWeight ds := by
  simp [totalWeight]

/-- Beyond the weight of all there is, a constraint that one assignment satisfies together with
those there are is added. -/
theorem addConstraintInternal_returns (hcs : ∀ c ∈ cs, c.IsBool) (he : e.IsBool)
    (hs : Satisfied σ cs) (hd : e.Defined σ) (hh : e.Holds σ)
    (hn : totalWeight cs + e.weight < n) : ∃ ds, addConstraintInternal n cs e = some ds := by
  induction n generalizing cs e with
  | zero => omega
  | succ n ih =>
    unfold addConstraintInternal
    split
    · rename_i w c
      exact ⟨cs, if_pos ⟨he.2, (constant_value σ c).symm.trans hh⟩⟩
    · rename_i l r
      obtain ⟨⟨hlt, hrt, hw⟩, hlw⟩ := he
      have hlw : l.getWidth = 1 := hlw
      have hrw := hw.symm.trans hlw
      have hsides := (and_holds_iff hlw hrw).mp hh
      have hpos := BinaryKind.and.weight_pos
      rw [Expr.weight] at hn
      obtain ⟨mid, hmid⟩ := ih hcs ⟨hlt, hlw⟩ hs hd.1 hsides.1 (by omega)
      have hadd := addConstraintInternal_adds hcs ⟨hlt, hlw⟩ hmid
      have hweight := hadd.weight
      rw [hmid, Option.bind_eq_bind, Option.bind_some]
      exact ih hadd.bool ⟨hrt, hrw⟩ (hadd.satisfied σ hs hd.1 hsides.1) hd.2.1 hsides.2 (by omega)
    · rename_i l r
      split
      · rename_i hl
        have hv := equality_within he hl
        have hpos := (binary .eq l r).weight_pos
        let A := fun σ => (binary .eq l r).Defined σ → (binary .eq l r).Holds σ
        have hrun : ∃ t, cs.foldlM (rewriteConstraint n (addConstraintInternal n)
            (replaceVisitor r l)) ([], []) = some t ∧ Loop A cs t := by
          refine List.foldlM_rule (Loop A) ⟨.nil _, by simp [Visited.Within]⟩ ?_
          intro pre x post s hsplit hloop
          have hx : x ∈ cs := hsplit ▸ List.mem_append_right pre List.mem_cons_self
          have hpre : Satisfied σ pre := fun c hc => hs c (hsplit ▸ List.mem_append_left _ hc)
          have hweight : totalWeight pre + x.weight ≤ totalWeight cs := by
            rw [hsplit, totalWeight_append, totalWeight_cons]
            omega
          obtain ⟨t, ht⟩ := rewriteConstraint_returns hv (fun _ => hh) ih (hcs x hx) (hs x hx).1
            (hs x hx).2 hloop hpre (by omega)
          exact ⟨t, ht, rewriteConstraint_loop hv
            (fun hrun hcs he => addConstraintInternal_adds hcs he hrun) (hcs x hx) hloop ht⟩
        obtain ⟨t, ht, -⟩ := hrun
        unfold rewriteConstraints
        rw [ht]
        exact ⟨_, rfl⟩
      · exact ⟨_, rfl⟩
    · exact ⟨_, rfl⟩

theorem equality_spec {a b : Expr} (he : e.IsBool) (h : equality e = (a, b)) :
    b.WellTyped ∧ b.isConstant = true ∧ b.getWidth = a.getWidth ∧
      ∀ σ, e.Holds σ → b.value σ = a.value σ := by
  have htrue : ∀ {e : Expr}, e.IsBool → (const 1 1).WellTyped ∧ (const 1 1).isConstant = true ∧
      (const 1 1).getWidth = e.getWidth ∧ ∀ σ, e.Holds σ → (const 1 1).value σ = e.value σ := by
    intro e he
    refine ⟨trivial, rfl, he.2.symm, ?_⟩
    intro σ hh
    rw [const_value]
    exact hh.symm
  unfold equality at h
  split at h
  · split at h
    · rename_i hl
      cases h
      exact ⟨he.1.1, hl, he.1.2.2, fun σ hh => (eq_value_iff he.1.2.2).mp hh⟩
    · cases h
      exact htrue he
  · cases h
    exact htrue he

theorem equalities_within (hcs : ∀ c ∈ cs, c.IsBool) :
    (replaceVisitor2 (cs.map equality)).Within (Rewrites fun σ => ∀ c ∈ cs, c.Holds σ) := by
  refine ExprVisitor.within_rewrites (fun _ h => nomatch h) ?_
  intro a b ha hab _
  obtain ⟨c, hc, heq⟩ := List.mem_map.mp (Visited.mem_of_find hab)
  obtain ⟨hb, hconst, hw, hv⟩ := equality_spec (hcs c hc) heq
  exact .constant hb hconst ha hw fun σ hA _ => hv σ (hA c hc)

/-- Simplification keeps the value under every assignment that satisfies the constraints. -/
theorem simplifyExpr_reduces (hcs : ∀ c ∈ cs, c.IsBool) (he : e.WellTyped)
    (hrun : simplifyExpr n cs e = some r) : e.Reduces (fun σ => ∀ c ∈ cs, c.Holds σ) r := by
  unfold simplifyExpr at hrun
  split at hrun
  · cases hrun
    exact .refl he
  · obtain ⟨⟨r, visited⟩, hvisit, rfl⟩ := Option.map_eq_some_iff.mp hrun
    exact ((equalities_within hcs).visit hvisit (List.forall_mem_nil _)).1 he

theorem simplifyExpr_returns (hcs : ∀ c ∈ cs, c.IsBool) (hs : ∀ c ∈ cs, c.Holds σ)
    (he : e.WellTyped) (hd : e.Defined σ) (hn : e.weight < n) :
    ∃ r, simplifyExpr n cs e = some r := by
  unfold simplifyExpr
  split
  · exact ⟨e, rfl⟩
  · obtain ⟨r, visited, hvisit⟩ := (equalities_within hcs).returns hs he hd hn (List.forall_mem_nil _)
    rw [hvisit]
    exact ⟨r, rfl⟩

/-- The constraints stand for the expressions that were added. -/
structure Stands (added cs : List Expr) : Prop where
  bool : ∀ c ∈ cs, c.IsBool
  weight : totalWeight cs ≤ totalWeight added
  satisfied : ∀ σ, Satisfied σ added → Satisfied σ cs
  refuted : ∀ σ, (∀ e ∈ added, e.Defined σ) → Refuted σ added → Refuted σ cs

theorem addConstraint_stands {added : List Expr} (h : Stands added cs) (he : e.IsBool)
    (hrun : addConstraint n cs e = some ds) : Stands (added ++ [e]) ds := by
  obtain ⟨r, hr, hadd⟩ := Option.bind_eq_some_iff.mp hrun
  have hred := simplifyExpr_reduces h.bool he.1 hr
  have hadds := addConstraintInternal_adds h.bool (hred.isBool he) hadd
  have hholds : ∀ σ, Satisfied σ added → ∀ c ∈ cs, c.Holds σ := fun σ hs c hc =>
    (h.satisfied σ hs c hc).2
  refine ⟨hadds.bool, ?_, ?_, ?_⟩
  · have hw := h.weight
    have hw' := hadds.weight
    have hle := hred.weight_le
    rw [totalWeight_snoc]
    omega
  · intro σ hs
    obtain ⟨hold, hd, hh⟩ := satisfied_snoc.mp hs
    have hA := hholds σ hold
    exact hadds.satisfied σ (h.satisfied σ hold) (hred.defined σ hA hd)
      ((hred.holds_iff hA hd).mpr hh)
  · intro σ hdef hrefuted
    obtain ⟨hdef, hd⟩ := forall_mem_snoc.mp hdef
    apply hadds.refuted σ
    by_cases hold : Refuted σ added
    · exact .inl (h.refuted σ hdef hold)
    · have hh := ((refuted_snoc.mp hrefuted).resolve_left hold).2
      have hA : ∀ c ∈ cs, c.Holds σ := by
        apply hholds
        intro c hc
        refine ⟨hdef c hc, ?_⟩
        by_contra hnot
        exact hold ⟨c, hc, hdef c hc, hnot⟩
      exact .inr ⟨hred.defined σ hA hd, mt (hred.holds_iff hA hd).mp hh⟩

theorem addConstraint_returns {added : List Expr} (h : Stands added cs) (hs : Satisfied σ added)
    (he : e.IsBool) (hd : e.Defined σ) (hh : e.Holds σ)
    (hn : totalWeight added + e.weight < n) : ∃ ds, addConstraint n cs e = some ds := by
  have hA : ∀ c ∈ cs, c.Holds σ := fun c hc => (h.satisfied σ hs c hc).2
  have hlt : e.weight < n := by omega
  obtain ⟨r, hr⟩ := simplifyExpr_returns h.bool hA he.1 hd hlt
  have hred := simplifyExpr_reduces h.bool he.1 hr
  have hw := h.weight
  have hle := hred.weight_le
  unfold addConstraint
  rw [hr, Option.bind_eq_bind, Option.bind_some]
  exact addConstraintInternal_returns h.bool (hred.isBool he) (h.satisfied σ hs)
    (hred.defined σ hA hd) ((hred.holds_iff hA hd).mpr hh) (by omega)

/-- Expressions that one assignment satisfies are added, and the constraints stand for them. -/
theorem addConstraints_stands {added : List Expr} (hadded : ∀ e ∈ added, e.IsBool)
    (hs : Satisfied σ added) (hn : totalWeight added < n) :
    ∃ cs, addConstraints n added = some cs ∧ Stands added cs := by
  refine List.foldlM_rule Stands ⟨nofun, Nat.le_refl _, fun _ => id, fun _ _ => id⟩ ?_
  intro pre e post cs hsplit hstands
  have he : e ∈ added := hsplit ▸ List.mem_append_right pre List.mem_cons_self
  have hpre : Satisfied σ pre := fun c hc => hs c (hsplit ▸ List.mem_append_left _ hc)
  have hweight : totalWeight pre + e.weight ≤ totalWeight added := by
    rw [hsplit, totalWeight_append, totalWeight_cons]
    omega
  have hlt : totalWeight pre + e.weight < n := by omega
  obtain ⟨ds, hds⟩ := addConstraint_returns hstands hpre (hadded e he) (hs e he).1 (hs e he).2
    hlt
  exact ⟨ds, hds, addConstraint_stands hstands (hadded e he) hds⟩

end ConstraintManager

end

/-- No boolean is shifted arithmetically. -/
def Expr.NoBooleanAShr (e : Expr) : Prop := e.All fun k l _ => k = .ashr → l.getWidth ≠ 1

theorem Expr.defined_of {σ : Assignment} {e : Expr} (hs : e.NoBooleanAShr)
    (hz : e.NoZeroDivisor σ) : e.Defined σ := by
  unfold Expr.NoBooleanAShr Expr.Defined at *
  induction e using Expr.rec (motive_2 := fun us =>
    us.All (fun k l _ => k = .ashr → l.getWidth ≠ 1) → us.NoZeroDivisor σ →
      us.All (BinaryKind.Defined σ)) with
  | _ => simp_all [Expr.All, UpdateList.All, Expr.NoZeroDivisor, UpdateList.NoZeroDivisor,
      BinaryKind.Defined]

namespace ConstraintManager

/-- The constraints that the expressions are. -/
def exprs (added : List Constraint) : List Expr := added.map Subtype.val

/-- Expressions without arithmetic shifts of booleans, which some assignment satisfies without a
zero divisor, are added to any depth beyond some one. The constraints are then equivalent to them,
and what an expression is simplified to has its value wherever the constraints hold. -/
theorem addConstraints_equivalent {added : List Constraint}
    (hshift : ∀ e ∈ added, e.val.NoBooleanAShr)
    (hsat : ∃ σ, ∀ e ∈ added, e.val.NoZeroDivisor σ ∧ e.Holds σ) :
    ∃ cs N, (∀ n ≥ N, addConstraints n (exprs added) = some cs) ∧
      (∀ σ, (∀ e ∈ added, e.val.NoZeroDivisor σ) →
        ((∀ c ∈ cs, c.Holds σ) ↔ ∀ e ∈ added, e.Holds σ)) ∧
      ∀ e : Expr, e.WellTyped → e.NoBooleanAShr →
        (∃ σ, (∀ c ∈ cs, c.Holds σ) ∧ e.NoZeroDivisor σ) →
        ∃ r M, (∀ m ≥ M, simplifyExpr m cs e = some r) ∧ r.getWidth = e.getWidth ∧
          ∀ σ, (∀ c ∈ cs, c.Holds σ) → e.NoZeroDivisor σ → r.value σ = e.value σ := by
  obtain ⟨τ, hτ⟩ := hsat
  have hmem : ∀ {p : Expr → Prop}, (∀ e ∈ exprs added, p e) ↔ ∀ e ∈ added, p e.val := by
    intro p
    exact List.forall_mem_map
  have hdefined : ∀ {σ}, (∀ e ∈ added, e.val.NoZeroDivisor σ) →
      ∀ e ∈ exprs added, e.Defined σ := fun hz =>
    hmem.mpr fun e he => Expr.defined_of (hshift e he) (hz e he)
  have hsat : Satisfied τ (exprs added) := hmem.mpr fun e he =>
    ⟨Expr.defined_of (hshift e he) (hτ e he).1, (hτ e he).2⟩
  obtain ⟨cs, hrun, hstands⟩ := addConstraints_stands (hmem.mpr fun e _ => e.2) hsat
    (Nat.lt_succ_self _)
  refine ⟨cs, _, fun n hn => addConstraints_mono hn hrun, ?_, ?_⟩
  · intro σ hz
    have hd := hdefined hz
    constructor
    · intro hcs e he
      by_contra hnot
      have hin : e.val ∈ exprs added := List.mem_map_of_mem he
      obtain ⟨c, hc, -, hfalse⟩ := hstands.refuted σ hd ⟨e.val, hin, hd _ hin, hnot⟩
      exact hfalse (hcs c hc)
    · intro hh c hc
      have hadded : ∀ e ∈ exprs added, e.Holds σ := hmem.mpr hh
      exact (hstands.satisfied σ (fun e he => ⟨hd e he, hadded e he⟩) c hc).2
  · intro e he hs ⟨σ, hcs, hz⟩
    obtain ⟨r, hr⟩ := simplifyExpr_returns hstands.bool hcs he (Expr.defined_of hs hz)
      (Nat.lt_succ_self _)
    have hred := simplifyExpr_reduces hstands.bool he hr
    refine ⟨r, _, fun m hm => simplifyExpr_mono hm hr, hred.width, ?_⟩
    intro σ hcs hz
    exact hred.value σ hcs (Expr.defined_of hs hz)

open ConstructorCall (inputByte inputByte_typed flag)

/-- The input byte is below 5, and it is 3. -/
def threeByte : List Constraint :=
  [⟨.binary .ult inputByte (const 5 8), ⟨inputByte_typed, trivial, rfl⟩, rfl⟩,
    ⟨.binary .eq (const 3 8) inputByte, ⟨trivial, inputByte_typed, rfl⟩, rfl⟩]

theorem threeByte_equivalent : ∃ cs N, (∀ n ≥ N, addConstraints n (exprs threeByte) = some cs) ∧
    (∀ σ, (∀ e ∈ threeByte, e.val.NoZeroDivisor σ) →
      ((∀ c ∈ cs, c.Holds σ) ↔ ∀ e ∈ threeByte, e.Holds σ)) ∧
    ∀ e : Expr, e.WellTyped → e.NoBooleanAShr →
      (∃ σ, (∀ c ∈ cs, c.Holds σ) ∧ e.NoZeroDivisor σ) →
      ∃ r M, (∀ m ≥ M, simplifyExpr m cs e = some r) ∧ r.getWidth = e.getWidth ∧
        ∀ σ, (∀ c ∈ cs, c.Holds σ) → e.NoZeroDivisor σ → r.value σ = e.value σ := by
  refine addConstraints_equivalent ?_ ⟨fun a _ => BitVec.ofNat a.range 3, ?_⟩
  · intro e he
    obtain rfl | rfl := List.mem_pair.mp he
    · exact ⟨⟨trivial, trivial⟩, trivial, nofun⟩
    · exact ⟨trivial, ⟨trivial, trivial⟩, nofun⟩
  · intro e he
    obtain rfl | rfl := List.mem_pair.mp he
    · exact ⟨⟨⟨trivial, trivial⟩, trivial, nofun⟩, rfl⟩
    · exact ⟨⟨trivial, ⟨trivial, trivial⟩, nofun⟩, rfl⟩

/-- The next flag: bit 1 of the input byte. -/
def nextFlag : Expr := .extract inputByte 1 1

/-- The next flag is set, and the flag shifted arithmetically by it is not. -/
def shiftedFlag : List Constraint :=
  have hflag : ∀ off, off < 8 → (Expr.extract inputByte off 1).WellTyped := fun _ h =>
    ⟨inputByte_typed, Nat.one_pos, h⟩
  [⟨nextFlag, hflag 1 (by decide), rfl⟩,
    ⟨.binary .eq (const 0 1) (.binary .ashr flag nextFlag),
      ⟨trivial, ⟨hflag 0 (by decide), hflag 1 (by decide), rfl⟩, rfl⟩, rfl⟩]

/-- Once the next flag is true, the shift is rebuilt, and becomes the flag. -/
theorem shiftedFlag_lost :
    (∀ n ≥ 8, addConstraints n (exprs shiftedFlag) =
      some [nextFlag, .binary .eq (const 0 1) flag]) ∧
    ∃ σ, (∀ e ∈ shiftedFlag, e.val.NoZeroDivisor σ ∧ e.Holds σ) ∧
      ¬ (Expr.binary .eq (const 0 1) flag).Holds σ := by
  refine ⟨fun n hn => addConstraints_mono hn rfl, fun a _ => BitVec.ofNat a.range 3, ?_, nofun⟩
  intro e he
  obtain rfl | rfl := List.mem_pair.mp he
  · exact ⟨⟨trivial, trivial⟩, rfl⟩
  · exact ⟨⟨trivial, ⟨⟨trivial, trivial⟩, ⟨trivial, trivial⟩, nofun⟩, nofun⟩, rfl⟩

end ConstraintManager

end Encider
