import Encider.Expr.Weight

/-! `ExprVisitor`: an expression is rewritten from its kids up, and what it was rewritten to is
remembered. -/

namespace Encider

open Encider.Expr

namespace Expr

/-- The kids of an expression; of a read only its index. -/
def kids : Expr → List Expr
  | constant _ _ => []
  | notOptimized e => [e]
  | read _ _ i => [i]
  | select c t f => [c, t, f]
  | concat l r => [l, r]
  | extract e _ _ => [e]
  | zext e _ => [e]
  | sext e _ => [e]
  | not e => [e]
  | binary _ l r => [l, r]

/-- The expression with other kids; `none` is a failed assertion. -/
def rebuild : Expr → List Expr → Option Expr
  | notOptimized _, [e] => some (.notOptimized e)
  | read a us _, [i] => some (ReadExpr.create a us i)
  | select _ _ _, [c, t, f] => some (SelectExpr.create c t f)
  | concat _ _, [l, r] => some (ConcatExpr.create l r)
  | extract _ off w, [e] => some (ExtractExpr.create e off w)
  | zext _ w, [e] => some (ZExtExpr.create e w)
  | sext _ w, [e] => some (SExtExpr.create e w)
  | not _, [e] => some (NotExpr.create e)
  | binary k _ _, [l, r] => k.create l r
  | _, _ => none

end Expr

/-- What was visited, with what it became. -/
abbrev Visited := List (Expr × Expr)

def Visited.find (visited : Visited) (e : Expr) : Option Expr :=
  (visited.find? fun p => p.1 = e).map Prod.snd

theorem Visited.mem_of_find {visited : Visited} {e r : Expr} (h : visited.find e = some r) :
    (e, r) ∈ visited := by
  obtain ⟨⟨x, y⟩, hp, rfl⟩ := Option.map_eq_some_iff.mp h
  have hx : x = e := by simpa using List.find?_some hp
  exact hx ▸ List.mem_of_find?_eq_some hp

/-- What an expression is changed to, before and after its kids are visited. -/
structure ExprVisitor where
  visitExpr : Expr → Option Expr
  visitExprPost : Expr → Option Expr
  recursive : Bool

namespace ExprVisitor

def visitKids (visit : Expr → Visited → Option (Expr × Visited)) :
    List Expr → Visited → Option (List Expr × Visited)
  | [], visited => some ([], visited)
  | kid :: rest, visited => do
    let (e, visited) ← visit kid visited
    let (es, visited) ← visitKids visit rest visited
    return (e :: es, visited)

/-- The change after the kids, which constants are spared. -/
def post (v : ExprVisitor) (e : Expr) : Expr :=
  if e.isConstant then e else (v.visitExprPost e).getD e

/-- The new kids in place, and with a recursive visitor the result visited again. -/
def rebuildKids (v : ExprVisitor) (visit : Expr → Visited → Option (Expr × Visited)) (e : Expr)
    (kids : List Expr) (visited : Visited) : Option (Expr × Visited) :=
  if kids = e.kids then some (e, visited)
  else do
    let e ← e.rebuild kids
    if v.recursive then visit e visited else some (e, visited)

def visitActual (v : ExprVisitor) (visit : Expr → Visited → Option (Expr × Visited)) (e : Expr)
    (visited : Visited) : Option (Expr × Visited) :=
  match v.visitExpr e with
  | some r => some (r, visited)
  | none => do
    let (kids, visited) ← visitKids visit e.kids visited
    let (e, visited) ← v.rebuildKids visit e kids visited
    return (v.post e, visited)

/-- `visit`, to a depth; `none` is a failed assertion or a visit that goes deeper. -/
def visit (v : ExprVisitor) : Nat → Expr → Visited → Option (Expr × Visited)
  | 0, _, _ => none
  | n + 1, e, visited =>
    if e.isConstant then some (e, visited)
    else
      match visited.find e with
      | some r => some (r, visited)
      | none => do
        let (r, visited) ← v.visitActual (v.visit n) e visited
        return (r, visited ++ [(e, r)])

end ExprVisitor

/-- A relation between expressions and what they may be rewritten to that each rewriting of the
visitor stays within. -/
structure ExprVisitor.Within (v : ExprVisitor) (R : Expr → Expr → Prop) : Prop where
  refl : ∀ e, R e e
  trans : ∀ {a b c}, R a b → R b c → R a c
  expr : ∀ {e r}, e.isConstant = false → v.visitExpr e = some r → R e r
  post : ∀ {e r}, e.isConstant = false → v.visitExprPost e = some r → R e r
  rebuild : ∀ {e e' kids}, List.Forall₂ R e.kids kids → kids ≠ e.kids →
    e.rebuild kids = some e' → R e e'

section
variable {v : ExprVisitor} {R : Expr → Expr → Prop} {e r : Expr} {visited visited' : Visited}

def Visited.Within (visited : Visited) (R : Expr → Expr → Prop) : Prop :=
  ∀ p ∈ visited, R p.1 p.2

theorem ExprVisitor.Within.post_rel (h : v.Within R) (e : Expr) : R e (v.post e) := by
  unfold ExprVisitor.post
  split
  · exact h.refl e
  · rename_i hc
    cases hp : v.visitExprPost e with
    | none => exact h.refl e
    | some r => exact h.post (Bool.eq_false_of_not_eq_true hc) hp

/-- Visiting each kid in turn. -/
theorem ExprVisitor.visitKids_within {visit : Expr → Visited → Option (Expr × Visited)}
    (hvisit : ∀ {e r visited visited'}, visit e visited = some (r, visited') →
      visited.Within R → R e r ∧ visited'.Within R)
    {kids es : List Expr} (hkids : visitKids visit kids visited = some (es, visited'))
    (hv : visited.Within R) : List.Forall₂ R kids es ∧ visited'.Within R := by
  induction kids generalizing visited es with
  | nil =>
    cases hkids
    exact ⟨.nil, hv⟩
  | cons kid rest ih =>
    obtain ⟨⟨e, visited₁⟩, he, hrest⟩ := Option.bind_eq_some_iff.mp hkids
    obtain ⟨⟨es, visited₂⟩, hes, hdone⟩ := Option.bind_eq_some_iff.mp hrest
    cases hdone
    obtain ⟨hr, hv₁⟩ := hvisit he hv
    obtain ⟨hrs, hv₂⟩ := ih hes hv₁
    exact ⟨.cons hr hrs, hv₂⟩

/-- A visit stays within the relation, and so does what it remembers. -/
theorem ExprVisitor.Within.visit (h : v.Within R) {n : Nat}
    (hrun : v.visit n e visited = some (r, visited')) (hv : visited.Within R) :
    R e r ∧ visited'.Within R := by
  induction n generalizing e r visited visited' with
  | zero => cases hrun
  | succ n ih =>
    unfold ExprVisitor.visit at hrun
    split at hrun
    · cases hrun
      exact ⟨h.refl e, hv⟩
    · rename_i hc
      have hc : e.isConstant = false := Bool.eq_false_of_not_eq_true hc
      split at hrun
      · rename_i hfound
        cases hrun
        exact ⟨hv _ (Visited.mem_of_find hfound), hv⟩
      · obtain ⟨⟨r', visited₁⟩, hactual, hdone⟩ := Option.bind_eq_some_iff.mp hrun
        cases hdone
        suffices hr : R e r ∧ visited₁.Within R by
          refine ⟨hr.1, ?_⟩
          intro p hp
          rcases List.mem_append.mp hp with hp | hp
          · exact hr.2 p hp
          · cases List.mem_singleton.mp hp
            exact hr.1
        unfold ExprVisitor.visitActual at hactual
        split at hactual
        · rename_i hchange
          cases hactual
          exact ⟨h.expr hc hchange, hv⟩
        · obtain ⟨⟨kids, visited₂⟩, hkids, hrest⟩ := Option.bind_eq_some_iff.mp hactual
          obtain ⟨⟨e', visited₃⟩, hbuilt, hdone⟩ := Option.bind_eq_some_iff.mp hrest
          cases hdone
          obtain ⟨hall, hv₂⟩ := visitKids_within ih hkids hv
          suffices he' : R e e' ∧ visited₁.Within R from
            ⟨h.trans he'.1 (h.post_rel e'), he'.2⟩
          unfold ExprVisitor.rebuildKids at hbuilt
          split at hbuilt
          · cases hbuilt
            exact ⟨h.refl e, hv₂⟩
          · rename_i hne
            obtain ⟨e₁, he₁, hagain⟩ := Option.bind_eq_some_iff.mp hbuilt
            have hrel := h.rebuild hall hne he₁
            split at hagain
            · obtain ⟨hr, hv₃⟩ := ih hagain hv₂
              exact ⟨h.trans hrel hr, hv₃⟩
            · cases hagain
              exact ⟨hrel, hv₂⟩

end

section
variable {v : ExprVisitor} {f g : Expr → Visited → Option (Expr × Visited)} {e : Expr}
  {kids : List Expr} {visited : Visited}

namespace ExprVisitor

theorem visitKids_mono (hfg : ∀ {e visited r}, f e visited = some r → g e visited = some r)
    {r : List Expr × Visited} (h : visitKids f kids visited = some r) :
    visitKids g kids visited = some r := by
  induction kids generalizing visited r with
  | nil => exact h
  | cons kid rest ih =>
    obtain ⟨⟨e, visited₁⟩, he, hrest⟩ := Option.bind_eq_some_iff.mp h
    obtain ⟨⟨es, visited₂⟩, hes, hdone⟩ := Option.bind_eq_some_iff.mp hrest
    exact Option.bind_eq_some_iff.mpr ⟨_, hfg he, Option.bind_eq_some_iff.mpr ⟨_, ih hes, hdone⟩⟩

theorem rebuildKids_mono (hfg : ∀ {e visited r}, f e visited = some r → g e visited = some r)
    {r : Expr × Visited} (h : v.rebuildKids f e kids visited = some r) :
    v.rebuildKids g e kids visited = some r := by
  unfold rebuildKids at *
  split
  · rwa [if_pos ‹_›] at h
  · rw [if_neg ‹_›] at h
    obtain ⟨e', he', hagain⟩ := Option.bind_eq_some_iff.mp h
    refine Option.bind_eq_some_iff.mpr ⟨e', he', ?_⟩
    split
    · rw [if_pos ‹_›] at hagain
      exact hfg hagain
    · rwa [if_neg ‹_›] at hagain

theorem visitActual_mono (hfg : ∀ {e visited r}, f e visited = some r → g e visited = some r)
    {r : Expr × Visited} (h : v.visitActual f e visited = some r) :
    v.visitActual g e visited = some r := by
  unfold visitActual at *
  split
  · rename_i hr
    rwa [hr] at h
  · rename_i hr
    rw [hr] at h
    obtain ⟨⟨kids, visited₁⟩, hkids, hrest⟩ := Option.bind_eq_some_iff.mp h
    obtain ⟨⟨e', visited₂⟩, hbuilt, hdone⟩ := Option.bind_eq_some_iff.mp hrest
    exact Option.bind_eq_some_iff.mpr ⟨_, visitKids_mono hfg hkids,
      Option.bind_eq_some_iff.mpr ⟨_, rebuildKids_mono hfg hbuilt, hdone⟩⟩

/-- A visit that returns does so to any greater depth. -/
theorem visit_mono {n m : Nat} (hnm : n ≤ m) {r : Expr × Visited}
    (h : v.visit n e visited = some r) : v.visit m e visited = some r := by
  induction n generalizing m e visited r with
  | zero => cases h
  | succ n ih =>
    obtain ⟨m, rfl⟩ := Nat.exists_eq_succ_of_ne_zero (Nat.ne_zero_of_lt hnm)
    unfold visit at h ⊢
    split
    · rwa [if_pos ‹_›] at h
    · rw [if_neg ‹_›] at h
      split
      · rename_i hr
        rwa [hr] at h
      · rename_i hr
        rw [hr] at h
        obtain ⟨⟨r', visited₁⟩, hactual, hdone⟩ := Option.bind_eq_some_iff.mp h
        have hdeep : v.visitActual (v.visit m) e visited = some (r', visited₁) :=
          visitActual_mono (ih (Nat.le_of_succ_le_succ hnm)) hactual
        exact Option.bind_eq_some_iff.mpr ⟨_, hdeep, hdone⟩

end ExprVisitor

end

end Encider
