import Encider.Solver.Reads
import Encider.Solver.Validity

/-! `IndependentSolver`: constraints that share no array element with the query are left out. -/

namespace Encider

/-- Values for the elements in a set from one assignment, for all others from another. -/
noncomputable def Assignment.mix (S : Array × Nat → Prop) (σ τ : Assignment) : Assignment :=
  open Classical in fun a i => if S (a, i) then σ a i else τ a i

theorem Assignment.Bounded.mix {S : Array × Nat → Prop} {σ τ : Assignment} (hσ : σ.Bounded)
    (hτ : τ.Bounded) : (Assignment.mix S σ τ).Bounded := by
  intro a i h
  unfold Assignment.mix
  split_ifs
  · exact hσ a i h
  · exact hτ a i h

theorem Constraint.holds_congr {σ τ : Assignment} (hσ : σ.Bounded) (hτ : τ.Bounded)
    {c : Constraint} (h : ∀ x, c.val.Touches x → σ x.1 x.2 = τ x.1 x.2) :
    c.Holds σ ↔ c.Holds τ := by
  have hvalue : c.val.value σ = c.val.value τ :=
    Expr.value_congr hσ hτ fun r hr x hx => h x ⟨r, hr, hx⟩
  rw [Constraint.Holds, Constraint.Holds, Expr.Holds, Expr.Holds, hvalue]

namespace Query

/-- Some assignment of bytes satisfies the constraints. -/
def Consistent (q : Query) : Prop := ∃ σ : Assignment, σ.Bounded ∧ ∀ c ∈ q.constraints, c.Holds σ

/-- Every assignment of bytes that satisfies the constraints makes the expression true. -/
def Entailed (q : Query) : Prop :=
  ∀ σ : Assignment, σ.Bounded → (∀ c ∈ q.constraints, c.Holds σ) → q.expr.Holds σ

end Query

/-- The elements of arrays that are read at constant indices, the arrays that are read at others,
and the expressions with these reads. Indices have 32 bits, as in every array that is made. -/
structure IndependentElementSet where
  elements : List (Array × Nat) := []
  wholeObjects : List Array := []
  exprs : List Constraint := []

namespace IndependentElementSet

variable {s b : IndependentElementSet} {x : Array × Nat}

def addRead (s : IndependentElementSet) (r : Array × UpdateList × Expr) : IndependentElementSet :=
  if r.1.constantValues ≠ [] ∧ r.2.1 = .nil then s
  else if r.1 ∈ s.wholeObjects then s
  else
    match r.2.2 with
    | .constant _ v => { s with elements := s.elements.insert (r.1, v.toNat) }
    | _ =>
      { s with
        elements := s.elements.filter fun y => y.1 ≠ r.1
        wholeObjects := r.1 :: s.wholeObjects }

/-- The constructor from an expression. -/
def ofExpr (e : Constraint) : IndependentElementSet :=
  (findReads e.val).foldl addRead { exprs := [e] }

def intersects (s b : IndependentElementSet) : Bool :=
  (s.wholeObjects.any fun a => a ∈ b.wholeObjects ∨ ∃ y ∈ b.elements, y.1 = a) ||
    s.elements.any fun y => y.1 ∈ b.wholeObjects ∨ y ∈ b.elements

/-- An array of the other set's `wholeObjects`; the flag says whether the set is changed. -/
def addWhole (s : IndependentElementSet × Bool) (a : Array) : IndependentElementSet × Bool :=
  if ∃ y ∈ s.1.elements, y.1 = a then
    ({ s.1 with
      elements := s.1.elements.filter fun y => y.1 ≠ a
      wholeObjects := s.1.wholeObjects.insert a }, true)
  else if a ∈ s.1.wholeObjects then s
  else ({ s.1 with wholeObjects := s.1.wholeObjects.insert a }, true)

def addElement (s : IndependentElementSet × Bool) (y : Array × Nat) :
    IndependentElementSet × Bool :=
  if y.1 ∈ s.1.wholeObjects then s
  else if y ∈ s.1.elements then s
  else ({ s.1 with elements := s.1.elements.insert y }, true)

/-- The other set is added; whether this changes the set. -/
def add (s b : IndependentElementSet) : IndependentElementSet × Bool :=
  b.elements.foldl addElement
    (b.wholeObjects.foldl addWhole ({ s with exprs := s.exprs ++ b.exprs }, false))

/-- The element may be read. -/
def Covers (s : IndependentElementSet) (x : Array × Nat) : Prop :=
  x ∈ s.elements ∨ x.1 ∈ s.wholeObjects

theorem covers_addRead {r : Array × UpdateList × Expr} :
    (s.addRead r).Covers x ↔ s.Covers x ∨ ReadTouches r x := by
  obtain ⟨a, us, i⟩ := r
  obtain ⟨a', k⟩ := x
  unfold addRead
  split_ifs with hskip hwhole
  · have hnot : ¬ ReadTouches (a, us, i) (a', k) := fun h => h.2.1 hskip
    simp [hnot]
  · have hold : ReadTouches (a, us, i) (a', k) → s.Covers (a', k) := fun h => Or.inr (h.1 ▸ hwhole)
    exact ⟨Or.inl, fun h => h.elim id hold⟩
  · cases i with
    | constant w v =>
      simp only [Covers, List.mem_insert_iff, ReadTouches, Prod.mk.injEq]
      constructor
      · rintro ((⟨rfl, rfl⟩ | h) | h)
        · refine Or.inr ⟨rfl, hskip, fun w' v' hv => ?_⟩
          cases hv
          rfl
        · exact Or.inl (Or.inl h)
        · exact Or.inl (Or.inr h)
      · rintro ((h | h) | ⟨rfl, -, h⟩)
        · exact Or.inl (Or.inr h)
        · exact Or.inr h
        · exact Or.inl (Or.inl ⟨rfl, (h w v rfl).symm⟩)
    | _ =>
      simp only [Covers, List.mem_filter, List.mem_cons, ReadTouches, decide_eq_true_eq]
      constructor
      · rintro (⟨h, -⟩ | rfl | h)
        · exact Or.inl (Or.inl h)
        · exact Or.inr ⟨rfl, hskip, by simp⟩
        · exact Or.inl (Or.inr h)
      · rintro ((h | h) | ⟨rfl, -, -⟩)
        · by_cases ha : a' = a
          · exact Or.inr (Or.inl ha)
          · exact Or.inl ⟨h, ha⟩
        · exact Or.inr (Or.inr h)
        · exact Or.inr (Or.inl rfl)

theorem exprs_addRead (s : IndependentElementSet) (r : Array × UpdateList × Expr) :
    (s.addRead r).exprs = s.exprs := by
  unfold addRead
  split_ifs
  · rfl
  · rfl
  · split <;> rfl

theorem foldl_addRead (rs : List (Array × UpdateList × Expr)) (s : IndependentElementSet) :
    ((rs.foldl addRead s).Covers x ↔ s.Covers x ∨ ∃ r ∈ rs, ReadTouches r x) ∧
      (rs.foldl addRead s).exprs = s.exprs := by
  induction rs generalizing s with
  | nil => simp
  | cons r rs ih =>
    obtain ⟨hcovers, hexprs⟩ := ih (s.addRead r)
    rw [List.foldl_cons, hcovers, hexprs, covers_addRead, exprs_addRead]
    simp [or_assoc]

/-- A set made from an expression covers what the expression touches. -/
@[simp] theorem covers_ofExpr {e : Constraint} : (ofExpr e).Covers x ↔ e.val.Touches x := by
  rw [ofExpr, (foldl_addRead _ _).1]
  simp [Covers, Expr.Touches, mem_findReads]

@[simp] theorem exprs_ofExpr (e : Constraint) : (ofExpr e).exprs = [e] :=
  (foldl_addRead (x := (⟨"", 0, 0, 0, []⟩, 0)) _ _).2

/-- Sets intersect when they cover a common element. -/
theorem intersects_iff : s.intersects b = true ↔ ∃ x, s.Covers x ∧ b.Covers x := by
  simp only [intersects, Bool.or_eq_true, List.any_eq_true, decide_eq_true_eq]
  constructor
  · rintro (⟨a, ha, hb | ⟨y, hy, rfl⟩⟩ | ⟨y, hy, hb | hb⟩)
    · exact ⟨(a, 0), Or.inr ha, Or.inr hb⟩
    · exact ⟨y, Or.inr ha, Or.inl hy⟩
    · exact ⟨y, Or.inl hy, Or.inr hb⟩
    · exact ⟨y, Or.inl hy, Or.inl hb⟩
  · rintro ⟨x, hs | hs, hb | hb⟩
    · exact Or.inr ⟨x, hs, Or.inr hb⟩
    · exact Or.inr ⟨x, hs, Or.inl hb⟩
    · exact Or.inl ⟨x.1, hs, Or.inr ⟨x, hb, rfl⟩⟩
    · exact Or.inl ⟨x.1, hs, Or.inl hb⟩

theorem covers_addWhole {s : IndependentElementSet × Bool} {a : Array} :
    (addWhole s a).1.Covers x ↔ s.1.Covers x ∨ x.1 = a := by
  unfold addWhole
  split_ifs with helem hwhole
  · simp only [Covers, List.mem_filter, List.mem_insert_iff, decide_eq_true_eq]
    by_cases hx : x.1 = a <;> simp [hx]
  · refine ⟨Or.inl, fun h => h.elim id fun ha => Or.inr (ha ▸ hwhole)⟩
  · simp only [Covers, List.mem_insert_iff]
    tauto

theorem covers_addElement {s : IndependentElementSet × Bool} {y : Array × Nat} :
    (addElement s y).1.Covers x ↔ s.1.Covers x ∨ x = y := by
  unfold addElement
  split_ifs with hwhole helem
  · refine ⟨Or.inl, fun h => h.elim id fun hy => Or.inr (hy ▸ hwhole)⟩
  · refine ⟨Or.inl, fun h => h.elim id fun hy => Or.inl (hy ▸ helem)⟩
  · simp only [Covers, List.mem_insert_iff]
    tauto

/-- Adding covers what either set covers. -/
@[simp] theorem covers_add : (s.add b).1.Covers x ↔ s.Covers x ∨ b.Covers x := by
  have hwhole : ∀ (as : List Array) (t : IndependentElementSet × Bool),
      (as.foldl addWhole t).1.Covers x ↔ t.1.Covers x ∨ x.1 ∈ as := by
    intro as
    induction as with
    | nil => simp
    | cons a as ih =>
      intro t
      rw [List.foldl_cons, ih, covers_addWhole, List.mem_cons, or_assoc]
  have helem : ∀ (ys : List (Array × Nat)) (t : IndependentElementSet × Bool),
      (ys.foldl addElement t).1.Covers x ↔ t.1.Covers x ∨ x ∈ ys := by
    intro ys
    induction ys with
    | nil => simp
    | cons y ys ih =>
      intro t
      rw [List.foldl_cons, ih, covers_addElement, List.mem_cons, or_assoc]
  rw [add, helem, hwhole]
  simp only [Covers]
  tauto

@[simp] theorem exprs_add (s b : IndependentElementSet) :
    (s.add b).1.exprs = s.exprs ++ b.exprs := by
  have hwhole : ∀ (as : List Array) (t : IndependentElementSet × Bool),
      (as.foldl addWhole t).1.exprs = t.1.exprs := by
    intro as
    induction as with
    | nil => exact fun _ => rfl
    | cons a as ih =>
      intro t
      rw [List.foldl_cons, ih]
      unfold addWhole
      split_ifs <;> rfl
  have helem : ∀ (ys : List (Array × Nat)) (t : IndependentElementSet × Bool),
      (ys.foldl addElement t).1.exprs = t.1.exprs := by
    intro ys
    induction ys with
    | nil => exact fun _ => rfl
    | cons y ys ih =>
      intro t
      rw [List.foldl_cons, ih]
      unfold addElement
      split_ifs <;> rfl
  rw [add, helem, hwhole]

/-- A pass that reports no change makes none. -/
theorem foldl_unmodified {α : Type} {f : IndependentElementSet × Bool → α → IndependentElementSet × Bool}
    (hf : ∀ t y, (f t y).2 = false → f t y = t) (ys : List α) (t : IndependentElementSet × Bool)
    (h : (ys.foldl f t).2 = false) : ys.foldl f t = t := by
  induction ys generalizing t with
  | nil => rfl
  | cons y ys ih =>
    have hrest := ih (f t y) h
    rw [List.foldl_cons, hrest] at h
    rw [List.foldl_cons, hrest, hf t y h]

/-- Where adding changes nothing the other set was covered. -/
theorem covers_of_unmodified (h : (s.add b).2 = false) (hx : b.Covers x) : s.Covers x := by
  have hwhole : ∀ t a, (addWhole t a).2 = false → addWhole t a = t := by
    intro t a
    unfold addWhole
    split_ifs <;> simp
  have helem : ∀ t y, (addElement t y).2 = false → addElement t y = t := by
    intro t y
    unfold addElement
    split_ifs <;> simp
  have hlast := foldl_unmodified helem _ _ h
  have hflag := h
  rw [add, hlast] at hflag
  have hfirst := foldl_unmodified hwhole _ _ hflag
  have hsame : (s.add b).1 = { s with exprs := s.exprs ++ b.exprs } := by
    rw [add, hlast, hfirst]
  have hcovers := (covers_add (s := s)).mpr (Or.inr hx)
  rwa [hsame] at hcovers

end IndependentElementSet

/-! `getIndependentConstraints` -/

open IndependentElementSet

/-- The variables of the outer loop. -/
structure ClosureState where
  eltsClosure : IndependentElementSet
  done : Bool := true
  result : List Constraint
  newWorklist : List (Constraint × IndependentElementSet) := []

namespace ClosureState

def turn (s : ClosureState) (it : Constraint × IndependentElementSet) : ClosureState :=
  if it.2.intersects s.eltsClosure then
    { s with
      eltsClosure := (s.eltsClosure.add it.2).1
      done := s.done && !(s.eltsClosure.add it.2).2
      result := s.result ++ [it.1] }
  else { s with newWorklist := s.newWorklist ++ [it] }

/-- A pass over the worklist that changes the closure makes the worklist shorter. -/
theorem length_foldl (its : List (Constraint × IndependentElementSet)) (s : ClosureState) :
    (its.foldl turn s).newWorklist.length + (!(its.foldl turn s).done).toNat ≤
      s.newWorklist.length + (!s.done).toNat + its.length := by
  induction its generalizing s with
  | nil => simp
  | cons it its ih =>
    have hturn : (s.turn it).newWorklist.length + (!(s.turn it).done).toNat ≤
        s.newWorklist.length + (!s.done).toNat + 1 := by
      unfold turn
      split_ifs
      · cases s.done <;> cases (s.eltsClosure.add it.2).2 <;> simp
      · simp only [List.length_append, List.length_singleton]
        omega
    have hrest := ih (s.turn it)
    rw [List.foldl_cons, List.length_cons]
    omega

/-- One pass over the worklist. -/
def sweep (eltsClosure : IndependentElementSet) (result : List Constraint)
    (worklist : List (Constraint × IndependentElementSet)) : ClosureState :=
  worklist.foldl turn { eltsClosure, result }

/-- The outer loop. -/
def loop (eltsClosure : IndependentElementSet) (result : List Constraint)
    (worklist : List (Constraint × IndependentElementSet)) :
    IndependentElementSet × List Constraint :=
  let s := sweep eltsClosure result worklist
  if h : s.done then (s.eltsClosure, s.result)
  else
    have : s.newWorklist.length < worklist.length := by
      have hlength := length_foldl worklist { eltsClosure, result }
      have hflag : (sweep eltsClosure result worklist).done = false := by simpa using h
      rw [sweep] at hflag
      rw [hflag] at hlength
      exact Nat.lt_of_succ_le (by simpa [s, sweep] using hlength)
    loop s.eltsClosure s.result s.newWorklist
termination_by worklist.length

end ClosureState

def getIndependentConstraints (query : Query) : IndependentElementSet × List Constraint :=
  ClosureState.loop (ofExpr query.expr) [] (query.constraints.map fun c => (c, ofExpr c))

/-- The query that is passed on. -/
def Query.restrict (q : Query) : Query := { q with constraints := (getIndependentConstraints q).2 }

namespace ClosureState

/-- The closure covers what the expression and the constraints taken touch; the others are on the
worklist. -/
structure Sorted (q : Query) (elts : IndependentElementSet) (result : List Constraint)
    (worklist : List (Constraint × IndependentElementSet)) : Prop where
  covers : ∀ x, elts.Covers x ↔ q.expr.val.Touches x ∨ ∃ c ∈ result, c.val.Touches x
  items : ∀ it ∈ worklist, it.2 = ofExpr it.1
  taken : result ⊆ q.constraints
  waiting : ∀ it ∈ worklist, it.1 ∈ q.constraints
  all : ∀ c ∈ q.constraints, c ∈ result ∨ ∃ it ∈ worklist, it.1 = c

/-- What the pass has put back does not meet the closure, unless there is another pass. -/
def Apart (s : ClosureState) : Prop :=
  s.done = true → ∀ it ∈ s.newWorklist, ¬ ∃ x, it.2.Covers x ∧ s.eltsClosure.Covers x

theorem Sorted.turn {q : Query} {s : ClosureState} {it : Constraint × IndependentElementSet}
    {rest : List (Constraint × IndependentElementSet)}
    (h : Sorted q s.eltsClosure s.result (s.newWorklist ++ it :: rest)) (ha : s.Apart) :
    Sorted q (s.turn it).eltsClosure (s.turn it).result ((s.turn it).newWorklist ++ rest) ∧
      (s.turn it).Apart := by
  have hit : it ∈ s.newWorklist ++ it :: rest := by simp
  have hset := h.items it hit
  have hkeep : ∀ y ∈ s.newWorklist ++ rest, y ∈ s.newWorklist ++ it :: rest := by
    intro y hy
    simp only [List.mem_append, List.mem_cons] at hy ⊢
    tauto
  unfold ClosureState.turn
  split_ifs with hmeets
  · refine ⟨⟨?_, fun y hy => h.items y (hkeep y hy), ?_, fun y hy => h.waiting y (hkeep y hy), ?_⟩,
      ?_⟩
    · intro x
      simp only [covers_add, h.covers, hset, covers_ofExpr, List.mem_append, List.mem_singleton,
        or_and_right, exists_or, exists_eq_left, or_assoc]
    · exact List.append_subset.mpr ⟨h.taken, fun c hc => by
        rw [List.mem_singleton.mp hc]
        exact h.waiting it hit⟩
    · intro c hc
      obtain hc | ⟨y, hy, rfl⟩ := h.all c hc
      · exact Or.inl (List.mem_append_left _ hc)
      · simp only [List.mem_append, List.mem_cons] at hy
        obtain hy | rfl | hy := hy
        · exact Or.inr ⟨y, List.mem_append_left _ hy, rfl⟩
        · exact Or.inl (List.mem_append_right _ (List.mem_singleton_self _))
        · exact Or.inr ⟨y, List.mem_append_right _ hy, rfl⟩
    · intro hdone y hy hcommon
      simp only [Bool.and_eq_true, Bool.not_eq_true'] at hdone
      obtain ⟨x, hyx, hx⟩ := hcommon
      refine ha hdone.1 y hy ⟨x, hyx, ?_⟩
      exact (covers_add.mp hx).elim id (covers_of_unmodified hdone.2)
  · rw [List.append_cons] at h
    refine ⟨h, fun hdone y hy hcommon => ?_⟩
    obtain hy | hy := List.mem_append.mp hy
    · exact ha hdone y hy hcommon
    · rw [List.mem_singleton.mp hy] at hcommon
      exact hmeets (intersects_iff.mpr hcommon)

theorem Sorted.pass {q : Query} (its : List (Constraint × IndependentElementSet))
    {s : ClosureState} (h : Sorted q s.eltsClosure s.result (s.newWorklist ++ its))
    (ha : s.Apart) :
    Sorted q (its.foldl ClosureState.turn s).eltsClosure (its.foldl ClosureState.turn s).result
      (its.foldl ClosureState.turn s).newWorklist ∧ (its.foldl ClosureState.turn s).Apart := by
  induction its generalizing s with
  | nil => exact ⟨by simpa using h, ha⟩
  | cons it its ih =>
    obtain ⟨hturn, hapart⟩ := h.turn ha
    exact ih hturn hapart

theorem Sorted.loop {q : Query} {elts : IndependentElementSet} {result : List Constraint}
    {worklist : List (Constraint × IndependentElementSet)} (h : Sorted q elts result worklist) :
    ∃ rest, Sorted q (ClosureState.loop elts result worklist).1
        (ClosureState.loop elts result worklist).2 rest ∧
      ∀ it ∈ rest, ¬ ∃ x, it.2.Covers x ∧
        (ClosureState.loop elts result worklist).1.Covers x := by
  induction elts, result, worklist using ClosureState.loop.induct with
  | case1 elts result worklist s hdone =>
    obtain ⟨hpass, hapart⟩ := Sorted.pass worklist
      (s := { eltsClosure := elts, result }) h fun _ _ hy => absurd hy List.not_mem_nil
    rw [ClosureState.loop, dif_pos hdone]
    exact ⟨_, hpass, hapart hdone⟩
  | case2 elts result worklist s hdone _ ih =>
    obtain ⟨hpass, -⟩ := Sorted.pass worklist
      (s := { eltsClosure := elts, result }) h fun _ _ hy => absurd hy List.not_mem_nil
    rw [ClosureState.loop, dif_neg hdone]
    exact ih hpass

end ClosureState

namespace Query

variable {q : Query}

theorem restrict_subset : q.restrict.constraints ⊆ q.constraints ∧
    ∀ c ∈ q.constraints, c ∉ q.restrict.constraints →
      ∀ d ∈ q.expr :: q.restrict.constraints, ¬ ∃ x, c.val.Touches x ∧ d.val.Touches x := by
  have hstart : ClosureState.Sorted q (ofExpr q.expr) []
      (q.constraints.map fun c => (c, ofExpr c)) := by
    refine ⟨fun x => by simp, ?_, List.nil_subset _, ?_, fun c hc => Or.inr ?_⟩
    · intro it hit
      obtain ⟨c, -, rfl⟩ := List.mem_map.mp hit
      rfl
    · intro it hit
      obtain ⟨c, hc, rfl⟩ := List.mem_map.mp hit
      exact hc
    · exact ⟨_, List.mem_map.mpr ⟨c, hc, rfl⟩, rfl⟩
  obtain ⟨rest, hsorted, hapart⟩ := hstart.loop
  refine ⟨hsorted.taken, fun c hc hout d hd hcommon => ?_⟩
  obtain hin | ⟨it, hit, rfl⟩ := hsorted.all c hc
  · exact hout hin
  obtain ⟨x, hx, hdx⟩ := hcommon
  refine hapart it hit ⟨x, ?_, (hsorted.covers x).mpr ?_⟩
  · rw [hsorted.items it hit]
    exact covers_ofExpr.mpr hx
  · obtain rfl | hd := List.mem_cons.mp hd
    · exact Or.inl hdx
    · exact Or.inr ⟨d, hd, hdx⟩

/-- Assignments of the restricted query extend to the whole one. -/
theorem Consistent.extend (h : q.Consistent) {σ : Assignment} (hσ : σ.Bounded)
    (hsat : ∀ c ∈ q.restrict.constraints, c.Holds σ) :
    ∃ τ : Assignment, τ.Bounded ∧ (∀ c ∈ q.constraints, c.Holds τ) ∧
      (q.expr.Holds τ ↔ q.expr.Holds σ) := by
  obtain ⟨σ₀, hσ₀, hall⟩ := h
  obtain ⟨-, hapart⟩ := restrict_subset (q := q)
  let S : Array × Nat → Prop := fun x => ∃ d ∈ q.expr :: q.restrict.constraints, d.val.Touches x
  have hτ : (Assignment.mix S σ σ₀).Bounded := hσ.mix hσ₀
  have hinside : ∀ d ∈ q.expr :: q.restrict.constraints,
      d.Holds (Assignment.mix S σ σ₀) ↔ d.Holds σ := by
    intro d hd
    exact Constraint.holds_congr hτ hσ fun x hx => if_pos ⟨d, hd, hx⟩
  refine ⟨_, hτ, fun c hc => ?_, hinside _ List.mem_cons_self⟩
  by_cases hin : c ∈ q.restrict.constraints
  · exact (hinside c (List.mem_cons_of_mem _ hin)).mpr (hsat c hin)
  · refine (Constraint.holds_congr hτ hσ₀ fun x hx => if_neg ?_).mpr (hall c hc)
    rintro ⟨d, hd, hdx⟩
    exact hapart c hc hin d hd ⟨x, hx, hdx⟩

/-- The restricted query has the validity of the whole one. -/
theorem Consistent.restrict_entailed (h : q.Consistent) : q.restrict.Entailed ↔ q.Entailed := by
  obtain ⟨hsub, -⟩ := restrict_subset (q := q)
  constructor
  · intro hvalid σ hσ hsat
    exact hvalid σ hσ fun c hc => hsat c (hsub hc)
  · intro hvalid σ hσ hsat
    obtain ⟨τ, hτ, hall, hexpr⟩ := h.extend hσ hsat
    exact hexpr.mp (hvalid τ hτ hall)

theorem Consistent.restrict_negate_entailed (h : q.Consistent) :
    q.restrict.negateExpr.Entailed ↔ q.negateExpr.Entailed := by
  obtain ⟨hsub, -⟩ := restrict_subset (q := q)
  constructor
  · intro hvalid σ hσ hsat
    exact hvalid σ hσ fun c hc => hsat c (hsub hc)
  · intro hvalid σ hσ hsat
    obtain ⟨τ, hτ, hall, hexpr⟩ := h.extend hσ hsat
    have hneg := hvalid τ hτ hall
    simp only [negateExpr, Constraint.isZero_holds] at hneg ⊢
    exact fun hholds => hneg (hexpr.mpr hholds)

end Query

end Encider
