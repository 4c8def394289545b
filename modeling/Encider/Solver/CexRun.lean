import Encider.Solver.CexCaching

/-! Whatever a `CexCachingSolver` was asked before, its answers are right. -/

namespace Encider

open Encider.Expr

/-! The arrays of an expression. -/

theorem mem_symbolicObjects {e : Expr} {r : Array × UpdateList × Expr} (hr : r ∈ e.reads)
    (hsym : r.1.constantValues = []) : r.1 ∈ e.symbolicObjects := by
  induction e using Expr.rec (motive_2 := fun us => r ∈ us.reads → r.1 ∈ us.symbolicObjects) with
  | constant w v => cases hr
  | notOptimized e ih | extract e _ _ ih | zext e _ ih | sext e _ ih | not e ih => exact ih hr
  | read a us i hus hi =>
    simp only [Expr.symbolicObjects, List.mem_append]
    rw [Expr.reads, List.mem_cons, List.mem_append] at hr
    obtain rfl | hr | hr := hr
    · refine Or.inl (Or.inr ?_)
      have ha : a.constantValues = [] := hsym
      simp [ha]
    · exact Or.inr (hi hr)
    · exact Or.inl (Or.inl (hus hr))
  | select c t f hc ht hf =>
    simp only [Expr.symbolicObjects, Expr.reads, List.mem_append] at hr ⊢
    tauto
  | concat l r hl hr' | binary k l r hl hr' =>
    simp only [Expr.symbolicObjects, Expr.reads, List.mem_append] at hr ⊢
    tauto
  | nil =>
    rename_i hr
    cases hr
  | cons i v next hi hv hnext =>
    rename_i hr
    simp only [UpdateList.symbolicObjects, UpdateList.reads, List.mem_append] at hr ⊢
    tauto

theorem mem_findSymbolicObjects {es : List Constraint} {a : Array} :
    a ∈ findSymbolicObjects es ↔ ∃ e ∈ es, a ∈ e.val.symbolicObjects := by
  rw [findSymbolicObjects, List.mem_eraseDups, List.mem_flatMap]

theorem symbolic_of_mem {e : Expr} {a : Array} (ha : a ∈ e.symbolicObjects) :
    a.constantValues = [] := by
  induction e using Expr.rec (motive_2 := fun us =>
    a ∈ us.symbolicObjects → a.constantValues = []) with
  | constant w v => cases ha
  | notOptimized e ih | extract e _ _ ih | zext e _ ih | sext e _ ih | not e ih => exact ih ha
  | read b us i hus hi =>
    simp only [Expr.symbolicObjects, List.mem_append] at ha
    obtain (ha | ha) | ha := ha
    · exact hus ha
    · split_ifs at ha with hb
      · rw [List.mem_singleton.mp ha]
        exact hb
      · cases ha
    · exact hi ha
  | select c t f hc ht hf =>
    simp only [Expr.symbolicObjects, List.mem_append] at ha
    tauto
  | concat l r hl hr | binary k l r hl hr =>
    simp only [Expr.symbolicObjects, List.mem_append] at ha
    tauto
  | nil =>
    rename_i ha
    cases ha
  | cons i v next hi hv hnext =>
    rename_i ha
    simp only [UpdateList.symbolicObjects, List.mem_append] at ha
    tauto

namespace CachedAssignment

/-- The values that the bytes give, and zero elsewhere. -/
def assignment (a : CachedAssignment) : Assignment := a.toBindings.assignment

/-- Symbolic arrays have all their bytes, others none. -/
def WellFormed (a : CachedAssignment) : Prop :=
  ∀ array bytes, a.bindings array = some bytes →
    array.constantValues = [] ∧ bytes.length = array.size

variable {a : CachedAssignment}

theorem WellFormed.ofBytes (h : a.WellFormed) : a.assignment.OfBytes where
  bounded := by
    intro array i hout
    unfold assignment Bindings.assignment
    split
    · rename_i byte hbyte
      obtain ⟨bytes, hbytes, hget⟩ := Option.bind_eq_some_iff.mp hbyte
      obtain ⟨hsym, hlength⟩ := h array bytes hbytes
      have hlt := (List.getElem?_eq_some_iff.mp hget).1
      obtain hconst | hle := hout
      · exact absurd hsym hconst
      · omega
    · rfl
  byte := by
    intro array i
    unfold assignment Bindings.assignment
    split
    · rename_i byte _
      exact ⟨byte, rfl⟩
    · exact ⟨0, rfl⟩

/-- What satisfies constraints makes them true. -/
theorem satisfiesFrom_holds {cs : List Constraint} (hcs : ∀ c ∈ cs, c.val.Apt)
    {visited : Visited} (hv : ExprEvaluator.Faithful a.assignment visited)
    (h : a.satisfiesFrom visited cs = true) : ∀ c ∈ cs, c.Holds a.assignment := by
  induction cs generalizing visited with
  | nil => exact List.forall_mem_nil _
  | cons c cs ih =>
    rw [List.forall_mem_cons] at hcs ⊢
    unfold satisfiesFrom at h
    split at h
    · rename_i r visited' hrun
      rw [Bool.and_eq_true, decide_eq_true_eq] at h
      obtain ⟨rfl, hrest⟩ := h
      obtain ⟨hv', hsame⟩ := ExprEvaluator.evaluated a.toBindings.agrees c.val hv hrun
      exact ⟨(hsame hcs.1).value.symm, ih hcs.2 hv' hrest⟩
    · cases h

/-- The values that are found satisfy the constraints they were found for. -/
theorem ofValues_spec {cs : List Constraint} {values : Array → List (BitVec 8)} {σ : Assignment}
    (hσ : σ.OfBytes) (hcs : ∀ c ∈ cs, c.Holds σ)
    (hvalues : ∀ a ∈ findSymbolicObjects cs, a.constantValues = [] → σ.HasBytes a (values a)) :
    (ofValues (findSymbolicObjects cs) values).WellFormed ∧
      ∀ c ∈ cs, c.Holds (ofValues (findSymbolicObjects cs) values).assignment := by
  have hwell : (ofValues (findSymbolicObjects cs) values).WellFormed := by
    intro array bytes hbytes
    simp only [ofValues, Option.ite_none_right_eq_some, Option.some.injEq] at hbytes
    obtain ⟨hmem, rfl⟩ := hbytes
    obtain ⟨e, -, he⟩ := mem_findSymbolicObjects.mp hmem
    exact ⟨symbolic_of_mem he, (hvalues array hmem (symbolic_of_mem he)).1⟩
  refine ⟨hwell, fun c hc => ?_⟩
  have hagree : AgreeOn c.val.reads (ofValues (findSymbolicObjects cs) values).assignment σ := by
    intro r hr x hx
    obtain ⟨hx₁, -, -⟩ := hx
    by_cases hsym : x.1.constantValues = []
    · have hmem : x.1 ∈ findSymbolicObjects cs :=
        mem_findSymbolicObjects.mpr ⟨c, hc, hx₁ ▸ mem_symbolicObjects hr (hx₁ ▸ hsym)⟩
      obtain ⟨hlength, hbyte⟩ := hvalues x.1 hmem hsym
      by_cases hlt : x.2 < x.1.size
      · have hget : (values x.1)[x.2]? = some (values x.1)[x.2] := List.getElem?_eq_getElem _
        rw [hbyte _ _ hget]
        simp only [assignment, Bindings.assignment, toBindings, ofValues, hmem, if_true,
          Option.bind_some, hget]
      · rw [hwell.ofBytes.bounded _ _ (Or.inr (Nat.le_of_not_lt hlt)),
          hσ.bounded _ _ (Or.inr (Nat.le_of_not_lt hlt))]
    · rw [hwell.ofBytes.bounded _ _ (Or.inl hsym), hσ.bounded _ _ (Or.inl hsym)]
  exact (Expr.value_congr hwell.ofBytes.bounded hσ.bounded hagree).trans (hcs c hc)

/-- All symbolic arrays with all their bytes. -/
def padded (a : CachedAssignment) : Bindings :=
  ⟨false, fun array => some ((List.range array.size).map fun i =>
    ((a.bindings array).bind (·[i]?)).getD 0)⟩

theorem padded_byte (array : Array) (i : Nat) : ((a.padded.bindings array).bind (·[i]?)) =
    if i < array.size then some (((a.bindings array).bind (·[i]?)).getD 0) else none := by
  split_ifs with hi
  · simp [padded, hi]
  · simp [padded, hi]

theorem WellFormed.byte_lt (h : a.WellFormed) {array : Array} {i : Nat} {byte : BitVec 8}
    (hbyte : (a.bindings array).bind (·[i]?) = some byte) : i < array.size := by
  obtain ⟨bytes, hbytes, hget⟩ := Option.bind_eq_some_iff.mp hbyte
  rw [← (h array bytes hbytes).2]
  exact (List.getElem?_eq_some_iff.mp hget).1

theorem padded_getInitialValue (h : a.WellFormed) (array : Array) (i : Nat) :
    a.toBindings.getInitialValue array i = a.padded.getInitialValue array i := by
  unfold Bindings.getInitialValue
  rw [padded_byte]
  cases hbyte : (a.toBindings.bindings array).bind (·[i]?) with
  | some byte =>
    have hget : (a.bindings array).bind (·[i]?) = some byte := hbyte
    rw [if_pos (h.byte_lt hbyte), hget]
    rfl
  | none =>
    have hget : (a.bindings array).bind (·[i]?) = none := hbyte
    rw [hget]
    by_cases hi : i < array.size
    · rw [if_pos hi]
      rfl
    · rw [if_neg hi]
      rfl

theorem padded_assignment (h : a.WellFormed) : a.padded.assignment = a.assignment := by
  funext array i
  unfold assignment Bindings.assignment
  rw [padded_byte]
  cases hbyte : (a.toBindings.bindings array).bind (·[i]?) with
  | some byte =>
    have hget : (a.bindings array).bind (·[i]?) = some byte := hbyte
    rw [if_pos (h.byte_lt hbyte), hget]
    rfl
  | none =>
    have hget : (a.bindings array).bind (·[i]?) = none := hbyte
    rw [hget]
    by_cases hi : i < array.size
    · rw [if_pos hi]
      rfl
    · rw [if_neg hi]

end CachedAssignment

/-- Reads are in bounds, divisors are not zero and no constant is hidden. -/
def Expr.Concrete (σ : Assignment) : Expr → Prop
  | .notOptimized e => e.isConstant = false
  | .read a _ i => i.value σ < a.size ∧ a.size < 2 ^ 32 ∧ a.Regular
  | .binary k _ r => k.isDivision = true → r.value σ ≠ 0
  | _ => True

/-- An expression whose evaluation comes to such parts only. -/
structure Expr.Evaluable (σ : Assignment) (e : Expr) : Prop where
  typed : e.WellTyped
  parts : e.Meets σ (Concrete σ)

theorem CachedAssignment.evaluate_eq {a : CachedAssignment} (h : a.WellFormed) {e : Expr}
    (he : e.Evaluable a.assignment) :
    a.evaluate e = some (const (e.value a.assignment) e.getWidth) := by
  have hpadded := padded_assignment h
  have hfit : ExprEvaluator.Fit a.padded e := by
    refine ⟨he.typed, ?_, ?_⟩
    · rw [hpadded]
      refine he.parts.imp (fun e _ he _ => ?_) he.typed he.parts
      have hself := he.self
      cases e with
      | read array us i =>
        obtain ⟨hlt, hsize, hregular⟩ := hself
        refine ⟨hpadded ▸ hlt, hsize, hregular.constant, fun _ => ⟨_, rfl, ?_⟩⟩
        simp
      | binary k l r => exact fun hk => hpadded ▸ hself hk
      | _ => trivial
    · rw [hpadded]
      refine he.parts.imp (fun e _ he _ => ?_) he.typed he.parts
      have hself := he.self
      cases e with
      | read array us i => exact hself.2.2.domain.trans (by decide)
      | notOptimized e => exact hself
      | _ => trivial
  obtain ⟨visited, hrun, -⟩ := (ExprEvaluator.evaluates a.padded e).yields hfit
    (s := []) fun p hp => absurd hp List.not_mem_nil
  unfold CachedAssignment.evaluate
  rw [ExprEvaluator.visit_congr (padded_getInitialValue h), hrun, ← hpadded]
  rfl

namespace Query

/-- The expressions of the query are evaluated faithfully. -/
structure Apt (q : Query) : Prop where
  constraints : ∀ c ∈ q.constraints, c.val.Apt
  expr : q.expr.val.Apt

variable {q : Query}

theorem Apt.withFalse (h : q.Apt) : q.withFalse.Apt := ⟨h.constraints, trivial, trivial, trivial⟩

theorem Apt.negateExpr (h : q.Apt) : q.negateExpr.Apt := ⟨h.constraints, h.expr.createIsZero⟩

theorem falsified_negateExpr {σ : Assignment} :
    q.negateExpr.Falsified σ ↔ (∀ c ∈ q.constraints, c.Holds σ) ∧ q.expr.Holds σ := by
  simp [Falsified, Query.negateExpr]

theorem falsified_withFalse {σ : Assignment} :
    q.withFalse.Falsified σ ↔ ∀ c ∈ q.constraints, c.Holds σ := by
  refine and_iff_left ?_
  simp [Query.withFalse, Constraint.Holds, Constraint.ff, Expr.Holds]

end Query

namespace CexCachingSolver

/-- What a key is kept with: an assignment that satisfies it, or nothing if there is none. -/
def Entry (key : Finset Constraint) : Option CachedAssignment → Prop
  | none => ¬ ∃ σ : Assignment, σ.OfBytes ∧ ∀ c ∈ key, c.Holds σ
  | some a => a.WellFormed ∧ ∀ c ∈ key, c.Holds a.assignment

/-- What is found for a query: an assignment that falsifies it, or nothing if there is none. -/
def Found (q : Query) : Option CachedAssignment → Prop
  | none => ¬ ∃ σ : Assignment, σ.OfBytes ∧ q.Falsified σ
  | some a => a.WellFormed ∧ q.Falsified a.assignment

variable {q : Query}

theorem Entry.of_superset {key key' : Finset Constraint} {r : Option CachedAssignment}
    (h : Entry key' r) (hsub : key ⊆ key') (hr : r.isSome = true) : Entry key r := by
  obtain ⟨a, rfl⟩ := Option.isSome_iff_exists.mp hr
  exact ⟨h.1, fun c hc => h.2 c (hsub hc)⟩

theorem Entry.of_subset {key key' : Finset Constraint} (h : Entry key' none) (hsub : key' ⊆ key) :
    Entry key none := by
  rintro ⟨σ, hσ, hkey⟩
  exact h ⟨σ, hσ, fun c hc => hkey c (hsub hc)⟩

theorem keyOf_apt (h : q.Apt) : ∀ c ∈ keyOf q, c.val.Apt := by
  unfold keyOf
  split_ifs
  · simpa using h.constraints
  · intro c hc
    obtain rfl | hc := Finset.mem_insert.mp hc
    · exact h.expr.createIsZero
    · exact h.constraints c (List.mem_toFinset.mp hc)

theorem holds_of_constant (σ : Assignment) {c : Constraint} (hc : c.val.isConstant = true)
    (hne : c.val ≠ const 0 1) : c.Holds σ := by
  obtain ⟨e, htyped, hw⟩ := c
  cases e with
  | constant w v =>
    obtain rfl : w = 1 := hw
    refine (width_one_value (σ := σ) (e := constant 1 v) rfl).resolve_left fun hv => hne ?_
    have hzero : v = 0#1 := BitVec.eq_of_toNat_eq hv
    change constant 1 v = const 0 1
    rw [hzero]
    rfl
  | _ => cases hc

/-- A negated expression that is not the constant false is part of the key or the constant true. -/
theorem keyOf_holds (hne : q.expr.isZero.val ≠ const 0 1) (σ : Assignment) :
    (∀ c ∈ keyOf q, c.Holds σ) ↔ q.Falsified σ := by
  have hneg := Constraint.isZero_holds σ q.expr
  unfold keyOf Query.Falsified
  split_ifs with hconst
  · simp [hneg.mp (holds_of_constant σ hconst hne)]
  · simp only [Finset.forall_mem_insert, List.mem_toFinset, hneg]
    exact and_comm

theorem Entry.found {r : Option CachedAssignment} (hne : q.expr.isZero.val ≠ const 0 1)
    (h : Entry (keyOf q) r) : Found q r := by
  cases r with
  | none =>
    rintro ⟨σ, hσ, hq⟩
    exact h ⟨σ, hσ, (keyOf_holds hne σ).mpr hq⟩
  | some a => exact ⟨h.1, (keyOf_holds hne _).mp h.2⟩

variable [LinearOrder Constraint]

/-- The cache was filled with right entries. -/
structure Sound (s : State) : Prop where
  entries : ∃ l, s.cache = MapOfSets.inserted l ∧ ∀ i ∈ l, Entry i.1 i.2
  table : ∀ a ∈ s.assignmentsTable, a.WellFormed

theorem sound_init : Sound {} := ⟨⟨[], rfl, List.forall_mem_nil _⟩, by simp⟩

variable {s : State}

theorem satisfies_entry {key : Finset Constraint} {a : CachedAssignment} (ha : a.WellFormed)
    (hkey : ∀ c ∈ key, c.val.Apt) (h : satisfies key a = true) : Entry key (some a) := by
  refine ⟨ha, fun c hc => ?_⟩
  have hsorted : ∀ c ∈ key.sort (· ≤ ·), c.val.Apt := fun c hc =>
    hkey c ((Finset.mem_sort _).mp hc)
  exact CachedAssignment.satisfiesFrom_holds hsorted (fun p hp => absurd hp List.not_mem_nil) h c
    ((Finset.mem_sort _).mpr hc)

theorem Sound.insert (h : Sound s) {key : Finset Constraint} {r : Option CachedAssignment}
    (hr : Entry key r) : ∃ l, s.cache.insert key r = MapOfSets.inserted l ∧ ∀ i ∈ l, Entry i.1 i.2 := by
  obtain ⟨l, hl, hentries⟩ := h.entries
  refine ⟨l ++ [(key, r)], ?_, ?_⟩
  · rw [hl, MapOfSets.inserted, MapOfSets.inserted, List.foldl_append]
    rfl
  · intro i hi
    obtain hi | hi := List.mem_append.mp hi
    · exact hentries i hi
    · obtain rfl := List.mem_singleton.mp hi
      exact hr

variable [LinearOrder CachedAssignment] {options : Options} {solver : AssignmentSolver}

/-- Whichever way something is found for a key, it is right. -/
theorem Sound.searchForAssignment (h : Sound s) {key : Finset Constraint}
    (hkey : ∀ c ∈ key, c.val.Apt) {r : Option CachedAssignment}
    (hr : searchForAssignment options s key = some r) : Entry key r := by
  obtain ⟨⟨l, hl, hentries⟩, htable⟩ := h
  unfold CexCachingSolver.searchForAssignment searchSuperset at hr
  rw [hl] at hr
  obtain hlookup | ⟨-, hr⟩ := Option.or_eq_some_iff.mp hr
  · rw [MapOfSets.lookup_inserted] at hlookup
    exact hentries _ (MapOfSets.mem_of_lastInserted hlookup)
  obtain hsuper | ⟨-, hr⟩ := Option.or_eq_some_iff.mp hr
  · split_ifs at hsuper
    obtain ⟨hp, t, ht, hmem⟩ := MapOfSets.mem_of_findSuperset hsuper
    exact (hentries _ hmem).of_superset ht hp
  split_ifs at hr
  · obtain hnull | ⟨-, hr⟩ := Option.or_eq_some_iff.mp hr
    · obtain ⟨hp, t, ht, hmem⟩ := MapOfSets.mem_of_findSubset hnull
      obtain rfl := Option.isNone_iff_eq_none.mp hp
      exact (hentries _ hmem).of_subset ht
    · obtain ⟨a, hfind, rfl⟩ := Option.map_eq_some_iff.mp hr
      exact satisfies_entry (htable a ((Finset.mem_sort _).mp (List.mem_of_find?_eq_some hfind)))
        hkey (List.find?_some hfind)
  · obtain ⟨hp, t, ht, hmem⟩ := MapOfSets.mem_of_findSubset hr
    cases r with
    | none => exact (hentries _ hmem).of_subset ht
    | some a => exact satisfies_entry (hentries _ hmem).1 hkey hp

theorem Sound.lookupAssignment (h : Sound s) (hq : q.Apt) {r : Option CachedAssignment}
    (hr : lookupAssignment options s q = some r) : Found q r := by
  unfold CexCachingSolver.lookupAssignment at hr
  split_ifs at hr with hfalse
  · obtain rfl := Option.some.inj hr
    rintro ⟨σ, -, hσ⟩
    refine hσ.2 (not_not.mp fun hn => ?_)
    have hholds : (Expr.const 0 1).value σ = 1 := hfalse ▸ (Constraint.isZero_holds σ q.expr).mpr hn
    rw [const_value] at hholds
    cases hholds
  · exact (h.searchForAssignment (keyOf_apt hq) hr).found hfalse

/-- A query keeps the cache sound, and what it gives is right. -/
theorem Sound.getAssignment (h : Sound s) (hq : q.Apt) :
    Sound (getAssignment options solver s q).1 ∧
      ∀ r, (getAssignment options solver s q).2 = some r → Found q r := by
  unfold CexCachingSolver.getAssignment
  split
  · rename_i result hlookup
    refine ⟨h, fun r hr => ?_⟩
    obtain rfl := Option.some.inj hr
    exact h.lookupAssignment hq hlookup
  · rename_i hmiss
    have hne : q.expr.isZero.val ≠ const 0 1 := by
      intro hfalse
      rw [CexCachingSolver.lookupAssignment, if_pos hfalse] at hmiss
      cases hmiss
    dsimp only
    split
    · exact ⟨h, fun r hr => by cases hr⟩
    · rename_i hsolve
      have hentry : Entry (keyOf q) none := by
        rintro ⟨σ, hσ, hkey⟩
        exact solver.noSolution q _ hsolve ⟨σ, hσ, (keyOf_holds hne σ).mp hkey⟩
      refine ⟨⟨h.insert hentry, h.table⟩, fun r hr => ?_⟩
      obtain rfl := Option.some.inj hr
      exact hentry.found hne
    · rename_i values hsolve
      obtain ⟨σ, hσ, hfalsified, hvalues⟩ := solver.solution q _ values hsolve
      have hsorted : ∀ c ∈ (keyOf q).sort (· ≤ ·), c.Holds σ := fun c hc =>
        (keyOf_holds hne σ).mpr hfalsified c ((Finset.mem_sort _).mp hc)
      obtain ⟨hwell, hholds⟩ := CachedAssignment.ofValues_spec hσ hsorted hvalues
      have hentry : Entry (keyOf q) (some (.ofValues _ values)) :=
        ⟨hwell, fun c hc => hholds c ((Finset.mem_sort _).mpr hc)⟩
      refine ⟨⟨h.insert hentry, fun a ha => ?_⟩, fun r hr => ?_⟩
      · obtain rfl | ha := Finset.mem_insert.mp ha
        · exact hwell
        · exact h.table a ha
      · obtain rfl := Option.some.inj hr
        exact hentry.found hne

end CexCachingSolver

open Classical in
/-- The solver that decides every query. -/
noncomputable def AssignmentSolver.ideal : AssignmentSolver where
  computeInitialValues q _ := some
    (if h : ∃ σ : Assignment, σ.OfBytes ∧ q.Falsified σ then
      some fun a => (List.range a.size).map fun i => (h.choose_spec.1.byte a i).choose
    else none)
  solution q objects values h := by
    split_ifs at h with hsat
    · obtain rfl := Option.some.inj (Option.some.inj h)
      refine ⟨hsat.choose, hsat.choose_spec.1, hsat.choose_spec.2, fun a _ _ => ⟨by simp, ?_⟩⟩
      intro i byte hbyte
      rw [List.getElem?_map] at hbyte
      obtain ⟨j, hj, rfl⟩ := Option.map_eq_some_iff.mp hbyte
      obtain ⟨hlt, hget⟩ := List.getElem?_eq_some_iff.mp hj
      rw [List.getElem_range] at hget
      subst hget
      exact (hsat.choose_spec.1.byte a i).choose_spec
    · cases Option.some.inj h
  noSolution q objects h := by
    split_ifs at h with hsat
    · cases Option.some.inj h
    · exact hsat

/-- The constraints imply the expression. -/
def Query.ValidForBytes (q : Query) : Prop :=
  ∀ σ : Assignment, σ.OfBytes → (∀ c ∈ q.constraints, c.Holds σ) → q.expr.Holds σ

theorem Query.validForBytes_iff {q : Query} :
    q.ValidForBytes ↔ ¬ ∃ σ : Assignment, σ.OfBytes ∧ q.Falsified σ := by
  simp only [ValidForBytes, Falsified, not_exists, not_and, not_not]

theorem Query.negateExpr_validForBytes {q : Query} : q.negateExpr.ValidForBytes ↔
    ¬ ∃ σ : Assignment, σ.OfBytes ∧ (∀ c ∈ q.constraints, c.Holds σ) ∧ q.expr.Holds σ := by
  simp only [validForBytes_iff, falsified_negateExpr]

/-- The constraints can hold, and where they do the expression is evaluated to a constant. -/
structure Askable (constraints : List Constraint) (e : Expr) : Prop where
  satisfiable : ∃ σ : Assignment, σ.OfBytes ∧ ∀ c ∈ constraints, c.Holds σ
  evaluable : ∀ σ : Assignment, σ.OfBytes → (∀ c ∈ constraints, c.Holds σ) → e.Evaluable σ

namespace CexCachingSolver

/-- What may be asked. Values are asked under constraints that can hold. -/
def Request.Allowed : Request → Prop
  | truth q => q.Apt
  | validity q => q.Apt ∧ Askable q.constraints q.expr.val
  | value constraints e => (∀ c ∈ constraints, c.val.Apt) ∧ Askable constraints e
  | initialValues q _ => q.Apt

/-- What the answer says is so. -/
def Request.Right : Request → Answer → Prop
  | _, .failed => True
  | truth q, .truth isValid => isValid = true ↔ q.ValidForBytes
  | validity q, .validity .valid => q.ValidForBytes
  | validity q, .validity .invalid => q.negateExpr.ValidForBytes
  | validity q, .validity .unknown => ¬ q.ValidForBytes ∧ ¬ q.negateExpr.ValidForBytes
  | value constraints e, .value r => ∃ σ : Assignment, σ.OfBytes ∧
      (∀ c ∈ constraints, c.Holds σ) ∧ r = const (e.value σ) e.getWidth
  | initialValues q _, .initialValues none => ¬ ∃ σ : Assignment, σ.OfBytes ∧ q.Falsified σ
  | initialValues q objects, .initialValues (some values) => ∃ σ : Assignment, σ.OfBytes ∧
      q.Falsified σ ∧
      List.Forall₂ (fun a bytes => a.constantValues = [] → σ.HasBytes a bytes) objects values
  | _, _ => False

/-- No call of the solver below fails, and no option makes one fail. -/
def NeverFails (options : Options) (solver : AssignmentSolver) : Prop :=
  options.cexCacheExperimental = false ∧
    ∀ q objects, (solver.computeInitialValues q objects).isSome

/-- The value under an assignment that is found for constraints alone. -/
theorem evaluate_found {q : Query} {a : CachedAssignment} {e : Expr}
    (ha : Found q.withFalse (some a)) (he : Askable q.constraints e) :
    a.evaluate e = some (const (e.value a.assignment) e.getWidth) ∧
      ∀ c ∈ q.constraints, c.Holds a.assignment := by
  have hholds := Query.falsified_withFalse.mp ha.2
  exact ⟨a.evaluate_eq ha.1 (he.evaluable _ ha.1.ofBytes hholds), hholds⟩

theorem Found.isNone_iff {q : Query} {a : Option CachedAssignment} (h : Found q a) :
    a.isNone = true ↔ q.ValidForBytes := by
  rw [Query.validForBytes_iff]
  cases a with
  | none => exact iff_of_true rfl h
  | some a =>
    refine iff_of_false Bool.false_ne_true fun hno => hno ⟨_, h.1.ofBytes, h.2⟩

section
variable [LinearOrder Constraint] [LinearOrder CachedAssignment] (options : Options)
  (solver : AssignmentSolver) {s : State} {q : Query}

theorem getAssignment_isSome (h : NeverFails options solver) :
    (getAssignment options solver s q).2.isSome := by
  unfold getAssignment
  split
  · rfl
  · have hsome := h.2 q (findSymbolicObjects ((keyOf q).sort (· ≤ ·)))
    dsimp only
    split
    · rename_i hnone
      rw [hnone] at hsome
      cases hsome
    · rfl
    · rfl

/-- What a query leaves and gives, in one. -/
theorem Sound.getAssignment_spec (h : Sound s) (hq : q.Apt) :
    ∃ s' r, CexCachingSolver.getAssignment options solver s q = (s', r) ∧ Sound s' ∧
      (∀ a, r = some a → Found q a) ∧ (NeverFails options solver → r.isSome) := by
  obtain ⟨hs, hr⟩ := Sound.getAssignment h hq
  exact ⟨_, _, rfl, hs, hr, getAssignment_isSome options solver⟩

/-- An answer that is right, from a state with a sound cache. -/
structure Answered (options : Options) (solver : AssignmentSolver) (request : Request)
    (r : State × Answer) : Prop where
  sound : Sound r.1
  right : request.Right r.2
  given : NeverFails options solver → r.2 ≠ .failed

theorem answer_truth (h : Sound s) (hq : q.Apt) :
    ∃ r, answer options solver s (.truth q) = some r ∧ Answered options solver (.truth q) r := by
  rw [answer, computeTruth]
  split_ifs with hexp
  · refine ⟨_, rfl, h, trivial, fun hn => ?_⟩
    rw [hn.1] at hexp
    cases hexp.1
  · obtain ⟨s', result, hget, hs, hfound, hsome⟩ := h.getAssignment_spec options solver hq
    rw [hget]
    cases result with
    | none => exact ⟨_, rfl, hs, trivial, fun hn => by cases hsome hn⟩
    | some a => exact ⟨_, rfl, hs, (hfound a rfl).isNone_iff, fun _ hf => by cases hf⟩

theorem answer_value {constraints : List Constraint} {e : Expr} (h : Sound s)
    (hcs : ∀ c ∈ constraints, c.val.Apt) (he : Askable constraints e) :
    ∃ r, answer options solver s (.value constraints e) = some r ∧
      Answered options solver (.value constraints e) r := by
  have hq : (Query.mk constraints .ff).Apt := ⟨hcs, trivial, trivial, trivial⟩
  obtain ⟨s', result, hget, hs, hfound, hsome⟩ :=
    h.getAssignment_spec options solver hq
  rw [answer, computeValue, hget]
  cases result with
  | none => exact ⟨_, rfl, hs, trivial, fun hn => by cases hsome hn⟩
  | some a =>
    cases a with
    | none =>
      obtain ⟨σ, hσ, hholds⟩ := he.satisfiable
      exact absurd ⟨σ, hσ, Query.falsified_withFalse (q := ⟨constraints, .ff⟩).mpr hholds⟩
        (hfound none rfl)
    | some a =>
      have hfa : Found (Query.mk constraints .ff) (some a) := hfound _ rfl
      obtain ⟨heval, hholds⟩ := evaluate_found (q := ⟨constraints, .ff⟩) hfa he
      simp only [heval]
      exact ⟨_, rfl, hs, ⟨_, hfa.1.ofBytes, hholds, rfl⟩, fun _ hf => by cases hf⟩

/-- The second call of `computeValidity` decides between one answer and `Solver::Unknown`. -/
theorem answered_half (h : Sound s) {q' : Query} (hq : q'.Apt) {v : Validity}
    (hright : ∀ b, Found q' b →
      (Request.validity q).Right (.validity (if b.isNone then v else .unknown))) :
    ∃ r, (some ((getAssignment options solver s q').1, ((getAssignment options solver s q').2.map
        fun a => if a.isNone then v else .unknown))).map
          (fun r => (r.1, r.2.elim Answer.failed .validity)) = some r ∧
      Answered options solver (.validity q) r := by
  obtain ⟨s', result, hget, hs, hfound, hsome⟩ := h.getAssignment_spec options solver hq
  rw [hget]
  cases result with
  | none => exact ⟨_, rfl, hs, trivial, fun hn => by cases hsome hn⟩
  | some b => exact ⟨_, rfl, hs, hright b (hfound b rfl), fun _ hf => by cases hf⟩

theorem answer_validity (h : Sound s) (hq : q.Apt) (he : Askable q.constraints q.expr.val) :
    ∃ r, answer options solver s (.validity q) = some r ∧
      Answered options solver (.validity q) r := by
  obtain ⟨s₁, result, hget, hs₁, hfound, hsome⟩ :=
    h.getAssignment_spec options solver hq.withFalse
  rw [answer, computeValidity, hget]
  cases result with
  | none => exact ⟨_, rfl, hs₁, trivial, fun hn => by cases hsome hn⟩
  | some a =>
    cases a with
    | none =>
      obtain ⟨σ, hσ, hholds⟩ := he.satisfiable
      exact absurd ⟨σ, hσ, Query.falsified_withFalse.mpr hholds⟩ (hfound none rfl)
    | some a =>
      have hfa := hfound _ rfl
      obtain ⟨heval, hholds⟩ := evaluate_found hfa he
      have hconst : (const (q.expr.val.value a.assignment) q.expr.val.getWidth).isConstant = true :=
        rfl
      simp only [heval, Option.bind_some]
      rw [if_pos hconst]
      obtain hv | hv := width_one_value (σ := a.assignment) q.expr.2.2
      · -- the expression is false under the assignment
        rw [if_neg (by rw [hv, q.expr.2.2]; decide)]
        refine answered_half options solver hs₁ hq.negateExpr fun b hb => ?_
        split_ifs with hnone
        · exact hb.isNone_iff.mp hnone
        · refine ⟨fun hvalid => ?_, fun hvalid => hnone (hb.isNone_iff.mpr hvalid)⟩
          have htrue : q.expr.val.value a.assignment = 1 := hvalid _ hfa.1.ofBytes hholds
          rw [hv] at htrue
          cases htrue
      · rw [if_pos (by rw [hv, q.expr.2.2])]
        refine answered_half options solver hs₁ hq fun b hb => ?_
        split_ifs with hnone
        · exact hb.isNone_iff.mp hnone
        · refine ⟨fun hvalid => hnone (hb.isNone_iff.mpr hvalid), fun hvalid => ?_⟩
          exact Query.negateExpr_validForBytes.mp hvalid ⟨_, hfa.1.ofBytes, hholds, hv⟩

theorem answer_initialValues (h : Sound s) (hq : q.Apt) (objects : List Array) :
    ∃ r, answer options solver s (.initialValues q objects) = some r ∧
      Answered options solver (.initialValues q objects) r := by
  obtain ⟨s', result, hget, hs, hfound, hsome⟩ :=
    h.getAssignment_spec options solver hq
  rw [answer, computeInitialValues, hget]
  cases result with
  | none => exact ⟨_, rfl, hs, trivial, fun hn => by cases hsome hn⟩
  | some a =>
    refine ⟨_, rfl, hs, ?_, fun _ hf => by cases hf⟩
    have hfa := hfound a rfl
    cases a with
    | none => exact hfa
    | some a =>
      refine ⟨a.assignment, hfa.1.ofBytes, hfa.2, ?_⟩
      rw [List.forall₂_map_right_iff, List.forall₂_same]
      intro os _ _
      cases hbytes : a.bindings os with
      | none =>
        refine ⟨by simp, fun i byte hbyte => ?_⟩
        have hzero : byte = 0 := (List.mem_replicate.mp (List.mem_of_getElem? hbyte)).2
        subst hzero
        simp [CachedAssignment.assignment, Bindings.assignment, CachedAssignment.toBindings, hbytes]
      | some bytes =>
        refine ⟨(hfa.1 os bytes hbytes).2, fun i byte hbyte => ?_⟩
        have hget : bytes[i]? = some byte := hbyte
        simp [CachedAssignment.assignment, Bindings.assignment, CachedAssignment.toBindings, hbytes,
          hget]

/-- Each request that is allowed is answered, and the cache stays sound. -/
theorem answer_spec (h : Sound s) {request : Request} (hr : request.Allowed) :
    ∃ r, answer options solver s request = some r ∧ Answered options solver request r := by
  cases request with
  | truth q => exact answer_truth options solver h hr
  | validity q => exact answer_validity options solver h hr.1 hr.2
  | value constraints e => exact answer_value options solver h hr.1 hr.2
  | initialValues q objects => exact answer_initialValues options solver h hr objects

theorem run_spec (h : Sound s) {requests : List Request} (hr : ∀ r ∈ requests, r.Allowed) :
    ∃ answers, run options solver s requests = some answers ∧
      List.Forall₂ Request.Right requests answers ∧
      (NeverFails options solver → .failed ∉ answers) := by
  induction requests generalizing s with
  | nil => exact ⟨[], rfl, .nil, fun _ => List.not_mem_nil⟩
  | cons request requests ih =>
    rw [List.forall_mem_cons] at hr
    obtain ⟨r, hrun, hanswered⟩ := answer_spec options solver h hr.1
    obtain ⟨answers, hanswers, hright, hgiven⟩ := ih hanswered.sound hr.2
    refine ⟨r.2 :: answers, ?_, .cons hanswered.right hright, fun hn hmem => ?_⟩
    · rw [run, hrun]
      simp [hanswers]
    · obtain hf | hf := List.mem_cons.mp hmem
      · exact hanswered.given hn hf.symm
      · exact hgiven hn hf

end

/-- One symbolic byte. -/
def input : Array := { name := "input", size := 1 }

def inputIs (n : Nat) : Constraint :=
  ⟨.binary .eq (const n 8) (.read input .nil (const 0 32)),
    ⟨trivial, ⟨trivial, trivial, rfl⟩, rfl⟩, rfl⟩

theorem inputIs_apt (n : Nat) : (inputIs n).val.Apt := by
  refine ⟨(inputIs n).2.1, ⟨trivial, ⟨trivial, trivial⟩, ?_⟩, trivial, ⟨Nat.le_refl 32, ?_⟩, ?_⟩
  · constructor <;> simp [BinaryKind.isDivision]
  · exact fun h => absurd rfl h
  · exact ⟨trivial, trivial⟩

theorem inputIs_askable : Askable [inputIs 7] (inputIs 9).val where
  satisfiable := by
    refine ⟨fun a i => if a = input ∧ i = 0 then BitVec.ofNat a.range 7 else 0, ⟨?_, ?_⟩, ?_⟩
    · intro a i hout
      refine if_neg fun h => ?_
      obtain ⟨rfl, rfl⟩ := h
      simp [input] at hout
    · intro a i
      by_cases h : a = input ∧ i = 0
      · exact ⟨7, if_pos h⟩
      · exact ⟨0, if_neg h⟩
    · simp only [List.forall_mem_singleton]
      rfl
  evaluable _ _ _ :=
    ⟨(inputIs 9).2.1, (fun h => by cases h), trivial,
      ⟨Nat.one_pos, by decide, Nat.le_refl 32, fun h => absurd rfl h⟩, trivial, trivial⟩

end CexCachingSolver

end Encider
