import Encider.Solver.Validity
import Encider.Expr.Constructors
import Encider.Expr.Hash
import Encider.Lib.Fold

/-! `CachingSolver`: partial validities kept under constraints and the smaller of an expression and
its negation. -/

namespace Encider

/-- `Expr::Kind`. -/
def Expr.kind : Expr → Nat
  | .constant _ _ => 0
  | .notOptimized _ => 1
  | .read _ _ _ => 3
  | .select _ _ _ => 4
  | .concat _ _ => 5
  | .extract _ _ _ => 6
  | .zext _ _ => 7
  | .sext _ _ => 8
  | .not _ => 9
  | .binary k _ _ => k.number

/-- Whether `Expr::compare` gives a negative number. It compares kinds first; what follows depends
on hashes and on addresses of arrays. -/
structure CompareExpr where
  less : Expr → Expr → Bool
  kinds : ∀ a b : Expr, a.kind ≠ b.kind → less a b = decide (a.kind < b.kind)

/-- The entries, newest first. -/
abbrev ValidityCache := List ((List Constraint × Constraint) × PartialValidity)

namespace CachingSolver

variable (compare : CompareExpr) (solver : ExactSolver)

/-- The canonical expression, and whether it is the negation. -/
def canonicalizeQuery (originalQuery : Constraint) : Constraint × Bool :=
  let negatedQuery := originalQuery.isZero
  if compare.less originalQuery.val negatedQuery.val then (originalQuery, false)
  else (negatedQuery, true)

/-- What is found, or `some none` on a miss; `none` where an assertion fails. -/
def cacheLookup (cache : ValidityCache) (query : Query) : Option (Option PartialValidity) :=
  let (canonicalQuery, negationUsed) := canonicalizeQuery compare query.expr
  match cache.lookup (query.constraints, canonicalQuery) with
  | none => some none
  | some pv => if negationUsed then pv.negate.map some else some (some pv)

/-- `insert` keeps an entry that is there. -/
def cacheInsert (cache : ValidityCache) (query : Query) (result : PartialValidity) :
    Option ValidityCache :=
  let (canonicalQuery, negationUsed) := canonicalizeQuery compare query.expr
  let cachedResult := if negationUsed then result.negate else some result
  cachedResult.map fun pv =>
    if (cache.lookup (query.constraints, canonicalQuery)).isSome then cache
    else ((query.constraints, canonicalQuery), pv) :: cache

/-- The end of a computation: a partial validity is stored and an answer given. -/
def store {α : Type} (cache : ValidityCache) (query : Query) (pv : PartialValidity) (answer : α) :
    Option (ValidityCache × α) :=
  (cacheInsert compare cache query pv).map fun cache => (cache, answer)

def computeValidity (cache : ValidityCache) (query : Query) : Option (ValidityCache × Validity) :=
  (cacheLookup compare cache query).bind fun
    | some .mustBeTrue => some (cache, .valid)
    | some .mustBeFalse => some (cache, .invalid)
    | some .trueOrFalse => some (cache, .unknown)
    | some .mayBeTrue =>
      if solver.computeTruth query then store compare cache query .mustBeTrue .valid
      else store compare cache query .trueOrFalse .unknown
    | some .mayBeFalse =>
      if solver.computeTruth query.negateExpr then store compare cache query .mustBeFalse .invalid
      else store compare cache query .trueOrFalse .unknown
    | some .none => none
    | none =>
      match solver.computeValidity query with
      | .valid => store compare cache query .mustBeTrue .valid
      | .invalid => store compare cache query .mustBeFalse .invalid
      | .unknown => store compare cache query .trueOrFalse .unknown

def computeTruth (cache : ValidityCache) (query : Query) : Option (ValidityCache × Bool) :=
  (cacheLookup compare cache query).bind fun cached =>
    match cached with
    | some .mayBeTrue =>
      if solver.computeTruth query then store compare cache query .mustBeTrue true
      else store compare cache query .trueOrFalse false
    | some pv => some (cache, decide (pv = .mustBeTrue))
    | none =>
      if solver.computeTruth query then store compare cache query .mustBeTrue true
      else store compare cache query .mayBeFalse false

end CachingSolver

/-- A query with what is asked about it. -/
inductive Request where
  | truth (query : Query)
  | validity (query : Query)

inductive Answer where
  | truth (isValid : Bool)
  | validity (result : Validity)
  deriving DecidableEq

def Request.query : Request → Query
  | truth q => q
  | validity q => q

def ExactSolver.answer (solver : ExactSolver) : Request → Answer
  | .truth q => .truth (solver.computeTruth q)
  | .validity q => .validity (solver.computeValidity q)

namespace CachingSolver

variable (compare : CompareExpr) (solver : ExactSolver)

def step (s : ValidityCache × List Answer) : Request → Option (ValidityCache × List Answer)
  | .truth q => (computeTruth compare solver s.1 q).map fun r => (r.1, s.2 ++ [.truth r.2])
  | .validity q =>
    (computeValidity compare solver s.1 q).map fun r => (r.1, s.2 ++ [.validity r.2])

/-- The answers to any requests, one after the other. -/
def run (requests : List Request) : Option (List Answer) :=
  (requests.foldlM (step compare solver) ([], [])).map Prod.snd

variable {compare solver}

/-- Every entry says something right. -/
def CacheSound (cache : ValidityCache) : Prop :=
  ∀ e ∈ cache, e.2 ≠ .none ∧ e.2.Sound ⟨e.1.1, e.1.2⟩

theorem mem_of_lookup {cache : ValidityCache} {k : List Constraint × Constraint}
    {pv : PartialValidity} (h : cache.lookup k = some pv) : (k, pv) ∈ cache := by
  induction cache with
  | nil => cases h
  | cons e cache ih =>
    rw [List.lookup_cons] at h
    split at h
    · rename_i heq
      obtain rfl := Option.some.inj h
      rw [beq_iff_eq.mp heq]
      exact List.mem_cons_self
    · exact List.mem_cons_of_mem _ (ih h)

/-- The canonical expression is the original, or its negation. -/
theorem canonicalizeQuery_cases (compare : CompareExpr) (e : Constraint) :
    canonicalizeQuery compare e = (e, false) ∨ canonicalizeQuery compare e = (e.isZero, true) := by
  unfold canonicalizeQuery
  dsimp only
  split_ifs
  · exact Or.inl rfl
  · exact Or.inr rfl

theorem exists_negate {pv : PartialValidity} (h : pv ≠ .none) :
    ∃ r, pv.negate = some r ∧ r ≠ .none := by
  cases pv with
  | none => contradiction
  | _ => exact ⟨_, rfl, nofun⟩

/-- A lookup finds nothing, or something right of the query. -/
theorem cacheLookup_sound (compare : CompareExpr) {cache : ValidityCache} (h : CacheSound cache) (q : Query) :
    cacheLookup compare cache q = some none ∨
      ∃ pv, cacheLookup compare cache q = some (some pv) ∧ pv ≠ .none ∧ pv.Sound q := by
  unfold cacheLookup
  obtain hc | hc := canonicalizeQuery_cases compare q.expr
  · rw [hc]
    dsimp only
    cases hlookup : cache.lookup (q.constraints, q.expr) with
    | none => exact Or.inl rfl
    | some pv =>
      obtain ⟨hne, hsound⟩ := h _ (mem_of_lookup hlookup)
      exact Or.inr ⟨pv, rfl, hne, hsound⟩
  · rw [hc]
    dsimp only
    cases hlookup : cache.lookup (q.constraints, q.expr.isZero) with
    | none => exact Or.inl rfl
    | some pv =>
      obtain ⟨hne, hsound⟩ := h _ (mem_of_lookup hlookup)
      obtain ⟨r, hr, hrne⟩ := exists_negate hne
      exact Or.inr ⟨r, by simp [hr], hrne, hsound.negate hr⟩

/-- Storing something right of the query. -/
theorem store_sound {α : Type} {cache : ValidityCache} (h : CacheSound cache) {q : Query}
    (pv : PartialValidity) (hne : pv ≠ .none) (hpv : pv.Sound q) (answer : α) :
    ∃ cache', store compare cache q pv answer = some (cache', answer) ∧ CacheSound cache' := by
  have hinsert : ∀ (c : Constraint) (r : PartialValidity), r ≠ .none → r.Sound ⟨q.constraints, c⟩ →
      CacheSound (if (cache.lookup (q.constraints, c)).isSome then cache
        else ((q.constraints, c), r) :: cache) := by
    intro c r hr hsound
    split_ifs
    · exact h
    · intro e he
      rcases List.mem_cons.mp he with rfl | he
      · exact ⟨hr, hsound⟩
      · exact h e he
  unfold store cacheInsert
  obtain hc | hc := canonicalizeQuery_cases compare q.expr
  · rw [hc]
    exact ⟨_, rfl, hinsert _ _ hne hpv⟩
  · obtain ⟨r, hr, hrne⟩ := exists_negate hne
    rw [hc]
    simp only [hr, if_true, Option.map_some]
    exact ⟨_, rfl, hinsert _ _ hrne (hpv.negate' hr)⟩

theorem computeTruth_spec (compare : CompareExpr) (solver : ExactSolver) {cache : ValidityCache} (h : CacheSound cache) {q : Query}
    (hq : q.Satisfiable) :
    ∃ cache', computeTruth compare solver cache q = some (cache', solver.computeTruth q) ∧
      CacheSound cache' := by
  have htruth := solver.truth q
  -- where the underlying solver is asked
  have hask : ∀ {rest : PartialValidity}, (¬ q.Valid → rest.Sound q) → rest ≠ .none →
      ∃ cache', (if solver.computeTruth q then store compare cache q .mustBeTrue true
        else store compare cache q rest false) = some (cache', solver.computeTruth q) ∧
        CacheSound cache' := by
    intro rest hrest hne
    cases hvalid : solver.computeTruth q with
    | true => exact store_sound h .mustBeTrue nofun (htruth.mp hvalid) true
    | false => exact store_sound h rest hne (hrest (by simpa [hvalid] using htruth)) false
  unfold computeTruth
  obtain hmiss | ⟨pv, hhit, hne, hsound⟩ := cacheLookup_sound compare h q
  · rw [hmiss]
    exact hask (fun hnot => hnot) nofun
  rw [hhit]
  -- what is known decides the query, unless it is only that the query may be true
  have hknown : pv ≠ .mayBeTrue → decide (pv = .mustBeTrue) = solver.computeTruth q := by
    intro hpv
    rw [Bool.eq_iff_iff, decide_eq_true_iff, htruth]
    cases pv with
    | mustBeTrue => exact iff_of_true rfl hsound
    | mustBeFalse => exact iff_of_false nofun (hq.not_valid hsound)
    | mayBeTrue => contradiction
    | mayBeFalse => exact iff_of_false nofun hsound
    | trueOrFalse => exact iff_of_false nofun hsound.1
    | none => contradiction
  cases pv with
  | mayBeTrue => exact hask (fun hnot => ⟨hnot, hsound⟩) nofun
  | none => contradiction
  | _ => exact ⟨cache, congrArg (fun b => some (cache, b)) (hknown nofun), h⟩

theorem computeValidity_spec (compare : CompareExpr) (solver : ExactSolver) {cache : ValidityCache} (h : CacheSound cache) {q : Query}
    (hq : q.Satisfiable) :
    ∃ cache', computeValidity compare solver cache q = some (cache', solver.computeValidity q) ∧
      CacheSound cache' := by
  have hof := solver.validity q
  have htruth := solver.truth q
  have htruth' := solver.truth q.negateExpr
  have hanswer : ∀ v : Validity, v.Of q → solver.computeValidity q = v := fun _ hv =>
    hof.unique hv
  unfold computeValidity
  obtain hmiss | ⟨pv, hhit, hne, hsound⟩ := cacheLookup_sound compare h q
  · rw [hmiss]
    cases hv : solver.computeValidity q with
    | valid =>
      rw [hv] at hof
      exact store_sound h .mustBeTrue nofun hof _
    | invalid =>
      rw [hv] at hof
      exact store_sound h .mustBeFalse nofun hof.2 _
    | unknown =>
      rw [hv] at hof
      exact store_sound h .trueOrFalse nofun hof _
  rw [hhit]
  cases pv with
  | mustBeTrue => exact ⟨cache, by rw [hanswer .valid hsound]; rfl, h⟩
  | mustBeFalse =>
    have hfalse : Validity.Of q .invalid := ⟨hq.not_valid hsound, hsound⟩
    exact ⟨cache, by rw [hanswer .invalid hfalse]; rfl, h⟩
  | trueOrFalse => exact ⟨cache, by rw [hanswer .unknown hsound]; rfl, h⟩
  | mayBeTrue =>
    by_cases hvalid : solver.computeTruth q = true
    · have hv : Validity.Of q .valid := htruth.mp hvalid
      rw [hanswer _ hv]
      simpa [hvalid] using store_sound h .mustBeTrue nofun hv Validity.valid
    · have hv : Validity.Of q .unknown := ⟨mt htruth.mpr hvalid, hsound⟩
      rw [hanswer _ hv]
      simpa [hvalid] using store_sound h .trueOrFalse nofun hv Validity.unknown
  | mayBeFalse =>
    by_cases hvalid : solver.computeTruth q.negateExpr = true
    · have hv : Validity.Of q .invalid := ⟨hsound, htruth'.mp hvalid⟩
      rw [hanswer _ hv]
      simpa [hvalid] using store_sound h .mustBeFalse nofun hv.2 Validity.invalid
    · have hv : Validity.Of q .unknown := ⟨hsound, mt htruth'.mpr hvalid⟩
      rw [hanswer _ hv]
      simpa [hvalid] using store_sound h .trueOrFalse nofun hv Validity.unknown
  | none => contradiction

/-- One request. -/
theorem step_spec {s : ValidityCache × List Answer} (h : CacheSound s.1) {r : Request}
    (hr : r.query.Satisfiable) :
    ∃ cache, step compare solver s r = some (cache, s.2 ++ [solver.answer r]) ∧
      CacheSound cache := by
  cases r with
  | truth q =>
    obtain ⟨cache, hrun, hsound⟩ := computeTruth_spec compare solver (q := q) h hr
    exact ⟨cache, by rw [step, hrun]; rfl, hsound⟩
  | validity q =>
    obtain ⟨cache, hrun, hsound⟩ := computeValidity_spec compare solver (q := q) h hr
    exact ⟨cache, by rw [step, hrun]; rfl, hsound⟩

theorem run_exact (compare : CompareExpr) (solver : ExactSolver) {requests : List Request}
    (h : ∀ r ∈ requests, r.query.Satisfiable) :
    run compare solver requests = some (requests.map solver.answer) := by
  have hempty : CacheSound [] := nofun
  obtain ⟨s, hrun, -, hanswers⟩ := List.foldlM_rule (f := step compare solver) (l := requests)
    (fun done s => CacheSound s.1 ∧ s.2 = done.map solver.answer) (s := ([], [])) ⟨hempty, rfl⟩ (by
      intro pre r post s hsplit ⟨hsound, hanswers⟩
      have hr : r ∈ requests := hsplit ▸ List.mem_append_right _ List.mem_cons_self
      obtain ⟨cache, hstep, hcache⟩ := step_spec hsound (h r hr)
      exact ⟨_, hstep, hcache, by simp [hanswers]⟩)
  rw [run, hrun, Option.map_some, hanswers]

open ConstructorCall (inputByte_typed flag)

def flagSet : Constraint := ⟨flag, ⟨inputByte_typed, Nat.one_pos, by decide⟩, rfl⟩

/-- Under constraints that can hold, a caching solver answers any requests as the solver below it
does, and so does a solver staged over an incomplete one whose answers are right and that does not
answer a question of truth by the query being perhaps true. -/
theorem caching_staged_exact (solver : ExactSolver) :
    (∀ (compare : CompareExpr) (requests : List Request),
      (∀ r ∈ requests, r.query.Satisfiable) →
        run compare solver requests = some (requests.map solver.answer)) ∧
    ∀ primary : IncompleteSolver, primary.Sound → ∀ q : Query, q.Satisfiable →
      primary.Decides q → primary.Decides q.negateExpr →
        StagedSolver.computeTruth primary solver q = solver.computeTruth q ∧
        StagedSolver.computeValidity primary solver q = solver.computeValidity q := by
  constructor
  · intro compare requests h
    exact run_exact compare solver h
  · intro primary h q hq hd hd'
    exact ⟨StagedSolver.computeTruth_eq h hq hd, StagedSolver.computeValidity_eq h hq hd hd'⟩

/-- Expressions in the order of their kinds. -/
def kindOrder : CompareExpr := ⟨fun a b => decide (a.kind < b.kind), fun _ _ _ => rfl⟩

/-- An incomplete solver that knows the constant. -/
def constantSolver : IncompleteSolver :=
  ⟨fun q => if q.expr = .tt then .mustBeTrue else .none⟩

theorem constantSolver_sound : constantSolver.Sound := by
  intro q
  unfold constantSolver
  dsimp only
  split_ifs with htt
  · intro σ _
    rw [htt]
    exact Constraint.tt_holds σ
  · trivial

theorem caching_staged_flag :
    run kindOrder .ideal [.truth ⟨[], flagSet⟩, .validity ⟨[], flagSet.isZero⟩] =
        some ([.truth ⟨[], flagSet⟩, .validity ⟨[], flagSet.isZero⟩].map ExactSolver.ideal.answer) ∧
      StagedSolver.computeTruth constantSolver .ideal ⟨[], .tt⟩ =
        ExactSolver.ideal.computeTruth ⟨[], .tt⟩ ∧
      StagedSolver.computeValidity constantSolver .ideal ⟨[], .tt⟩ =
        ExactSolver.ideal.computeValidity ⟨[], .tt⟩ := by
  have hsat : ∀ e, Query.Satisfiable ⟨[], e⟩ := fun _ => ⟨fun _ _ => 0, nofun⟩
  refine ⟨(caching_staged_exact .ideal).1 kindOrder _ ?_,
    (caching_staged_exact .ideal).2 constantSolver constantSolver_sound _ (hsat _) ?_ ?_⟩
  · intro r hr
    obtain rfl | rfl := List.mem_pair.mp hr
    · exact hsat _
    · exact hsat _
  · intro h
    unfold constantSolver at h
    dsimp only at h
    split_ifs at h
  · intro h
    unfold constantSolver at h
    dsimp only at h
    split_ifs at h

/-! Constraints that cannot hold -/

/-- Whether a flag is set, and whether it is not, where nothing can be. -/
def contradictory : List Request :=
  [.truth ⟨[.ff], flagSet⟩, .truth ⟨[.ff], flagSet.isZero⟩]

theorem canonicalize_flagSet (compare : CompareExpr) :
    canonicalizeQuery compare flagSet = (flagSet, false) ∧
      canonicalizeQuery compare flagSet.isZero = (flagSet, true) := by
  have hkind : flagSet.val.kind = 6 := rfl
  have hkind' : flagSet.isZero.val.kind = 23 := rfl
  have hback : flagSet.isZero.isZero = flagSet := Subtype.ext rfl
  constructor
  · have hless : compare.less flagSet.val flagSet.isZero.val = true :=
      (compare.kinds _ _ (by simp [hkind, hkind'])).trans (by simp [hkind, hkind'])
    simp [canonicalizeQuery, hless]
  · have hless : compare.less flagSet.isZero.val flagSet.val = false :=
      (compare.kinds _ _ (by simp [hkind, hkind'])).trans (by simp [hkind, hkind'])
    simp [canonicalizeQuery, hback, hless]

/-- Both follow from constraints that cannot hold; the second answer is made from the first. -/
theorem contradictory_differs (compare : CompareExpr) (solver : ExactSolver) :
    run compare solver contradictory = some [.truth true, .truth false] ∧
      contradictory.map solver.answer = [.truth true, .truth true] := by
  have hvalid : ∀ e, solver.computeTruth ⟨[.ff], e⟩ = true := by
    intro e
    rw [solver.truth]
    intro σ hσ
    exact absurd (hσ .ff List.mem_cons_self) (Constraint.ff_holds σ)
  obtain ⟨h1, h2⟩ := canonicalize_flagSet compare
  constructor
  · simp [run, contradictory, step, computeTruth, cacheLookup, store, cacheInsert, h1, h2, hvalid,
      PartialValidity.negate]
  · simp [contradictory, ExactSolver.answer, hvalid]

theorem kindOrder_contradictory :
    run kindOrder .ideal contradictory ≠ some (contradictory.map ExactSolver.ideal.answer) := by
  obtain ⟨hrun, hexact⟩ := contradictory_differs kindOrder .ideal
  rw [hrun, hexact]
  simp

end CachingSolver

end Encider
