import Encider.Solver.InitialValues

/-! What `IndependentSolver` answers, against what an exact solver would. -/

namespace Encider

open IndependentElementSet

/-- Some assignment satisfies the expressions of the factor. -/
def IndependentElementSet.Solvable (f : IndependentElementSet) : Prop :=
  ∃ σ : Assignment, σ.Bounded ∧ ∀ c ∈ f.exprs, c.Holds σ

theorem Factors.overwrites_cons {earlier later : List IndependentElementSet}
    {f : IndependentElementSet} :
    Overwrites earlier (f :: later) ↔
      (∃ s ∈ earlier, ∃ (a : Array) (i j : Nat),
        a.size ≤ i ∧ f.Covers (a, i) ∧ s.Covers (a, j)) ∨ Overwrites (earlier ++ [f]) later := by
  constructor
  · rintro ⟨pre, g, post, hsplit, s, hs, hover⟩
    cases pre with
    | nil =>
      obtain ⟨rfl, rfl⟩ := List.cons.inj hsplit
      exact Or.inl ⟨s, by simpa using hs, hover⟩
    | cons f' pre =>
      obtain ⟨rfl, rfl⟩ := List.cons.inj hsplit
      exact Or.inr ⟨pre, g, post, rfl, s, by simpa using hs, hover⟩
  · rintro (⟨s, hs, hover⟩ | ⟨pre, g, post, rfl, s, hs, hover⟩)
    · exact ⟨[], f, later, rfl, s, by simpa using hs, hover⟩
    · exact ⟨f :: pre, g, post, rfl, s, by simpa using hs, hover⟩

theorem Factors.not_overwrites_nil (earlier : List IndependentElementSet) :
    ¬ Overwrites earlier [] := by
  rintro ⟨pre, f, post, hsplit, -⟩
  simp at hsplit

theorem Collected.skip {retMap : RetMap} {factors : List IndependentElementSet}
    {f : IndependentElementSet} (h : Collected retMap factors) (hf : f.arrayReferences = []) :
    Collected retMap (factors ++ [f]) where
  sized := h.sized
  known a := by
    rw [h.known]
    simp [hf]
  holds g hg hreads := by
    obtain hg | hg := List.mem_append.mp hg
    · exact h.holds g hg hreads
    · obtain rfl := List.mem_singleton.mp hg
      obtain ⟨⟨a, i⟩, hx⟩ := hreads
      have ha := mem_arrayReferences.mpr ⟨i, hx⟩
      rw [hf] at ha
      exact absurd ha List.not_mem_nil

/-- The loop over the factors. If all have solutions, it fails only by writing past an array. -/
theorem InitialSolver.solveFactors_spec (solver : InitialSolver)
    (later : List IndependentElementSet) {earlier : List IndependentElementSet} {retMap : RetMap}
    (h : Collected retMap earlier) (hexact : ∀ f ∈ earlier ++ later, f.Exact)
    (hapart : (earlier ++ later).Pairwise fun s b => ¬ s.Meets b) :
    (∀ out, solver.solveFactors retMap later = some (some out) →
        Collected out (earlier ++ later)) ∧
      (solver.solveFactors retMap later = some none →
        ∃ f ∈ later, (∃ x, f.Covers x) ∧ ¬ f.Solvable) ∧
      ((∀ f ∈ later, f.Solvable) →
        (solver.solveFactors retMap later = none ↔ Factors.Overwrites earlier later)) := by
  induction later generalizing earlier retMap with
  | nil =>
    refine ⟨fun out hout => ?_, nofun, fun _ => ?_⟩
    · obtain rfl := Option.some.inj (Option.some.inj hout)
      simpa using h
    · simp [InitialSolver.solveFactors, Factors.not_overwrites_nil]
  | cons f later ih =>
    have hsplit : earlier ++ f :: later = earlier ++ [f] ++ later := by simp
    rw [hsplit] at hexact hapart ⊢
    rw [InitialSolver.solveFactors, Factors.overwrites_cons]
    split_ifs with hnil
    · have hnone : ¬ ∃ s ∈ earlier, ∃ (a : Array) (i j : Nat),
          a.size ≤ i ∧ f.Covers (a, i) ∧ s.Covers (a, j) := by
        rintro ⟨s, -, a, i, j, -, hf, -⟩
        have ha := mem_arrayReferences.mpr ⟨i, hf⟩
        rw [hnil] at ha
        exact absurd ha List.not_mem_nil
      obtain ⟨hsome, hunsat, hover⟩ := ih (h.skip hnil) hexact hapart
      refine ⟨hsome, fun hr => ?_, fun hall => ?_⟩
      · obtain ⟨g, hg, hbad⟩ := hunsat hr
        exact ⟨g, List.mem_cons_of_mem _ hg, hbad⟩
      · rw [hover fun g hg => hall g (List.mem_cons_of_mem _ hg), or_iff_right hnone]
    · have hf : ∀ s ∈ earlier, ¬ s.Meets f := fun s hs =>
        (List.pairwise_append.mp (List.pairwise_append.mp hapart).1).2.2 s hs f
          (List.mem_singleton_self f)
      obtain ⟨a, ha⟩ := List.exists_mem_of_ne_nil _ hnil
      obtain ⟨i, hx⟩ := mem_arrayReferences.mp ha
      cases hs : solver.computeInitialValues f.exprs f.arrayReferences with
      | none =>
        have hbad := solver.noSolution _ _ hs
        refine ⟨nofun, fun _ => ⟨f, List.mem_cons_self, ⟨_, hx⟩, hbad⟩, fun hall => ?_⟩
        exact absurd (hall f List.mem_cons_self) hbad
      | some tempValues =>
        obtain ⟨σ, hσ, hsat, hgives⟩ := solver.solution _ _ _ hs
        by_cases hover : ∃ s ∈ earlier, ∃ (a : Array) (i j : Nat),
            a.size ≤ i ∧ f.Covers (a, i) ∧ s.Covers (a, j)
        · obtain ⟨s, hs', b, k, j, hk, hfk, hsj⟩ := id hover
          simp only [place_none h hf hs' hk hfk hsj, Option.bind_none]
          exact ⟨nofun, nofun, fun _ => iff_of_true trivial (Or.inl hover)⟩
        · have hin : ∀ b k, f.Covers (b, k) → b.size ≤ k → retMap b = none := by
            intro b k hbk hk
            by_contra hne
            obtain ⟨s, hs', hb⟩ := (h.known b).mp hne
            obtain ⟨j, hj⟩ := mem_arrayReferences.mp hb
            exact hover ⟨s, hs', b, k, j, hk, hbk, hj⟩
          have hexact' : ∀ g ∈ f :: earlier, g.Exact := by
            intro g hg
            obtain rfl | hg := List.mem_cons.mp hg
            · exact hexact g (by simp)
            · exact hexact g (by simp [hg])
          obtain ⟨out, hout, hcollected⟩ := h.step hexact' hf hσ hsat hgives hin
          simp only [hout, Option.bind_some]
          obtain ⟨hsome, hunsat, hrest⟩ := ih hcollected hexact hapart
          refine ⟨hsome, fun hr => ?_, fun hall => ?_⟩
          · obtain ⟨g, hg, hbad⟩ := hunsat hr
            exact ⟨g, List.mem_cons_of_mem _ hg, hbad⟩
          · rw [hrest fun g hg => hall g (List.mem_cons_of_mem _ hg), or_iff_right hover]

/-! The whole request -/

namespace Query

variable {q : Query}

/-- The expressions that are divided into factors. -/
def requests (q : Query) : List Constraint :=
  if q.expr.val.isConstant then q.constraints else q.expr.isZero :: q.constraints

/-- What the values of a request for initial values should be. -/
def Answers (q : Query) (objects : List Array) :
    Option (List ((a : Array) × List (BitVec a.range))) → Prop
  | none => ¬ ∃ σ : Assignment, σ.Bounded ∧ (∀ c ∈ q.constraints, c.Holds σ) ∧ ¬ q.expr.Holds σ
  | some values =>
    ∃ σ : Assignment, σ.Bounded ∧ (∀ c ∈ q.constraints, c.Holds σ) ∧ ¬ q.expr.Holds σ ∧
      values.map Sigma.fst = objects ∧ ∀ v ∈ values, σ.Gives v.1 v.2

/-- The negated expression reads no array. -/
def Ground (q : Query) : Prop := ∀ x, ¬ q.expr.isZero.val.Touches x

theorem Ground.holds_iff (h : q.Ground) {σ τ : Assignment} (hσ : σ.Bounded) (hτ : τ.Bounded) :
    q.expr.Holds σ ↔ q.expr.Holds τ := by
  have hsame := Constraint.holds_congr hσ hτ (c := q.expr.isZero) fun x hx => absurd hx (h x)
  rw [Constraint.isZero_holds, Constraint.isZero_holds] at hsame
  exact not_iff_not.mp hsame

theorem ground_of_constant (h : q.expr.val.isConstant = true) : q.Ground := by
  obtain ⟨cs, ⟨e, htyped, hwidth⟩⟩ := q
  cases e with
  | constant w v =>
    rintro x ⟨r, hr, -⟩
    exact absurd hr List.not_mem_nil
  | _ => exact absurd h Bool.false_ne_true

theorem holds_of_constant (h : q.expr.val.isConstant = true) {σ : Assignment}
    (hσ : q.expr.Holds σ) (τ : Assignment) : q.expr.Holds τ := by
  obtain ⟨cs, ⟨e, htyped, hwidth⟩⟩ := q
  cases e with
  | constant w v => exact hσ
  | _ => exact absurd h Bool.false_ne_true

theorem sets_none (h : q.expr.val.isConstant = true) {σ : Assignment} (hσ : q.expr.Holds σ) :
    getAllIndependentConstraintsSets q = none := by
  obtain ⟨cs, ⟨e, htyped, hwidth⟩⟩ := q
  cases e with
  | constant w v =>
    have hv : v.toNat = 1 := hσ
    simp [getAllIndependentConstraintsSets, hv]
  | _ => exact absurd h Bool.false_ne_true

theorem sets_some
    (h : q.expr.val.isConstant = true → ∃ σ : Assignment, ¬ q.expr.Holds σ) :
    getAllIndependentConstraintsSets q = some (Factors.merge (q.requests.map ofExpr)) := by
  obtain ⟨cs, ⟨e, htyped, hwidth⟩⟩ := q
  cases e with
  | constant w v =>
    obtain ⟨σ, hσ⟩ := h rfl
    have hv : v.toNat = 0 := (width_one_value (σ := σ) hwidth).resolve_right hσ
    simp [getAllIndependentConstraintsSets, requests, hv, Expr.isConstant]
  | _ => rfl

theorem requests_hold (h : q.expr.val.isConstant = true → ∀ σ : Assignment, ¬ q.expr.Holds σ)
    (σ : Assignment) :
    (∀ c ∈ q.requests, c.Holds σ) ↔ (∀ c ∈ q.constraints, c.Holds σ) ∧ ¬ q.expr.Holds σ := by
  unfold requests
  split_ifs with hconst
  · exact (and_iff_left (h hconst σ)).symm
  · rw [List.forall_mem_cons, Constraint.isZero_holds, and_comm]

end Query

/-- What is asked of the solver: the factor shares no element with an omitted constraint and
decides the query as all constraints do, and the values are those of one solution. -/
structure IndependentSolver.Correct (solver : InitialSolver) (q : Query) (objects : List Array) :
    Prop where
  omitted : ∀ c ∈ q.constraints, c ∉ q.restrict.constraints →
    ∀ d ∈ q.expr :: q.restrict.constraints, ¬ ∃ x, c.val.Touches x ∧ d.val.Touches x
  entailed : q.restrict.Entailed ↔ q.Entailed
  negateEntailed : q.restrict.negateExpr.Entailed ↔ q.negateExpr.Entailed
  values : ∃ r, solver.independentInitialValues q objects = some r ∧ q.Answers objects r

namespace IndependentSolver

variable {q : Query} (solver : InitialSolver) (objects : List Array)

theorem factors_exact (reqs : List Constraint) :
    ∀ f ∈ Factors.merge (reqs.map ofExpr), f.Exact := by
  obtain ⟨gs, hgs, hmap⟩ := Factors.merge_settled reqs
  intro f hf
  rw [hmap] at hf
  obtain ⟨g, hg, rfl⟩ := List.mem_map.mp hf
  exact (hgs.good g hg).covers

/-- The expressions of the factors are the requests. -/
theorem mem_factors (reqs : List Constraint) (c : Constraint) :
    c ∈ reqs ↔ ∃ f ∈ Factors.merge (reqs.map ofExpr), c ∈ f.exprs := by
  obtain ⟨gs, hgs, hmap⟩ := Factors.merge_settled reqs
  rw [hmap]
  constructor
  · intro hc
    obtain ⟨i, hi⟩ := List.mem_iff_getElem?.mp hc
    obtain ⟨g, hg, hig⟩ := hgs.all i (List.getElem?_eq_some_iff.mp hi).1
    exact ⟨g.factor, List.mem_map_of_mem hg, ((hgs.good g hg).exprs c).mpr ⟨i, hig, hi⟩⟩
  · rintro ⟨f, hf, hc⟩
    obtain ⟨g, hg, rfl⟩ := List.mem_map.mp hf
    obtain ⟨i, -, hi⟩ := ((hgs.good g hg).exprs c).mp hc
    exact List.mem_of_getElem? hi

theorem run_spec (reqs : List Constraint) :
    let r := solver.solveFactors (fun _ => none) (Factors.merge (reqs.map ofExpr))
    (∀ out, r = some (some out) → Collected out (Factors.merge (reqs.map ofExpr))) ∧
      (r = some none → ∃ f ∈ Factors.merge (reqs.map ofExpr), (∃ x, f.Covers x) ∧ ¬ f.Solvable) ∧
      ((∀ f ∈ Factors.merge (reqs.map ofExpr), f.Solvable) →
        (r = none ↔ Factors.Overruns reqs)) := by
  have hstart : Collected (fun _ => none) [] :=
    ⟨nofun, fun a => by simp, fun f hf => absurd hf List.not_mem_nil⟩
  have hspec := solver.solveFactors_spec (Factors.merge (reqs.map ofExpr)) hstart
    (factors_exact reqs) (Factors.merge_apart _)
  obtain ⟨gs, hgs, hmap⟩ := Factors.merge_settled reqs
  have hover := hgs.overruns_iff
  rw [← hmap] at hover
  rw [← hover]
  exact hspec

/-- Where all requests can hold together, the values are right unless a factor overruns. -/
theorem values_of_solution (hconst : q.expr.val.isConstant = true → ∀ σ : Assignment, ¬ q.expr.Holds σ)
    {σ : Assignment} (hσ : σ.Bounded) (hsat : ∀ c ∈ q.requests, c.Holds σ) :
    (∃ r, solver.independentInitialValues q objects = some r ∧ q.Answers objects r) ↔
      ¬ Factors.Overruns q.requests := by
  have hall : ∀ f ∈ Factors.merge (q.requests.map ofExpr), f.Solvable := by
    intro f hf
    exact ⟨σ, hσ, fun c hc => hsat c ((mem_factors _ c).mpr ⟨f, hf, hc⟩)⟩
  obtain ⟨hsome, hunsat, hover⟩ := run_spec solver q.requests
  rw [InitialSolver.independentInitialValues, Query.sets_some fun h => ⟨σ, hconst h σ⟩,
    Option.bind_some]
  cases hr : solver.solveFactors (fun _ => none) (Factors.merge (q.requests.map ofExpr)) with
  | none => simp [(hover hall).mp hr]
  | some r =>
    have hnot : ¬ Factors.Overruns q.requests := by
      rw [← hover hall, hr]
      exact Option.some_ne_none r
    cases r with
    | none =>
      obtain ⟨f, hf, -, hbad⟩ := hunsat hr
      exact absurd (hall f hf) hbad
    | some out =>
      have hcollected := hsome out hr
      have hbounded := RetMap.bounded hcollected.sized
      have hholds : ∀ c ∈ q.requests, c.Holds out.assignment := by
        intro c hc
        obtain ⟨f, hf, hcf⟩ := (mem_factors _ c).mp hc
        by_cases hreads : ∃ x, f.Covers x
        · exact hcollected.holds f hf hreads c hcf
        · refine (Constraint.holds_congr hbounded hσ fun x hx => ?_).mpr (hsat c hc)
          exact absurd ⟨x, (factors_exact _ f hf x).mpr ⟨c, hcf, hx⟩⟩ hreads
      obtain ⟨hconstraints, hexpr⟩ := (Query.requests_hold hconst _).mp hholds
      refine iff_of_true ⟨_, rfl, out.assignment, hbounded, hconstraints, hexpr, ?_, ?_⟩ hnot
      · simp [Function.comp_def]
      · intro v hv
        obtain ⟨a, -, rfl⟩ := List.mem_map.mp hv
        cases ha : out a with
        | none =>
          refine ⟨List.length_replicate, fun hsym i hi => ?_⟩
          have hi' : i < a.size := hi
          simp [RetMap.assignment, ha, hi']
        | some bytes =>
          refine ⟨hcollected.sized a bytes ha, fun hsym i hi => ?_⟩
          have hsym' : a.constantValues = [] := hsym
          have hi' : i < bytes.length := (hcollected.sized a bytes ha).symm ▸ hi
          simp [RetMap.assignment, ha, hsym', List.getElem?_eq_getElem hi']

/-- A query that reads no array is a factor of its own. -/
theorem solvable_of_ground (hq : q.Consistent) (hground : q.Ground)
    (hvar : q.expr.val.isConstant = false) :
    ∀ f ∈ Factors.merge (q.requests.map ofExpr), (∃ x, f.Covers x) → f.Solvable := by
  obtain ⟨σ, hσ, hsat⟩ := hq
  have hreqs : q.requests = q.expr.isZero :: q.constraints := by simp [Query.requests, hvar]
  have halone : ∀ i j, Factors.Linked q.requests i j → (i = 0 ↔ j = 0) := by
    intro i j hij
    induction hij with
    | rel i j h =>
      obtain ⟨c, d, x, hc, hd, hcx, hdx⟩ := h
      have hne : ∀ k e, q.requests[k]? = some e → e.val.Touches x → k ≠ 0 := by
        rintro k e he hex rfl
        rw [hreqs, List.getElem?_cons_zero] at he
        exact hground x (Option.some.inj he ▸ hex)
      exact iff_of_false (hne i c hc hcx) (hne j d hd hdx)
    | refl => exact Iff.rfl
    | symm _ _ _ ih => exact ih.symm
    | trans _ _ _ _ _ ih ih' => exact ih.trans ih'
  obtain ⟨gs, hgs, hmap⟩ := Factors.merge_settled q.requests
  rw [hmap]
  intro f hf hreads
  obtain ⟨g, hg, rfl⟩ := List.mem_map.mp hf
  have hgood := hgs.good g hg
  refine ⟨σ, hσ, fun c hc => ?_⟩
  obtain ⟨i, hi, hic⟩ := (hgood.exprs c).mp hc
  cases i with
  | succ i =>
    rw [hreqs, List.getElem?_cons_succ] at hic
    exact hsat c (List.mem_of_getElem? hic)
  | zero =>
    have hlead : g.lead = 0 := Nat.le_zero.mp (hgood.lead_le 0 hi)
    obtain ⟨x, hx⟩ := hreads
    obtain ⟨d, hd, hdx⟩ := (hgood.covers x).mp hx
    obtain ⟨j, hj, hjd⟩ := (hgood.exprs d).mp hd
    obtain rfl := (halone _ _ (hgood.linked j hj)).mp hlead
    rw [hreqs, List.getElem?_cons_zero] at hjd
    exact absurd (Option.some.inj hjd ▸ hdx) (hground x)

/-- The factor of the negated expression is the first. -/
theorem first_factor (hvar : q.expr.val.isConstant = false) :
    ∃ f rest, Factors.merge (q.requests.map ofExpr) = f :: rest ∧ q.expr.isZero ∈ f.exprs := by
  have hfirst : q.requests[0]? = some q.expr.isZero := by simp [Query.requests, hvar]
  obtain ⟨gs, hgs, hmap⟩ := Factors.merge_settled q.requests
  obtain ⟨g, hg, hmem⟩ := hgs.all 0 (List.getElem?_eq_some_iff.mp hfirst).1
  have hlead := (hgs.good g hg).lead_le 0 hmem
  have hexpr := ((hgs.good g hg).exprs _).mpr ⟨0, hmem, hfirst⟩
  obtain ⟨pre, post, rfl⟩ := List.append_of_mem hg
  cases pre with
  | nil => exact ⟨g.factor, post.map Factors.Group.factor, by simpa using hmap, hexpr⟩
  | cons h pre =>
    have hleads := hgs.leads
    rw [List.map_append, List.pairwise_append] at hleads
    have hlt := hleads.2.2 h.lead (by simp) g.lead (by simp)
    omega

/-- Where the requests cannot hold together the first factor has no solution. -/
theorem values_of_unsolvable (hq : q.Consistent) (hvar : q.expr.val.isConstant = false)
    (hreads : ¬ q.Ground) (hunsat : ¬ ∃ σ : Assignment, σ.Bounded ∧ ∀ c ∈ q.requests, c.Holds σ) :
    ∃ r, solver.independentInitialValues q objects = some r ∧ q.Answers objects r := by
  have hconst : q.expr.val.isConstant = true → ∀ σ : Assignment, ¬ q.expr.Holds σ := by
    simp [hvar]
  obtain ⟨f, rest, hmerge, hneg⟩ := first_factor hvar
  have hexact := factors_exact q.requests
  have hapart := Factors.merge_apart (q.requests.map ofExpr)
  have hmem := mem_factors q.requests
  rw [hmerge] at hexact hapart hmem
  rw [List.pairwise_cons] at hapart
  have hbad : ¬ f.Solvable := by
    rintro ⟨σ₁, hσ₁, hsat₁⟩
    obtain ⟨σ₀, hσ₀, hsat₀⟩ := hq
    have hmix : (Assignment.mix f.Covers σ₁ σ₀).Bounded := hσ₁.mix hσ₀
    have hinside : ∀ c ∈ f.exprs, c.Holds (Assignment.mix f.Covers σ₁ σ₀) := by
      intro c hc
      refine (Constraint.holds_congr hmix hσ₁ fun x hx => if_pos ?_).mpr (hsat₁ c hc)
      exact (hexact f List.mem_cons_self x).mpr ⟨c, hc, hx⟩
    refine hunsat ⟨_, hmix, (Query.requests_hold hconst _).mpr ⟨fun c hc => ?_, ?_⟩⟩
    · have hreq : c ∈ q.requests := by simp [Query.requests, hvar, hc]
      obtain ⟨h, hh, hch⟩ := (hmem c).mp hreq
      obtain rfl | hh := List.mem_cons.mp hh
      · exact hinside c hch
      · refine (Constraint.holds_congr hmix hσ₀ fun x hx => if_neg fun hfx => ?_).mpr (hsat₀ c hc)
        exact hapart.1 h hh ⟨x, hfx, (hexact h (List.mem_cons_of_mem _ hh) x).mpr ⟨c, hch, hx⟩⟩
    · exact (Constraint.isZero_holds _ _).mp (hinside _ hneg)
  obtain ⟨x, hx⟩ := not_forall_not.mp hreads
  have hcovers := (hexact f List.mem_cons_self x).mpr ⟨_, hneg, hx⟩
  have hnil : f.arrayReferences ≠ [] := by
    intro hnil
    have ha := mem_arrayReferences.mpr ⟨x.2, hcovers⟩
    rw [hnil] at ha
    exact absurd ha List.not_mem_nil
  refine ⟨none, ?_, ?_⟩
  · rw [InitialSolver.independentInitialValues, Query.sets_some (by simp [hvar]), Option.bind_some,
      hmerge, InitialSolver.solveFactors, if_neg hnil]
    cases hs : solver.computeInitialValues f.exprs f.arrayReferences with
    | none => rfl
    | some values =>
      obtain ⟨σ, hσ, hsat, -⟩ := solver.solution _ _ _ hs
      exact absurd ⟨σ, hσ, hsat⟩ hbad
  · rintro ⟨σ, hσ, hsat, hexpr⟩
    exact hunsat ⟨σ, hσ, (Query.requests_hold hconst σ).mpr ⟨hsat, hexpr⟩⟩

/-- A true expression that reads no array is not noticed. -/
theorem values_of_ground (hq : q.Consistent) (hground : q.Ground) {σ : Assignment} (hσ : σ.Bounded)
    (hexpr : q.expr.Holds σ) :
    ¬ ∃ r, solver.independentInitialValues q objects = some r ∧ q.Answers objects r := by
  rintro ⟨r, hr, hanswers⟩
  by_cases hconst : q.expr.val.isConstant = true
  · rw [InitialSolver.independentInitialValues, Query.sets_none hconst hexpr] at hr
    cases hr
  · rw [Bool.not_eq_true] at hconst
    rw [InitialSolver.independentInitialValues, Query.sets_some (by simp [hconst]),
      Option.bind_some] at hr
    obtain ⟨found, hfound, rfl⟩ := Option.map_eq_some_iff.mp hr
    cases found with
    | none =>
      obtain ⟨f, hf, hreads, hbad⟩ := (run_spec solver q.requests).2.1 hfound
      exact hbad (solvable_of_ground hq hground hconst f hf hreads)
    | some retMap =>
      obtain ⟨τ, hτ, -, hnot, -⟩ := hanswers
      exact hnot ((hground.holds_iff hσ hτ).mp hexpr)

/-- An array of one byte, and its lowest bit. -/
def flags : Array := { name := "flags", size := 1 }

def flagBit : Constraint :=
  ⟨.extract (.read flags .nil (Expr.const 0 32)) 0 1, ⟨⟨trivial, trivial, rfl⟩, by decide, by decide⟩,
    rfl⟩

theorem flagBit_touches {x : Array × Nat} (h : flagBit.val.Touches x) : x = (flags, 0) := by
  obtain ⟨r, hr, hroot, -, hindex⟩ := h
  obtain rfl := List.mem_singleton.mp hr
  exact Prod.ext hroot.symm (hindex 32 0 rfl).symm

theorem flagBit_consistent (e : Constraint) : Query.Consistent ⟨[flagBit], e⟩ := by
  refine ⟨fun a i => if a = flags ∧ i = 0 then 1 else 0, ?_, ?_⟩
  · intro a i h
    refine if_neg ?_
    rintro ⟨rfl, rfl⟩
    exact h.elim (fun hc => hc rfl) (by decide)
  · intro c hc
    obtain rfl := List.mem_singleton.mp hc
    rfl

/-- `NotOptimizedExpr::create(true)`. -/
def hiddenTrue : Constraint := ⟨.notOptimized (Expr.const 1 1), trivial, rfl⟩

end IndependentSolver

end Encider
