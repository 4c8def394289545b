import Encider.Solver.Independent

/-! The independent factors of a query, in the order of their first expressions. -/

namespace Encider

open IndependentElementSet

namespace IndependentElementSet

/-- Both may read some element. -/
def Meets (s b : IndependentElementSet) : Prop := ∃ x, s.Covers x ∧ b.Covers x

theorem Meets.symm {s b : IndependentElementSet} (h : s.Meets b) : b.Meets s :=
  h.imp fun _ hx => hx.symm

end IndependentElementSet

namespace Factors

/-- The factors that meet `current` are added to it, the others are kept. -/
def absorb (current : IndependentElementSet) (doneLoop : Bool) (keep : List IndependentElementSet) :
    List IndependentElementSet → IndependentElementSet × Bool × List IndependentElementSet
  | [] => (current, doneLoop, keep)
  | compare :: factors =>
    if current.intersects compare then
      absorb (current.add compare).1 (doneLoop && !(current.add compare).2) keep factors
    else absorb current doneLoop (keep ++ [compare]) factors

theorem length_absorb (factors : List IndependentElementSet) (current : IndependentElementSet)
    (doneLoop : Bool) (keep : List IndependentElementSet) :
    (absorb current doneLoop keep factors).2.2.length +
        (!(absorb current doneLoop keep factors).2.1).toNat ≤
      keep.length + (!doneLoop).toNat + factors.length ∧
    (absorb current doneLoop keep factors).2.2.length ≤ keep.length + factors.length := by
  induction factors generalizing current doneLoop keep with
  | nil => simp [absorb]
  | cons compare factors ih =>
    rw [absorb, List.length_cons]
    split_ifs
    · have hrest := ih (current.add compare).1 (doneLoop && !(current.add compare).2) keep
      have hflag : (!(doneLoop && !(current.add compare).2)).toNat ≤ (!doneLoop).toNat + 1 := by
        cases doneLoop <;> cases (current.add compare).2 <;> simp
      omega
    · have hrest := ih current doneLoop (keep ++ [compare])
      rw [List.length_append, List.length_singleton] at hrest
      omega

/-- The loop over the queue: each factor absorbs those that it meets. -/
def pass (doneLoop : Bool) (done : List IndependentElementSet) :
    List IndependentElementSet → Bool × List IndependentElementSet
  | [] => (doneLoop, done)
  | current :: factors =>
    let r := absorb current doneLoop [] factors
    have : (absorb current doneLoop [] factors).2.2.length ≤ factors.length := by
      have hlength := (length_absorb factors current doneLoop []).2
      rwa [List.length_nil, Nat.zero_add] at hlength
    pass r.2.1 (done ++ [r.1]) r.2.2
termination_by factors => factors.length

theorem length_pass (doneLoop : Bool) (done factors : List IndependentElementSet) :
    (pass doneLoop done factors).2.length + (!(pass doneLoop done factors).1).toNat ≤
      done.length + (!doneLoop).toNat + factors.length := by
  induction doneLoop, done, factors using pass.induct with
  | case1 doneLoop done => simp [pass]
  | case2 doneLoop done current factors r _ ih =>
    have hlength := (length_absorb factors current doneLoop []).1
    rw [pass]
    simp only [List.length_append, List.length_cons, List.length_nil] at ih hlength ⊢
    have hr : r = absorb current doneLoop [] factors := rfl
    rw [hr] at ih
    omega

/-- The outer loop. -/
def merge (factors : List IndependentElementSet) : List IndependentElementSet :=
  let r := pass true [] factors
  if h : r.1 then r.2
  else
    have : r.2.length < factors.length := by
      have hlength := length_pass true [] factors
      have hflag : (pass true [] factors).1 = false := by simpa using h
      rw [hflag] at hlength
      exact Nat.lt_of_succ_le (by simpa using hlength)
    merge r.2
termination_by factors.length

end Factors

/-- `none` where the assertion on a constant expression fails. -/
def getAllIndependentConstraintsSets (query : Query) : Option (List IndependentElementSet) :=
  match query.expr.val with
  | .constant _ v =>
    if v.toNat = 0 then some (Factors.merge (query.constraints.map ofExpr)) else none
  | _ => some (Factors.merge (ofExpr query.expr.isZero :: query.constraints.map ofExpr))

namespace Factors

variable {reqs : List Constraint}

/-! Factors that stay apart -/

theorem covers_absorb {x : Array × Nat} (factors : List IndependentElementSet)
    {current : IndependentElementSet} {doneLoop : Bool} {keep : List IndependentElementSet}
    (h : (absorb current doneLoop keep factors).1.Covers x) :
    current.Covers x ∨ ∃ f ∈ factors, f.Covers x := by
  induction factors generalizing current doneLoop keep with
  | nil => exact Or.inl h
  | cons compare factors ih =>
    rw [absorb] at h
    split_ifs at h
    · obtain hcur | ⟨f, hf, hx⟩ := ih h
      · exact (covers_add.mp hcur).imp_right fun hx => ⟨compare, List.mem_cons_self, hx⟩
      · exact Or.inr ⟨f, List.mem_cons_of_mem _ hf, hx⟩
    · obtain hcur | ⟨f, hf, hx⟩ := ih h
      · exact Or.inl hcur
      · exact Or.inr ⟨f, List.mem_cons_of_mem _ hf, hx⟩

theorem keep_absorb (factors : List IndependentElementSet) (current : IndependentElementSet)
    (doneLoop : Bool) (keep : List IndependentElementSet) :
    (absorb current doneLoop keep factors).2.2.Sublist (keep ++ factors) := by
  induction factors generalizing current doneLoop keep with
  | nil => simp [absorb]
  | cons compare factors ih =>
    rw [absorb]
    split_ifs
    · exact (ih _ _ keep).trans ((List.sublist_cons_self compare factors).append_left keep)
    · simpa using ih current doneLoop (keep ++ [compare])

/-- The flag stays down once it is. -/
theorem absorb_false (factors : List IndependentElementSet) (current : IndependentElementSet)
    (keep : List IndependentElementSet) : (absorb current false keep factors).2.1 = false := by
  induction factors generalizing current keep with
  | nil => rfl
  | cons compare factors ih =>
    rw [absorb]
    split_ifs
    · exact ih (current.add compare).1 keep
    · exact ih current (keep ++ [compare])

theorem pass_false (done factors : List IndependentElementSet) :
    (pass false done factors).1 = false := by
  induction hn : factors.length using Nat.strong_induction_on generalizing done factors with
  | _ n ih =>
    cases factors with
    | nil => simp [pass]
    | cons current factors =>
      rw [pass, absorb_false]
      have hlength := (length_absorb factors current false []).2
      rw [List.length_nil, Nat.zero_add] at hlength
      rw [List.length_cons] at hn
      exact ih _ (by omega) _ _ rfl

/-- Where nothing was changed by what `current` absorbed it meets none of what was kept. -/
theorem absorb_apart (factors : List IndependentElementSet) {current : IndependentElementSet}
    {doneLoop : Bool} {keep : List IndependentElementSet}
    (hflag : (absorb current doneLoop keep factors).2.1 = true)
    (hkeep : ∀ k ∈ keep, ¬ current.Meets k) :
    doneLoop = true ∧ ∀ k ∈ (absorb current doneLoop keep factors).2.2,
      ¬ (absorb current doneLoop keep factors).1.Meets k := by
  induction factors generalizing current doneLoop keep with
  | nil => exact ⟨hflag, hkeep⟩
  | cons compare factors ih =>
    rw [absorb] at hflag ⊢
    split_ifs at hflag ⊢ with hmeets
    · by_cases hadd : (current.add compare).2 = false
      · have hnew : ∀ k ∈ keep, ¬ (current.add compare).1.Meets k := by
          rintro k hk ⟨x, hx, hkx⟩
          exact hkeep k hk ⟨x, (covers_add.mp hx).elim id (covers_of_unmodified hadd), hkx⟩
        obtain ⟨hdone, hapart⟩ := ih hflag hnew
        exact ⟨(Bool.and_eq_true_iff.mp hdone).1, hapart⟩
      · rw [Bool.not_eq_false] at hadd
        rw [hadd, Bool.not_true, Bool.and_false, absorb_false] at hflag
        cases hflag
    · refine ih hflag fun k hk => ?_
      obtain hk | hk := List.mem_append.mp hk
      · exact hkeep k hk
      · rw [List.mem_singleton.mp hk]
        exact fun hx => hmeets (intersects_iff.mpr hx)

theorem pass_apart {doneLoop : Bool} {done factors : List IndependentElementSet}
    (hflag : (pass doneLoop done factors).1 = true)
    (hdone : done.Pairwise fun s b => ¬ s.Meets b)
    (hapart : ∀ s ∈ done, ∀ f ∈ factors, ¬ s.Meets f) :
    doneLoop = true ∧ (pass doneLoop done factors).2.Pairwise fun s b => ¬ s.Meets b := by
  induction doneLoop, done, factors using pass.induct with
  | case1 doneLoop done =>
    rw [pass] at hflag ⊢
    exact ⟨hflag, hdone⟩
  | case2 doneLoop done current factors r _ ih =>
    rw [pass] at hflag ⊢
    have hkept : ∀ f ∈ r.2.2, f ∈ factors := fun f hf => by
      simpa using (keep_absorb factors current doneLoop []).subset hf
    have hcur : ∀ s ∈ done, ¬ s.Meets r.1 := by
      rintro s hs ⟨x, hsx, hx⟩
      obtain hx | ⟨f, hf, hx⟩ := covers_absorb factors hx
      · exact hapart s hs current List.mem_cons_self ⟨x, hsx, hx⟩
      · exact hapart s hs f (List.mem_cons_of_mem _ hf) ⟨x, hsx, hx⟩
    by_cases hr : r.2.1 = true
    · obtain ⟨hstart, hout⟩ := absorb_apart factors hr fun _ hk => absurd hk List.not_mem_nil
      refine ⟨hstart, (ih hflag ?_ ?_).2⟩
      · refine List.pairwise_append.mpr ⟨hdone, List.pairwise_singleton _ _, fun s hs t ht => ?_⟩
        rw [List.mem_singleton.mp ht]
        exact hcur s hs
      · intro s hs f hf
        obtain hs | hs := List.mem_append.mp hs
        · exact hapart s hs f (List.mem_cons_of_mem _ (hkept f hf))
        · rw [List.mem_singleton.mp hs]
          exact hout f hf
    · rw [Bool.not_eq_true] at hr
      have hdown : (absorb current doneLoop [] factors).2.1 = false := hr
      simp only [hdown, pass_false] at hflag
      cases hflag

/-- The factors of a query share no element. -/
theorem merge_apart (factors : List IndependentElementSet) :
    (merge factors).Pairwise fun s b => ¬ s.Meets b := by
  induction factors using merge.induct with
  | case1 factors r h =>
    rw [merge, dif_pos h]
    exact (pass_apart h .nil fun _ hs => absurd hs List.not_mem_nil).2
  | case2 factors r h _ ih =>
    rw [merge, dif_neg h]
    exact ih

/-! Factors and the positions of their expressions -/

/-- The requests at two positions touch a common element, or are linked by others. -/
def Linked (reqs : List Constraint) : Nat → Nat → Prop :=
  Relation.EqvGen fun i j =>
    ∃ c d x, reqs[i]? = some c ∧ reqs[j]? = some d ∧ c.val.Touches x ∧ d.val.Touches x

/-- A factor with the positions of its expressions; `lead` is the first of them. -/
structure Group where
  lead : Nat
  members : Set Nat
  factor : IndependentElementSet

structure Group.Good (reqs : List Constraint) (g : Group) : Prop where
  lead_mem : g.lead ∈ g.members
  lead_le : ∀ i ∈ g.members, g.lead ≤ i
  exprs : ∀ c, c ∈ g.factor.exprs ↔ ∃ i ∈ g.members, reqs[i]? = some c
  covers : ∀ x, g.factor.Covers x ↔ ∃ c ∈ g.factor.exprs, c.val.Touches x
  linked : ∀ i ∈ g.members, Linked reqs g.lead i

def Group.join (g h : Group) : Group where
  lead := g.lead
  members := g.members ∪ h.members
  factor := (g.factor.add h.factor).1

theorem Group.Good.join {g h : Group} (hg : g.Good reqs) (hh : h.Good reqs)
    (hlt : g.lead < h.lead) (hmeets : g.factor.Meets h.factor) : (g.join h).Good reqs where
  lead_mem := Or.inl hg.lead_mem
  lead_le i hi := hi.elim (hg.lead_le i) fun hi => hlt.le.trans (hh.lead_le i hi)
  exprs c := by
    simp only [Group.join, exprs_add, List.mem_append, hg.exprs, hh.exprs, Set.mem_union,
      or_and_right, exists_or]
  covers x := by
    simp only [Group.join, covers_add, exprs_add, List.mem_append, hg.covers, hh.covers,
      or_and_right, exists_or]
  linked i hi := by
    obtain hi | hi := hi
    · exact hg.linked i hi
    obtain ⟨x, hgx, hhx⟩ := hmeets
    obtain ⟨c, hc, hcx⟩ := (hg.covers x).mp hgx
    obtain ⟨d, hd, hdx⟩ := (hh.covers x).mp hhx
    obtain ⟨j, hj, hjc⟩ := (hg.exprs c).mp hc
    obtain ⟨k, hk, hkd⟩ := (hh.exprs d).mp hd
    have hbetween : Linked reqs j k := .rel _ _ ⟨c, d, x, hjc, hkd, hcx, hdx⟩
    have hback : Linked reqs k h.lead := (hh.linked k hk).symm
    exact (((hg.linked j hj).trans _ _ _ hbetween).trans _ _ _ hback).trans _ _ _ (hh.linked i hi)

/-- Groups in the order of their first positions, with all positions. -/
structure Grouping (reqs : List Constraint) (gs : List Group) : Prop where
  good : ∀ g ∈ gs, g.Good reqs
  leads : (gs.map Group.lead).Pairwise (· < ·)
  all : ∀ i < reqs.length, ∃ g ∈ gs, i ∈ g.members

theorem Grouping.join {done keep queue : List Group} {current compare : Group}
    (h : Grouping reqs (done ++ current :: (keep ++ compare :: queue)))
    (hmeets : current.factor.Meets compare.factor) :
    Grouping reqs (done ++ current.join compare :: (keep ++ queue)) := by
  have hlt : current.lead < compare.lead := by
    have hleads := h.leads
    rw [List.map_append, List.map_cons, List.pairwise_append, List.pairwise_cons] at hleads
    exact hleads.2.1.1 _ (by simp)
  have hcur := h.good current (by simp)
  have hcmp := h.good compare (by simp)
  refine ⟨?_, ?_, ?_⟩
  · intro g hg
    simp only [List.mem_append, List.mem_cons] at hg
    obtain hg | rfl | hg | hg := hg
    · exact h.good g (by simp [hg])
    · exact hcur.join hcmp hlt hmeets
    · exact h.good g (by simp [hg])
    · exact h.good g (by simp [hg])
  · refine h.leads.sublist ?_
    simp [Group.join]
  · intro i hi
    obtain ⟨g, hg, hig⟩ := h.all i hi
    simp only [List.mem_append, List.mem_cons] at hg
    obtain hg | rfl | hg | rfl | hg := hg
    · exact ⟨g, by simp [hg], hig⟩
    · exact ⟨g.join compare, by simp, Or.inl hig⟩
    · exact ⟨g, by simp [hg], hig⟩
    · exact ⟨current.join g, by simp, Or.inr hig⟩
    · exact ⟨g, by simp [hg], hig⟩

theorem Grouping.absorb {done : List Group} (queue : List Group) (current : Group)
    (keep : List Group) (doneLoop : Bool)
    (h : Grouping reqs (done ++ current :: (keep ++ queue))) :
    ∃ current' keep', Grouping reqs (done ++ current' :: keep') ∧
      (Factors.absorb current.factor doneLoop (keep.map Group.factor)
          (queue.map Group.factor)).1 = current'.factor ∧
      (Factors.absorb current.factor doneLoop (keep.map Group.factor)
          (queue.map Group.factor)).2.2 = keep'.map Group.factor := by
  induction queue generalizing current keep doneLoop with
  | nil => exact ⟨current, keep, by simpa using h, rfl, rfl⟩
  | cons compare queue ih =>
    rw [List.map_cons, Factors.absorb]
    split_ifs with hmeets
    · exact ih (current.join compare) keep _ (h.join (intersects_iff.mp hmeets))
    · simpa using ih current (keep ++ [compare]) doneLoop (by simpa using h)

theorem Grouping.pass (done queue : List Group) (doneLoop : Bool)
    (h : Grouping reqs (done ++ queue)) :
    ∃ gs, Grouping reqs gs ∧
      (Factors.pass doneLoop (done.map Group.factor) (queue.map Group.factor)).2 =
        gs.map Group.factor := by
  induction hn : queue.length using Nat.strong_induction_on generalizing done queue doneLoop with
  | _ n ih =>
    cases queue with
    | nil => exact ⟨done, by simpa using h, by simp [Factors.pass]⟩
    | cons current queue =>
      obtain ⟨current', keep', hnew, hcur, hkeep⟩ := Grouping.absorb queue current [] doneLoop h
      rw [List.map_nil] at hcur hkeep
      have hlength := (length_absorb (queue.map Group.factor) current.factor doneLoop []).2
      rw [hkeep, List.length_map, List.length_map, List.length_nil, Nat.zero_add] at hlength
      rw [List.length_cons] at hn
      rw [List.map_cons, Factors.pass]
      simp only [hcur, hkeep]
      simpa using ih keep'.length (by omega) (done ++ [current']) keep' _ (by simpa using hnew) rfl

theorem Grouping.merge {gs : List Group} (h : Grouping reqs gs) :
    ∃ hs, Grouping reqs hs ∧ Factors.merge (gs.map Group.factor) = hs.map Group.factor := by
  induction hn : gs.length using Nat.strong_induction_on generalizing gs with
  | _ n ih =>
    obtain ⟨gs', hgs', hpass⟩ := Grouping.pass [] gs true h
    rw [List.map_nil] at hpass
    rw [Factors.merge]
    split_ifs with hflag
    · exact ⟨gs', hgs', hpass⟩
    · have hlength := length_pass true [] (gs.map Group.factor)
      rw [Bool.not_eq_true] at hflag
      rw [hflag, hpass, List.length_map, List.length_map] at hlength
      simp only [hpass]
      exact ih gs'.length (by simpa [hn] using hlength) hgs' rfl

/-- Each request alone is a group. -/
theorem grouping_ofExpr (reqs : List Constraint) :
    ∃ gs, Grouping reqs gs ∧ reqs.map ofExpr = gs.map Group.factor := by
  refine ⟨reqs.zipIdx.map fun p => ⟨p.2, {p.2}, ofExpr p.1⟩, ⟨?_, ?_, ?_⟩, ?_⟩
  · intro g hg
    obtain ⟨⟨c, i⟩, hi, rfl⟩ := List.mem_map.mp hg
    rw [List.mem_zipIdx_iff_getElem?] at hi
    refine ⟨rfl, fun j hj => hj.ge, fun d => ?_, fun x => ?_, fun j hj => hj ▸ .refl _⟩
    · simpa [hi] using eq_comm
    · simp
  · simpa [List.map_map, Function.comp_def] using List.pairwise_lt_range'
  · intro i hi
    refine ⟨⟨i, {i}, ofExpr reqs[i]⟩, List.mem_map.mpr ⟨(reqs[i], i), ?_, rfl⟩, rfl⟩
    simp [List.mem_zipIdx_iff_getElem?]
  · rw [List.map_map]
    exact (congrArg (List.map ofExpr) (List.zipIdx_map_fst 0 reqs).symm).trans List.map_map

/-- The groups of factors that share no element. -/
structure Settled (reqs : List Constraint) (gs : List Group) : Prop extends Grouping reqs gs where
  apart : ∀ g ∈ gs, ∀ h ∈ gs, g.factor.Meets h.factor → g = h

theorem merge_settled (reqs : List Constraint) :
    ∃ gs, Settled reqs gs ∧ merge (reqs.map ofExpr) = gs.map Group.factor := by
  obtain ⟨gs, hgs, hmap⟩ := grouping_ofExpr reqs
  obtain ⟨hs, hhs, hmerge⟩ := hgs.merge
  rw [← hmap] at hmerge
  have hapart := merge_apart (reqs.map ofExpr)
  rw [hmerge, List.pairwise_map] at hapart
  refine ⟨hs, ⟨hhs, fun g hg h hh hmeets => ?_⟩, hmerge⟩
  by_contra hne
  have : Std.Symm fun g h : Group => ¬ g.factor.Meets h.factor := ⟨fun _ _ h h' => h h'.symm⟩
  exact hapart.forall hg hh hne hmeets

/-- Linked positions are in one group. -/
theorem Settled.linked_mem {gs : List Group} (h : Settled reqs gs) {i j : Nat}
    (hij : Linked reqs i j) : ∀ g ∈ gs, i ∈ g.members ↔ j ∈ g.members := by
  induction hij with
  | rel i j hrel =>
    obtain ⟨c, d, x, hc, hd, hcx, hdx⟩ := hrel
    have hcovers : ∀ g ∈ gs, ∀ k e, k ∈ g.members → reqs[k]? = some e → e.val.Touches x →
        g.factor.Covers x := by
      intro g hg k e hk he hex
      exact ((h.good g hg).covers x).mpr ⟨e, ((h.good g hg).exprs e).mpr ⟨k, hk, he⟩, hex⟩
    obtain ⟨gi, hgi, hi⟩ := h.all i (List.getElem?_eq_some_iff.mp hc).1
    obtain ⟨gj, hgj, hj⟩ := h.all j (List.getElem?_eq_some_iff.mp hd).1
    have hsame := h.apart gi hgi gj hgj ⟨x, hcovers gi hgi i c hi hc hcx, hcovers gj hgj j d hj hd hdx⟩
    subst hsame
    intro g hg
    constructor
    · intro hig
      have := h.apart g hg gi hgi ⟨x, hcovers g hg i c hig hc hcx, hcovers gi hgi i c hi hc hcx⟩
      exact this ▸ hj
    · intro hjg
      have := h.apart g hg gi hgi ⟨x, hcovers g hg j d hjg hd hdx, hcovers gi hgi j d hj hd hdx⟩
      exact this ▸ hi
  | refl i => exact fun _ _ => Iff.rfl
  | symm i j _ ih => exact fun g hg => (ih g hg).symm
  | trans i j k _ _ ih ih' => exact fun g hg => (ih g hg).trans (ih' g hg)

/-- An element past the end of an array belongs to a later factor than another element of it. -/
def Overruns (reqs : List Constraint) : Prop :=
  ∃ (a : Array) (i j first k m : Nat) (c d : Constraint), a.size ≤ i ∧
    Linked reqs first k ∧ reqs[k]? = some c ∧ c.val.Touches (a, j) ∧
    reqs[m]? = some d ∧ d.val.Touches (a, i) ∧ ∀ n, Linked reqs m n → first < n

/-- The same of factors: the values for one are put into an array after those for another. -/
def Overwrites (earlier later : List IndependentElementSet) : Prop :=
  ∃ pre f post, later = pre ++ f :: post ∧ ∃ s ∈ earlier ++ pre, ∃ (a : Array) (i j : Nat),
    a.size ≤ i ∧ f.Covers (a, i) ∧ s.Covers (a, j)

theorem Settled.overruns_iff {gs : List Group} (h : Settled reqs gs) :
    Overwrites [] (gs.map Group.factor) ↔ Overruns reqs := by
  constructor
  · rintro ⟨pre, f, post, hsplit, s, hs, a, i, j, hi, hf, hsj⟩
    obtain ⟨gpre, grest, rfl, rfl, hrest⟩ := List.map_eq_append_iff.mp hsplit
    obtain ⟨gf, gpost, rfl, rfl, -⟩ := List.map_eq_cons_iff.mp hrest
    obtain ⟨gsd, hgs, rfl⟩ := List.mem_map.mp (by simpa using hs)
    have hgood := h.good gf (by simp)
    have hgood' := h.good gsd (by simp [hgs])
    obtain ⟨d, hd, hdi⟩ := (hgood.covers _).mp hf
    obtain ⟨c, hc, hcj⟩ := (hgood'.covers _).mp hsj
    obtain ⟨m, hm, hmd⟩ := (hgood.exprs d).mp hd
    obtain ⟨k, hk, hkc⟩ := (hgood'.exprs c).mp hc
    have hlead : gsd.lead < gf.lead := by
      have hleads := h.leads
      rw [List.map_append, List.pairwise_append] at hleads
      exact hleads.2.2 _ (List.mem_map_of_mem hgs) _ (by simp)
    refine ⟨a, i, j, gsd.lead, k, m, c, d, hi, hgood'.linked k hk, hkc, hcj, hmd, hdi, ?_⟩
    intro n hn
    exact hlead.trans_le (hgood.lead_le n ((h.linked_mem hn gf (by simp)).mp hm))
  · rintro ⟨a, i, j, first, k, m, c, d, hi, hfirst, hc, hcj, hd, hdi, hbefore⟩
    obtain ⟨g, hg, hkg⟩ := h.all k (List.getElem?_eq_some_iff.mp hc).1
    obtain ⟨f, hf, hmf⟩ := h.all m (List.getElem?_eq_some_iff.mp hd).1
    have hgood := h.good f hf
    have hgood' := h.good g hg
    have hlt : g.lead < f.lead := by
      have hfirst' : first ∈ g.members := (h.linked_mem hfirst g hg).mpr hkg
      exact (hgood'.lead_le first hfirst').trans_lt (hbefore _ (hgood.linked m hmf).symm)
    obtain ⟨pre, post, rfl⟩ := List.append_of_mem hf
    have hin : g ∈ pre := by
      have hleads := h.leads
      rw [List.map_append, List.map_cons, List.pairwise_append, List.pairwise_cons] at hleads
      obtain hg | rfl | hg : g ∈ pre ∨ g = f ∨ g ∈ post := by simpa using hg
      · exact hg
      · exact absurd hlt (Nat.lt_irrefl _)
      · exact absurd hlt (hleads.2.1.1 _ (List.mem_map_of_mem hg)).not_gt
    refine ⟨pre.map Group.factor, f.factor, post.map Group.factor, by simp, g.factor,
      by simpa using ⟨g, hin, rfl⟩, a, i, j, hi, ?_, ?_⟩
    · exact (hgood.covers _).mpr ⟨d, (hgood.exprs d).mpr ⟨m, hmf, hd⟩, hdi⟩
    · exact (hgood'.covers _).mpr ⟨c, (hgood'.exprs c).mpr ⟨k, hkg, hc⟩, hcj⟩

end Factors

end Encider
