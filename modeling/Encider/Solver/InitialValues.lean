import Encider.Solver.Factors

/-! `IndependentSolver::computeInitialValues`: the factors are solved one after the other, and their
values put together. -/

namespace Encider

open IndependentElementSet

/-- The bytes of an array that an assignment gives. Those of a constant array do not matter. -/
def Assignment.Gives (σ : Assignment) (a : Array) (bytes : List (BitVec a.range)) : Prop :=
  bytes.length = a.size ∧ (a.constantValues = [] → ∀ i < a.size, bytes[i]? = some (σ a i))

/-- An exact `computeInitialValues` for queries with the expression false; `none` where there is no
solution. -/
structure InitialSolver where
  computeInitialValues :
    List Constraint → List Array → Option ((a : Array) → List (BitVec a.range))
  solution : ∀ cs objects values, computeInitialValues cs objects = some values →
    ∃ σ : Assignment, σ.Bounded ∧ (∀ c ∈ cs, c.Holds σ) ∧ ∀ a ∈ objects, σ.Gives a (values a)
  noSolution : ∀ cs objects, computeInitialValues cs objects = none →
    ¬ ∃ σ : Assignment, σ.Bounded ∧ ∀ c ∈ cs, c.Holds σ

open Classical in
/-- The solver that decides every query. -/
noncomputable def InitialSolver.ideal : InitialSolver where
  computeInitialValues cs _ :=
    if h : ∃ σ : Assignment, σ.Bounded ∧ ∀ c ∈ cs, c.Holds σ then
      some fun a => (List.range a.size).map (h.choose a)
    else none
  solution cs objects values h := by
    split_ifs at h with hsat
    obtain rfl := Option.some.inj h
    refine ⟨hsat.choose, hsat.choose_spec.1, hsat.choose_spec.2, fun a _ => ⟨by simp, ?_⟩⟩
    intro _ i hi
    simp [hi]
  noSolution cs objects h := by
    split_ifs at h with hsat
    exact hsat

/-- The bytes found so far. -/
abbrev RetMap := (a : Array) → Option (List (BitVec a.range))

namespace IndependentElementSet

/-- `calculateArrayReferences`. -/
def arrayReferences (it : IndependentElementSet) : List Array :=
  (it.elements.map Prod.fst ++ it.wholeObjects).dedup

theorem mem_arrayReferences {it : IndependentElementSet} {a : Array} :
    a ∈ it.arrayReferences ↔ ∃ i, it.Covers (a, i) := by
  simp only [arrayReferences, List.mem_dedup, List.mem_append, List.mem_map, Prod.exists,
    exists_and_right, exists_eq_right, Covers]
  constructor
  · rintro (⟨i, hi⟩ | ha)
    · exact ⟨i, Or.inl hi⟩
    · exact ⟨0, Or.inr ha⟩
  · rintro ⟨i, hi | ha⟩
    · exact Or.inl ⟨i, hi⟩
    · exact Or.inr ha

theorem arrayReferences_nodup (it : IndependentElementSet) : it.arrayReferences.Nodup :=
  List.nodup_dedup _

/-- One byte of the new values is written; `none` past the end. -/
def writeByte {β : Type} (tempValues ptr : List β) (index : Nat) : Option (List β) :=
  if index < ptr.length then tempValues[index]?.map (ptr.set index) else none

/-- The bytes of an array with the new values of a factor. Only its elements are put into an array
that has values. -/
def splice (it : IndependentElementSet) (a : Array) (tempValues : List (BitVec a.range)) :
    Option (List (BitVec a.range)) → Option (List (BitVec a.range))
  | some ptr =>
    if ptr.length = tempValues.length then
      ((it.elements.filter fun y => y.1 = a).map Prod.snd).foldlM (writeByte tempValues) ptr
    else none
  | none => some tempValues

def place (it : IndependentElementSet) (tempValues : (a : Array) → List (BitVec a.range))
    (retMap : RetMap) (a : Array) : Option RetMap :=
  (it.splice a (tempValues a) (retMap a)).map fun bytes => Function.update retMap a (some bytes)

end IndependentElementSet

namespace InitialSolver

variable (solver : InitialSolver)

/-- The loop over the factors: `none` where a byte is written past the end of an array, `some none`
where a factor has no solution. -/
def solveFactors (retMap : RetMap) : List IndependentElementSet → Option (Option RetMap)
  | [] => some (some retMap)
  | it :: factors =>
    if it.arrayReferences = [] then solveFactors retMap factors
    else
      match solver.computeInitialValues it.exprs it.arrayReferences with
      | none => some none
      | some tempValues =>
        (it.arrayReferences.foldlM (it.place tempValues) retMap).bind fun retMap =>
          solveFactors retMap factors

/-- Without the assertion at its end, which is about the values it has computed. -/
def independentInitialValues (query : Query) (objects : List Array) :
    Option (Option (List ((a : Array) × List (BitVec a.range)))) :=
  (getAllIndependentConstraintsSets query).bind fun factors =>
    (solver.solveFactors (fun _ => none) factors).map fun r =>
      r.map fun retMap =>
        objects.map fun a => ⟨a, (retMap a).getD (List.replicate a.size 0)⟩

end InitialSolver

/-! Writing the bytes of a factor -/

theorem foldlM_writeByte {β : Type} {temp : List β} (is : List Nat) (ptr : List β)
    (hlen : ptr.length = temp.length) (h : ∀ i ∈ is, i < ptr.length) :
    ∃ out, is.foldlM (writeByte temp) ptr = some out ∧ out.length = ptr.length ∧
      ∀ k, out[k]? = if k ∈ is then temp[k]? else ptr[k]? := by
  induction is generalizing ptr with
  | nil => exact ⟨ptr, rfl, rfl, fun k => by simp⟩
  | cons i is ih =>
    have hi := h i List.mem_cons_self
    have hti : i < temp.length := hlen ▸ hi
    have hstep : writeByte temp ptr i = some (ptr.set i temp[i]) := by
      rw [writeByte, if_pos hi, List.getElem?_eq_getElem hti, Option.map_some]
    have hset : (ptr.set i temp[i]).length = ptr.length := List.length_set
    obtain ⟨out, hout, hlength, hget⟩ := ih (ptr.set i temp[i]) (hset.trans hlen)
      fun j hj => hset ▸ h j (List.mem_cons_of_mem _ hj)
    refine ⟨out, by rw [List.foldlM_cons, hstep]; exact hout, hlength.trans hset, fun k => ?_⟩
    rw [hget]
    by_cases hk : k ∈ is
    · simp [hk]
    · by_cases hki : k = i
      · subst hki
        simp [hk, hi, List.getElem?_eq_getElem hti]
      · simp [hk, hki, List.getElem?_set_ne (Ne.symm hki)]

theorem foldlM_writeByte_none {β : Type} {temp : List β} (is : List Nat) {ptr : List β} {i : Nat}
    (hi : i ∈ is) (h : ptr.length ≤ i) : is.foldlM (writeByte temp) ptr = none := by
  induction is generalizing ptr with
  | nil => exact absurd hi List.not_mem_nil
  | cons j is ih =>
    rw [List.foldlM_cons]
    cases hj : writeByte temp ptr j with
    | none => rfl
    | some out =>
      have hlength : out.length = ptr.length := by
        unfold writeByte at hj
        split_ifs at hj
        obtain ⟨b, -, rfl⟩ := Option.map_eq_some_iff.mp hj
        exact List.length_set
      obtain rfl | hi := List.mem_cons.mp hi
      · rw [writeByte, if_neg h.not_gt] at hj
        cases hj
      · exact ih hi (hlength ▸ h)

section Place

variable {it : IndependentElementSet} {tempValues : (a : Array) → List (BitVec a.range)}

theorem foldlM_place {as : List Array} (hnodup : as.Nodup) (retMap : RetMap)
    (h : ∀ a ∈ as, it.splice a (tempValues a) (retMap a) ≠ none) :
    ∃ out, as.foldlM (it.place tempValues) retMap = some out ∧
      ∀ a, out a = if a ∈ as then it.splice a (tempValues a) (retMap a) else retMap a := by
  induction as generalizing retMap with
  | nil => exact ⟨retMap, rfl, fun a => by simp⟩
  | cons b as ih =>
    obtain ⟨hb, hnodup⟩ := List.nodup_cons.mp hnodup
    obtain ⟨bytes, hbytes⟩ := Option.ne_none_iff_exists'.mp (h b List.mem_cons_self)
    have hstep : it.place tempValues retMap b = some (Function.update retMap b (some bytes)) := by
      rw [IndependentElementSet.place, hbytes, Option.map_some]
    have hkeep : ∀ a ∈ as, Function.update retMap b (some bytes) a = retMap a := fun a ha =>
      Function.update_of_ne (ne_of_mem_of_not_mem ha hb) _ _
    obtain ⟨out, hout, hget⟩ := ih hnodup (Function.update retMap b (some bytes))
      fun a ha => by
        rw [hkeep a ha]
        exact h a (List.mem_cons_of_mem _ ha)
    refine ⟨out, by rw [List.foldlM_cons, hstep]; exact hout, fun a => ?_⟩
    rw [hget]
    by_cases ha : a ∈ as
    · rw [if_pos ha, if_pos (List.mem_cons_of_mem _ ha), hkeep a ha]
    · by_cases hab : a = b
      · subst hab
        rw [if_neg ha, if_pos List.mem_cons_self, Function.update_self, hbytes]
      · rw [if_neg ha, Function.update_of_ne hab, if_neg (by simp [hab, ha])]

theorem foldlM_place_none {as : List Array} (hnodup : as.Nodup) {retMap : RetMap} {a : Array}
    (ha : a ∈ as) (h : it.splice a (tempValues a) (retMap a) = none) :
    as.foldlM (it.place tempValues) retMap = none := by
  induction as generalizing retMap with
  | nil => exact absurd ha List.not_mem_nil
  | cons b as ih =>
    obtain ⟨hb, hnodup⟩ := List.nodup_cons.mp hnodup
    rw [List.foldlM_cons]
    cases hstep : it.place tempValues retMap b with
    | none => rfl
    | some out =>
      obtain ⟨bytes, hbytes, rfl⟩ := Option.map_eq_some_iff.mp hstep
      obtain rfl | ha := List.mem_cons.mp ha
      · rw [h] at hbytes
        cases hbytes
      · refine ih hnodup ha ?_
        rwa [Function.update_of_ne (ne_of_mem_of_not_mem ha hb)]

end Place

/-! The values of several factors -/

/-- The assignment that binds the arrays to the bytes found. -/
def RetMap.assignment (retMap : RetMap) : Assignment := fun a i =>
  if a.constantValues = [] then ((retMap a).bind fun bytes => bytes[i]?).getD 0 else 0

/-- A factor covers what its expressions touch. -/
def IndependentElementSet.Exact (f : IndependentElementSet) : Prop :=
  ∀ x, f.Covers x ↔ ∃ c ∈ f.exprs, c.val.Touches x

/-- The bytes found satisfy the expressions of the factors that read some. -/
structure Collected (retMap : RetMap) (factors : List IndependentElementSet) : Prop where
  sized : ∀ a bytes, retMap a = some bytes → bytes.length = a.size
  known : ∀ a, retMap a ≠ none ↔ ∃ f ∈ factors, a ∈ f.arrayReferences
  holds : ∀ f ∈ factors, (∃ x, f.Covers x) → ∀ c ∈ f.exprs, c.Holds retMap.assignment

theorem RetMap.bounded {retMap : RetMap}
    (h : ∀ a bytes, retMap a = some bytes → bytes.length = a.size) :
    retMap.assignment.Bounded := by
  rintro a i (hconst | hi)
  · exact if_neg hconst
  · unfold RetMap.assignment
    split_ifs
    · cases hr : retMap a with
      | none => rfl
      | some bytes => simp [List.getElem?_eq_none ((h a bytes hr).trans_le hi)]
    · rfl

/-- An element of a set whose array another set reads elsewhere is one of its constant indices. -/
theorem mem_elements {f s : IndependentElementSet} {a : Array} {i j : Nat} (hapart : ¬ s.Meets f)
    (hf : f.Covers (a, i)) (hs : s.Covers (a, j)) : (a, i) ∈ f.elements := by
  obtain hf | hwhole := hf
  · exact hf
  · exact absurd ⟨(a, j), hs, Or.inr hwhole⟩ hapart

section Step

variable {retMap : RetMap} {factors : List IndependentElementSet} {it : IndependentElementSet}
  {tempValues : (a : Array) → List (BitVec a.range)} {σ : Assignment}

theorem mem_filter_elements {a : Array} {i : Nat} :
    i ∈ (it.elements.filter fun y => y.1 = a).map Prod.snd ↔ (a, i) ∈ it.elements := by
  simp only [List.mem_map, List.mem_filter, decide_eq_true_eq, Prod.exists]
  constructor
  · rintro ⟨b, j, ⟨hmem, rfl⟩, rfl⟩
    exact hmem
  · intro h
    exact ⟨a, i, ⟨h, rfl⟩, rfl⟩

/-- The bytes of one array after a factor that does not write past its end. -/
theorem splice_spec (h : Collected retMap factors) (hapart : ∀ f ∈ factors, ¬ f.Meets it)
    {a : Array} (hlen : (tempValues a).length = a.size)
    (hin : ∀ i, it.Covers (a, i) → a.size ≤ i → retMap a = none) :
    ∃ bytes, it.splice a (tempValues a) (retMap a) = some bytes ∧ bytes.length = a.size ∧
      (∀ i, it.Covers (a, i) → bytes[i]? = (tempValues a)[i]?) ∧
      ∀ old, retMap a = some old → ∀ i, ¬ it.Covers (a, i) → bytes[i]? = old[i]? := by
  cases hold : retMap a with
  | none => exact ⟨tempValues a, rfl, hlen, fun _ _ => rfl, nofun⟩
  | some old =>
    have hsize := h.sized a old hold
    obtain ⟨f, hf, haf⟩ := (h.known a).mp (by simp [hold])
    obtain ⟨j, hj⟩ := mem_arrayReferences.mp haf
    have helem : ∀ i, it.Covers (a, i) ↔ (a, i) ∈ it.elements := fun i =>
      ⟨fun hi => mem_elements (hapart f hf) hi hj, Or.inl⟩
    have hbound : ∀ i ∈ (it.elements.filter fun y => y.1 = a).map Prod.snd, i < old.length := by
      intro i hi
      rw [mem_filter_elements, ← helem] at hi
      by_contra hge
      have hnone := hin i hi (hsize ▸ not_lt.mp hge)
      rw [hold] at hnone
      cases hnone
    obtain ⟨out, hout, hlength, hget⟩ :=
      foldlM_writeByte _ old (hsize.trans hlen.symm) hbound
    refine ⟨out, ?_, hlength.trans hsize, fun i hi => ?_, fun old' hold' i hi => ?_⟩
    · rw [IndependentElementSet.splice, if_pos (hsize.trans hlen.symm), hout]
    · rw [hget, if_pos (mem_filter_elements.mpr ((helem i).mp hi))]
    · obtain rfl := Option.some.inj hold'
      rw [hget, if_neg (mt mem_filter_elements.mp (mt (helem i).mpr hi))]

/-- A factor whose values fit. -/
theorem Collected.step (h : Collected retMap factors) (hexact : ∀ f ∈ it :: factors, f.Exact)
    (hapart : ∀ f ∈ factors, ¬ f.Meets it) (hσ : σ.Bounded) (hsat : ∀ c ∈ it.exprs, c.Holds σ)
    (hgives : ∀ a ∈ it.arrayReferences, σ.Gives a (tempValues a))
    (hin : ∀ a i, it.Covers (a, i) → a.size ≤ i → retMap a = none) :
    ∃ out, it.arrayReferences.foldlM (it.place tempValues) retMap = some out ∧
      Collected out (factors ++ [it]) := by
  have hspec : ∀ a ∈ it.arrayReferences, ∃ bytes,
      it.splice a (tempValues a) (retMap a) = some bytes ∧ bytes.length = a.size ∧
      (∀ i, it.Covers (a, i) → bytes[i]? = (tempValues a)[i]?) ∧
      ∀ old, retMap a = some old → ∀ i, ¬ it.Covers (a, i) → bytes[i]? = old[i]? := fun a ha =>
    splice_spec h hapart (hgives a ha).1 (hin a)
  obtain ⟨out, hout, hget⟩ := foldlM_place it.arrayReferences_nodup retMap
    fun a ha hnone => by
      obtain ⟨bytes, hbytes, -⟩ := hspec a ha
      rw [hnone] at hbytes
      cases hbytes
  have hsized : ∀ a bytes, out a = some bytes → bytes.length = a.size := by
    intro a bytes hbytes
    rw [hget] at hbytes
    split_ifs at hbytes with ha
    · obtain ⟨bytes', hbytes', hlength, -⟩ := hspec a ha
      rw [hbytes'] at hbytes
      exact Option.some.inj hbytes ▸ hlength
    · exact h.sized a bytes hbytes
  have hbounded := RetMap.bounded hsized
  -- the elements of the factor have the solver's values
  have hnew : ∀ x, it.Covers x → out.assignment x.1 x.2 = σ x.1 x.2 := by
    rintro ⟨a, i⟩ hx
    by_cases hmeaning : a.constantValues = [] ∧ i < a.size
    · have ha := mem_arrayReferences.mpr ⟨i, hx⟩
      obtain ⟨bytes, hbytes, -, hcovered, -⟩ := hspec a ha
      unfold RetMap.assignment
      rw [if_pos hmeaning.1, hget, if_pos ha, hbytes, Option.bind_some, hcovered i hx,
        (hgives a ha).2 hmeaning.1 i hmeaning.2, Option.getD_some]
    · have hzero : a.constantValues ≠ [] ∨ a.size ≤ i := by
        by_cases hc : a.constantValues = []
        · exact Or.inr (not_lt.mp fun hi => hmeaning ⟨hc, hi⟩)
        · exact Or.inl hc
      rw [hbounded a i hzero, hσ a i hzero]
  -- and those of the earlier factors keep theirs
  have hold : ∀ f ∈ factors, ∀ x, f.Covers x →
      out.assignment x.1 x.2 = retMap.assignment x.1 x.2 := by
    rintro f hf ⟨a, i⟩ hx
    have hnot : ¬ it.Covers (a, i) := fun hit => hapart f hf ⟨(a, i), hx, hit⟩
    unfold RetMap.assignment
    rw [hget]
    split_ifs with hsym ha
    · have hknown := (h.known a).mpr ⟨f, hf, mem_arrayReferences.mpr ⟨i, hx⟩⟩
      obtain ⟨old, hold⟩ := Option.ne_none_iff_exists'.mp hknown
      obtain ⟨bytes, hbytes, -, -, hrest⟩ := hspec a ha
      rw [hbytes, hold, Option.bind_some, Option.bind_some, hrest old hold i hnot]
    · rfl
    · rfl
  refine ⟨out, hout, hsized, fun a => ?_, fun f hf hreads c hc => ?_⟩
  · rw [hget]
    simp only [List.mem_append, List.mem_singleton, or_and_right, exists_or, exists_eq_left,
      ← h.known]
    split_ifs with ha
    · obtain ⟨bytes, hbytes, -⟩ := hspec a ha
      simp [hbytes, ha]
    · simp [ha]
  · obtain hf | hf := List.mem_append.mp hf
    · refine (Constraint.holds_congr hbounded (RetMap.bounded h.sized) fun x hx => ?_).mpr
        (h.holds f hf hreads c hc)
      exact hold f hf x ((hexact f (List.mem_cons_of_mem _ hf) x).mpr ⟨c, hc, hx⟩)
    · obtain rfl := List.mem_singleton.mp hf
      refine (Constraint.holds_congr hbounded hσ fun x hx => ?_).mpr (hsat c hc)
      exact hnew x ((hexact f List.mem_cons_self x).mpr ⟨c, hc, hx⟩)

/-- A factor that has an element past the end of an array that has values. -/
theorem place_none (h : Collected retMap factors) (hapart : ∀ f ∈ factors, ¬ f.Meets it)
    {f : IndependentElementSet} (hf : f ∈ factors) {a : Array} {i j : Nat} (hi : a.size ≤ i)
    (hit : it.Covers (a, i)) (hfj : f.Covers (a, j)) :
    it.arrayReferences.foldlM (it.place tempValues) retMap = none := by
  have hknown := (h.known a).mpr ⟨f, hf, mem_arrayReferences.mpr ⟨j, hfj⟩⟩
  obtain ⟨old, hold⟩ := Option.ne_none_iff_exists'.mp hknown
  refine foldlM_place_none it.arrayReferences_nodup (mem_arrayReferences.mpr ⟨i, hit⟩) ?_
  rw [hold, IndependentElementSet.splice]
  split_ifs
  · have hmem := mem_filter_elements.mpr (mem_elements (hapart f hf) hit hfj)
    exact foldlM_writeByte_none _ hmem ((h.sized a old hold).trans_le hi)
  · rfl

end Step

end Encider
