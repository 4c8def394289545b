import Encider.Resource.Visit

namespace Encider

open Std

/-- `#define epsilon 0`. -/
def epsilon : Int := 0

/-- `isTrue`: the condition holds under some assignment. -/
def isTrue (S : Solver) (c : Constraint) : Bool := S.mayBeTrue [Constraint.tt] c

/-- The difference that `printLeakage` computes between two ranges. The second
test compares `R1.first` with itself. -/
def rangeDiff (R1 R2 : Range) : Int :=
  let dc1 := if R1.2 > R2.2 then R1.2 - R2.2 else R2.2 - R1.2
  let dc2 := if R1.1 > R1.1 then R1.1 - R2.1 else R2.1 - R1.1
  if dc1 > dc2 then dc1 else dc2

/-- The pairs in `sourcev` and the violations reported so far. -/
structure LeakState where
  sourcev : List (ExHash × ExHash) := []
  reports : List (ExHash × ExHash) := []

/-- `updatesource`; a pair that is there already ends the program. -/
def updatesource (k1 k2 : ExHash) (sourcev : List (ExHash × ExHash)) :
    Option (List (ExHash × ExHash)) :=
  if (k1, k2) ∈ sourcev ∨ (k2, k1) ∈ sourcev then none
  else some ((k1, k2) :: (k2, k1) :: sourcev)

/-- The high constraints differ and the low constraints agree on some assignment. -/
def comparable (S : Solver) (m : RDMaps) (k1 k2 : ExHash) : Bool :=
  match m.HE[k1]?, m.HE[k2]? with
  | some (h1, l1), some (h2, l2) =>
    (isTrue S (Constraint.and h1 h2.isZero) || isTrue S (Constraint.and h2 h1.isZero)) &&
      isTrue S (Constraint.and l1 l2)
  | _, _ => false

/-- The paths ended and their ranges are told apart. -/
def distinguished (onlycompletedpaths : Bool) (m : RDMaps) (k1 k2 : ExHash) : Bool :=
  match m.Ru[k1]?, m.Ru[k2]? with
  | some R1, some R2 =>
    (!onlycompletedpaths ||
      (decide (0 < m.terminated.getD k1 0) && decide (0 < m.terminated.getD k2 0))) &&
      decide (rangeDiff R1 R2 > epsilon)
  | _, _ => false

/-- The inner loop of `printLeakage` over the entries after `k1`. The loop ends
after a report when the node is its own H-ancestor. -/
def leakInner (S : Solver) (onlycompletedpaths selfHA : Bool) (m : RDMaps) (k1 : ExHash) :
    List ExHash → LeakState → Option LeakState
  | [], s => some s
  | k2 :: ks, s =>
    if k2 ∉ m.HE then none
    else if (k1, k2) ∈ s.sourcev ∨ (k2, k1) ∈ s.sourcev then
      leakInner S onlycompletedpaths selfHA m k1 ks s
    else if comparable S m k1 k2 then
      if k2 ∉ m.bbm then none
      else if distinguished onlycompletedpaths m k1 k2 then
        (updatesource k1 k2 s.sourcev).bind fun v =>
          if selfHA then some { sourcev := v, reports := s.reports ++ [(k1, k2)] }
          else leakInner S onlycompletedpaths selfHA m k1 ks
            { sourcev := v, reports := s.reports ++ [(k1, k2)] }
      else leakInner S onlycompletedpaths selfHA m k1 ks s
    else leakInner S onlycompletedpaths selfHA m k1 ks s

/-- The outer loop, with the assertions on the maps. -/
def leakOuter (S : Solver) (onlycompletedpaths selfHA : Bool) (m : RDMaps) :
    List ExHash → LeakState → Option LeakState
  | [], s => some s
  | k1 :: ks, s =>
    if k1 ∉ m.HE ∨ k1 ∉ m.bbm then none
    else (leakInner S onlycompletedpaths selfHA m k1 ks s).bind
      (leakOuter S onlycompletedpaths selfHA m ks)

/-- `printLeakage` on the node `rd` with the maps `m`. -/
def printLeakage (S : Solver) (onlycompletedpaths : Bool) (node : Nat → RD) (rd : Nat)
    (m : RDMaps) (s : LeakState) : Option LeakState :=
  leakOuter S onlycompletedpaths ((node rd).HA == some rd) m m.Ru.keys s

/-- Every entry of `Ru` has its constraints and its blocks, as `propagate` leaves them. -/
def RDMaps.Complete (m : RDMaps) : Prop := ∀ k ∈ m.Ru, k ∈ m.HE ∧ k ∈ m.bbm

theorem Recorded.complete {T : ResourceTree} {hv : HashValue} {vs : List Nat} {a : Nat}
    {m : RDMaps} (h : Recorded T hv vs a m) : m.Complete := by
  intro k hk
  have hl := (h.mem_Ru k).mp hk
  exact ⟨(h.mem_HE k).mpr hl, (h.mem_bbm k).mpr hl⟩

/-- The pair is reported when it comes up. -/
def violates (S : Solver) (onlycompletedpaths : Bool) (m : RDMaps) (k1 k2 : ExHash) : Bool :=
  comparable S m k1 k2 && distinguished onlycompletedpaths m k1 k2

variable {S : Solver} {onlycompletedpaths : Bool} {m : RDMaps}

/-- One turn of the inner loop, on a pair that is not reported yet. -/
theorem leakInner_cons {k1 k2 : ExHash} {ks : List ExHash} {s : LeakState}
    (hHE : k2 ∈ m.HE) (hbbm : k2 ∈ m.bbm)
    (hnew : ¬ ((k1, k2) ∈ s.sourcev ∨ (k2, k1) ∈ s.sourcev)) :
    leakInner S onlycompletedpaths false m k1 (k2 :: ks) s =
      leakInner S onlycompletedpaths false m k1 ks
        (if violates S onlycompletedpaths m k1 k2 then
          { sourcev := (k1, k2) :: (k2, k1) :: s.sourcev, reports := s.reports ++ [(k1, k2)] }
         else s) := by
  rw [leakInner, if_neg (by simp [hHE]), if_neg hnew]
  cases hc : comparable S m k1 k2 with
  | false => simp [violates, hc]
  | true =>
    cases hd : distinguished onlycompletedpaths m k1 k2 with
    | false => simp [violates, hc, hd, hbbm]
    | true => simp [violates, hc, hd, hbbm, updatesource, hnew]

/-- The inner loop reports the violating pairs and remembers them both ways round. -/
theorem leakInner_spec (S : Solver) (onlycompletedpaths : Bool) {k1 : ExHash}
    {ks : List ExHash} (hm : ∀ k ∈ ks, k ∈ m.HE ∧ k ∈ m.bbm)
    (hnd : ks.Nodup) (s : LeakState)
    (hnew : ∀ k ∈ ks, (k1, k) ∉ s.sourcev ∧ (k, k1) ∉ s.sourcev) (hk1 : k1 ∉ ks) :
    ∃ s', leakInner S onlycompletedpaths false m k1 ks s = some s' ∧
      (∀ p, p ∈ s'.reports ↔ p ∈ s.reports ∨
        ∃ k2 ∈ ks, violates S onlycompletedpaths m k1 k2 = true ∧ p = (k1, k2)) ∧
      (∀ p, p ∈ s'.sourcev → p ∈ s.sourcev ∨ p.1 = k1 ∨ p.2 = k1) := by
  induction ks generalizing s with
  | nil => exact ⟨s, rfl, by simp, fun p hp => .inl hp⟩
  | cons k2 ks ih =>
    rw [List.nodup_cons] at hnd
    have h2 := hm k2 List.mem_cons_self
    have hn2 := hnew k2 List.mem_cons_self
    have hne : k1 ≠ k2 := fun he => hk1 (he ▸ List.mem_cons_self)
    rw [leakInner_cons h2.1 h2.2 (fun h => h.elim hn2.1 hn2.2)]
    cases hv : violates S onlycompletedpaths m k1 k2 with
    | false =>
      obtain ⟨s', hs, hr, hsrc⟩ := ih (fun k hk => hm k (List.mem_cons_of_mem _ hk)) hnd.2 s
        (fun k hk => hnew k (List.mem_cons_of_mem _ hk)) (fun h => hk1 (List.mem_cons_of_mem _ h))
      refine ⟨s', by simpa using hs, ?_, hsrc⟩
      intro p
      rw [hr]
      simp [hv]
    | true =>
      have hnew' : ∀ k ∈ ks, (k1, k) ∉ (k1, k2) :: (k2, k1) :: s.sourcev ∧
          (k, k1) ∉ (k1, k2) :: (k2, k1) :: s.sourcev := by
        intro k hk
        have hk2 : k ≠ k2 := fun he => hnd.1 (he ▸ hk)
        have hk1' : k ≠ k1 := fun he => hk1 (List.mem_cons_of_mem _ (he ▸ hk))
        have hold := hnew k (List.mem_cons_of_mem _ hk)
        simp [hk2, hk1', hne, hold.1, hold.2]
      obtain ⟨s', hs, hr, hsrc⟩ := ih (fun k hk => hm k (List.mem_cons_of_mem _ hk)) hnd.2
        { sourcev := (k1, k2) :: (k2, k1) :: s.sourcev, reports := s.reports ++ [(k1, k2)] }
        hnew' (fun h => hk1 (List.mem_cons_of_mem _ h))
      refine ⟨s', by simpa using hs, ?_, ?_⟩
      · intro p
        rw [hr]
        simp [hv, or_assoc]
      · intro p hp
        rcases hsrc p hp with h | h
        · simp only [List.mem_cons] at h
          rcases h with rfl | rfl | h
          · exact .inr (.inl rfl)
          · exact .inr (.inr rfl)
          · exact .inl h
        · exact .inr h

/-- The outer loop reports the violating pairs in which the smaller key stands first. -/
theorem leakOuter_spec (S : Solver) (onlycompletedpaths : Bool) {ks : List ExHash}
    (hm : ∀ k ∈ ks, k ∈ m.HE ∧ k ∈ m.bbm)
    (hord : ks.Pairwise fun a b => ExHash.cmp a b = .lt) (s : LeakState)
    (hnew : ∀ p ∈ s.sourcev, p.1 ∉ ks ∨ p.2 ∉ ks) :
    ∃ s', leakOuter S onlycompletedpaths false m ks s = some s' ∧
      ∀ p, p ∈ s'.reports ↔ p ∈ s.reports ∨ (p.1 ∈ ks ∧ p.2 ∈ ks ∧
        ExHash.cmp p.1 p.2 = .lt ∧ violates S onlycompletedpaths m p.1 p.2 = true) := by
  induction ks generalizing s with
  | nil => exact ⟨s, rfl, by simp⟩
  | cons k1 ks ih =>
    rw [List.pairwise_cons] at hord
    have hirr : ∀ k : ExHash, ExHash.cmp k k ≠ .lt := by
      intro k
      simp
    have hk1 : k1 ∉ ks := fun h => hirr k1 (hord.1 k1 h)
    have hnd : ks.Nodup := by
      refine hord.2.imp ?_
      intro a b h he
      exact hirr b (he ▸ h)
    have h1 := hm k1 List.mem_cons_self
    have hsrc : ∀ k ∈ ks, (k1, k) ∉ s.sourcev ∧ (k, k1) ∉ s.sourcev := by
      intro k hk
      refine ⟨fun h => ?_, fun h => ?_⟩
      · rcases hnew _ h with h | h
        · exact h List.mem_cons_self
        · exact h (List.mem_cons_of_mem _ hk)
      · rcases hnew _ h with h | h
        · exact h (List.mem_cons_of_mem _ hk)
        · exact h List.mem_cons_self
    obtain ⟨s1, hs1, hr1, hsrc1⟩ := leakInner_spec S onlycompletedpaths
      (fun k hk => hm k (List.mem_cons_of_mem _ hk)) hnd s hsrc hk1
    obtain ⟨s2, hs2, hr2⟩ := ih (fun k hk => hm k (List.mem_cons_of_mem _ hk)) hord.2 s1 (by
      intro p hp
      rcases hsrc1 p hp with h | h | h
      · exact (hnew p h).imp (fun h h' => h (List.mem_cons_of_mem _ h'))
          (fun h h' => h (List.mem_cons_of_mem _ h'))
      · exact .inl (h ▸ hk1)
      · exact .inr (h ▸ hk1))
    refine ⟨s2, by rw [leakOuter, if_neg (by simp [h1]), hs1]; exact hs2, ?_⟩
    intro p
    rw [hr2, hr1, or_assoc]
    refine or_congr_right ?_
    constructor
    · intro h
      rcases h with ⟨k2, hk2, hv, rfl⟩ | ⟨hp1, hp2, hlt, hv⟩
      · exact ⟨List.mem_cons_self, List.mem_cons_of_mem _ hk2, hord.1 k2 hk2, hv⟩
      · exact ⟨List.mem_cons_of_mem _ hp1, List.mem_cons_of_mem _ hp2, hlt, hv⟩
    · intro h
      obtain ⟨hp1, hp2, hlt, hv⟩ := h
      rcases List.mem_cons.mp hp1 with hp | hp1
      · rcases List.mem_cons.mp hp2 with hq | hp2
        · rw [hp, hq] at hlt
          exact absurd hlt (hirr k1)
        · exact .inl ⟨p.2, hp2, hp ▸ hv, Prod.ext hp rfl⟩
      · rcases List.mem_cons.mp hp2 with hq | hp2
        · have hgt := OrientedCmp.gt_of_lt (hord.1 _ hp1)
          rw [hq, hgt] at hlt
          cases hlt
        · exact .inr ⟨hp1, hp2, hlt, hv⟩

/-- The high constraints differ on some assignment and the low ones agree on one. -/
def TellsApart (e1 e2 : HCLC) : Prop :=
  (∃ σ, ¬ (e1.1.Holds σ ↔ e2.1.Holds σ)) ∧ ∃ σ, e1.2.Holds σ ∧ e2.2.Holds σ

/-- The entries of `k1` and `k2` make a timing violation. -/
def LeakPair (onlycompletedpaths : Bool) (m : RDMaps) (k1 k2 : ExHash) : Prop :=
  ∃ R1 R2 e1 e2, m.Ru[k1]? = some R1 ∧ m.Ru[k2]? = some R2 ∧ m.HE[k1]? = some e1 ∧
    m.HE[k2]? = some e2 ∧ TellsApart e1 e2 ∧
      (onlycompletedpaths = true → 0 < m.terminated.getD k1 0 ∧ 0 < m.terminated.getD k2 0) ∧
        epsilon < max |R1.2 - R2.2| |R1.1 - R2.1|

theorem isTrue_iff (S : Solver) (c : Constraint) : isTrue S c = true ↔ ∃ σ, c.Holds σ := by
  rw [isTrue, S.exact]
  simp

theorem comparable_iff {k1 k2 : ExHash} {e1 e2 : HCLC} (h1 : m.HE[k1]? = some e1)
    (h2 : m.HE[k2]? = some e2) : comparable S m k1 k2 = true ↔ TellsApart e1 e2 := by
  simp only [comparable, h1, h2, Bool.and_eq_true, Bool.or_eq_true, isTrue_iff,
    Constraint.and_holds, Constraint.isZero_holds, TellsApart]
  refine and_congr_left fun _ => ?_
  rw [← exists_or]
  refine exists_congr fun σ => ?_
  tauto

theorem rangeDiff_eq (R1 R2 : Range) :
    rangeDiff R1 R2 = max |R1.2 - R2.2| (R2.1 - R1.1) := by
  have hmax : (if R1.2 > R2.2 then R1.2 - R2.2 else R2.2 - R1.2) = |R1.2 - R2.2| := by
    split
    · rw [abs_of_nonneg (by omega)]
    · rw [abs_of_nonpos (by omega), neg_sub]
  have hmin : (if R1.1 > R1.1 then R1.1 - R2.1 else R2.1 - R1.1) = R2.1 - R1.1 :=
    if_neg (by omega)
  simp only [rangeDiff, hmax, hmin]
  split
  · rw [max_eq_left (by omega)]
  · rw [max_eq_right (by omega)]

theorem violates_iff {k1 k2 : ExHash} {R1 R2 : Range} {e1 e2 : HCLC}
    (hR1 : m.Ru[k1]? = some R1) (hR2 : m.Ru[k2]? = some R2) (h1 : m.HE[k1]? = some e1)
    (h2 : m.HE[k2]? = some e2) :
    violates S onlycompletedpaths m k1 k2 = true ↔ TellsApart e1 e2 ∧
      (onlycompletedpaths = true → 0 < m.terminated.getD k1 0 ∧ 0 < m.terminated.getD k2 0) ∧
        epsilon < max |R1.2 - R2.2| (R2.1 - R1.1) := by
  simp only [violates, Bool.and_eq_true, comparable_iff h1 h2, distinguished, hR1, hR2,
    Bool.or_eq_true, Bool.not_eq_true', decide_eq_true_eq, gt_iff_lt, rangeDiff_eq]
  cases onlycompletedpaths <;> simp

theorem LeakPair.symm {k1 k2 : ExHash} (h : LeakPair onlycompletedpaths m k1 k2) :
    LeakPair onlycompletedpaths m k2 k1 := by
  obtain ⟨R1, R2, e1, e2, hR1, hR2, h1, h2, ⟨⟨σ, hσ⟩, τ, hτ⟩, ht, hd⟩ := h
  refine ⟨R2, R1, e2, e1, hR2, hR1, h2, h1, ⟨⟨σ, fun he => hσ he.symm⟩, τ, hτ.symm⟩,
    fun ho => (ht ho).symm, ?_⟩
  rwa [abs_sub_comm R2.2, abs_sub_comm R2.1]

theorem LeakPair.ne {k1 k2 : ExHash} (h : LeakPair onlycompletedpaths m k1 k2) : k1 ≠ k2 := by
  intro he
  subst he
  obtain ⟨R1, R2, e1, e2, -, -, h1, h2, ⟨⟨σ, hσ⟩, -⟩, -⟩ := h
  rw [h1] at h2
  cases h2
  exact hσ Iff.rfl

/-- Of two entries that leak, with the smaller hash first, the maxima differ or the
second has the greater minimum. -/
def MinimaInOrder (onlycompletedpaths : Bool) (m : RDMaps) : Prop :=
  ∀ k1 k2, ExHash.cmp k1 k2 = .lt → LeakPair onlycompletedpaths m k1 k2 →
    ∀ R1 R2, m.Ru[k1]? = some R1 → m.Ru[k2]? = some R2 →
      epsilon < |R1.2 - R2.2| ∨ epsilon < R2.1 - R1.1

/-- The reports of `printLeakage` are exactly the violations. -/
def ReportsExact (S : Solver) (onlycompletedpaths : Bool) (node : Nat → RD) (rd : Nat)
    (m : RDMaps) : Prop :=
  ∃ s, printLeakage S onlycompletedpaths node rd m {} = some s ∧
    ∀ k1 k2, (k1, k2) ∈ s.reports ∨ (k2, k1) ∈ s.reports ↔ LeakPair onlycompletedpaths m k1 k2

/-- What is reported, on complete maps. -/
theorem printLeakage_spec (S : Solver) (onlycompletedpaths : Bool) (T : ResourceTree) (rd : Nat)
    {m : RDMaps} (hm : m.Complete) :
    ∃ s, printLeakage S onlycompletedpaths T.node rd m {} = some s ∧
      ∀ p, p ∈ s.reports ↔ p.1 ∈ m.Ru ∧ p.2 ∈ m.Ru ∧ ExHash.cmp p.1 p.2 = .lt ∧
        violates S onlycompletedpaths m p.1 p.2 = true := by
  have hself : ((T.node rd).HA == some rd) = false := by
    rw [beq_eq_false_iff_ne]
    intro h
    exact absurd (T.rank_lt rd rd h) (lt_irrefl _)
  have hcomplete : ∀ k ∈ m.Ru.keys, k ∈ m.HE ∧ k ∈ m.bbm :=
    fun k hk => hm k (TreeMap.mem_keys.mp hk)
  obtain ⟨s, hs, hr⟩ :=
    leakOuter_spec S onlycompletedpaths hcomplete TreeMap.ordered_keys {} (by simp)
  refine ⟨s, by rw [printLeakage, hself, hs], ?_⟩
  intro p
  simp [hr, TreeMap.mem_keys]

/-- A tree of one node. -/
def oneNode : ResourceTree where
  node _ := {}
  tree := .node 0 []
  nodup := by decide
  above x a h := by cases h
  leaf l _ := rfl

/-- Two entries of an H-branch: the first under a true, the second under a false
high constraint, both reached by one normally ended path. -/
def twoEntries (R1 R2 : Range) : RDMaps where
  Ru := ((∅ : ExMap Range).insert (0, 0) R1).insert (1, 0) R2
  HE := ((∅ : ExMap HCLC).insert (0, 0) (Constraint.tt, Constraint.tt)).insert (1, 0)
    (Constraint.tt.isZero, Constraint.tt)
  bbm := ((∅ : ExMap (Finset Nat)).insert (0, 0) ∅).insert (1, 0) ∅
  terminated := ((∅ : ExMap Nat).insert (0, 0) 1).insert (1, 0) 1

theorem twoEntries_complete (R1 R2 : Range) : (twoEntries R1 R2).Complete := by
  intro k hk
  simp only [twoEntries, ExMap.mem_insert, TreeMap.not_mem_emptyc, or_false] at hk ⊢
  exact ⟨hk, hk⟩

theorem twoEntries_Ru {R1 R2 : Range} {k : ExHash} {R : Range}
    (h : (twoEntries R1 R2).Ru[k]? = some R) : k = (0, 0) ∧ R = R1 ∨ k = (1, 0) ∧ R = R2 := by
  simp only [twoEntries, ExMap.getElem?_insert, TreeMap.getElem?_emptyc] at h
  split at h
  · rename_i hk
    cases h
    exact .inr ⟨hk.symm, rfl⟩
  · split at h
    · rename_i hk
      cases h
      exact .inl ⟨hk.symm, rfl⟩
    · cases h

end Encider
