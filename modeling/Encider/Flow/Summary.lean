import Encider.Flow.Order

/-! `recordInfoFlow`: the flows of the states and those of the summary. -/

namespace Encider

open Ordered

def indexLt (i j : Int) : Bool := decide (i < j)

/-- States by their addresses. -/
def stateLt (s t : Nat) : Bool := decide (s < t)

/-- The sources of each destination. -/
abbrev FlowMap := List (InfoFlowRegion × List InfoFlowRegion)

structure InfoFlow where
  infoFlowSummary : List (Int × FlowMap) := []
  infoFlowSummaryPerState : List (Nat × List (Int × FlowMap)) := []

namespace FlowMap

/-- Adds sources to a destination, under the index of the destination. -/
def record (ifsmapt : List (Int × FlowMap)) (dest : InfoFlowRegion)
    (sourceif : List InfoFlowRegion) : List (Int × FlowMap) :=
  let ifsmap := get indexLt dest.index ifsmapt
  let sources := sourceif.foldl (fun s se => add InfoFlowRegion.lt se s)
    (get InfoFlowRegion.lt dest ifsmap)
  insert indexLt dest.index (insert InfoFlowRegion.lt dest sources ifsmap) ifsmapt

/-- The sources that a destination has. -/
def sources (ifsmapt : List (Int × FlowMap)) (dest : InfoFlowRegion) : Set InfoFlowRegion :=
  {x | x ∈ get InfoFlowRegion.lt dest (get indexLt dest.index ifsmapt)}

end FlowMap

namespace InfoFlow

/-- `recordInfoFlow` for the summary. -/
def recordSummary (σ : InfoFlow) (dest : InfoFlowRegion) (sourceif : List InfoFlowRegion) :
    InfoFlow :=
  { σ with infoFlowSummary := FlowMap.record σ.infoFlowSummary dest sourceif }

/-- `recordInfoFlow` for a state. -/
def recordInfoFlow (σ : InfoFlow) (state : Nat) (dest sourceif : InfoFlowRegion) : InfoFlow :=
  { σ with
    infoFlowSummaryPerState := insert stateLt state
      (FlowMap.record (get stateLt state σ.infoFlowSummaryPerState) dest [sourceif])
      σ.infoFlowSummaryPerState }

def clearInfoFlowSummaryPerState (σ : InfoFlow) (state : Nat) (dest : InfoFlowRegion) : InfoFlow :=
  let ifsmapt := get stateLt state σ.infoFlowSummaryPerState
  let ifsmap := get indexLt dest.index ifsmapt
  match find? InfoFlowRegion.lt dest ifsmap with
  | none => σ
  | some _ =>
    { σ with
      infoFlowSummaryPerState := insert stateLt state
        (insert indexLt dest.index (erase InfoFlowRegion.lt dest ifsmap) ifsmapt)
        σ.infoFlowSummaryPerState }

def collectInfoFlow (σ : InfoFlow) : InfoFlow :=
  (σ.infoFlowSummaryPerState.flatMap fun ifse => ifse.2.flatMap fun ifse2 => ifse2.2).foldl
    (fun σ ifse3 => σ.recordSummary ifse3.1 ifse3.2) σ

/-- What happens to the flows. -/
inductive Event where
  | record (state : Nat) (dest sourceif : InfoFlowRegion)
  | clear (state : Nat) (dest : InfoFlowRegion)
  | collect

def Event.run (σ : InfoFlow) : Event → InfoFlow
  | .record state dest sourceif => σ.recordInfoFlow state dest sourceif
  | .clear state dest => σ.clearInfoFlowSummaryPerState state dest
  | .collect => σ.collectInfoFlow

/-- The regions of the event are in `S`. -/
def Event.In (S : Set InfoFlowRegion) : Event → Prop
  | .record _ dest sourceif => dest ∈ S ∧ sourceif ∈ S
  | .clear _ dest => dest ∈ S
  | .collect => True

/-! What is to be recorded. -/

/-- The sources of each destination, in each state and in the summary. -/
structure Flows where
  ofState : Nat → InfoFlowRegion → Set InfoFlowRegion := fun _ _ => ∅
  summary : InfoFlowRegion → Set InfoFlowRegion := fun _ => ∅

def Flows.after (F : Flows) : Event → Flows
  | .record state dest sourceif =>
    { F with ofState := fun s d =>
        if s = state ∧ d = dest then insert sourceif (F.ofState s d) else F.ofState s d }
  | .clear state dest =>
    { F with ofState := fun s d => if s = state ∧ d = dest then ∅ else F.ofState s d }
  | .collect => { F with summary := fun d => F.summary d ∪ ⋃ s, F.ofState s d }

/-- The maps hold these flows between the regions in `S`. -/
structure Holds (S : Set InfoFlowRegion) (σ : InfoFlow) (F : Flows) : Prop where
  ofState : ∀ s, ∀ d ∈ S,
    FlowMap.sources (get stateLt s σ.infoFlowSummaryPerState) d = F.ofState s d
  summary : ∀ d ∈ S, FlowMap.sources σ.infoFlowSummary d = F.summary d

end InfoFlow

namespace FlowMap

theorem index_linear : LinearOn indexLt Set.univ := linearOn_lt _

/-- The destinations and their sources are in `S`, and under the index of the destination. -/
structure Proper (S : Set InfoFlowRegion) (ifsmapt : List (Int × FlowMap)) : Prop where
  sorted : SortedIn indexLt Set.univ ifsmapt
  maps : ∀ p ∈ ifsmapt, SortedIn InfoFlowRegion.lt S p.2
  index : ∀ p ∈ ifsmapt, ∀ q ∈ p.2, q.1.index = p.1
  sources : ∀ p ∈ ifsmapt, ∀ q ∈ p.2, ∀ x ∈ q.2, x ∈ S

variable {S : Set InfoFlowRegion} {ifsmapt : List (Int × FlowMap)} {dest : InfoFlowRegion}

theorem Proper.nil : Proper S [] := by
  refine ⟨.nil, ?_, ?_, ?_⟩ <;> simp

theorem Proper.get (h : Proper S ifsmapt) (i : Int) :
    SortedIn InfoFlowRegion.lt S (get indexLt i ifsmapt) ∧
      (∀ q ∈ get indexLt i ifsmapt, q.1.index = i) ∧
        ∀ q ∈ get indexLt i ifsmapt, ∀ x ∈ q.2, x ∈ S := by
  rcases get_cases index_linear h.sorted (Set.mem_univ i) with hmem | hnil
  · exact ⟨h.maps _ hmem, h.index _ hmem, h.sources _ hmem⟩
  · rw [hnil]
    exact ⟨.nil, by simp, by simp⟩

theorem mem_sources (hS : LinearOn InfoFlowRegion.lt S) (h : Proper S ifsmapt) (hd : dest ∈ S)
    (x : InfoFlowRegion) : x ∈ sources ifsmapt dest ↔
      ∃ p ∈ ifsmapt, ∃ q ∈ p.2, q.1 = dest ∧ x ∈ q.2 := by
  have hget := (h.get dest.index).1
  unfold sources
  rw [Set.mem_ofPred_eq, mem_get hS hget hd]
  constructor
  · intro hx
    obtain ⟨w, hw, hx⟩ := hx
    obtain ⟨m, hm, hw⟩ := (mem_get index_linear h.sorted (Set.mem_univ _) _).mp hw
    exact ⟨_, hm, _, hw, rfl, hx⟩
  · intro hx
    obtain ⟨p, hp, q, hq, rfl, hx⟩ := hx
    have hi := h.index p hp q hq
    exact ⟨q.2, (mem_get index_linear h.sorted (Set.mem_univ _) _).mpr ⟨p.2, hi ▸ hp, hq⟩, hx⟩

theorem sources_subset (hS : LinearOn InfoFlowRegion.lt S) (h : Proper S ifsmapt) (hd : dest ∈ S)
    {x : InfoFlowRegion} (hx : x ∈ sources ifsmapt dest) : x ∈ S := by
  obtain ⟨p, hp, q, hq, _, hx⟩ := (mem_sources hS h hd x).mp hx
  exact h.sources p hp q hq x hx

/-- The map of one index is replaced. -/
theorem Proper.insert (h : Proper S ifsmapt) {i : Int} {m : FlowMap}
    (hm : SortedIn InfoFlowRegion.lt S m) (hi : ∀ q ∈ m, q.1.index = i)
    (hx : ∀ q ∈ m, ∀ x ∈ q.2, x ∈ S) : Proper S (insert indexLt i m ifsmapt) := by
  have hmem := mem_insert (v := m) index_linear h.sorted (Set.mem_univ i)
  refine ⟨h.sorted.insert index_linear (Set.mem_univ i), ?_, ?_, ?_⟩
  all_goals
    intro p hp
    rcases (hmem p).mp hp with rfl | ⟨hp, _⟩
  · exact hm
  · exact h.maps p hp
  · exact hi
  · exact h.index p hp
  · exact hx
  · exact h.sources p hp

theorem sources_insert (h : Proper S ifsmapt) (i : Int) (m : FlowMap) (d : InfoFlowRegion) :
    sources (Ordered.insert indexLt i m ifsmapt) d =
      if d.index = i then {x | x ∈ Ordered.get InfoFlowRegion.lt d m} else sources ifsmapt d := by
  unfold sources
  rw [get_insert index_linear h.sorted (Set.mem_univ i) (Set.mem_univ _)]
  split
  · rfl
  · rfl

theorem Proper.record (hS : LinearOn InfoFlowRegion.lt S) (h : Proper S ifsmapt) (hd : dest ∈ S)
    {xs : List InfoFlowRegion} (hxs : ∀ x ∈ xs, x ∈ S) : Proper S (FlowMap.record ifsmapt dest xs) ∧
      ∀ d ∈ S, FlowMap.sources (FlowMap.record ifsmapt dest xs) d =
        if d = dest then {x | x ∈ xs} ∪ FlowMap.sources ifsmapt d
        else FlowMap.sources ifsmapt d := by
  obtain ⟨hsorted, hindex, hsources⟩ := h.get dest.index
  have hold : ∀ x ∈ Ordered.get InfoFlowRegion.lt dest (Ordered.get indexLt dest.index ifsmapt),
      x ∈ S := fun x hx => sources_subset hS h hd hx
  have hadd := mem_addAll (fun _ _ h => InfoFlowRegion.not_lt_eq h.1 h.2) xs
    (Ordered.get InfoFlowRegion.lt dest (Ordered.get indexLt dest.index ifsmapt))
  have hmem := mem_insert (v := xs.foldl (fun s se => add InfoFlowRegion.lt se s)
    (Ordered.get InfoFlowRegion.lt dest (Ordered.get indexLt dest.index ifsmapt))) hS hsorted hd
  constructor
  · apply h.insert (hsorted.insert hS hd)
    · intro q hq
      rcases (hmem q).mp hq with rfl | ⟨hq, _⟩
      · rfl
      · exact hindex q hq
    · intro q hq
      rcases (hmem q).mp hq with rfl | ⟨hq, _⟩
      · intro x hx
        exact ((hadd x).mp hx).elim (hxs x) (hold x)
      · exact hsources q hq
  · intro d hd'
    unfold FlowMap.record
    rw [sources_insert h]
    by_cases heq : d = dest
    · subst heq
      rw [if_pos rfl, if_pos rfl, get_insert hS hsorted hd hd, if_pos rfl]
      ext x
      exact hadd x
    · rw [if_neg heq]
      split
      · rename_i hi
        rw [get_insert hS hsorted hd hd', if_neg heq, ← hi]
        rfl
      · rfl

end FlowMap

namespace InfoFlow

open FlowMap

theorem state_linear : LinearOn stateLt Set.univ := linearOn_lt _

/-- All regions in the maps are in `S`. -/
structure Proper (S : Set InfoFlowRegion) (σ : InfoFlow) : Prop where
  summary : FlowMap.Proper S σ.infoFlowSummary
  sorted : SortedIn stateLt Set.univ σ.infoFlowSummaryPerState
  states : ∀ p ∈ σ.infoFlowSummaryPerState, FlowMap.Proper S p.2

variable {S : Set InfoFlowRegion} {σ : InfoFlow} {F : Flows} {dest : InfoFlowRegion}

theorem Proper.get (h : σ.Proper S) (s : Nat) :
    FlowMap.Proper S (Ordered.get stateLt s σ.infoFlowSummaryPerState) := by
  rcases get_cases state_linear h.sorted (Set.mem_univ s) with hmem | hnil
  · exact h.states _ hmem
  · rw [hnil]
    exact .nil

/-- The maps of one state are replaced. -/
theorem Proper.replace (h : σ.Proper S) (s : Nat) {m : List (Int × FlowMap)}
    (hm : FlowMap.Proper S m) :
    Proper S { σ with
      infoFlowSummaryPerState := Ordered.insert stateLt s m σ.infoFlowSummaryPerState } := by
  refine ⟨h.summary, h.sorted.insert state_linear (Set.mem_univ s), ?_⟩
  intro p hp
  rcases (mem_insert state_linear h.sorted (Set.mem_univ s) p).mp hp with rfl | ⟨hp, _⟩
  · exact hm
  · exact h.states p hp

/-- The flows of one state change at one destination. -/
theorem Holds.replace (h : σ.Proper S) (hF : σ.Holds S F) (s : Nat) {m : List (Int × FlowMap)}
    {new : Set InfoFlowRegion} (hm : ∀ d ∈ S, FlowMap.sources m d =
      if d = dest then new
      else FlowMap.sources (Ordered.get stateLt s σ.infoFlowSummaryPerState) d) :
    Holds S
      { σ with
        infoFlowSummaryPerState := Ordered.insert stateLt s m σ.infoFlowSummaryPerState }
      { F with ofState := fun t d => if t = s ∧ d = dest then new else F.ofState t d } := by
  refine ⟨?_, hF.summary⟩
  intro t d hd
  dsimp only
  rw [get_insert state_linear h.sorted (Set.mem_univ s) (Set.mem_univ t)]
  by_cases hts : t = s
  · subst hts
    rw [if_pos rfl, hm d hd]
    by_cases heq : d = dest
    · rw [if_pos heq, if_pos ⟨rfl, heq⟩]
    · rw [if_neg heq, if_neg fun hand => heq hand.2, hF.ofState t d hd]
  · rw [if_neg hts, if_neg fun hand => hts hand.1, hF.ofState t d hd]

theorem record_holds (hS : LinearOn InfoFlowRegion.lt S) (h : σ.Proper S) (hF : σ.Holds S F)
    (s : Nat) (hd : dest ∈ S) {x : InfoFlowRegion} (hx : x ∈ S) :
    (σ.recordInfoFlow s dest x).Proper S ∧
      (σ.recordInfoFlow s dest x).Holds S (F.after (.record s dest x)) := by
  have hxs : ∀ y ∈ [x], y ∈ S := by
    intro y hy
    exact List.mem_singleton.mp hy ▸ hx
  obtain ⟨hproper, hsources⟩ := (h.get s).record hS hd hxs
  refine ⟨h.replace s hproper, ?_⟩
  have hdest : ∀ d ∈ S,
      FlowMap.sources
          (FlowMap.record (Ordered.get stateLt s σ.infoFlowSummaryPerState) dest [x]) d =
        if d = dest then insert x (F.ofState s dest)
        else FlowMap.sources (Ordered.get stateLt s σ.infoFlowSummaryPerState) d := by
    intro d hd'
    rw [hsources d hd']
    split
    · rename_i heq
      rw [heq, hF.ofState s dest hd]
      simp [Set.singleton_union]
    · rfl
  have hreplace := Holds.replace h hF s hdest
  refine ⟨?_, hreplace.summary⟩
  intro t d hd'
  rw [Flows.after]
  refine (hreplace.ofState t d hd').trans ?_
  dsimp only
  split
  · rename_i hand
    rw [hand.1, hand.2]
  · rfl

theorem clear_holds (hS : LinearOn InfoFlowRegion.lt S) (h : σ.Proper S) (hF : σ.Holds S F)
    (s : Nat) (hd : dest ∈ S) : (σ.clearInfoFlowSummaryPerState s dest).Proper S ∧
      (σ.clearInfoFlowSummaryPerState s dest).Holds S (F.after (.clear s dest)) := by
  have hstate := h.get s
  obtain ⟨hsorted, hindex, hsources⟩ := hstate.get dest.index
  unfold clearInfoFlowSummaryPerState
  dsimp only
  split
  · rename_i hnone
    refine ⟨h, ?_, hF.summary⟩
    intro t d hd'
    rw [Flows.after]
    dsimp only
    split
    · rename_i hand
      obtain ⟨rfl, rfl⟩ := hand
      unfold FlowMap.sources Ordered.get at *
      rw [hnone]
      simp
    · exact hF.ofState t d hd'
  · have herase := mem_erase hS hsorted hd
    constructor
    · apply h.replace s
      apply hstate.insert (hsorted.erase hS hd)
      · intro q hq
        exact hindex q ((herase q).mp hq).1
      · intro q hq
        exact hsources q ((herase q).mp hq).1
    · apply Holds.replace h hF s
      intro d hd'
      rw [sources_insert hstate]
      by_cases heq : d = dest
      · subst heq
        rw [if_pos rfl, if_pos rfl, get_erase hS hsorted hd hd, if_pos rfl]
        simp
      · rw [if_neg heq]
        split
        · rename_i hi
          rw [get_erase hS hsorted hd hd', if_neg heq, ← hi]
          rfl
        · rfl

/-- Recording flows in the summary one after the other. -/
theorem recordAll_holds (hS : LinearOn InfoFlowRegion.lt S) (l : FlowMap) (h : σ.Proper S)
    (hl : ∀ p ∈ l, p.1 ∈ S ∧ ∀ x ∈ p.2, x ∈ S) (hF : σ.Holds S F) :
    (l.foldl (fun σ p => σ.recordSummary p.1 p.2) σ).Proper S ∧
      (l.foldl (fun σ p => σ.recordSummary p.1 p.2) σ).Holds S
        { F with summary := fun d => F.summary d ∪ {x | ∃ p ∈ l, p.1 = d ∧ x ∈ p.2} } := by
  induction l generalizing σ F with
  | nil =>
    refine ⟨h, hF.ofState, ?_⟩
    intro d hd
    rw [List.foldl_nil, hF.summary d hd]
    simp
  | cons p l ih =>
    obtain ⟨hp, hpx⟩ := hl p List.mem_cons_self
    obtain ⟨hproper, hsources⟩ := h.summary.record hS hp hpx
    have hnext : (σ.recordSummary p.1 p.2).Holds S
        { F with summary := fun d => F.summary d ∪ {x | p.1 = d ∧ x ∈ p.2} } := by
      refine ⟨hF.ofState, ?_⟩
      intro d hd
      refine (hsources d hd).trans ?_
      rw [hF.summary d hd]
      ext x
      split
      · rename_i heq
        simp [heq, or_comm]
      · rename_i hne
        simp [Ne.symm hne]
    obtain ⟨hproper', hholds'⟩ := ih (σ := σ.recordSummary p.1 p.2) ⟨hproper, h.sorted, h.states⟩
      (fun q hq => hl q (List.mem_cons_of_mem p hq)) hnext
    refine ⟨hproper', hholds'.ofState, ?_⟩
    intro d hd
    refine (hholds'.summary d hd).trans ?_
    ext x
    simp [or_assoc]

theorem collect_holds (hS : LinearOn InfoFlowRegion.lt S) (h : σ.Proper S) (hF : σ.Holds S F) :
    σ.collectInfoFlow.Proper S ∧ σ.collectInfoFlow.Holds S (F.after .collect) := by
  obtain ⟨hproper, hholds⟩ := recordAll_holds hS
    (σ.infoFlowSummaryPerState.flatMap fun ifse => ifse.2.flatMap fun ifse2 => ifse2.2) h (by
      intro q hq
      obtain ⟨p, hp, hq⟩ := List.mem_flatMap.mp hq
      obtain ⟨m, hm, hq⟩ := List.mem_flatMap.mp hq
      have hstate := h.states p hp
      exact ⟨(hstate.maps m hm).keys q hq, hstate.sources m hm q hq⟩) hF
  refine ⟨hproper, hholds.ofState, ?_⟩
  intro d hd
  refine (hholds.summary d hd).trans ?_
  rw [Flows.after]
  dsimp only
  congr 1
  ext x
  rw [Set.mem_ofPred_eq, Set.mem_iUnion]
  simp only [← hF.ofState _ d hd, mem_sources hS (h.get _) hd]
  constructor
  · intro hx
    obtain ⟨q, hq, hqd, hx⟩ := hx
    obtain ⟨p, hp, hq⟩ := List.mem_flatMap.mp hq
    obtain ⟨m, hm, hq⟩ := List.mem_flatMap.mp hq
    refine ⟨p.1, m, ?_, q, hq, hqd, hx⟩
    exact (mem_get state_linear h.sorted (Set.mem_univ _) m).mpr ⟨p.2, hp, hm⟩
  · intro hx
    obtain ⟨s, m, hm, q, hq, hqd, hx⟩ := hx
    obtain ⟨n, hn, hm⟩ := (mem_get state_linear h.sorted (Set.mem_univ _) m).mp hm
    exact ⟨q, List.mem_flatMap.mpr ⟨_, hn, List.mem_flatMap.mpr ⟨m, hm, hq⟩⟩, hqd, hx⟩

theorem Event.run_holds (hS : LinearOn InfoFlowRegion.lt S) (h : σ.Proper S) (hF : σ.Holds S F)
    {e : Event} (he : e.In S) : (e.run σ).Proper S ∧ (e.run σ).Holds S (F.after e) := by
  cases e with
  | record s d x => exact record_holds hS h hF s he.1 he.2
  | clear s d => exact clear_holds hS h hF s he
  | collect => exact collect_holds hS h hF

/-- After any events on regions in `S` the maps hold what was recorded. -/
def KeepsFlows (S : Set InfoFlowRegion) : Prop :=
  ∀ es : List Event, (∀ e ∈ es, e.In S) → (es.foldl Event.run {}).Holds S (es.foldl Flows.after {})

theorem keepsFlows (hS : LinearOn InfoFlowRegion.lt S) : KeepsFlows S := by
  intro es hes
  have hstart : Proper S {} := ⟨.nil, .nil, by simp⟩
  have hholds : Holds S {} {} := by
    constructor
    · intro s d _
      simp [FlowMap.sources, Ordered.get, find?]
    · intro d _
      simp [FlowMap.sources, Ordered.get, find?]
  revert hstart hholds
  generalize ({} : InfoFlow) = σ
  generalize ({} : Flows) = F
  induction es generalizing σ F with
  | nil => exact fun _ hF => hF
  | cons e es ih =>
    intro h hF
    obtain ⟨hproper, hholds⟩ := Event.run_holds hS h hF (hes e List.mem_cons_self)
    exact ih (fun e' he' => hes e' (List.mem_cons_of_mem e he')) _ _ hproper hholds

/-- The comparison orders the regions in `S` with equality as its equivalence, and the summaries
of these lose and merge nothing, exactly where no two of them cross. -/
theorem orders_iff (S : Set InfoFlowRegion) :
    (LinearOn InfoFlowRegion.lt S ∧ KeepsFlows S) ↔ ∀ a ∈ S, ∀ b ∈ S, ¬ a.Cross b := by
  rw [← InfoFlowRegion.linear_iff]
  exact ⟨fun h => h.1, fun h => ⟨h, keepsFlows h⟩⟩

/-- Two bytes of an object, read in one order and in the other. -/
theorem bytes_cross : ¬ LinearOn InfoFlowRegion.lt Set.univ := by
  rw [InfoFlowRegion.linear_iff]
  intro h
  exact h ⟨0, [⟨0, 8⟩, ⟨8, 8⟩]⟩ trivial ⟨0, [⟨8, 8⟩, ⟨0, 8⟩]⟩ trivial
    ⟨rfl, rfl, ⟨(⟨0, 8⟩, ⟨8, 8⟩), by decide⟩, ⟨(⟨8, 8⟩, ⟨0, 8⟩), by decide⟩⟩

end InfoFlow

end Encider
