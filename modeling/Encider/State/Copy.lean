import Encider.State.Local

namespace Encider

variable {K : Type}

/-- What a state says about the programming model: its own members, the pending
actions frame by frame and the life-cycle position. The states that its threads
belong to are left out. -/
structure PMView (K : Type) where
  fields : PMFields K
  pending : List (Option PMFrame)
  lifeCycle : Option LifeCycleModelState

def ExecutionState.view (cfg : PMConfig K) (heap : PMHeap) (s : ExecutionState K) : PMView K where
  fields := { s.toPMFields with threads := s.threads.map fun t => { t with context := 0 } }
  pending := s.pmstack.map fun a => heap.frames[a]?
  lifeCycle := (s.lcmCells cfg).head?.bind fun p => heap.lcms[p]?

/-- The pointers of a state lead somewhere. -/
structure ExecutionState.Valid (cfg : PMConfig K) (heap : PMHeap) (s : ExecutionState K) :
    Prop where
  frames : Own.Valid s.pmstack heap.frames
  lcms : Own.Valid (s.lcmCells cfg) heap.lcms

/-- Besides, a state has a life-cycle position where there is a life cycle, as the
constructors see to it. -/
structure ExecutionState.Formed (cfg : PMConfig K) (heap : PMHeap) (s : ExecutionState K) : Prop
    extends s.Valid cfg heap where
  lcmState : cfg.hasLCM = true → s.lcmState.isSome = true

namespace StatePair

/-- An operation on one of the two states. -/
def run (cfg : PMConfig K) (p : StatePair K) : Bool × PMOp K → Option (StatePair K)
  | (false, op) =>
    (op.run cfg ⟨p.heap, p.original⟩).map fun w => ⟨w.heap, w.state, p.copied⟩
  | (true, op) =>
    (op.run cfg ⟨p.heap, p.copied⟩).map fun w => ⟨w.heap, p.original, w.state⟩

def view (cfg : PMConfig K) (p : StatePair K) (onCopy : Bool) : PMView K :=
  if onCopy then p.copied.view cfg p.heap else p.original.view cfg p.heap

/-- Whatever was done to the two states, no operation on one changes the other. -/
def Independent (cfg : PMConfig K) (p : StatePair K) : Prop :=
  ∀ (ops : List (Bool × PMOp K)) (q r : StatePair K) (side : Bool) (op : PMOp K),
    ops.foldlM (run cfg) p = some q → q.run cfg (side, op) = some r →
      r.view cfg (!side) = q.view cfg (!side)

/-- The two states share no cell. -/
structure Apart (cfg : PMConfig K) (p : StatePair K) : Prop where
  original : p.original.Valid cfg p.heap
  copied : p.copied.Valid cfg p.heap
  frames : p.original.pmstack.Disjoint p.copied.pmstack
  lcms : (p.original.lcmCells cfg).Disjoint (p.copied.lcmCells cfg)

end StatePair

/-- The copy agrees with the state, and stays independent of it. -/
structure FaithfulCopy (cfg : PMConfig K) (v : PMView K) (p : StatePair K) : Prop where
  agrees : p.copied.view cfg p.heap = v
  independent : p.Independent cfg

/-- Nothing is established that the copy constructor leaves out. -/
structure NothingDropped (s : ExecutionState K) : Prop where
  pmstack : s.pmstack = []
  alloced : s.alloced = ∅
  freed : s.freed = ∅
  returnValueModel : s.returnValueModel = .empty
  lockModel : s.lockModel = .empty
  stateModel : s.stateModel = .empty
  assocModel : s.assocModel = .empty
  initiatedAsync : s.initiatedAsync = .empty
  preemptable : s.preemptable = false
  threads : ∀ t ∈ s.threads, t.stateModel = .empty ∧ t.assocModel = .empty ∧
    t.returnValueModel = .empty

section

variable {cfg : PMConfig K} {heap : PMHeap} {s t : ExecutionState K} {w : Focus K}

/-- What is done to one state leaves a state without common cells as it is. -/
theorem Focus.Local.frame (h : Focus.Local cfg ⟨heap, s⟩ w) (hv : t.Valid cfg heap)
    (hf : s.pmstack.Disjoint t.pmstack) (hl : (s.lcmCells cfg).Disjoint (t.lcmCells cfg)) :
    t.view cfg w.heap = t.view cfg heap ∧ t.Valid cfg w.heap ∧
      w.state.pmstack.Disjoint t.pmstack ∧ (w.state.lcmCells cfg).Disjoint (t.lcmCells cfg) := by
  obtain ⟨hsame, hdf, hvf⟩ := h.frames.frame hv.frames hf
  obtain ⟨lsame, hdl, hvl⟩ := h.lcms.frame hv.lcms hl
  refine ⟨?_, ⟨hvf, hvl⟩, hdf, hdl⟩
  have hpending : t.pmstack.map (fun a => w.heap.frames[a]?) =
      t.pmstack.map fun a => heap.frames[a]? := List.map_congr_left hsame
  have hcycle : ((t.lcmCells cfg).head?.bind fun p => w.heap.lcms[p]?) =
      (t.lcmCells cfg).head?.bind fun p => heap.lcms[p]? := by
    cases hc : (t.lcmCells cfg).head? with
    | none => rfl
    | some p => exact lsame p (List.mem_of_head? hc)
  simp only [ExecutionState.view, hpending, hcycle]

theorem StatePair.Apart.run {p q : StatePair K} {side : Bool} {op : PMOp K} (h : p.Apart cfg)
    (hr : p.run cfg (side, op) = some q) :
    q.Apart cfg ∧ q.view cfg (!side) = p.view cfg (!side) := by
  cases side with
  | false =>
    obtain ⟨w, hw, hq⟩ := Option.map_eq_some_iff.mp hr
    cases hq
    have hlocal := PMOp.run_local hw
    obtain ⟨hview, hv, hf, hl⟩ := hlocal.frame h.copied h.frames h.lcms
    exact ⟨⟨⟨hlocal.frames.valid h.original.frames, hlocal.lcms.valid h.original.lcms⟩, hv, hf, hl⟩,
      hview⟩
  | true =>
    obtain ⟨w, hw, hq⟩ := Option.map_eq_some_iff.mp hr
    cases hq
    have hlocal := PMOp.run_local hw
    obtain ⟨hview, hv, hf, hl⟩ := hlocal.frame h.original h.frames.symm h.lcms.symm
    exact ⟨⟨hv, ⟨hlocal.frames.valid h.copied.frames, hlocal.lcms.valid h.copied.lcms⟩, hf.symm,
      hl.symm⟩, hview⟩

/-- States without common cells stay independent over every run. -/
theorem StatePair.Apart.independent {p : StatePair K} (h : p.Apart cfg) : p.Independent cfg := by
  intro ops q r side op hops hr
  have hq : p.Apart cfg → q.Apart cfg := by
    refine List.foldlM_rel (R := fun s t => s.Apart cfg → t.Apart cfg) (fun _ => id) ?_ ?_ hops
    · intro s t u hst htu hs
      exact htu (hst hs)
    · intro s x t ht hs
      exact (hs.run ht).1
  exact ((hq h).run hr).2

/-- What the copy says about the programming model. -/
def ExecutionState.copiedView (cfg : PMConfig K) (heap : PMHeap) (s : ExecutionState K) :
    PMView K where
  fields := {
    refCountModel := s.refCountModel
    refCountStack := s.refCountStack
    symbolDefs := s.symbolDefs
    symbolTypes := s.symbolTypes
    typeToAddr := s.typeToAddr
    symIdCounters := s.symIdCounters
    lazyInitSingleInstances := s.lazyInitSingleInstances
    waitingForThreadsToTerminate := s.waitingForThreadsToTerminate
    threads := s.threads.map fun t => { t.copy with context := 0 }
    threadsQueue := s.threadsQueue
    rtid := s.rtid }
  pending := []
  lifeCycle := (s.view cfg heap).lifeCycle

/-- The copy shares no cell with the state. -/
theorem ExecutionState.Formed.cloned (h : s.Formed cfg heap) (uninit : Option Nat)
    (counter : Nat) :
    ∃ p, s.cloned cfg uninit counter heap = some p ∧ p.Apart cfg ∧
      p.copied.view cfg p.heap = s.copiedView cfg heap := by
  unfold ExecutionState.cloned ExecutionState.copy
  cases hlcm : cfg.hasLCM with
  | false =>
    refine ⟨_, rfl, ⟨h.toValid, ⟨?_, ?_⟩, ?_, ?_⟩, ?_⟩
    · intro a ha
      cases ha
    · intro a ha
      simp [ExecutionState.lcmCells, hlcm] at ha
    · exact List.disjoint_nil_right _
    · simp [ExecutionState.lcmCells, hlcm]
    · simp [ExecutionState.view, ExecutionState.copiedView, ExecutionState.lcmCells, hlcm]
  | true =>
    obtain ⟨p, hp⟩ := Option.isSome_iff_exists.mp (h.lcmState hlcm)
    have hcells : s.lcmCells cfg = [p] := by simp [ExecutionState.lcmCells, hlcm, hp]
    have hlt : p < heap.lcms.length := h.lcms p (by simp [hcells])
    obtain ⟨l, hl⟩ : ∃ l, heap.lcms[p]? = some l := ⟨_, List.getElem?_eq_getElem hlt⟩
    rw [if_pos rfl, hp, Option.bind_some, hl]
    refine ⟨_, rfl, ⟨⟨h.frames, ?_⟩, ⟨?_, ?_⟩, ?_, ?_⟩, ?_⟩
    · intro a ha
      exact Nat.lt_of_lt_of_le (h.lcms a ha) (by simp)
    · intro a ha
      cases ha
    · intro a ha
      simp only [ExecutionState.lcmCells, hlcm, ↓reduceIte, Option.toList_some,
        List.mem_singleton] at ha
      simp [ha]
    · exact List.disjoint_nil_right _
    · simp only [ExecutionState.lcmCells, hlcm, ↓reduceIte, hp, Option.toList_some]
      simpa using (Nat.ne_of_lt hlt).symm
    · simp [ExecutionState.view, ExecutionState.copiedView, ExecutionState.lcmCells, hlcm, hp, hl,
        LifeCycleModelState.copy]

/-- A thread's copy keeps the thread's models only if they are empty. -/
theorem Async.copy_eq_iff (t : Async K) (context : Nat) :
    { t.copy with context := context } = { t with context := context } ↔
      t.stateModel = .empty ∧ t.assocModel = .empty ∧ t.returnValueModel = .empty := by
  obtain ⟨function, klee, preemptable, tid, ctx, terminated, sm, am, rm⟩ := t
  simp only [Async.copy, Async.mk.injEq, true_and]
  exact and_congr eq_comm (and_congr eq_comm eq_comm)

/-- The copy says what the state says if and only if nothing is dropped. -/
theorem copiedView_eq_iff (cfg : PMConfig K) (heap : PMHeap) (s : ExecutionState K) :
    s.copiedView cfg heap = s.view cfg heap ↔ NothingDropped s := by
  constructor
  · intro h
    have hpending := congrArg PMView.pending h
    have hfields := congrArg PMView.fields h
    refine ⟨?_, ?_, ?_, ?_, ?_, ?_, ?_, ?_, ?_, ?_⟩
    · exact List.map_eq_nil_iff.mp hpending.symm
    · exact (congrArg PMFields.alloced hfields).symm
    · exact (congrArg PMFields.freed hfields).symm
    · exact (congrArg PMFields.returnValueModel hfields).symm
    · exact (congrArg PMFields.lockModel hfields).symm
    · exact (congrArg PMFields.stateModel hfields).symm
    · exact (congrArg PMFields.assocModel hfields).symm
    · exact (congrArg PMFields.initiatedAsync hfields).symm
    · exact (congrArg PMFields.preemptable hfields).symm
    · intro t ht
      have hthreads := List.map_inj_left.mp (congrArg PMFields.threads hfields)
      exact (t.copy_eq_iff 0).mp (hthreads t ht)
  · intro h
    have hthreads : s.threads.map (fun t => { t.copy with context := 0 }) =
        s.threads.map fun t => { t with context := 0 } :=
      List.map_congr_left fun t ht => (t.copy_eq_iff 0).mpr (h.threads t ht)
    simp only [ExecutionState.copiedView, ExecutionState.view, h.pmstack, h.alloced, h.freed,
      h.returnValueModel, h.lockModel, h.stateModel, h.assocModel, h.initiatedAsync,
      h.preemptable, hthreads, List.map_nil]

theorem cloned_faithful_iff (h : s.Formed cfg heap) (uninit : Option Nat) (counter : Nat) :
    (∃ p, s.cloned cfg uninit counter heap = some p ∧ FaithfulCopy cfg (s.view cfg heap) p) ↔
      NothingDropped s := by
  obtain ⟨p, hp, hapart, hview⟩ := h.cloned uninit counter
  rw [← copiedView_eq_iff cfg heap s, hp]
  constructor
  · intro hf
    obtain ⟨q, hq, hf⟩ := hf
    cases hq
    exact hview.symm.trans hf.agrees
  · intro hv
    exact ⟨p, rfl, hview.trans hv, hapart.independent⟩

end

/-- A programming model without actions and without a life cycle. -/
def plainModel : PMConfig Unit where
  interpret _ _ _ _ _ := { effects := [] }
  extendExecutionWith _ f k := some (f, k)

end Encider
