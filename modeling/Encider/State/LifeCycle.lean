import Encider.State.Local

namespace Encider

/-- The functions that a step runs. -/
def LifeCycleStep.components : LifeCycleStep → List String
  | .identifier name _ => [name]
  | .parallel par => par

/-- What a component returns on success. Only an identifier has a value of its own. -/
def LifeCycleStep.successValue : LifeCycleStep → Int
  | .identifier _ successretval => successretval
  | .parallel _ => 0

namespace LifeCycleModelState

/-- `stepMovesWhenReturns`; a step past the last one is a null pointer. -/
def stepMovesWhenReturns (l : LifeCycleModelState) (lcm : List LifeCycleStep) (fname : String) :
    Option Bool :=
  (lcm[l.state]?).map fun
    | .identifier name _ => name == fname
    | .parallel comp =>
      let count := comp.count fname
      if count = 0 then false
      else
        let countComp := l.componentsCompleted.count fname
        decide (l.componentsCompleted.length = comp.length - 1) && decide (countComp = count - 1)

/-- `getCurrentSuccessValue`, whose assertion fails for a parallel step. -/
def getCurrentSuccessValue (l : LifeCycleModelState) (lcm : List LifeCycleStep) : Option Int :=
  (lcm[l.state]?).bind fun
    | .identifier _ successretval => some successretval
    | .parallel _ => none

def completesWith (l : LifeCycleModelState) (lcm : List LifeCycleStep) (fn : String) :
    Option Bool :=
  if l.state = lcm.length - 1 then l.stepMovesWhenReturns lcm fn else some false

/-- What `updateLCMState` does to the model. -/
def updateLCM (l : LifeCycleModelState) (lcm : List LifeCycleStep) : Option LifeCycleModelState :=
  if lcm.length ≤ l.state then some l
  else (lcm[(Focus.advance l).1]?).map fun _ => { (Focus.advance l).2 with initialized := true }

end LifeCycleModelState

/-- A value that is returned; for a symbolic one `mayBe` says which values the solver finds
possible. -/
inductive ReturnResult where
  | const (v : Int)
  | symbolic (mayBe : Int → Bool)
  | void

/-- The life cycle of a state and the return values of its functions. -/
structure LifeCycle where
  model : LifeCycleModelState
  returnValueModel : StdMap String Int

/-- Where the return of a first function leads to. -/
inductive RetOutcome where
  | finished
  | early
  | goesOn (c : LifeCycle)

namespace LifeCycle

def record (c : LifeCycle) (fn : String) (v : Int) : LifeCycle :=
  { c with returnValueModel := Function.update c.returnValueModel fn (some v) }

/-- The record of a return value in the case `Ret` of `executeInstruction`. -/
def recordReturn (c : LifeCycle) (lcm : List LifeCycleStep) (fn : String) :
    ReturnResult → Option LifeCycle
  | .const v => some (c.record fn v)
  | .symbolic mayBe =>
    (c.model.stepMovesWhenReturns lcm fn).bind fun moves =>
      if moves then
        (c.model.getCurrentSuccessValue lcm).map fun v => if mayBe v then c.record fn v else c
      else some c
  | .void => some c

/-- The case `Ret` of `executeInstruction` for the first function of the main thread;
`active` tells whether threads are alive. -/
def returnFromMain (c : LifeCycle) (lcm : List LifeCycleStep) (fn : String)
    (result : ReturnResult) (active : Bool) : Option RetOutcome :=
  (c.recordReturn lcm fn result).bind fun c =>
    (if active then some false else c.model.completesWith lcm fn).bind fun completes =>
      if completes then some .finished
      else (c.model.stepMovesWhenReturns lcm fn).bind fun moves =>
        if moves then
          match c.returnValueModel fn with
          | some v => (c.model.getCurrentSuccessValue lcm).bind fun success =>
            if v = success then
              -- the value of the new step is compared with the side-channel entry
              (c.model.updateLCM lcm).bind fun l =>
                (lcm[l.state]?).map fun _ => .goesOn { c with model := l }
            else some .early
          | none => some .early
        else some (.goesOn c)

/-- The case `Ret` of `executeInstructionThread` for the first function of a thread;
`recorded` is its entry in the thread's own `returnValueModel`. -/
def returnFromThread (c : LifeCycle) (lcm : List LifeCycleStep) (fn : String)
    (recorded : Option Int) : Option RetOutcome :=
  (c.model.stepMovesWhenReturns lcm fn).bind fun moves =>
    if moves then
      if recorded = some 0 then (c.model.updateLCM lcm).map fun l => .goesOn { c with model := l }
      else some .early
    else some (.goesOn c)

end LifeCycle

/-- The return of a component, in the main thread or in a thread of its own. -/
inductive ComponentReturn where
  | main (fn : String) (result : ReturnResult) (active : Bool)
  | thread (fn : String) (recorded : Option Int)

def ComponentReturn.function : ComponentReturn → String
  | .main fn _ _ => fn
  | .thread fn _ => fn

def ComponentReturn.run (c : LifeCycle) (lcm : List LifeCycleStep) :
    ComponentReturn → Option RetOutcome
  | .main fn result active => c.returnFromMain lcm fn result active
  | .thread fn recorded => c.returnFromThread lcm fn recorded

/-- A component of the step returns its success value; only a parallel step has threads. -/
def ComponentReturn.Succeeds (step : LifeCycleStep) : ComponentReturn → Prop
  | .main _ (.const v) _ => v = step.successValue
  | .main _ (.symbolic mayBe) _ => mayBe step.successValue = true
  | .main _ .void _ => False
  | .thread _ recorded => recorded = some 0 ∧ ∃ par, step = .parallel par

/-- A run with the components of the current step that have returned. -/
structure LifeCycleRun where
  cycle : LifeCycle
  returned : List String := []

namespace LifeCycleRun

def state (r : LifeCycleRun) : Nat := r.cycle.model.state

/-- The next return is one of a component that has not returned yet. -/
structure Returns (lcm : List LifeCycleStep) (r : LifeCycleRun) (e : ComponentReturn)
    (step : LifeCycleStep) : Prop where
  current : lcm[r.state]? = some step
  component : (e.function :: r.returned).Subperm step.components
  success : e.Succeeds step

/-- The run behind a return. -/
def next (r : LifeCycleRun) (e : ComponentReturn) (c : LifeCycle) : LifeCycleRun where
  cycle := c
  returned := if c.model.state = r.state then e.function :: r.returned else []

/-- The runs of a life cycle, which starts with `updateLCMState`. -/
inductive Reached (lcm : List LifeCycleStep) : LifeCycleRun → Prop
  | start {l : LifeCycleModelState} (h : LifeCycleModelState.updateLCM {} lcm = some l) :
      Reached lcm { cycle := { model := l, returnValueModel := .empty } }
  | step {r : LifeCycleRun} {e : ComponentReturn} {step : LifeCycleStep} {c : LifeCycle}
      (h : Reached lcm r) (he : r.Returns lcm e step)
      (hrun : e.run r.cycle lcm = some (.goesOn c)) : Reached lcm (r.next e c)

/-- What a return has to lead to: the last component of a step moves the model on, or
finishes it; before that the model stays in the step. -/
def Advances (lcm : List LifeCycleStep) (r : LifeCycleRun) (step : LifeCycleStep)
    (out : Option RetOutcome) : Prop :=
  if r.returned.length + 1 = step.components.length then
    if r.state + 1 = lcm.length then out = some .finished
    else ∃ c, out = some (.goesOn c) ∧ c.model.state = r.state + 1
  else ∃ c, out = some (.goesOn c) ∧ c.model.state = r.state

/-- When a return does lead there. -/
def InTurn (lcm : List LifeCycleStep) (r : LifeCycleRun) : LifeCycleStep → ComponentReturn → Prop
  | .identifier _ _, .main _ _ active => r.state + 1 < lcm.length ∨ active = false
  | .identifier _ _, .thread _ _ => False
  | .parallel par, .main _ result active =>
    if par.length = 1 then r.state + 1 = lcm.length ∧ active = false ∧ ∃ v, result = .const v
    else r.returned.length + 1 < par.length
  | .parallel par, .thread _ _ =>
    if par.length = 1 then r.state + 1 < lcm.length else r.returned.length + 1 < par.length

end LifeCycleRun

namespace LifeCycleModelState

/-- No component is ever recorded as completed, and the model is initialised at its start. -/
structure Started (lcm : List LifeCycleStep) (l : LifeCycleModelState) : Prop where
  unrecorded : l.componentsCompleted = []
  within : lcm ≠ [] → l.initialized = true ∧ l.state < lcm.length

variable {lcm : List LifeCycleStep} {l l' : LifeCycleModelState} {step : LifeCycleStep}

/-- A step of one component moves when that returns, and no other step ever does. -/
theorem Started.moves (h : l.Started lcm) (hstep : lcm[l.state]? = some step) (fn : String)
    (hfn : fn ∈ step.components) :
    l.stepMovesWhenReturns lcm fn = some (decide (step.components.length = 1)) := by
  unfold stepMovesWhenReturns
  rw [hstep, Option.map_some, h.unrecorded]
  cases step with
  | identifier name v =>
    rw [LifeCycleStep.components, List.mem_singleton] at hfn
    simp [hfn, LifeCycleStep.components]
  | parallel par =>
    rw [LifeCycleStep.components] at hfn
    have hcount : 0 < par.count fn := List.count_pos_iff.mpr hfn
    have hle := List.count_le_length (a := fn) (l := par)
    have hcomponents : (LifeCycleStep.parallel par).components = par := rfl
    rw [hcomponents]
    dsimp only
    rw [if_neg (Nat.ne_of_gt hcount)]
    congr 1
    rw [Bool.eq_iff_iff, Bool.and_eq_true, decide_eq_true_iff, decide_eq_true_iff,
      decide_eq_true_iff, List.length_nil, List.count_nil]
    omega

theorem Started.updates (h : l.Started lcm) (hlt : l.state < lcm.length) :
    l.updateLCM lcm = if l.state + 1 = lcm.length then none
      else some { l with state := l.state + 1, componentsCompleted := [], initialized := true } := by
  obtain ⟨hinit, _⟩ := h.within (List.ne_nil_of_length_pos (by omega))
  unfold updateLCM Focus.advance
  rw [if_neg (by omega), if_pos (.inr hinit)]
  split
  · rename_i hend
    rw [List.getElem?_eq_none (by simp only; omega), Option.map_none]
  · rename_i hmore
    rw [List.getElem?_eq_getElem (show l.state + 1 < lcm.length by omega), Option.map_some]

theorem Started.update (h : l.Started lcm) (hlt : l.state < lcm.length)
    (hl : l.updateLCM lcm = some l') : l'.Started lcm ∧ l'.state = l.state + 1 := by
  rw [h.updates hlt] at hl
  split at hl
  · cases hl
  · cases hl
    refine ⟨⟨rfl, fun _ => ⟨rfl, ?_⟩⟩, rfl⟩
    dsimp only
    omega

theorem start_started (hl : updateLCM {} lcm = some l) : l.Started lcm := by
  unfold updateLCM Focus.advance at hl
  split at hl
  · rename_i hempty
    cases hl
    exact ⟨rfl, fun hne => absurd (List.length_pos_of_ne_nil hne) (by simpa using hempty)⟩
  · obtain ⟨_, _, hl⟩ := Option.map_eq_some_iff.mp hl
    cases hl
    refine ⟨rfl, fun hne => ⟨rfl, ?_⟩⟩
    exact List.length_pos_of_ne_nil hne

end LifeCycleModelState

namespace LifeCycle

variable {lcm : List LifeCycleStep} {c : LifeCycle} {step : LifeCycleStep} {fn : String}

/-- What the return of a component in the main thread comes to once its value is recorded. -/
theorem returnFromMain_recorded (h : c.model.Started lcm) (hstep : lcm[c.model.state]? = some step)
    (fn : String) (hfn : fn ∈ step.components) {result : ReturnResult} (active : Bool) {c' : LifeCycle}
    (hrecord : c.recordReturn lcm fn result = some c') (hmodel : c'.model = c.model) :
    c.returnFromMain lcm fn result active =
      if step.components.length = 1 then
        if c.model.state + 1 = lcm.length ∧ active = false then some .finished
        else
          match c'.returnValueModel fn with
          | some v => (c.model.getCurrentSuccessValue lcm).bind fun success =>
            if v = success then
              (c.model.updateLCM lcm).bind fun l =>
                (lcm[l.state]?).map fun _ => .goesOn { c' with model := l }
            else some .early
          | none => some .early
      else some (.goesOn c') := by
  have hlt : c.model.state < lcm.length := (List.getElem?_eq_some_iff.mp hstep).1
  have hmoves := h.moves hstep fn hfn
  unfold returnFromMain
  rw [hrecord, Option.bind_some, hmodel, hmoves]
  unfold LifeCycleModelState.completesWith
  rw [hmoves]
  by_cases hone : step.components.length = 1
  · rw [if_pos hone]
    by_cases hlast : c.model.state + 1 = lcm.length ∧ active = false
    · rw [if_pos hlast, if_neg (by simp [hlast.2]), if_pos (by omega)]
      simp [hone]
    · rw [if_neg hlast]
      have hcompletes : (if active = true then some false else
          if c.model.state = lcm.length - 1 then some (decide (step.components.length = 1))
          else some false) = some false := by
        cases active with
        | true => rfl
        | false =>
          have hmore : ¬ c.model.state = lcm.length - 1 := by
            intro heq
            exact hlast ⟨by omega, rfl⟩
          rw [if_neg (by decide), if_neg hmore]
      rw [hcompletes]
      simp [hone]
  · rw [if_neg hone]
    cases active with
    | true => simp [hone]
    | false =>
      by_cases hend : c.model.state = lcm.length - 1
      · simp [hone, hend]
      · simp [hone, hend]

theorem record_const (c : LifeCycle) (lcm : List LifeCycleStep) (fn : String) (v : Int) :
    c.recordReturn lcm fn (.const v) = some (c.record fn v) := rfl

/-- A symbolic value that may be the success value is recorded as that value. -/
theorem record_identifier (h : c.model.Started lcm) {v : Int}
    (hstep : lcm[c.model.state]? = some (.identifier fn v)) {mayBe : Int → Bool}
    (hmay : mayBe v = true) : c.recordReturn lcm fn (.symbolic mayBe) = some (c.record fn v) := by
  have hmoves := h.moves hstep fn List.mem_cons_self
  unfold recordReturn LifeCycleModelState.getCurrentSuccessValue
  simp only [hmoves, hstep, Option.bind_some, Option.map_some, hmay, if_true]
  simp [LifeCycleStep.components]

/-- For the component of a parallel step there is no such value. -/
theorem record_parallel (h : c.model.Started lcm) {par : List String}
    (hstep : lcm[c.model.state]? = some (.parallel par)) (fn : String) (hfn : fn ∈ par)
    (mayBe : Int → Bool) :
    c.recordReturn lcm fn (.symbolic mayBe) = if par.length = 1 then none else some c := by
  have hmoves := h.moves hstep fn hfn
  unfold recordReturn LifeCycleModelState.getCurrentSuccessValue
  simp only [hmoves, hstep, Option.bind_some, Option.map_none]
  by_cases hone : par.length = 1
  · simp [LifeCycleStep.components, hone]
  · simp [LifeCycleStep.components, hone]

end LifeCycle

namespace LifeCycleRun

variable {lcm : List LifeCycleStep} {r : LifeCycleRun} {e : ComponentReturn} {step : LifeCycleStep}

theorem Returns.room (he : r.Returns lcm e step) :
    r.returned.length + 1 ≤ step.components.length :=
  he.component.length_le

theorem Returns.mem (he : r.Returns lcm e step) : e.function ∈ step.components :=
  he.component.subset List.mem_cons_self

theorem Returns.lt (he : r.Returns lcm e step) : r.state < lcm.length :=
  (List.getElem?_eq_some_iff.mp he.current).1

/-- The main thread comes back from the function of an identifier. -/
theorem identifier_iff (h : r.cycle.model.Started lcm) {name : String} {v : Int}
    (he : r.Returns lcm e (.identifier name v)) :
    r.Advances lcm (.identifier name v) (e.run r.cycle lcm) ↔ r.InTurn lcm (.identifier name v) e := by
  have hroom := he.room
  have hlt := he.lt
  have hmem := he.mem
  have hcurrent := he.current
  have hsuccess := he.success
  cases e with
  | thread fn recorded =>
    obtain ⟨_, par, hpar⟩ := hsuccess
    cases hpar
  | main fn result active =>
    obtain rfl : fn = name := List.mem_singleton.mp hmem
    have hrecord : r.cycle.recordReturn lcm fn result = some (r.cycle.record fn v) := by
      cases result with
      | const w =>
        obtain rfl : w = v := hsuccess
        rfl
      | symbolic mayBe => exact LifeCycle.record_identifier h hcurrent hsuccess
      | void => exact absurd hsuccess id
    have hout := LifeCycle.returnFromMain_recorded h hcurrent fn hmem active hrecord rfl
    have hvalue : (r.cycle.record fn v).returnValueModel fn = some v := by
      simp [LifeCycle.record]
    have hcurrentValue : r.cycle.model.getCurrentSuccessValue lcm = some v := by
      unfold LifeCycleModelState.getCurrentSuccessValue
      rw [show lcm[r.cycle.model.state]? = _ from hcurrent, Option.bind_some]
    have hone : (LifeCycleStep.identifier fn v).components.length = 1 := rfl
    rw [hone] at hroom
    simp only [ComponentReturn.run, hout, hone, if_true, hvalue, hcurrentValue, Option.bind_some,
      Advances, InTurn]
    rw [if_pos (show r.returned.length + 1 = 1 by omega), h.updates hlt]
    by_cases hend : r.state + 1 = lcm.length
    · have hend' : r.cycle.model.state + 1 = lcm.length := hend
      rw [if_pos hend, if_pos hend']
      cases active with
      | true => simp [hend']; omega
      | false => simp [hend']
    · have hend' : ¬ r.cycle.model.state + 1 = lcm.length := hend
      have hmore : r.cycle.model.state + 1 < lcm.length := by
        have : r.cycle.model.state < lcm.length := hlt
        omega
      rw [if_neg hend, if_neg hend', if_neg (fun hboth => hend' hboth.1)]
      simp [hmore, state]

theorem Returns.moves (h : r.cycle.model.Started lcm) {par : List String}
    (he : r.Returns lcm e (.parallel par)) :
    r.cycle.model.stepMovesWhenReturns lcm e.function = some (decide (par.length = 1)) :=
  h.moves he.current _ he.mem

theorem parallel_stays (h : r.cycle.model.Started lcm) {par : List String}
    (he : r.Returns lcm e (.parallel par)) (hmany : par.length ≠ 1) :
    ∃ c, e.run r.cycle lcm = some (.goesOn c) ∧ c.model = r.cycle.model := by
  have hmem : e.function ∈ par := he.mem
  have hcurrent := he.current
  have hmoves := he.moves h
  cases e with
  | thread fn recorded =>
    refine ⟨r.cycle, ?_, rfl⟩
    show r.cycle.returnFromThread lcm fn recorded = some (.goesOn r.cycle)
    unfold LifeCycle.returnFromThread
    rw [show r.cycle.model.stepMovesWhenReturns lcm fn = _ from hmoves, Option.bind_some,
      if_neg (by simpa using hmany)]
  | main fn result active =>
    have hrecord : ∃ c, r.cycle.recordReturn lcm fn result = some c ∧ c.model = r.cycle.model := by
      cases result with
      | const v => exact ⟨_, rfl, rfl⟩
      | symbolic mayBe =>
        have hnone := LifeCycle.record_parallel h hcurrent fn hmem mayBe
        rw [if_neg hmany] at hnone
        exact ⟨_, hnone, rfl⟩
      | void => exact ⟨_, rfl, rfl⟩
    obtain ⟨c, hc, hmodel⟩ := hrecord
    have hout := LifeCycle.returnFromMain_recorded h hcurrent fn hmem active
      hc hmodel
    rw [if_neg (show ¬ (LifeCycleStep.parallel par).components.length = 1 from hmany)] at hout
    exact ⟨c, hout, hmodel⟩

/-- The one component of a parallel step. -/
theorem parallel_one (h : r.cycle.model.Started lcm) {par : List String}
    (he : r.Returns lcm e (.parallel par)) (hone : par.length = 1) :
    r.Advances lcm (.parallel par) (e.run r.cycle lcm) ↔ r.InTurn lcm (.parallel par) e := by
  have hroom : r.returned.length + 1 ≤ par.length := he.room
  have hlt : r.cycle.model.state < lcm.length := he.lt
  have hmem : e.function ∈ par := he.mem
  have hcurrent : lcm[r.cycle.model.state]? = some (.parallel par) := he.current
  have hmoves := he.moves h
  have hlast : r.returned.length + 1 = (LifeCycleStep.parallel par).components.length := by
    show r.returned.length + 1 = par.length
    omega
  unfold Advances InTurn
  rw [if_pos hlast]
  cases e with
  | thread fn recorded =>
    have hrun : r.cycle.returnFromThread lcm fn recorded =
        (r.cycle.model.updateLCM lcm).map fun l => .goesOn { r.cycle with model := l } := by
      unfold LifeCycle.returnFromThread
      rw [show r.cycle.model.stepMovesWhenReturns lcm fn = _ from hmoves, Option.bind_some,
        if_pos (by simpa using hone), if_pos he.success.1]
    simp only [ComponentReturn.run, hone, if_true, hrun, h.updates hlt]
    unfold state
    by_cases hend : r.cycle.model.state + 1 = lcm.length
    · rw [if_pos hend, if_pos hend]
      simp [hend]
    · rw [if_neg hend, if_neg hend]
      simp
      omega
  | main fn result active =>
    have hvalue : r.cycle.model.getCurrentSuccessValue lcm = none := by
      unfold LifeCycleModelState.getCurrentSuccessValue
      rw [hcurrent, Option.bind_some]
    simp only [ComponentReturn.run, hone, if_true]
    unfold state
    cases result with
    | const v =>
      have hout := LifeCycle.returnFromMain_recorded h hcurrent fn hmem active
        (LifeCycle.record_const r.cycle lcm fn v) rfl
      rw [if_pos (show (LifeCycleStep.parallel par).components.length = 1 from hone)] at hout
      have hrecorded : (r.cycle.record fn v).returnValueModel fn = some v := by
        simp [LifeCycle.record]
      rw [hrecorded] at hout
      simp only [hvalue, Option.bind_none] at hout
      rw [hout]
      by_cases hend : r.cycle.model.state + 1 = lcm.length
      · cases active with
        | true => simp [hend]
        | false => simp [hend]
      · simp [hend]
    | symbolic mayBe =>
      have hnone := LifeCycle.record_parallel h hcurrent fn hmem mayBe
      rw [if_pos hone] at hnone
      unfold LifeCycle.returnFromMain
      rw [hnone, Option.bind_none]
      by_cases hend : r.cycle.model.state + 1 = lcm.length
      · simp [hend]
      · simp [hend]
    | void => exact absurd he.success id

/-- A component that has returned leads on where it has to exactly in turn. -/
theorem advances_iff (h : r.cycle.model.Started lcm) (he : r.Returns lcm e step) :
    r.Advances lcm step (e.run r.cycle lcm) ↔ r.InTurn lcm step e := by
  cases step with
  | identifier name v => exact identifier_iff h he
  | parallel par =>
    by_cases hone : par.length = 1
    · exact parallel_one h he hone
    · obtain ⟨c, hrun, hmodel⟩ := parallel_stays h he hone
      have hroom : r.returned.length + 1 ≤ par.length := he.room
      have hstays : c.model.state = r.state := by rw [hmodel]; rfl
      rw [hrun]
      have hturn : r.InTurn lcm (.parallel par) e ↔ r.returned.length + 1 < par.length := by
        cases e <;> simp [InTurn, hone]
      rw [hturn]
      unfold Advances
      by_cases hlast : r.returned.length + 1 = par.length
      · rw [if_pos (show r.returned.length + 1 = (LifeCycleStep.parallel par).components.length
          from hlast)]
        by_cases hend : r.state + 1 = lcm.length
        · simp [hend, hlast]
        · simp [hend, hlast, hstays]
      · rw [if_neg (show ¬ r.returned.length + 1 =
          (LifeCycleStep.parallel par).components.length from hlast)]
        simp only [Option.some.injEq, RetOutcome.goesOn.injEq, exists_eq_left', hstays, true_iff]
        omega

theorem recordReturn_model {c c' : LifeCycle} {fn : String} {result : ReturnResult}
    (h : c.recordReturn lcm fn result = some c') : c'.model = c.model := by
  cases result with
  | const v =>
    cases h
    rfl
  | symbolic mayBe =>
    obtain ⟨moves, _, h⟩ := Option.bind_eq_some_iff.mp h
    split at h
    · obtain ⟨v, _, h⟩ := Option.map_eq_some_iff.mp h
      split at h <;> cases h <;> rfl
    · cases h
      rfl
  | void =>
    cases h
    rfl

/-- A return leaves the model as it is or moves it on. -/
theorem run_model {c c' : LifeCycle} (h : e.run c lcm = some (.goesOn c')) :
    c'.model = c.model ∨ c.model.updateLCM lcm = some c'.model := by
  cases e with
  | main fn result active =>
    change c.returnFromMain lcm fn result active = _ at h
    unfold LifeCycle.returnFromMain at h
    obtain ⟨c1, hrecord, h⟩ := Option.bind_eq_some_iff.mp h
    obtain ⟨completes, _, h⟩ := Option.bind_eq_some_iff.mp h
    have hmodel := recordReturn_model hrecord
    split at h
    · cases h
    · obtain ⟨moves, _, h⟩ := Option.bind_eq_some_iff.mp h
      split at h
      · split at h
        · obtain ⟨success, _, h⟩ := Option.bind_eq_some_iff.mp h
          split at h
          · obtain ⟨l, hl, h⟩ := Option.bind_eq_some_iff.mp h
            obtain ⟨_, _, h⟩ := Option.map_eq_some_iff.mp h
            cases h
            rw [← hmodel]
            exact .inr hl
          · cases h
        · cases h
      · cases h
        exact .inl hmodel
  | thread fn recorded =>
    change c.returnFromThread lcm fn recorded = _ at h
    unfold LifeCycle.returnFromThread at h
    obtain ⟨moves, _, h⟩ := Option.bind_eq_some_iff.mp h
    split at h
    · split at h
      · obtain ⟨l, hl, h⟩ := Option.map_eq_some_iff.mp h
        cases h
        exact .inr hl
      · cases h
    · cases h
      exact .inl rfl

theorem reached_started (h : Reached lcm r) : r.cycle.model.Started lcm := by
  induction h with
  | start hl => exact LifeCycleModelState.start_started hl
  | step _ he hrun ih =>
    rcases run_model hrun with hsame | hmoved
    · show LifeCycleModelState.Started lcm _
      rw [next, hsame]
      exact ih
    · exact (ih.update he.lt hmoved).1

/-- The run at its start. -/
def started : LifeCycleRun where
  cycle := { model := { initialized := true }, returnValueModel := .empty }

def twoSteps : List LifeCycleStep := [.identifier "init" 0, .identifier "probe" 0]

/-- Two functions in parallel between two others. -/
def forkJoin : List LifeCycleStep :=
  [.identifier "init" 0, .parallel ["read", "write"], .identifier "remove" 0]

end LifeCycleRun

namespace Focus

variable {K : Type} {cfg : PMConfig K} {w w' : Focus K}

/-- `updateLCMState` of a state moves its model as `updateLCM` does. -/
theorem updateLCMState_model {lcm : List LifeCycleStep} {p : Nat} {l : LifeCycleModelState}
    (hlcm : cfg.lcm = some lcm) (hp : w.state.lcmState = some p) (hl : w.heap.lcms[p]? = some l)
    (h : w.updateLCMState cfg = some w') :
    ∃ l', l.updateLCM lcm = some l' ∧ w'.heap.lcms[p]? = some l' := by
  unfold updateLCMState at h
  rw [hlcm] at h
  simp only [hp, hl, Option.bind_some] at h
  unfold LifeCycleModelState.updateLCM
  split at h
  · rename_i hdone
    cases h
    rw [if_pos hdone]
    exact ⟨l, rfl, hl⟩
  · rename_i hmore
    obtain ⟨seq, hseq, h⟩ := Option.bind_eq_some_iff.mp h
    obtain ⟨t, ht, h⟩ := Option.map_eq_some_iff.mp h
    cases h
    rw [if_neg hmore, hseq, Option.map_some]
    refine ⟨_, rfl, ?_⟩
    have hlt : p < t.heap.lcms.length := by
      rw [(startStep_same ht).heap]
      exact (List.getElem?_eq_some_iff.mp hl).1
    exact List.getElem?_set_self hlt

end Focus

end Encider
