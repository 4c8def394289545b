import Encider.State.LifeCycle
import Encider.Thread.Schedule

/-! The two cases `Ret`, of the main thread and of the other threads, for the function of a step. -/

namespace Encider

/-- A return expression of any width, or none. `values` are the values that a symbolic one may have
on the path, and `mayBeTrue` is the solver's answer for one of them; it may give none in time. -/
inductive ReturnExpr where
  | const {w : Nat} (v : BitVec w)
  | symbolic {w : Nat} (values : Set (BitVec w)) (mayBeTrue : BitVec w → Option Bool)
  | void

/-- `getZExtValue` with the width of the constant, as a `long`: of a wide constant the bits above
the lowest 64, which have to fit. -/
def longOfConstant {w : Nat} (v : BitVec w) : Option Int :=
  if w ≤ 64 then some (BitVec.ofNat 64 v.toNat).toInt
  else if v.toNat / 2 ^ 64 < 2 ^ 64 then some (BitVec.ofNat 64 (v.toNat / 2 ^ 64)).toInt
  else none

/-- `getZExtValue`, as an `int`; the assertion on the width fails for a wide constant. -/
def intOfConstant {w : Nat} (v : BitVec w) : Option Int :=
  if w ≤ 64 then some (BitVec.ofNat 32 v.toNat).toInt else none

/-- `ConstantExpr::alloc` of an `int`. -/
def allocConstant (w : Nat) (value : Int) : BitVec w := (BitVec.ofInt 64 value).setWidth w

namespace ReturnExpr

/-- The value that `recordReturn` is given. -/
def result : ReturnExpr → Option ReturnResult
  | const v => (longOfConstant v).map .const
  | symbolic (w := w) _ mayBeTrue =>
    some (.symbolic fun value => mayBeTrue (allocConstant w value) == some true)
  | void => some .void

/-- The return value may equal a declared one. -/
def MayEqual (success : Int) : ReturnExpr → Prop
  | const (w := w) v => v = BitVec.ofInt w success
  | symbolic (w := w) values _ => BitVec.ofInt w success ∈ values
  | void => False

end ReturnExpr

variable {K : Type}

/-- The life cycle of a state and its threads. -/
structure ReturnState (K : Type) where
  cycle : LifeCycle
  scheduling : Scheduling K

/-- A path is terminated, by the last step of its life cycle or early, or goes on. -/
inductive PathOutcome (K : Type) where
  | completed
  | terminated
  | goesOn (s : ReturnState K)

namespace ReturnState

/-- The state behind a return from the main thread, which waits for the other threads. -/
def behindMain (s : ReturnState K) : RetOutcome → PathOutcome K
  | .finished => .completed
  | .early => .terminated
  | .goesOn c => .goesOn
    { cycle := c
      scheduling :=
        if s.scheduling.activeThreads then s.scheduling.setWaitingForThreadsToTerminate true
        else s.scheduling }

/-- `Ret` of `executeInstruction` in the first function of the main thread. -/
def returnFromMain (s : ReturnState K) (lcm : List LifeCycleStep) (fn : String) (e : ReturnExpr) :
    Option (PathOutcome K) :=
  e.result.bind fun result =>
    (s.cycle.returnFromMain lcm fn result s.scheduling.activeThreads).map s.behindMain

/-- The record in `executeInstructionThread`, which is made with a programming model only. -/
def recordInThread (progModel : Bool) (recorded : StdMap String Int) (fn : String) :
    ReturnExpr → Option (StdMap String Int)
  | .const v =>
    if progModel then (intOfConstant v).map fun i => Function.update recorded fn (some i)
    else some recorded
  | _ => some recorded

/-- The state behind a return from a thread; where the step fails this ends the thread. -/
def behindThread (s : ReturnState K) (tid : Nat) : RetOutcome → ReturnState K
  | .goesOn c => { s with
    cycle := c }
  | _ => { s with
    scheduling := s.scheduling.terminateThread tid }

/-- `Ret` of `executeInstructionThread` in the first function of a thread. -/
def returnFromThread (s : ReturnState K) (progModel : Bool) (lcm : List LifeCycleStep) (fn : String)
    (tid : Nat) (e : ReturnExpr) : Option (PathOutcome K) :=
  (s.scheduling.threads[tid]?).bind fun t =>
    (recordInThread progModel t.returnValueModel fn e).bind fun recorded =>
      let s' : ReturnState K := { s with
        scheduling := { s.scheduling with
          threads := s.scheduling.threads.set tid { t with returnValueModel := recorded } } }
      (s.cycle.returnFromThread lcm fn (recorded fn)).map fun out =>
        .goesOn (s'.behindThread tid out)

/-- The next step of the path terminates it: no thread is left to run, and main waits for them. -/
def AtEnd (s : ReturnState K) (klee : String → K) : Prop :=
  s.scheduling.waitingForThreadsToTerminate = true ∧
    ∃ scheduling, s.scheduling.scheduleAsync klee = some (-1, scheduling)

/-- The path is terminated, at once or with its next step, and its life cycle stays in the step. -/
def Terminates (klee : String → K) (state : Nat) : PathOutcome K → Prop
  | .goesOn s => s.cycle.model.state = state ∧ s.AtEnd klee
  | _ => True

/-- The right decision for a return in step `state` of the life cycle: this advances or is completed
if the value may be the success value, and otherwise the path is terminated. -/
def Decides (klee : String → K) (state : Nat) (success : Int) (e : ReturnExpr)
    (out : Option (PathOutcome K)) : Prop :=
  (e.MayEqual success → out = some .completed ∨
      ∃ s, out = some (.goesOn s) ∧ s.cycle.model.state = state + 1) ∧
    (¬ e.MayEqual success → ∃ o, out = some o ∧ Terminates klee state o)

end ReturnState

namespace ReturnExpr

variable {success : Int} {stale : Option Int}

/-- The value recorded in the main thread, where `stale` is the record before, stands for success
exactly if the return value may be the success value. -/
def KeptInMain (stale : Option Int) (success : Int) : ReturnExpr → Prop
  | const (w := w) v =>
    if w ≤ 64 then v = BitVec.ofInt w success → (0 ≤ success ∧ success < 2 ^ w) ∨ w = 64
    else v.toNat < 2 ^ 128 ∧
      ((BitVec.ofNat 64 (v.toNat / 2 ^ 64)).toInt = success ↔ v = BitVec.ofInt w success)
  | symbolic (w := w) values mayBeTrue =>
    (BitVec.ofInt w success ∈ values →
        mayBeTrue (allocConstant w success) = some true ∨ stale = some success) ∧
      (BitVec.ofInt w success ∉ values →
        mayBeTrue (allocConstant w success) ≠ some true ∧ stale ≠ some success)
  | void => stale ≠ some success

/-- The record of the main thread is the success value behind the return. -/
def Recorded (stale : Option Int) (success : Int) : ReturnExpr → Prop
  | const v => longOfConstant v = some success
  | symbolic (w := w) _ mayBeTrue =>
    mayBeTrue (allocConstant w success) = some true ∨ stale = some success
  | void => stale = some success

/-- The record of a thread is zero behind the return. -/
def ZeroInThread (progModel : Bool) (stale : Option Int) : ReturnExpr → Prop
  | const v => if progModel then v.toNat % 2 ^ 32 = 0 else stale = some 0
  | _ => stale = some 0

/-- A constant that a thread records is not wide. -/
def FitsThread (progModel : Bool) : ReturnExpr → Prop
  | const (w := w) _ => progModel = true → w ≤ 64
  | _ => True

end ReturnExpr

namespace ReturnState

/-- The thread is the only one that is left to run, and main waits. -/
def OnlyThread (s : ReturnState K) (tid : Nat) : Prop :=
  s.scheduling.waitingForThreadsToTerminate = true ∧
    startAsync s.scheduling.initiatedAsync = none ∧ ∀ next ∈ s.scheduling.threadsQueue, next = tid

/-- When the main thread decides right. -/
def MainCondition (s : ReturnState K) (lcm : List LifeCycleStep) (fn : String) (success : Int)
    (e : ReturnExpr) : Prop :=
  if s.cycle.model.state + 1 = lcm.length then
    if s.scheduling.activeThreads then
      ¬ e.MayEqual success ∧ e.KeptInMain (s.cycle.returnValueModel fn) success
    else e.result ≠ none
  else e.KeptInMain (s.cycle.returnValueModel fn) success

/-- When another thread decides right. -/
def ThreadCondition (s : ReturnState K) (progModel : Bool) (lcm : List LifeCycleStep) (tid : Nat)
    (stale : Option Int) (success : Int) (e : ReturnExpr) : Prop :=
  e.FitsThread progModel ∧
    (e.MayEqual success → e.ZeroInThread progModel stale ∧ s.cycle.model.state + 1 < lcm.length) ∧
    (¬ e.MayEqual success → ¬ e.ZeroInThread progModel stale ∧ s.OnlyThread tid)

end ReturnState

namespace ReturnExpr

theorem eq_ofInt_iff {w : Nat} {v : BitVec w} {value : Int} :
    v = BitVec.ofInt w value ↔ (v.toNat : Int) = value % 2 ^ w := by
  rw [← BitVec.toNat_inj, BitVec.toNat_ofInt, ← Int.ofNat_inj]
  push_cast
  rw [Int.toNat_of_nonneg (Int.emod_nonneg value (by positivity))]

/-- Of a constant that is not wide the main thread keeps a value that is not negative and fits. -/
theorem long_iff {w : Nat} {v : BitVec w} (hw : w ≤ 64)
    (hs : -2 ^ 31 ≤ success ∧ success < 2 ^ 31) :
    (longOfConstant v = some success ↔ v = BitVec.ofInt w success) ↔
      (v = BitVec.ofInt w success → (0 ≤ success ∧ success < 2 ^ w) ∨ w = 64) := by
  have hlt := v.isLt
  have hle : 2 ^ w ≤ 2 ^ 64 := Nat.pow_le_pow_right (by norm_num) hw
  have hlong : longOfConstant v = some success ↔
      (if v.toNat < 2 ^ 63 then (v.toNat : Int) else v.toNat - 2 ^ 64) = success := by
    unfold longOfConstant
    rw [if_pos hw, Option.some.injEq, BitVec.toInt_eq_toNat_cond, BitVec.toNat_ofNat,
      Nat.mod_eq_of_lt (by omega)]
    split_ifs <;> omega
  rw [hlong, eq_ofInt_iff]
  by_cases hfull : w = 64
  · subst hfull
    split_ifs <;> omega
  · have hhalf : 2 ^ w ≤ 2 ^ 63 := Nat.pow_le_pow_right (by norm_num) (by omega)
    rw [if_pos (by omega)]
    have hnonneg : 0 ≤ success % 2 ^ w := Int.emod_nonneg success (by positivity)
    have hmod : success % 2 ^ w < 2 ^ w := Int.emod_lt_of_pos success (by positivity)
    have hsame : 0 ≤ success ∧ success < 2 ^ w → success % 2 ^ w = success :=
      fun h => Int.emod_eq_of_lt h.1 h.2
    constructor
    · intro h heq
      have := h.mpr heq
      exact .inl (by omega)
    · intro h
      constructor
      · intro heq
        have hlt : (v.toNat : Int) < 2 ^ w := by exact_mod_cast hlt
        rw [hsame (by omega), heq]
      · intro heq
        rw [heq, hsame ((h heq).resolve_right hfull)]

variable {e : ReturnExpr}

/-- What the main thread records stands for success where it has to. -/
theorem keptInMain_iff (hs : -2 ^ 31 ≤ success ∧ success < 2 ^ 31) :
    e.KeptInMain stale success ↔
      e.result ≠ none ∧ (e.Recorded stale success ↔ e.MayEqual success) := by
  cases e with
  | const v =>
    unfold KeptInMain result Recorded MayEqual
    dsimp only
    split
    · rename_i hw
      rw [long_iff hw hs]
      have hsome : (longOfConstant v).map ReturnResult.const ≠ none := by
        unfold longOfConstant
        rw [if_pos hw]
        simp
      exact ⟨fun h => ⟨hsome, h⟩, fun h => h.2⟩
    · rename_i hw
      unfold longOfConstant
      rw [if_neg hw]
      by_cases hfits : v.toNat / 2 ^ 64 < 2 ^ 64
      · rw [if_pos hfits, Option.some.injEq]
        have hfits' : v.toNat < 2 ^ 128 := by omega
        exact ⟨fun h => ⟨by simp, h.2⟩, fun h => ⟨hfits', h.2⟩⟩
      · rw [if_neg hfits]
        have hwide : ¬ v.toNat < 2 ^ 128 := by omega
        exact ⟨fun h => absurd h.1 hwide, fun h => absurd rfl h.1⟩
  | symbolic values mayBeTrue =>
    unfold KeptInMain result Recorded MayEqual
    dsimp only
    by_cases hmay : BitVec.ofInt _ success ∈ values
    · simp [hmay]
    · simp [hmay]
  | void => simp [KeptInMain, result, Recorded, MayEqual]

end ReturnExpr

namespace LifeCycle

variable {lcm : List LifeCycleStep} {c : LifeCycle} {fn : String} {success : Int} {e : ReturnExpr}
  {result : ReturnResult}

/-- The record that the main thread leaves. -/
theorem recordReturn_recorded (h : c.model.Started lcm)
    (hstep : lcm[c.model.state]? = some (.identifier fn success))
    (hresult : e.result = some result) :
    ∃ c', c.recordReturn lcm fn result = some c' ∧ c'.model = c.model ∧
      (c'.returnValueModel fn = some success ↔ e.Recorded (c.returnValueModel fn) success) := by
  have hmoves := h.moves hstep fn List.mem_cons_self
  cases e with
  | const v =>
    obtain ⟨i, hi, rfl⟩ := Option.map_eq_some_iff.mp hresult
    refine ⟨c.record fn i, rfl, rfl, ?_⟩
    rw [show (ReturnExpr.const v).Recorded _ success ↔ longOfConstant v = some success from Iff.rfl,
      hi]
    simp [record]
  | symbolic values mayBeTrue =>
    obtain rfl := Option.some.inj hresult
    unfold recordReturn LifeCycleModelState.getCurrentSuccessValue ReturnExpr.Recorded
    simp only [hmoves, hstep, Option.bind_some, Option.map_some, LifeCycleStep.components,
      List.length_singleton, decide_true, if_true]
    split
    · rename_i hmay
      refine ⟨_, rfl, rfl, ?_⟩
      simp [record, eq_of_beq hmay]
    · rename_i hmay
      have hmay' : mayBeTrue (allocConstant _ success) ≠ some true :=
        fun heq => hmay (by simp [heq])
      refine ⟨_, rfl, rfl, ?_⟩
      simp [hmay']
  | void =>
    obtain rfl := Option.some.inj hresult
    exact ⟨c, rfl, rfl, Iff.rfl⟩

end LifeCycle

namespace ReturnState

variable {lcm : List LifeCycleStep} {s : ReturnState K} {fn : String} {success : Int}
  {e : ReturnExpr} {klee : String → K}

variable {state : Nat}

theorem not_decides_none : ¬ Decides klee state success e none := by
  intro h
  by_cases hmay : e.MayEqual success
  · rcases h.1 hmay with hcompleted | ⟨_, hgoes, _⟩
    · cases hcompleted
    · cases hgoes
  · obtain ⟨_, hsome, _⟩ := h.2 hmay
    cases hsome

theorem decides_completed : Decides klee state success e (some .completed) :=
  ⟨fun _ => .inl rfl, fun _ => ⟨_, rfl, trivial⟩⟩

theorem decides_terminated :
    Decides klee state success e (some .terminated) ↔ ¬ e.MayEqual success := by
  constructor
  · intro h hmay
    rcases h.1 hmay with hcompleted | ⟨_, hgoes, _⟩
    · cases hcompleted
    · cases hgoes
  · intro hmay
    exact ⟨fun h => absurd h hmay, fun _ => ⟨_, rfl, trivial⟩⟩

theorem decides_goesOn {s' : ReturnState K} : Decides klee state success e (some (.goesOn s')) ↔
    (e.MayEqual success → s'.cycle.model.state = state + 1) ∧
      (¬ e.MayEqual success → s'.cycle.model.state = state ∧ s'.AtEnd klee) := by
  refine and_congr (imp_congr_right fun _ => ?_) (imp_congr_right fun _ => ?_)
  · constructor
    · intro h
      rcases h with hcompleted | ⟨_, hgoes, hstate⟩
      · cases hcompleted
      · cases hgoes
        exact hstate
    · exact fun h => .inr ⟨s', rfl, h⟩
  · constructor
    · intro h
      obtain ⟨_, hsome, hend⟩ := h
      cases hsome
      exact hend
    · exact fun h => ⟨_, rfl, h⟩

/-- What the return from the main thread leads to. -/
theorem returnFromMain_cases (h : s.cycle.model.Started lcm)
    (hstep : lcm[s.cycle.model.state]? = some (.identifier fn success))
    (hresult : e.result ≠ none) :
    (s.cycle.model.state + 1 = lcm.length ∧ s.scheduling.activeThreads = false ∧
        s.returnFromMain lcm fn e = some .completed) ∨
      ((s.cycle.model.state + 1 = lcm.length → s.scheduling.activeThreads = true) ∧
        ((¬ e.Recorded (s.cycle.returnValueModel fn) success ∧
            s.returnFromMain lcm fn e = some .terminated) ∨
          (e.Recorded (s.cycle.returnValueModel fn) success ∧
            if s.cycle.model.state + 1 = lcm.length then s.returnFromMain lcm fn e = none
            else ∃ s', s.returnFromMain lcm fn e = some (.goesOn s') ∧
              s'.cycle.model.state = s.cycle.model.state + 1))) := by
  obtain ⟨result, hresult⟩ := Option.ne_none_iff_exists'.mp hresult
  obtain ⟨c', hrecord, hmodel, hrecorded⟩ := LifeCycle.recordReturn_recorded h hstep hresult
  have hlt : s.cycle.model.state < lcm.length := (List.getElem?_eq_some_iff.mp hstep).1
  have hout := LifeCycle.returnFromMain_recorded h hstep fn List.mem_cons_self
    s.scheduling.activeThreads hrecord hmodel
  rw [if_pos (show (LifeCycleStep.identifier fn success).components.length = 1 from rfl)] at hout
  have hsuccess : s.cycle.model.getCurrentSuccessValue lcm = some success := by
    unfold LifeCycleModelState.getCurrentSuccessValue
    rw [hstep, Option.bind_some]
  rw [hsuccess, h.updates hlt] at hout
  unfold returnFromMain
  rw [hresult, Option.bind_some]
  by_cases hlast : s.cycle.model.state + 1 = lcm.length ∧ s.scheduling.activeThreads = false
  · refine .inl ⟨hlast.1, hlast.2, ?_⟩
    rw [if_pos hlast] at hout
    rw [hout]
    rfl
  · refine .inr ⟨fun heq => by simpa using fun hactive => hlast ⟨heq, hactive⟩, ?_⟩
    rw [if_neg hlast] at hout
    by_cases hsame : c'.returnValueModel fn = some success
    · refine .inr ⟨hrecorded.mp hsame, ?_⟩
      rw [hsame] at hout
      simp only [Option.bind_some, if_true] at hout
      rw [hout]
      by_cases hend : s.cycle.model.state + 1 = lcm.length
      · rw [if_pos hend, if_pos hend, Option.bind_none]
        rfl
      · rw [if_neg hend, if_neg hend, Option.bind_some, List.getElem?_eq_getElem (by simp; omega)]
        exact ⟨_, rfl, rfl⟩
    · refine .inl ⟨fun h => hsame (hrecorded.mpr h), ?_⟩
      rw [hout]
      cases hvalue : c'.returnValueModel fn with
      | none => rfl
      | some v =>
        have hv : v ≠ success := fun heq => hsame (by rw [hvalue, heq])
        dsimp only
        rw [Option.bind_some, if_neg hv]
        rfl

/-- The main thread decides right exactly where it keeps the value. -/
theorem returnFromMain_decides_iff (h : s.cycle.model.Started lcm)
    (hstep : lcm[s.cycle.model.state]? = some (.identifier fn success))
    (hs : -2 ^ 31 ≤ success ∧ success < 2 ^ 31) :
    Decides klee s.cycle.model.state success e (s.returnFromMain lcm fn e) ↔
      s.MainCondition lcm fn success e := by
  unfold MainCondition
  have hkept : e.KeptInMain (s.cycle.returnValueModel fn) success ↔ _ :=
    ReturnExpr.keptInMain_iff hs
  by_cases hresult : e.result = none
  · have hout : s.returnFromMain lcm fn e = none := by
      unfold returnFromMain
      rw [hresult, Option.bind_none]
    have hnot : ¬ Decides klee s.cycle.model.state success e none := not_decides_none
    rw [hout, hkept]
    simp [hresult, hnot]
  · rcases returnFromMain_cases h hstep hresult with
      ⟨hlast, hactive, hout⟩ | ⟨hactive, ⟨hrecorded, hout⟩ | ⟨hrecorded, hout⟩⟩
    · rw [hout, if_pos hlast, hactive]
      simpa [hresult] using decides_completed
    · rw [hout, decides_terminated, hkept]
      split_ifs with hlast hthreads
      · simp [hresult, hrecorded]
      · exact absurd (hactive hlast) hthreads
      · simp [hresult, hrecorded]
    · rw [hkept]
      by_cases hlast : s.cycle.model.state + 1 = lcm.length
      · rw [if_pos hlast] at hout
        rw [hout, if_pos hlast, if_pos (hactive hlast)]
        have hnot : ¬ Decides klee s.cycle.model.state success e none := not_decides_none
        simp [hresult, hrecorded, hnot]
      · rw [if_neg hlast] at hout
        obtain ⟨s', hout, hstate⟩ := hout
        rw [hout, if_neg hlast, decides_goesOn, hstate]
        simp [hresult, hrecorded]

/-- What a thread records. -/
theorem recordInThread_zero {progModel : Bool} {recorded : StdMap String Int}
    (hfits : e.FitsThread progModel) : ∃ recorded', recordInThread progModel recorded fn e =
      some recorded' ∧ (recorded' fn = some 0 ↔ e.ZeroInThread progModel (recorded fn)) := by
  cases e with
  | const v =>
    unfold recordInThread ReturnExpr.ZeroInThread
    dsimp only
    cases progModel with
    | true =>
      unfold intOfConstant
      rw [if_pos rfl, if_pos (hfits rfl), Option.map_some]
      refine ⟨_, rfl, ?_⟩
      rw [Function.update_self, Option.some.injEq, if_pos rfl, BitVec.toInt_eq_toNat_cond,
        BitVec.toNat_ofNat]
      split_ifs <;> omega
    | false => exact ⟨recorded, rfl, Iff.rfl⟩
  | symbolic values mayBeTrue => exact ⟨recorded, rfl, Iff.rfl⟩
  | void => exact ⟨recorded, rfl, Iff.rfl⟩

theorem recordInThread_none {progModel : Bool} {recorded : StdMap String Int}
    (hfits : ¬ e.FitsThread progModel) : recordInThread progModel recorded fn e = none := by
  cases e with
  | const v =>
    obtain ⟨hmodel, hw⟩ := Classical.not_imp.mp hfits
    unfold recordInThread intOfConstant
    dsimp only
    rw [if_pos hmodel, if_neg hw, Option.map_none]
  | symbolic values mayBeTrue => exact absurd trivial hfits
  | void => exact absurd trivial hfits

/-- Behind the end of the running thread the path is at its end exactly if that was the only one. -/
theorem atEnd_iff {scheduling : Scheduling K} {tid : Nat} {t : Async K} {c : LifeCycle}
    (ht : scheduling.threads[tid]? = some t) (hrun : scheduling.rtid = tid) :
    AtEnd ⟨c, scheduling.terminateThread tid⟩ klee ↔ OnlyThread ⟨c, scheduling⟩ tid := by
  unfold AtEnd OnlyThread
  refine and_congr_right fun hwaits => ?_
  have hwaits : scheduling.waitingForThreadsToTerminate = true := hwaits
  have hgoesOn : (scheduling.terminateThread tid).goesOn = some false := by
    unfold Scheduling.goesOn Scheduling.terminateThread
    simp [hrun, hwaits, ht]
  unfold Scheduling.scheduleAsync
  rw [hgoesOn, Option.bind_some, if_neg Bool.false_ne_true]
  have hinitiated : (scheduling.terminateThread tid).initiatedAsync = scheduling.initiatedAsync :=
    rfl
  rw [hinitiated]
  cases hstart : startAsync scheduling.initiatedAsync with
  | some p => simp [Scheduling.startInstance, Scheduling.newThread]
  | none =>
    rw [← List.filter_eq_nil_iff.trans (by simp : (∀ next ∈ scheduling.threadsQueue,
      ¬ decide (next ≠ (tid : Int)) = true) ↔ ∀ next ∈ scheduling.threadsQueue, next = (tid : Int))]
    have hqueue : (scheduling.terminateThread tid).threadsQueue =
        scheduling.threadsQueue.filter fun next => next ≠ (tid : Int) := rfl
    have hwaits' : (scheduling.terminateThread tid).waitingForThreadsToTerminate = true := hwaits
    dsimp only
    unfold Scheduling.chooseNext
    rw [hqueue, hwaits']
    cases scheduling.threadsQueue.filter fun next => next ≠ (tid : Int) with
    | nil => simp
    | cons next rest =>
      dsimp only
      simp only [if_true, reduceCtorEq, and_false, iff_false]
      by_cases hmain : next = -1
      · simp [hmain]
      · rw [if_neg hmain]
        intro hnext
        obtain ⟨_, hnext⟩ := hnext
        split_ifs at hnext
        all_goals exact hmain (congrArg Prod.fst (Option.some.inj hnext))

/-- A thread decides right exactly under these conditions. -/
theorem returnFromThread_decides_iff {progModel : Bool} {tid : Nat} {t : Async K}
    (h : s.cycle.model.Started lcm)
    (hstep : lcm[s.cycle.model.state]? = some (.identifier fn success))
    (ht : s.scheduling.threads[tid]? = some t) (hrun : s.scheduling.rtid = tid) :
    Decides klee s.cycle.model.state success e (s.returnFromThread progModel lcm fn tid e) ↔
      s.ThreadCondition progModel lcm tid (t.returnValueModel fn) success e := by
  have hlt : s.cycle.model.state < lcm.length := (List.getElem?_eq_some_iff.mp hstep).1
  unfold returnFromThread ThreadCondition
  rw [ht, Option.bind_some]
  by_cases hfits : e.FitsThread progModel
  · obtain ⟨recorded, hrecord, hzero⟩ :
        ∃ recorded, recordInThread progModel t.returnValueModel fn e = some recorded ∧ _ :=
      recordInThread_zero hfits
    have hmoves := h.moves hstep fn List.mem_cons_self
    rw [hrecord, Option.bind_some]
    dsimp only
    unfold LifeCycle.returnFromThread
    rw [hmoves, Option.bind_some, if_pos (by rfl), ← hzero]
    by_cases hstale : recorded fn = some 0
    · rw [if_pos hstale, h.updates hlt]
      by_cases hlast : s.cycle.model.state + 1 = lcm.length
      · have hnot : ¬ Decides klee s.cycle.model.state success e none := not_decides_none
        rw [if_pos hlast, Option.map_none, Option.map_none]
        refine ⟨fun h => absurd h hnot, ?_⟩
        intro hall
        by_cases hmay : e.MayEqual success
        · have := (hall.2.1 hmay).2
          omega
        · exact absurd hstale (hall.2.2 hmay).1
      · rw [if_neg hlast, Option.map_some, Option.map_some, decides_goesOn]
        have hmore : s.cycle.model.state + 1 < lcm.length := by omega
        simp [behindThread, hfits, hstale, hmore]
    · rw [if_neg hstale, Option.map_some, decides_goesOn]
      have hthread : (s.scheduling.threads.set tid { t with returnValueModel := recorded })[tid]? =
          some { t with returnValueModel := recorded } :=
        List.getElem?_set_self (List.getElem?_eq_some_iff.mp ht).1
      have hend : AtEnd ⟨s.cycle, Scheduling.terminateThread { s.scheduling with
          threads := s.scheduling.threads.set tid { t with returnValueModel := recorded } } tid⟩
          klee ↔ s.OnlyThread tid := atEnd_iff hthread hrun
      refine Iff.trans ?_ (and_iff_right hfits).symm
      refine and_congr (imp_congr_right fun _ => ?_) (imp_congr_right fun _ => ?_)
      · exact ⟨fun hmoved => absurd hmoved (Nat.ne_of_lt (Nat.lt_succ_self _)),
          fun hmoved => absurd hmoved.1 hstale⟩
      · exact ⟨fun hover => ⟨hstale, hend.mp hover.2⟩, fun hover => ⟨rfl, hend.mpr hover.2⟩⟩
  · rw [recordInThread_none hfits]
    exact ⟨fun h => absurd h not_decides_none, fun h => absurd h.1 hfits⟩

/-- The two threads decide right, and so alike, exactly under their conditions, for every life-cycle
model and all records of earlier returns. -/
theorem returns_decide_iff (progModel : Bool) {tid : Nat} {t : Async K} {s s' : ReturnState K}
    (h : s.cycle.model.Started lcm) (h' : s'.cycle.model = s.cycle.model)
    (hstep : lcm[s.cycle.model.state]? = some (.identifier fn success))
    (hs : -2 ^ 31 ≤ success ∧ success < 2 ^ 31) (ht : s'.scheduling.threads[tid]? = some t)
    (hrun : s'.scheduling.rtid = tid) :
    (Decides klee s.cycle.model.state success e (s.returnFromMain lcm fn e) ↔
        s.MainCondition lcm fn success e) ∧
      (Decides klee s.cycle.model.state success e (s'.returnFromThread progModel lcm fn tid e) ↔
        s'.ThreadCondition progModel lcm tid (t.returnValueModel fn) success e) := by
  refine ⟨returnFromMain_decides_iff h hstep hs, ?_⟩
  rw [← h'] at h hstep ⊢
  exact returnFromThread_decides_iff h hstep ht hrun

/-- A life cycle in the first of two steps, with a thread that runs. -/
def probing (rtid : Int) (waiting : Bool) (stale : StdMap String Int) : ReturnState Unit where
  cycle := { model := { initialized := true }, returnValueModel := stale }
  scheduling := {
    threads := [{ function := "probe", klee := (), tid := 0, context := 0 }]
    threadsQueue := [0]
    rtid := rtid
    waitingForThreadsToTerminate := waiting
    preemptable := false }

def probeSteps (success : Int) : List LifeCycleStep :=
  [.identifier "probe" success, .identifier "remove" 0]

/-- Where `probe` returns zero for success, both go on to `remove`. -/
theorem probe_returns_zero :
    Decides (fun _ => ()) 0 0 (.const 0#32)
        ((probing (-1) false .empty).returnFromMain (probeSteps 0) "probe" (.const 0#32)) ∧
      Decides (fun _ => ()) 0 0 (.const 0#32)
        ((probing 0 false .empty).returnFromThread true (probeSteps 0) "probe" 0
          (.const 0#32)) := by
  have hstarted : (probing (-1) false .empty).cycle.model.Started (probeSteps 0) :=
    ⟨rfl, fun _ => ⟨rfl, by decide⟩⟩
  have hmodel : (probing 0 false .empty).cycle.model =
      (probing (-1) false .empty).cycle.model := rfl
  have hsuccess : (-2 : Int) ^ 31 ≤ 0 ∧ (0 : Int) < 2 ^ 31 := by decide
  refine ⟨(returns_decide_iff true hstarted hmodel rfl hsuccess rfl rfl).1.mpr ?_,
    (returns_decide_iff true hstarted hmodel rfl hsuccess rfl rfl).2.mpr ?_⟩
  · unfold MainCondition ReturnExpr.KeptInMain
    rw [if_neg (by decide)]
    dsimp only
    rw [if_pos (by decide)]
    exact fun _ => .inl (by decide)
  · refine ⟨fun _ => by decide, fun _ => ⟨Nat.zero_mod _, by decide⟩, ?_⟩
    intro h
    exact absurd rfl h

/-- Where `probe` returns one for success, the main thread goes on and the other one ends. -/
theorem probe_returns_one :
    Decides (fun _ => ()) 0 1 (.const 1#32)
        ((probing (-1) false .empty).returnFromMain (probeSteps 1) "probe" (.const 1#32)) ∧
      ¬ Decides (fun _ => ()) 0 1 (.const 1#32)
        ((probing 0 false .empty).returnFromThread true (probeSteps 1) "probe" 0
          (.const 1#32)) := by
  constructor
  · exact decides_goesOn.mpr ⟨fun _ => rfl, fun h => absurd rfl h⟩
  · intro h
    exact absurd ((decides_goesOn.mp h).1 rfl) (by decide)

end ReturnState

end Encider
