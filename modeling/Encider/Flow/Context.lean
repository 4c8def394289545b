import Mathlib.Logic.Function.Basic
import Mathlib.Data.List.Forall2
import Mathlib.Data.List.Nodup

/-! The information-flow contexts of the states: a stack of pointers to maps for each
state, and the global context that the instructions read and write. -/

namespace Encider

variable {R L M : Type}

/-- `infoflowdata_t`: the addresses of a register map and of the local flow facts. -/
structure InfoFlowData where
  regMap : Nat
  localIFlow : Nat
deriving DecidableEq

/-- The empty maps, and whether INFOFLOW is defined (Executor.cpp undefines it). -/
structure FlowConfig (R L M : Type) where
  infoflow : Bool
  regMap : R
  localIFlow : L
  memoryInfoFlow : M

/-- What the run keeps, with `infoFlowSummaryMode` on: the maps by their addresses, the
stacks with their last element first, and of the executor the number of active calls of each
state, the live states, the number of states made so far and the state selected last. A stack
that was never made is a null pointer. -/
structure FlowState (R L M : Type) where
  regMaps : List R := []
  localIFlows : List L := []
  infoflowstack : Nat → Option (List InfoFlowData) := fun _ => none
  currentInfoFlowContext : Option InfoFlowData := none
  memoryInfoFlow : Nat → M
  calls : Nat → Nat := fun _ => 1
  live : List Nat := [0]
  made : Nat := 1
  lastState : Option Nat := none

namespace FlowState

/-- A context with two new maps. -/
def newContext (cfg : FlowConfig R L M) (g : FlowState R L M) : FlowState R L M × InfoFlowData :=
  ({ g with regMaps := g.regMaps ++ [cfg.regMap], localIFlows := g.localIFlows ++ [cfg.localIFlow] },
    ⟨g.regMaps.length, g.localIFlows.length⟩)

def setStack (g : FlowState R L M) (s : Nat) (stk : List InfoFlowData) : FlowState R L M :=
  { g with infoflowstack := Function.update g.infoflowstack s (some stk) }

def initInfoFlowContext (cfg : FlowConfig R L M) (g : FlowState R L M) (s : Nat) :
    FlowState R L M :=
  let (g, initvalue) := g.newContext cfg
  { g.setStack s [initvalue] with currentInfoFlowContext := some initvalue }

/-- The stack is copied, the maps that it points to are not. -/
def cloneInfoFlowContext (g : FlowState R L M) (s t : Nat) : Option (FlowState R L M) :=
  (g.infoflowstack s).map fun stk =>
    { g.setStack t stk with
      memoryInfoFlow := Function.update g.memoryInfoFlow t (g.memoryInfoFlow s) }

def updateCurrentInfoFlowContext (g : FlowState R L M) (s : Nat) : Option (FlowState R L M) :=
  match g.infoflowstack s with
  | some (c :: _) => some { g with currentInfoFlowContext := some c }
  | _ => none

def saveInfoFlowContext (g : FlowState R L M) (s : Nat) : Option (FlowState R L M) :=
  match g.infoflowstack s, g.currentInfoFlowContext with
  | some (_ :: stk), some c => some (g.setStack s (c :: stk))
  | _, _ => none

def pushInfoFlowContext (cfg : FlowConfig R L M) (g : FlowState R L M) (s : Nat) :
    Option (FlowState R L M) :=
  (g.saveInfoFlowContext s).bind fun g =>
    (g.infoflowstack s).map fun stk =>
      let (g, initvalue) := g.newContext cfg
      { g.setStack s (initvalue :: stk) with currentInfoFlowContext := some initvalue }

def popInfoFlowContext (g : FlowState R L M) (s : Nat) : Option (FlowState R L M) :=
  match g.infoflowstack s with
  | some (_ :: c :: stk) => some { g.setStack s (c :: stk) with currentInfoFlowContext := some c }
  | _ => none

/-- The current facts, and those of the memory of a state. -/
def seen (g : FlowState R L M) (s : Nat) : Option (R × L × M) :=
  g.currentInfoFlowContext.bind fun c =>
    (g.regMaps[c.regMap]?).bind fun r =>
      (g.localIFlows[c.localIFlow]?).map fun l => (r, l, g.memoryInfoFlow s)

/-- An instruction writes to the current maps and to the facts of a state's memory. -/
def write (g : FlowState R L M) (s : Nat) (f : R × L × M → R × L × M) : Option (FlowState R L M) :=
  g.currentInfoFlowContext.bind fun c =>
    (g.seen s).map fun facts =>
      { g with
        regMaps := g.regMaps.set c.regMap (f facts).1
        localIFlows := g.localIFlows.set c.localIFlow (f facts).2.1
        memoryInfoFlow := Function.update g.memoryInfoFlow s (f facts).2.2 }

end FlowState

/-- What the states do: one is selected by the loop of `run`, or by the loop over the seeds;
a state executes an instruction that changes its facts, calls a function or returns from it,
calls a function as a callback (`executeCallback`), replaces its function
(`extendExecutionWith`), is forked, is branched or ends. -/
inductive FlowEvent (R L M : Type) where
  | select (s : Nat)
  | seed (s : Nat)
  | write (s : Nat) (f : R × L × M → R × L × M)
  | call (s : Nat)
  | ret (s : Nat)
  | callback (s : Nat)
  | extendExecutionWith (s : Nat)
  | fork (s : Nat)
  | branch (s : Nat)
  | terminateState (s : Nat)

/-- The state that acts. -/
def FlowEvent.actor : FlowEvent R L M → Nat
  | .select s | .seed s | .write s _ | .call s | .ret s | .callback s | .extendExecutionWith s
  | .fork s | .branch s | .terminateState s => s

namespace FlowState

/-- The state made by a fork. -/
def addState (g : FlowState R L M) (s : Nat) : FlowState R L M :=
  { g with
    calls := Function.update g.calls g.made (g.calls s)
    live := g.made :: g.live
    made := g.made + 1 }

def pushFrame (g : FlowState R L M) (s : Nat) : FlowState R L M :=
  { g with calls := Function.update g.calls s (g.calls s + 1) }

def popFrame (g : FlowState R L M) (s : Nat) : FlowState R L M :=
  { g with calls := Function.update g.calls s (g.calls s - 1) }

/-- The switch at the head of the loop of `run`. -/
def select (g : FlowState R L M) (s : Nat) : Option (FlowState R L M) :=
  match g.lastState with
  | some last =>
    if last ≠ s then
      ((g.saveInfoFlowContext last).bind fun g => g.updateCurrentInfoFlowContext s).map fun g =>
        { g with lastState := some s }
    else some g
  | none => some { g with lastState := some s }

def act (cfg : FlowConfig R L M) (g : FlowState R L M) : FlowEvent R L M → Option (FlowState R L M)
  | .select s => g.select s
  | .seed s =>
    if cfg.infoflow then (g.updateCurrentInfoFlowContext s).map fun g => { g with lastState := none }
    else some { g with lastState := none }
  | .write s f => g.write s f
  | .call s =>
    if cfg.infoflow then (g.pushFrame s).pushInfoFlowContext cfg s else some (g.pushFrame s)
  | .ret s =>
    if g.calls s ≤ 1 then some g
    else if cfg.infoflow then (g.popFrame s).popInfoFlowContext s
    else some (g.popFrame s)
  | .callback s => some (g.pushFrame s)
  | .extendExecutionWith _ => some g
  | .fork s => (g.addState s).cloneInfoFlowContext s g.made
  | .branch s => some (g.addState s)
  | .terminateState s => some { g with live := g.live.filter (· ≠ s) }

/-- Only live states act. -/
def step (cfg : FlowConfig R L M) (g : FlowState R L M) (e : FlowEvent R L M) :
    Option (FlowState R L M) :=
  if e.actor ∈ g.live then g.act cfg e else none

/-- The beginning of a run: one state in its first function. -/
def initial (cfg : FlowConfig R L M) : FlowState R L M :=
  let g : FlowState R L M := { memoryInfoFlow := fun _ => cfg.memoryInfoFlow }
  if cfg.infoflow then g.initInfoFlowContext cfg 0 else g

end FlowState

end Encider
