import Encider.Lib.Own
import Encider.State.ProgModel

namespace Encider

variable {K : Type}

/-- A state with the memory that it points into. -/
structure Focus (K : Type) where
  heap : PMHeap
  state : ExecutionState K

namespace Focus

def setFrame (w : Focus K) (a : Nat) (f : PMFrame) : Focus K :=
  { w with heap := { w.heap with frames := w.heap.frames.set a f } }

def setFields (w : Focus K) (f : PMFields K) : Focus K :=
  { w with state := { w.state with toPMFields := f } }

def pushPMFrame (w : Focus K) (a : APIAction) (args : List Expr) (target : KInstruction)
    (tid : Int) : Focus K where
  heap := { w.heap with
    frames := w.heap.frames ++ [{ action := a, target := target, args := args, tid := tid }] }
  state := { w.state with pmstack := w.heap.frames.length :: w.state.pmstack }

def popPMFrame (w : Focus K) : Focus K :=
  { w with state := { w.state with pmstack := w.state.pmstack.tail } }

/-- The address of the top frame and the frame. -/
def top (w : Focus K) : Option (Nat × PMFrame) :=
  w.state.pmstack.head?.bind fun a => (w.heap.frames[a]?).map fun f => (a, f)

/-- `setPMCallback`, with its two assertions. -/
def setPMCallback (w : Focus K) (cbn : String) : Option (Focus K) :=
  w.top.bind fun (a, f) =>
    if cbn ≠ "" ∧ f.callback ≠ "" then none else some (w.setFrame a { f with callback := cbn })

/-- `PMFrame::setPMAction` on the frame at `a`. -/
def setPMAction (w : Focus K) (a : Nat) (cn : Nat) : Option (Focus K) :=
  (w.heap.frames[a]?).map fun f => w.setFrame a { f with currentAction := cn }

def apply (w : Focus K) : Effect K → Option (Focus K)
  | .pushPMFrame a args target tid => some (w.pushPMFrame a args target tid)
  | .setPMCallback cbn => w.setPMCallback cbn
  | .update f =>
    let r := f w.state.toPMFields w.state.klee
    some { w with state := { w.state with toPMFields := r.1, klee := r.2 } }

/-- Where an execution of an action has come to: `term`, `comp` and `abort`. -/
structure Done (K : Type) where
  focus : Focus K
  term : Bool
  comp : Bool
  abort : Bool

/-- `APIAction::execute`: the handler. -/
def executeCall (cfg : PMConfig K) (w : Focus K) (call : APICall) (f : PMFrame) :
    Option (Done K) :=
  let o := cfg.interpret call w.state f.args f.target f.tid
  (o.effects.foldlM apply w).map fun w => ⟨w, o.term, o.comp, o.abort⟩

/-- The loop of `APIBlock::execute` from the action `i` on; `pmf` is the frame it runs for. -/
def executeBlock (cfg : PMConfig K) (pmf : Nat) (f : PMFrame) (size : Nat) :
    List APICall → Nat → Focus K → Option (Done K)
  | [], _, w => (w.setPMAction pmf size).map fun w => ⟨w, false, true, false⟩
  | call :: rest, i, w =>
    (w.executeCall cfg call f).bind fun d =>
      if d.abort then some ⟨d.focus, false, true, true⟩
      else if d.term then (d.focus.setPMAction pmf size).map fun w => ⟨w, true, true, false⟩
      else if d.comp then executeBlock cfg pmf f size rest (i + 1) d.focus
      else (d.focus.setPMAction pmf (i + 1)).map fun w => ⟨w, false, false, false⟩

/-- `PMFrame::execute`. -/
def executeFrame (cfg : PMConfig K) (w : Focus K) (pmf : Nat) (f : PMFrame) : Option (Done K) :=
  match f.action with
  | .single call => w.executeCall cfg call f
  | .block body =>
    executeBlock cfg pmf f body.length (body.drop f.currentAction) f.currentAction w

/-- `executePM`, with fuel for its recursion; the flag is `abort`. -/
def executePM (cfg : PMConfig K) : Nat → Focus K → Option (Focus K × Bool)
  | 0, _ => none
  | fuel + 1, w =>
    if w.state.pmstack = [] then some (w, false)
    else w.top.bind fun (a, f) =>
      if f.callback ≠ "" then some (w, false)
      else (w.executeFrame cfg a f).bind fun d =>
        if d.abort then some (d.focus, true)
        else executePM cfg fuel (if d.term || d.comp then d.focus.popPMFrame else d.focus)

/-- `initiateAsync` for the function of a name; an unknown one is a null pointer. -/
def initiateAsync (cfg : PMConfig K) (w : Focus K) (fn : String) : Option (Focus K) :=
  if cfg.hasFunction fn then
    let info : AsyncInfo := match w.state.initiatedAsync fn with
      | some aif => { aif with count := aif.count + 1 }
      | none => { function := fn }
    some (w.setFields { w.state.toPMFields with
      initiatedAsync := Function.update w.state.initiatedAsync fn (some info) })
  else none

/-- The step at which the life cycle is, and the state of the model behind it. -/
def advance (l : LifeCycleModelState) : Nat × LifeCycleModelState :=
  if l.state ≠ 0 ∨ l.initialized then
    (l.state + 1, { l with state := l.state + 1, componentsCompleted := [] })
  else (l.state, l)

/-- What a step of the life-cycle model starts. In the first step the entry function
is the main thread. -/
def startStep (cfg : PMConfig K) (w : Focus K) (curr : Nat) : LifeCycleStep → Option (Focus K)
  | .parallel comps =>
    if curr = 0 then
      if cfg.entryFunctionName ∈ comps then
        (comps.eraseIdx (comps.idxOf cfg.entryFunctionName)).foldlM (initiateAsync cfg) w
      else none
    else comps.foldlM (initiateAsync cfg) w
  | .identifier name _ =>
    if curr = 0 then some w
    else if cfg.hasFunction name then
      (cfg.extendExecutionWith name w.state.toPMFields w.state.klee).map fun r =>
        { w with state := { w.state with toPMFields := r.1, klee := r.2 } }
    else none

/-- `updateLCMState`, which its callers guard with `hasLCM`. A step past the last one
is a null pointer. -/
def updateLCMState (cfg : PMConfig K) (w : Focus K) : Option (Focus K) :=
  match cfg.lcm with
  | none => some w
  | some lcm =>
    match w.state.lcmState with
    | none => some w
    | some p =>
      (w.heap.lcms[p]?).bind fun l =>
        if lcm.length ≤ l.state then some w
        else
          (lcm[(advance l).1]?).bind fun seq =>
            (startStep cfg w (advance l).1 seq).map fun w =>
              { w with heap := { w.heap with
                  lcms := w.heap.lcms.set p { (advance l).2 with initialized := true } } }

end Focus

/-- What may be done to a state later. -/
inductive PMOp (K : Type) where
  | executePM (fuel : Nat)
  | setPMCallback (cbn : String)
  | setPMAction (cn : Nat)
  | updateLCMState
  | pushPMFrame (a : APIAction) (args : List Expr) (target : KInstruction) (tid : Int)
  | popPMFrame
  | update (f : PMFields K → K → PMFields K × K)

def PMOp.run (cfg : PMConfig K) (w : Focus K) : PMOp K → Option (Focus K)
  | .executePM fuel => (w.executePM cfg fuel).map Prod.fst
  | .setPMCallback cbn => w.setPMCallback cbn
  | .setPMAction cn => w.top.bind fun (a, _) => w.setPMAction a cn
  | .updateLCMState => w.updateLCMState cfg
  | .pushPMFrame a args target tid => some (w.pushPMFrame a args target tid)
  | .popPMFrame => some w.popPMFrame
  | .update f => w.apply (.update f)

end Encider
