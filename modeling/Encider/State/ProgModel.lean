import Encider.Expr.Syntax

/-! The programming-model part of `ExecutionState`. KLEE's own part of a state or a
thread (stack, memory, constraints) is a value of the type `K`. -/

namespace Encider

/-- Pointers into the program under analysis. -/
abbrev KInstruction := Nat
abbrev LLVMType := Nat
abbrev MemoryObject := Nat

abbrev StdMap (α β : Type) := α → Option β

def StdMap.empty {α β : Type} : StdMap α β := fun _ => none

/-- `APIAction` with its handler and its parameters. -/
structure APICall where
  desc : String
  param : List String
deriving DecidableEq, Repr

/-- An action is a call of a handler or an `APIBlock` of such. -/
inductive APIAction where
  | single (call : APICall)
  | block (body : List APICall)
deriving DecidableEq, Repr

structure PMFrame where
  action : APIAction
  currentAction : Nat := 0
  target : KInstruction
  args : List Expr
  tid : Int := -1
  callback : String := ""

/-- A step of the life-cycle model. -/
inductive LifeCycleStep where
  | identifier (name : String) (successretval : Int)
  | parallel (par : List String)

structure LifeCycleModelState where
  state : Nat := 0
  initialized : Bool := false
  completed : Bool := false
  componentsCompleted : List String := []

/-- The copy constructor. -/
def LifeCycleModelState.copy (other : LifeCycleModelState) : LifeCycleModelState where
  state := other.state
  initialized := other.initialized
  completed := other.completed
  componentsCompleted := other.componentsCompleted

structure AsyncInfo where
  function : String
  count : Nat := 1
  numstarted : Nat := 0

/-- A thread; `context` is the state it belongs to. -/
structure Async (K : Type) where
  function : String
  klee : K
  preemptable : Bool := false
  tid : Int
  context : Nat
  terminated : Bool := false
  stateModel : StdMap Expr Int := .empty
  assocModel : StdMap Expr Expr := .empty
  returnValueModel : StdMap String Int := .empty

/-- The copy constructor, which leaves the thread's models empty. -/
def Async.copy {K : Type} (a : Async K) : Async K where
  function := a.function
  klee := a.klee
  preemptable := a.preemptable
  tid := a.tid
  context := a.context
  terminated := a.terminated

/-- The members that hold their data themselves. -/
structure PMFields (K : Type) where
  lockModel : StdMap Expr Int := .empty
  stateModel : StdMap Expr Int := .empty
  assocModel : StdMap Expr Expr := .empty
  returnValueModel : StdMap String Int := .empty
  refCountModel : StdMap Expr Int := .empty
  refCountStack : StdMap Expr (List String) := .empty
  symbolDefs : StdMap String Expr := .empty
  symbolTypes : StdMap String LLVMType := .empty
  typeToAddr : StdMap LLVMType Expr := .empty
  symIdCounters : StdMap String Int := .empty
  lazyInitSingleInstances : StdMap LLVMType MemoryObject := .empty
  alloced : Finset Expr := ∅
  freed : Finset Expr := ∅
  waitingForThreadsToTerminate : Bool := false
  threads : List (Async K) := []
  threadsQueue : List Int := [-1]
  rtid : Int := -1
  preemptable : Bool := false
  initiatedAsync : StdMap String AsyncInfo := .empty

/-- What the states point to. -/
structure PMHeap where
  frames : List PMFrame := []
  lcms : List LifeCycleModelState := []

/-- `ExecutionState`. The stack of pending actions has its top first; its entries and
`lcmState` are addresses. -/
structure ExecutionState (K : Type) extends PMFields K where
  id : Nat
  depth : Nat := 0
  klee : K
  pmstack : List Nat := []
  lcmState : Option Nat := none

/-- What all states share: the life-cycle model and the entry function, the functions
of the module, what a handler does, and how a state goes on with a new function. A
handler acts on its state through the effects that it returns. -/
inductive Effect (K : Type) where
  | pushPMFrame (a : APIAction) (args : List Expr) (target : KInstruction) (tid : Int)
  | setPMCallback (cbn : String)
  | update (f : PMFields K → K → PMFields K × K)

structure Outcome (K : Type) where
  effects : List (Effect K)
  term : Bool := false
  comp : Bool := false
  abort : Bool := false

structure PMConfig (K : Type) where
  lcm : Option (List LifeCycleStep) := none
  entryFunctionName : String := ""
  hasFunction : String → Bool := fun _ => true
  interpret : APICall → ExecutionState K → List Expr → KInstruction → Int → Outcome K
  extendExecutionWith : String → PMFields K → K → Option (PMFields K × K)

def PMConfig.hasLCM {K : Type} (cfg : PMConfig K) : Bool := cfg.lcm.isSome

variable {K : Type}

/-- The copy constructor. Without a life-cycle model `lcmState` is not initialised, and
is whatever `uninit` is; `counter` is the new state. -/
def ExecutionState.copy (cfg : PMConfig K) (uninit : Option Nat) (counter : Nat) (heap : PMHeap)
    (state : ExecutionState K) : Option (PMHeap × ExecutionState K) :=
  let fresh : ExecutionState K := {
    id := counter
    depth := state.depth
    klee := state.klee
    threadsQueue := state.threadsQueue
    rtid := state.rtid
    waitingForThreadsToTerminate := state.waitingForThreadsToTerminate
    threads := state.threads.map fun t => { t.copy with context := counter }
    typeToAddr := state.typeToAddr
    refCountModel := state.refCountModel
    refCountStack := state.refCountStack
    symbolDefs := state.symbolDefs
    symbolTypes := state.symbolTypes
    symIdCounters := state.symIdCounters
    lazyInitSingleInstances := state.lazyInitSingleInstances
    -- the loop over `pmstack` runs over the new state's own stack, which is empty
    pmstack := []
    lcmState := uninit }
  if cfg.hasLCM then
    (state.lcmState.bind fun p => heap.lcms[p]?).map fun l =>
      ({ heap with lcms := heap.lcms ++ [l.copy] }, { fresh with lcmState := some heap.lcms.length })
  else some (heap, fresh)

/-- A state and the state that was copied from it. -/
structure StatePair (K : Type) where
  heap : PMHeap
  original : ExecutionState K
  copied : ExecutionState K

def ExecutionState.cloned (cfg : PMConfig K) (uninit : Option Nat) (counter : Nat) (heap : PMHeap)
    (state : ExecutionState K) : Option (StatePair K) :=
  (state.copy cfg uninit counter heap).map fun (heap, c) => ⟨heap, state, c⟩

/-- `ExecutionState::branch`. -/
def ExecutionState.branch (cfg : PMConfig K) (uninit : Option Nat) (counter : Nat) (heap : PMHeap)
    (state : ExecutionState K) : Option (StatePair K) :=
  { state with depth := state.depth + 1 }.cloned cfg uninit counter heap

end Encider
