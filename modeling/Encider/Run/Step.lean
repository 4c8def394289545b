import Encider.Lib.Graft
import Encider.Resource.Propagate

/-! The loop of `Executor::run`, as far as the tree of `RD` nodes goes. -/

namespace Encider

/-- The opcodes that the loop tells apart. -/
inductive Opcode where
  | br | switch | select | call | invoke | ret | other
deriving DecidableEq, Repr

/-- An instruction in its basic block; `callee` is the function that is called, where
it is known, without its dot suffix. -/
structure Instruction where
  opcode : Opcode
  callee : Option String := none
  block : Nat
deriving DecidableEq, Repr

structure RunOptions where
  getTimingModel : String → BitVec 32
  breakSelectStmt : Bool := false

/-- `#define ICost 1`. -/
def ICost : BitVec 32 := 1

def getTimingCost (o : RunOptions) (inst : Instruction) : BitVec 32 :=
  if inst.opcode = .call ∨ inst.opcode = .invoke then
    match inst.callee with
    | some f => o.getTimingModel f
    | none => ICost
  else ICost

/-- The instructions whose successors `run` looks at. -/
def Instruction.isBranch (o : RunOptions) (i : Instruction) : Bool :=
  i.opcode == .br || i.opcode == .switch || (i.opcode == .select && o.breakSelectStmt)

/-- A live state with its current node. What its own path has cost since the root or
the last restart, the blocks of that path and whether it has restarted are history. -/
structure RunningState where
  rdid : Nat
  cost : Nat := 0
  blocks : Finset Nat := ∅
  restarted : Bool := false

/-- The copy constructor: the copy has the node of the state, and its path so far. -/
def RunningState.copy (s : RunningState) : RunningState where
  rdid := s.rdid
  cost := s.cost
  blocks := s.blocks
  restarted := s.restarted

/-- What `run` finds out about the last condition of a registered successor: whether it
has high and low reads, its projection, and whether that is consistent with the path. -/
structure BranchOutcome where
  hasHloc : Bool
  hasLloc : Bool
  proj : Constraint
  consistent : Bool
  place : Nat := 0

/-- A state that takes part in a step. `registered` is set when it is in
`successorsPaths`. -/
structure InPlay where
  state : RunningState
  alive : Bool := true
  registered : Option BranchOutcome := none

/-- What the execution of an instruction does to the states: a fork anywhere (at a
branch, in a memory resolution, a free or an API handler), the end of a state, or the
registration of a successor. -/
inductive StepEvent where
  | fork (i : Nat)
  | terminate (i : Nat)
  | registerSuccessor (i : Nat) (b : BranchOutcome)

def StepEvent.apply (play : List InPlay) : StepEvent → List InPlay
  | .fork i =>
    match play[i]? with
    | some p => play ++ [{ state := p.state.copy }]
    | none => play
  | .terminate i => play.modify i fun p => { p with alive := false }
  | .registerSuccessor i b => play.modify i fun p => { p with registered := some b }

/-- A timing observation point; the places are those of the new nodes among the
successors, which are ordered by address. -/
structure Observation where
  restart : Bool
  place : Nat := 0
  placeReset : Nat := 0

/-- One turn of the loop. `ii` is the instruction at the program counter of the main
thread; another one is executed where a thread is scheduled, and none where the main
thread waits. `ends` says that the path returns from its first function. -/
structure RunStep where
  index : Nat
  ii : Instruction
  executed : Option Instruction
  observations : List Observation := []
  publicOutput : Option Constraint := none
  ends : Bool := false
  events : List StepEvent := []

/-- A path that has ended normally or at an observation point: its last node, and what
the path has cost and which blocks it has seen. -/
structure EndedPath where
  rd : Nat
  ru : Nat
  bbs : Finset Nat

/-- `rdmap`, the counter of nodes, the tree that the `succ` sets form, the roots for the
analysis and the live states. The ended paths are history. -/
structure RunState where
  node : Nat → RD
  rdid : Nat
  tree : Rose Nat
  resourceTreeRootList : List Nat
  states : List RunningState
  ended : List EndedPath

namespace RunState

/-- `run` before its loop. -/
def initial : RunState where
  node _ := {}
  rdid := 1
  tree := .node 0 []
  resourceTreeRootList := [0]
  states := [{ rdid := 0 }]
  ended := []

/-- A new node becomes a successor of `rdd`. -/
def newSucc (r : RunState) (rdd place : Nat) (rd : RD) : RunState :=
  { r with
    node := Function.update r.node r.rdid rd
    rdid := r.rdid + 1
    tree := r.tree.graft rdd place r.rdid }

/-- The node `rddterm` of the copy that is terminated. -/
def observed (r : RunState) (s : RunningState) (place : Nat) : RunState :=
  let rdd := r.node s.rdid
  { r.newSucc s.rdid place { rdd with pathterminated := true } with
    ended := ⟨r.rdid, s.cost, s.blocks⟩ :: r.ended }

/-- The node `rddreset` on which the state starts again. -/
def reset (r : RunState) (s : RunningState) (place : Nat) : RunState :=
  { r.newSucc s.rdid place {} with resourceTreeRootList := r.rdid :: r.resourceTreeRootList }

def handleTimingObservationPoint (r : RunState) (s : RunningState) (ob : Observation) :
    RunState × RunningState :=
  let r1 := r.observed s ob.place
  if ob.restart then
    (r1.reset s ob.placeReset, { s with rdid := r1.rdid, cost := 0, blocks := ∅, restarted := true })
  else (r1, s)

/-- What the step changes in the node of the state: the public output and the end of
the path while it is executed, the cost and the block behind it. -/
def charge (r : RunState) (o : RunOptions) (st : RunStep) (rdd : Nat) : RunState :=
  let rd := r.node rdd
  { r with node := Function.update r.node rdd { rd with
      LC := match st.publicOutput with
        | some eq => Constraint.and rd.LC eq
        | none => rd.LC
      pathterminated := rd.pathterminated || st.ends
      ru := rd.ru + getTimingCost o st.ii
      bbs := insert st.ii.block rd.bbs } }

/-- The node of a registered successor. -/
def successorNode (current : RD) (rdd : Nat) (b : BranchOutcome) : RD :=
  let srd : RD := { HA := current.HA, HC := current.HC, LC := current.LC, ru := current.ru,
                    bbs := current.bbs }
  if b.hasHloc && !b.hasLloc then
    if b.consistent then { srd with HA := some rdd, HC := b.proj, LC := Constraint.tt } else srd
  else if b.hasLloc && b.consistent then
    { srd with LC := Constraint.and current.LC b.proj }
  else srd

/-- The branch on the outcome is an H-branch. -/
def BranchOutcome.secret (b : BranchOutcome) : Bool := b.hasHloc && !b.hasLloc && b.consistent

def addSuccessor (r : RunState) (rdd : Nat) (b : BranchOutcome) : RunState :=
  let current := r.node rdd
  let r1 := if BranchOutcome.secret b then
    { r with node := Function.update r.node rdd { current with isHBr := true } } else r
  r1.newSucc rdd b.place (successorNode current rdd b)

/-- The loop over `successorsPaths`, and the states that are left. -/
def registerAll (rdd : Nat) : List InPlay → RunState → RunState × List RunningState
  | [], r => (r, [])
  | p :: ps, r =>
    match p.registered with
    | some b =>
      let rest := registerAll rdd ps (r.addSuccessor rdd b)
      (rest.1, if p.alive then { p.state with rdid := r.rdid } :: rest.2 else rest.2)
    | none =>
      let rest := registerAll rdd ps r
      (rest.1, if p.alive then p.state :: rest.2 else rest.2)

end RunState

/-- The path goes on over what was executed. -/
def RunningState.pass (s : RunningState) (o : RunOptions) : Option Instruction → RunningState
  | some e => { s with cost := s.cost + (getTimingCost o e).toNat, blocks := insert e.block s.blocks }
  | none => s

namespace RunStep

def observe (st : RunStep) (r : RunState) (s : RunningState) : RunState × RunningState :=
  st.observations.foldl (fun x ob => x.1.handleTimingObservationPoint x.2 ob) (r, s)

/-- The states that have taken part in the step. -/
def play (st : RunStep) (s : RunningState) : List InPlay :=
  st.events.foldl StepEvent.apply [{ state := s, alive := !st.ends }]

/-- `isbranch`, with more than one registered successor. -/
def Registers (st : RunStep) (o : RunOptions) (play : List InPlay) : Prop :=
  st.ii.isBranch o = true ∧ 1 < (play.filter fun p => p.registered.isSome).length

instance (st : RunStep) (o : RunOptions) (play : List InPlay) : Decidable (st.Registers o play) :=
  inferInstanceAs (Decidable (_ ∧ _))

/-- The successors of a branch get their nodes; otherwise all states keep theirs. -/
def branch (st : RunStep) (o : RunOptions) (rdd : Nat) (play : List InPlay) (r : RunState) :
    RunState × List RunningState :=
  if st.Registers o play then r.registerAll rdd play
  else (r, (play.filter InPlay.alive).map InPlay.state)

end RunStep

/-- One turn of the loop. -/
def RunState.step (o : RunOptions) (r : RunState) (st : RunStep) : Option RunState :=
  (r.states[st.index]?).map fun s =>
    let seen := st.observe r s
    let rdd := seen.2.rdid
    let s' := seen.2.pass o st.executed
    let r1 := seen.1.charge o st rdd
    let r2 := if st.ends then { r1 with ended := ⟨rdd, s'.cost, s'.blocks⟩ :: r1.ended } else r1
    let left := st.branch o rdd (st.play s') r2
    { left.1 with states := r.states.eraseIdx st.index ++ left.2 }

/-- The states that runs reach whose steps all meet a condition. -/
inductive RunTo (o : RunOptions) (P : RunState → RunStep → Prop) : RunState → Prop
  | start : RunTo o P .initial
  | step {r r' : RunState} {st : RunStep} (h : RunTo o P r) (hP : P r st)
      (hs : r.step o st = some r') : RunTo o P r'

end Encider
