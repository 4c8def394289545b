import Encider.State.Operations

/-! The handlers of the eight kinds of actions, as outcomes: what they do to the state and
how they set `term`, `comp` and `abort`. -/

namespace Encider

variable {K : Type}

/-- What the handlers ask of the executor and of the specification. An evaluation
without a result is an abort. -/
structure ApiEnv (K : Type) where
  /-- `symbolTable`: the blocks and subblocks by their labels. -/
  getSubblock : String → Option (List APICall)
  eval : ExecutionState K → List Expr → KInstruction → String → Bool → Option Expr
  checkCondition : APICall → ExecutionState K → List Expr → KInstruction → String → Option Bool
  getFunction : String → Option String
  getFunctionFromAddress : Expr → Option String
  /-- The function has a body in the module. -/
  isInternal : String → Bool
  /-- The call of a callback: its frame and its symbolic arguments. -/
  pushFrame : String → PMFields K → K → PMFields K × K
  initArgsAsSymbolic : ExecutionState K → String → Bool
  /-- What a negative count does to the state. -/
  terminateStateOnError : PMFields K → K → PMFields K × K
  /-- The effect of a handler that always completes. -/
  perform : APICall → ExecutionState K → List Expr → KInstruction → Int →
    Option (PMFields K → K → PMFields K × K)

namespace PMFields

/-- `setRefCount` and `recordRefcountOp`. -/
def setRefCount (f : PMFields K) (addr : Expr) (value : Int) (record : String) : PMFields K :=
  { f with
    refCountModel := Function.update f.refCountModel addr (some value)
    refCountStack := Function.update f.refCountStack addr
      (some ((f.refCountStack addr).getD [] ++ [record])) }

def getRefCount (f : PMFields K) (addr : Expr) : Int := (f.refCountModel addr).getD 0

end PMFields

/-- The parameter at an index. -/
def APICall.par (call : APICall) (i : Nat) : String := (call.param[i]?).getD ""

/-- The value of the leading digits. -/
def digits (s : List Char) : Option Int :=
  match s.takeWhile Char.isDigit with
  | [] => none
  | ds => some (ds.foldl (fun n c => 10 * n + (c.toNat - '0'.toNat : Nat)) 0)

/-- `std::stoi`, which throws where there are no digits. -/
def stoi (s : String) : Option Int :=
  match s.toList.dropWhile Char.isWhitespace with
  | '-' :: ds => (digits ds).map fun n => -n
  | '+' :: ds => digits ds
  | ds => digits ds

/-- The reference expression without `&` and `*`, and whether its address is meant. -/
def refExpr (expr : String) : String × Bool :=
  let amp := expr.startsWith "&"
  let rest := if amp then (expr.drop 1).toString else expr
  if rest.startsWith "*" then ((rest.drop 1).toString, false) else (rest, amp)

namespace ApiEnv

variable (env : ApiEnv K)

/-- The function that a callback expression names. -/
def callbackFunction (state : ExecutionState K) (args : List Expr) (target : KInstruction)
    (cbexpr : String) : Option (Option String) :=
  if cbexpr.startsWith "arg" || cbexpr.startsWith "alloc" then
    (env.eval state args target cbexpr false).map env.getFunctionFromAddress
  else some (env.getFunction cbexpr)

/-- `APIHandler::executeCallback`. -/
def executeCallback (state : ExecutionState K) (cbexpr : String) (args : List Expr)
    (target : KInstruction) (tid : Int) : Outcome K :=
  match env.getSubblock cbexpr with
  | some body => { effects := [.pushPMFrame (.block body) args target tid] }
  | none =>
    match env.callbackFunction state args target cbexpr with
    | none => { effects := [], abort := true }
    | some none => { effects := [], comp := true }
    | some (some f) =>
      if env.isInternal f then
        { effects := [.setPMCallback f, .update (env.pushFrame f)]
          abort := env.initArgsAsSymbolic state f }
      else { effects := [], comp := true }

/-- `RefCountAPIHandler::interpret`. A decrement that leaves a count other than zero
does not set `comp`. -/
def refcount (call : APICall) (state : ExecutionState K) (args : List Expr)
    (target : KInstruction) (tid : Int) : Outcome K :=
  match env.eval state args target (refExpr (call.par 2)).1 (refExpr (call.par 2)).2,
      stoi (call.par 3) with
  | some addr, some value =>
    let onzerocb := call.par 4
    let cv := state.getRefCount addr
    let set := fun (n : Int) (op : String) => Effect.update fun f k =>
      (f.setRefCount addr n (call.par 0 ++ op ++ toString n), k)
    match call.par 1 with
    | "set" => { effects := [set value " :set to "], comp := true }
    | "inc" => { effects := [set (cv + value) " :inc to "], comp := true }
    | "dec" =>
      if cv - value < 0 then
        { effects := [set (cv - value) " :dec to ", .update env.terminateStateOnError] }
      else if cv - value = 0 then
        if onzerocb ≠ "none" then
          let o :=
            if (onzerocb.splitOn "arg").length > 1 then
              env.executeCallback state onzerocb args target tid
            else
              match env.getSubblock onzerocb with
              | some body => { effects := [.pushPMFrame (.block body) args target tid] }
              -- the assertion fails
              | none => { effects := [], abort := true }
          { o with effects := set (cv - value) " :dec to " :: o.effects }
        else { effects := [set (cv - value) " :dec to "], comp := true }
      else { effects := [set (cv - value) " :dec to "] }
    | _ => { effects := [] }
  | _, _ => { effects := [], abort := true }

/-- `CallbackAPIHandler::interpret`. -/
def callback (call : APICall) (state : ExecutionState K) (args : List Expr)
    (target : KInstruction) (tid : Int) : Outcome K :=
  let cond := if call.param.length = 3 then
      env.checkCondition call state args target (call.par 2)
    else some true
  match cond with
  | none => { effects := [], abort := true }
  | some true => env.executeCallback state (call.par 1) args target tid
  | some false => { effects := [], comp := true }

/-- `TerminateAPIHandler::interpret`. -/
def terminate (call : APICall) (state : ExecutionState K) (args : List Expr)
    (target : KInstruction) : Outcome K :=
  match env.checkCondition call state args target (call.par 1) with
  | none => { effects := [], comp := true, abort := true }
  | some term => { effects := [], comp := true, term := term }

/-- The handlers that complete on every path: `return`, `alloc`, `free`, `ignore`
and `side-effect`. -/
def always (call : APICall) (state : ExecutionState K) (args : List Expr)
    (target : KInstruction) (tid : Int) : Outcome K :=
  match env.perform call state args target tid with
  | none => { effects := [], comp := true, abort := true }
  | some f => { effects := [.update f], comp := true }

/-- The handler that `readProgModelSpec` gives an action. -/
def interpret (call : APICall) (state : ExecutionState K) (args : List Expr)
    (target : KInstruction) (tid : Int) : Outcome K :=
  if call.desc = "refcount,op,expr,value,onzerocb" then env.refcount call state args target tid
  else if call.desc = "callback" ∨ call.desc = "cond_callback" then
    env.callback call state args target tid
  else if call.desc = "terminate" then env.terminate call state args target
  else env.always call state args target tid

end ApiEnv

/-- An effect that leaves the stack of frames alone. -/
def Effect.IsUpdate : Effect K → Prop
  | .update _ => True
  | _ => False

/-- An effect that a frame must wait for: a callback, or a subblock. -/
def Effect.IsWait (bodies : List APICall → Prop) : Effect K → Prop
  | .setPMCallback _ => True
  | .pushPMFrame (.block body) _ _ _ => bodies body
  | _ => False

/-- A handler updates the state, waits for one thing at most, and has then not completed. -/
inductive Outcome.Lawful (bodies : List APICall → Prop) (o : Outcome K) : Prop
  | updates (h : ∀ e ∈ o.effects, e.IsUpdate)
  | waits (us vs : List (Effect K)) (e : Effect K) (h : o.effects = us ++ e :: vs)
      (hus : ∀ u ∈ us, u.IsUpdate) (hvs : ∀ v ∈ vs, v.IsUpdate) (he : e.IsWait bodies)
      (hcomp : o.comp = false) (hterm : o.term = false)

/-- The labels of the subblocks that an action may push. -/
def APICall.Label (call : APICall) (l : String) : Prop := l = call.par 1 ∨ l = call.par 4

/-- The bodies of the subblocks that an action may push. -/
def ApiEnv.Pushes (env : ApiEnv K) (call : APICall) (body : List APICall) : Prop :=
  ∃ l, call.Label l ∧ env.getSubblock l = some body

theorem Outcome.Lawful.cons {bodies : List APICall → Prop} {o : Outcome K} (h : o.Lawful bodies)
    {u : Effect K} (hu : u.IsUpdate) :
    Outcome.Lawful bodies { o with effects := u :: o.effects } := by
  cases h with
  | updates h => exact .updates (by simpa using ⟨hu, h⟩)
  | waits us vs e h hus hvs he hcomp hterm =>
    exact .waits (u :: us) vs e (by simp [h]) (by simpa using ⟨hu, hus⟩) hvs he hcomp hterm

namespace ApiEnv

variable {env : ApiEnv K} {call : APICall} {state : ExecutionState K} {args : List Expr}
  {target : KInstruction} {tid : Int}

theorem executeCallback_lawful {cbexpr : String} (hl : call.Label cbexpr) :
    (env.executeCallback state cbexpr args target tid).Lawful (env.Pushes call) := by
  unfold executeCallback
  split
  · rename_i body hbody
    exact .waits [] [] _ rfl (by simp) (by simp) ⟨cbexpr, hl, hbody⟩ rfl rfl
  · split
    · exact .updates (by simp)
    · exact .updates (by simp)
    · split
      · exact .waits [] [_] (.setPMCallback _) rfl (by simp) (by simp [Effect.IsUpdate]) trivial rfl
          rfl
      · exact .updates (by simp)

theorem refcount_lawful : (env.refcount call state args target tid).Lawful (env.Pushes call) := by
  unfold refcount
  split
  · dsimp only
    split
    · exact .updates (by simp [Effect.IsUpdate])
    · exact .updates (by simp [Effect.IsUpdate])
    · split
      · exact .updates (by simp [Effect.IsUpdate])
      · split
        · split
          · refine Outcome.Lawful.cons ?_ trivial
            split
            · exact executeCallback_lawful (.inr rfl)
            · split
              · rename_i body hbody
                exact .waits [] [] _ rfl (by simp) (by simp) ⟨_, .inr rfl, hbody⟩ rfl rfl
              · exact .updates (by simp)
          · exact .updates (by simp [Effect.IsUpdate])
        · exact .updates (by simp [Effect.IsUpdate])
    · exact .updates (by simp)
  · exact .updates (by simp)

/-- Every handler is lawful. -/
theorem interpret_lawful (env : ApiEnv K) (call : APICall) (state : ExecutionState K)
    (args : List Expr) (target : KInstruction) (tid : Int) :
    (env.interpret call state args target tid).Lawful (env.Pushes call) := by
  unfold interpret
  split
  · exact refcount_lawful
  · split
    · unfold callback
      generalize (if call.param.length = 3 then
        env.checkCondition call state args target (call.par 2) else some true) = cond
      cases cond with
      | none => exact .updates (by simp)
      | some taken =>
        cases taken with
        | true => exact executeCallback_lawful (.inl rfl)
        | false => exact .updates (by simp)
    · split
      · unfold terminate
        split
        · exact .updates (by simp)
        · exact .updates (by simp)
      · unfold always
        split
        · exact .updates (by simp)
        · exact .updates (by simp [Effect.IsUpdate])

end ApiEnv

/-- The handler has done with its action. -/
def Outcome.Completes (o : Outcome K) : Prop := o.comp = true ∨ o.term = true ∨ o.abort = true

namespace ApiEnv

variable (env : ApiEnv K) (call : APICall) (state : ExecutionState K) (args : List Expr)
  (target : KInstruction)

/-- A callback expression that names no subblock and no function of the module. -/
def NothingToCall (cbexpr : String) : Prop :=
  env.getSubblock cbexpr = none ∧
    ∀ f, env.callbackFunction state args target cbexpr = some (some f) → env.isInternal f = true →
      env.initArgsAsSymbolic state f = true

/-- A decrement takes the count to zero, where nothing is called. -/
def DropsToZero : Prop :=
  ∀ addr value,
    env.eval state args target (refExpr (call.par 2)).1 (refExpr (call.par 2)).2 = some addr →
    stoi (call.par 3) = some value →
    call.par 1 = "set" ∨ call.par 1 = "inc" ∨
      (call.par 1 = "dec" ∧ state.getRefCount addr = value ∧
        (call.par 4 = "none" ∨
          if ((call.par 4).splitOn "arg").length > 1 then
            env.NothingToCall state args target (call.par 4)
          else env.getSubblock (call.par 4) = none))

/-- A callback whose condition does not hold, or with nothing to call. -/
def NotTaken : Prop :=
  (call.param.length = 3 ∧ env.checkCondition call state args target (call.par 2) ≠ some true) ∨
    env.NothingToCall state args target (call.par 1)

/-- The actions that complete at once. -/
def AtOnce : Prop :=
  if call.desc = "refcount,op,expr,value,onzerocb" then env.DropsToZero call state args target
  else if call.desc = "callback" ∨ call.desc = "cond_callback" then
    env.NotTaken call state args target
  else True

variable {env call state args target} {tid : Int}

theorem executeCallback_completes {cbexpr : String} :
    (env.executeCallback state cbexpr args target tid).Completes ↔
      env.NothingToCall state args target cbexpr := by
  unfold executeCallback NothingToCall
  cases env.getSubblock cbexpr with
  | some body => simp [Outcome.Completes]
  | none =>
    cases env.callbackFunction state args target cbexpr with
    | none => simp [Outcome.Completes]
    | some called =>
      cases called with
      | none => simp [Outcome.Completes]
      | some f => by_cases h : env.isInternal f = true <;> simp [Outcome.Completes, h]

theorem refcount_completes :
    (env.refcount call state args target tid).Completes ↔ env.DropsToZero call state args target := by
  unfold refcount DropsToZero
  cases env.eval state args target (refExpr (call.par 2)).1 (refExpr (call.par 2)).2 with
  | none => simp [Outcome.Completes]
  | some addr =>
    cases stoi (call.par 3) with
    | none => simp [Outcome.Completes]
    | some value =>
      dsimp only
      split
      · rename_i h
        simp [Outcome.Completes, h]
      · rename_i h
        simp [Outcome.Completes, h]
      · rename_i h
        by_cases hneg : state.getRefCount addr - value < 0
        · have hne : state.getRefCount addr ≠ value := by omega
          simp [Outcome.Completes, h, hneg, hne]
        by_cases hzero : state.getRefCount addr - value = 0
        · have heq : state.getRefCount addr = value := by omega
          rw [if_neg hneg, if_pos hzero]
          by_cases hnone : call.par 4 = "none"
          · simp [Outcome.Completes, h, hnone, heq]
          rw [if_pos hnone]
          by_cases hlong : ((call.par 4).splitOn "arg").length > 1
          · have hcb : (env.executeCallback state (call.par 4) args target tid).Completes ↔
                env.NothingToCall state args target (call.par 4) := executeCallback_completes
            simpa [Outcome.Completes, h, hnone, heq, hlong] using hcb
          · cases hsub : env.getSubblock (call.par 4) with
            | some body => simp [Outcome.Completes, h, hnone, hlong]
            | none => simp [Outcome.Completes, h, hnone, heq, hlong]
        · have hne : state.getRefCount addr ≠ value := by omega
          simp [Outcome.Completes, h, hneg, hzero, hne]
      · rename_i hset hinc hdec
        refine iff_of_false (by simp [Outcome.Completes]) fun h => ?_
        rcases h addr value rfl rfl with h | h | h
        · exact hset h
        · exact hinc h
        · exact hdec h.1

theorem callback_completes :
    (env.callback call state args target tid).Completes ↔ env.NotTaken call state args target := by
  unfold callback NotTaken
  by_cases hlen : call.param.length = 3
  · rw [if_pos hlen]
    cases hcond : env.checkCondition call state args target (call.par 2) with
    | none => simp [Outcome.Completes, hlen]
    | some taken =>
      cases taken with
      | true => simp [executeCallback_completes]
      | false => simp [Outcome.Completes, hlen]
  · rw [if_neg hlen]
    simp [executeCallback_completes, hlen]

theorem interpret_completes :
    (env.interpret call state args target tid).Completes ↔ env.AtOnce call state args target := by
  unfold interpret AtOnce
  split
  · exact refcount_completes
  · split
    · exact callback_completes
    · split
      · unfold terminate
        split
        · simp [Outcome.Completes]
        · simp [Outcome.Completes]
      · unfold always
        split
        · simp [Outcome.Completes]
        · simp [Outcome.Completes]

end ApiEnv

end Encider
