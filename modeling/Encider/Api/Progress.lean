import Mathlib.Logic.Relation
import Encider.Api.Interpret

/-! Runs of the pending actions of a state: rounds of `executePM`, returns of callbacks and
new calls of modelled APIs, with a record of the actions that are interpreted. -/

namespace Encider

variable {K : Type}

def APIAction.numActions : APIAction → Nat
  | .single _ => 1
  | .block body => body.length

/-- The calls that an action stands for. -/
def APIAction.calls : APIAction → List APICall
  | .single call => [call]
  | .block body => body

theorem APIAction.calls_length (a : APIAction) : a.calls.length = a.numActions := by
  cases a with
  | single => rfl
  | block => rfl

/-- The calls of a frame that are still to be interpreted. -/
def PMFrame.remaining (f : PMFrame) : List APICall := f.action.calls.drop f.currentAction

namespace Focus

abbrev frames (w : Focus K) : List PMFrame := w.heap.frames

abbrev stack (w : Focus K) : List Nat := w.state.pmstack

/-- The actions of the frames, which do not change. -/
abbrev actions (w : Focus K) : List APIAction := w.frames.map PMFrame.action

/-- `checkAndSetPMCallbackCompleted`: a function of this name returns. -/
def checkAndSetPMCallbackCompleted (w : Focus K) (cbn : String) : Option (Focus K) :=
  match w.top with
  | none => if cbn = "" then none else some w
  | some (a, f) =>
    if f.callback = cbn then
      let w := w.setFrame a { f with callback := "" }
      some (if f.action.numActions ≤ f.currentAction then w.popPMFrame else w)
    else some w

/-- The positions whose handler the loop of `executeBlock` calls. -/
def interpretedBlock (cfg : PMConfig K) (f : PMFrame) :
    List APICall → Nat → Focus K → List Nat
  | [], _, _ => []
  | call :: rest, i, w =>
    i :: match w.executeCall cfg call f with
      | none => []
      | some d =>
        if d.abort || d.term || !d.comp then [] else interpretedBlock cfg f rest (i + 1) d.focus

/-- The positions whose handler `executeFrame` calls. -/
def interpretedFrame (cfg : PMConfig K) (w : Focus K) (f : PMFrame) : List Nat :=
  match f.action with
  | .single _ => [0]
  | .block body => interpretedBlock cfg f (body.drop f.currentAction) f.currentAction w

end Focus

/-- A state with the actions interpreted so far, as frames and positions, and the frames in
which a terminate action has fired. -/
structure PMRun (K : Type) where
  focus : Focus K
  log : List (Nat × Nat) := []
  terminated : List Nat := []
  aborted : Bool := false

inductive PMEvent (K : Type) where
  | round
  | returned (cbn : String)
  | push (a : APIAction) (args : List Expr) (target : KInstruction) (tid : Int)
  | update (f : PMFields K → K → PMFields K × K)

namespace PMRun

/-- One round of `executePM`. -/
def round (cfg : PMConfig K) (r : PMRun K) : Option (PMRun K) :=
  match r.focus.top with
  | none => some r
  | some (a, f) =>
    if f.callback ≠ "" then some r
    else
      (r.focus.executeFrame cfg a f).map fun d =>
        { focus := if !d.abort && (d.term || d.comp) then d.focus.popPMFrame else d.focus
          log := r.log ++ (r.focus.interpretedFrame cfg f).map fun i => (a, i)
          terminated := if d.term then a :: r.terminated else r.terminated
          aborted := d.abort }

def step (cfg : PMConfig K) (r : PMRun K) : PMEvent K → Option (PMRun K)
  | .round => r.round cfg
  | .returned cbn => (r.focus.checkAndSetPMCallbackCompleted cbn).map fun w => { r with focus := w }
  | .push a args target tid => some { r with focus := r.focus.pushPMFrame a args target tid }
  | .update f => (r.focus.apply (.update f)).map fun w => { r with focus := w }

/-- The positions of a frame that have been interpreted. -/
def positions (r : PMRun K) (a : Nat) : List Nat :=
  (r.log.filter fun p => p.1 = a).map Prod.snd

end PMRun

/-- A standalone action that is interpreted now completes at once. -/
def Focus.StandaloneCompletes (cfg : PMConfig K) (w : Focus K) : Prop :=
  ∀ a f call, w.top = some (a, f) → f.callback = "" → f.action = .single call →
    (cfg.interpret call w.state f.args f.target f.tid).Completes

/-- The states of a run whose rounds begin in states for which `ok` holds. -/
inductive PMRun.Reached (cfg : PMConfig K) (ok : Focus K → Prop) (w : Focus K) : PMRun K → Prop
  | start : Reached cfg ok w { focus := w }
  | step {r r' : PMRun K} {e : PMEvent K} (h : Reached cfg ok w r) (ha : r.aborted = false)
      (hok : e = .round → ok r.focus) (hs : r.step cfg e = some r') : Reached cfg ok w r'

/-- The rounds of one call of `executePM`. -/
def PMRun.Rounds (cfg : PMConfig K) : PMRun K → PMRun K → Prop :=
  Relation.ReflTransGen fun r r' => r.aborted = false ∧ r.round cfg = some r'

/-- The body of each subblock that a handler may push. -/
def PMConfig.Lawful (cfg : PMConfig K) (pushes : APICall → List APICall → Prop) : Prop :=
  ∀ call state args target tid, (cfg.interpret call state args target tid).Lawful (pushes call)

/-- What the call of a handler does to the frames, for the frame `f` at the top `a`. -/
inductive Focus.CallEffect (bodies : List APICall → Prop) (w : Focus K) (a : Nat) (f : PMFrame)
    (w' : Focus K) : Prop
  | stays (cbn : String) (hf : w'.frames = w.frames.set a { f with callback := cbn })
      (hs : w'.stack = w.stack)
  | pushed (g : PMFrame) (body : List APICall) (hg : g.action = .block body) (hb : bodies body)
      (hfresh : g.currentAction = 0 ∧ g.callback = "") (hf : w'.frames = w.frames ++ [g])
      (hs : w'.stack = w.frames.length :: w.stack)

/-- What a round does for the frame `f` at the top `a`, when it interprets `n` of the calls
`rest`, from position `i` on. -/
inductive Focus.FrameEffect (pushes : APICall → List APICall → Prop) (w : Focus K) (a : Nat)
    (f : PMFrame) (rest : List APICall) (i : Nat) : Nat → Focus.Done K → Prop
  | aborted {n : Nat} {d : Focus.Done K} (hn : n ≤ rest.length) (ha : d.abort = true)
      (hk : w.actions <+: d.focus.actions) : FrameEffect pushes w a f rest i n d
  | finished {n : Nat} {d : Focus.Done K} (c : Nat) (hn : n ≤ rest.length) (ha : d.abort = false)
      (hd : d.term = true ∨ (d.comp = true ∧ n = rest.length))
      (hf : d.focus.frames = w.frames.set a { f with currentAction := c })
      (hs : d.focus.stack = w.stack) : FrameEffect pushes w a f rest i n d
  | paused {n : Nat} {d : Focus.Done K} (cbn : String) (hn : n < rest.length)
      (ha : d.abort = false) (hd : d.term = false ∧ d.comp = false)
      (hf : d.focus.frames = w.frames.set a { f with currentAction := i + n + 1, callback := cbn })
      (hs : d.focus.stack = w.stack) : FrameEffect pushes w a f rest i (n + 1) d
  | pushed {n : Nat} {d : Focus.Done K} (call : APICall) (body : List APICall) (g : PMFrame)
      (hn : rest[n]? = some call) (ha : d.abort = false) (hd : d.term = false ∧ d.comp = false)
      (hb : pushes call body) (hg : g.action = .block body)
      (hfresh : g.currentAction = 0 ∧ g.callback = "")
      (hf : d.focus.frames = w.frames.set a { f with currentAction := i + n + 1 } ++ [g])
      (hs : d.focus.stack = w.frames.length :: w.stack) : FrameEffect pushes w a f rest i (n + 1) d

namespace Focus

variable {cfg : PMConfig K} {pushes : APICall → List APICall → Prop} {w w' : Focus K} {a : Nat}
  {f : PMFrame}

/-- Nothing happens to the frames. -/
structure SameFrames (w w' : Focus K) : Prop where
  frames : w'.frames = w.frames
  stack : w'.stack = w.stack

theorem SameFrames.trans {w'' : Focus K} (h : w.SameFrames w') (h' : w'.SameFrames w'') :
    w.SameFrames w'' := ⟨h'.frames.trans h.frames, h'.stack.trans h.stack⟩

theorem top_iff : w.top = some (a, f) ↔ w.stack.head? = some a ∧ w.frames[a]? = some f := by
  unfold top
  rw [Option.bind_eq_some_iff]
  constructor
  · intro h
    obtain ⟨b, hb, h⟩ := h
    obtain ⟨g, hg, h⟩ := Option.map_eq_some_iff.mp h
    cases h
    exact ⟨hb, hg⟩
  · intro h
    exact ⟨a, h.1, Option.map_eq_some_iff.mpr ⟨f, h.2, rfl⟩⟩

theorem SameFrames.actions (h : w.SameFrames w') : w'.actions = w.actions :=
  congrArg (List.map PMFrame.action) h.frames

theorem actions_set {g : PMFrame} (hget : w.frames[a]? = some f) (hg : g.action = f.action) :
    (w.frames.set a g).map PMFrame.action = w.actions := by
  obtain ⟨hlt, he⟩ := List.getElem?_eq_some_iff.mp hget
  have hself := @List.set_getElem_self _ w.actions a (by simpa using hlt)
  rwa [List.getElem_map, he, ← hg, ← List.map_set] at hself

theorem actions_setFrame {g : PMFrame} (hget : w.frames[a]? = some f) (hg : g.action = f.action)
    (hf : w'.frames = w.frames.set a g) : w'.actions = w.actions :=
  (congrArg (List.map PMFrame.action) hf).trans (actions_set hget hg)

theorem actions_append {g : PMFrame} (hf : w'.frames = w.frames ++ [g]) :
    w'.actions = w.actions ++ [g.action] :=
  (congrArg (List.map PMFrame.action) hf).trans List.map_append

theorem SameFrames.top (h : w.SameFrames w') : w'.top = w.top := by
  unfold Focus.top
  rw [show w'.state.pmstack = w.state.pmstack from h.stack,
    show w'.heap.frames = w.heap.frames from h.frames]

theorem foldlM_updates {us : List (Effect K)} (h : ∀ u ∈ us, u.IsUpdate) (w : Focus K) :
    ∃ w', us.foldlM apply w = some w' ∧ w.SameFrames w' := by
  induction us generalizing w with
  | nil => exact ⟨w, rfl, rfl, rfl⟩
  | cons u us ih =>
    cases u with
    | update f =>
      obtain ⟨w', hw', hsame⟩ := ih (fun v hv => h v (List.mem_cons_of_mem _ hv))
        { w with state := { w.state with
            toPMFields := (f w.state.toPMFields w.state.klee).1
            klee := (f w.state.toPMFields w.state.klee).2 } }
      exact ⟨w', hw', hsame.frames, hsame.stack⟩
    | pushPMFrame => exact absurd (h _ List.mem_cons_self) id
    | setPMCallback => exact absurd (h _ List.mem_cons_self) id

/-- One call of a handler. -/
theorem executeCall_effect (hl : cfg.Lawful pushes) (ht : w.top = some (a, f))
    (hcb : f.callback = "") (call : APICall) :
    ∃ w', w.executeCall cfg call f = some
        ⟨w', (cfg.interpret call w.state f.args f.target f.tid).term,
          (cfg.interpret call w.state f.args f.target f.tid).comp,
          (cfg.interpret call w.state f.args f.target f.tid).abort⟩ ∧
      w.CallEffect (pushes call) a f w' ∧
      ((cfg.interpret call w.state f.args f.target f.tid).comp = true ∨
        (cfg.interpret call w.state f.args f.target f.tid).term = true → w.SameFrames w') := by
  have hlaw := hl call w.state f.args f.target f.tid
  unfold executeCall
  generalize cfg.interpret call w.state f.args f.target f.tid = o at hlaw ⊢
  have hself : w.frames = w.frames.set a { f with callback := "" } := by
    obtain ⟨hlt, he⟩ := List.getElem?_eq_some_iff.mp (top_iff.mp ht).2
    rw [← hcb, ← he]
    exact (List.set_getElem_self hlt).symm
  cases hlaw with
  | updates h =>
    obtain ⟨w', hw', hsame⟩ := foldlM_updates h w
    refine ⟨w', by simp [hw'], .stays "" ?_ hsame.stack, fun _ => hsame⟩
    exact hsame.frames.trans hself
  | waits us vs e h hus hvs he hcomp hterm =>
    obtain ⟨w₁, hw₁, hsame₁⟩ := foldlM_updates hus w
    have hno : ¬(o.comp = true ∨ o.term = true) := by simp [hcomp, hterm]
    cases e with
    | update => exact absurd he id
    | setPMCallback cbn =>
      have htop : w₁.top = some (a, f) := hsame₁.top.trans ht
      obtain ⟨w₂, hw₂, hsame₂⟩ := foldlM_updates hvs (w₁.setFrame a { f with callback := cbn })
      refine ⟨w₂, ?_, .stays cbn ?_ ?_, fun h => absurd h hno⟩
      · simp [h, hw₁, hw₂, apply, setPMCallback, htop, hcb]
      · rw [hsame₂.frames]
        exact congrArg (fun l => List.set l a _) hsame₁.frames
      · exact hsame₂.stack.trans hsame₁.stack
    | pushPMFrame act args target tid =>
      cases act with
      | single => exact absurd he id
      | block body =>
        obtain ⟨w₂, hw₂, hsame₂⟩ := foldlM_updates hvs (w₁.pushPMFrame (.block body) args target tid)
        refine ⟨w₂, ?_, .pushed { action := .block body, target := target, args := args, tid := tid }
          body rfl he ⟨rfl, rfl⟩ ?_ ?_, fun h => absurd h hno⟩
        · simp [h, hw₁, hw₂, apply]
        · rw [hsame₂.frames]
          exact congrArg (fun l => l ++ [_]) hsame₁.frames
        · rw [hsame₂.stack]
          have hframes : w₁.heap.frames = w.heap.frames := hsame₁.frames
          have hstack : w₁.state.pmstack = w.state.pmstack := hsame₁.stack
          simp [pushPMFrame, stack, frames, hframes, hstack]

theorem setPMAction_top (hget : w.frames[a]? = some f) (n : Nat) :
    ∃ w', w.setPMAction a n = some w' ∧
      w'.frames = w.frames.set a { f with currentAction := n } ∧ w'.stack = w.stack := by
  refine ⟨w.setFrame a { f with currentAction := n }, ?_, rfl, rfl⟩
  have hget : w.heap.frames[a]? = some f := hget
  simp [setPMAction, hget]

theorem CallEffect.actions {bodies : List APICall → Prop} (hget : w.frames[a]? = some f)
    (h : w.CallEffect bodies a f w') : w.actions <+: w'.actions := by
  cases h with
  | stays cbn hf hs => rw [actions_setFrame (g := { f with callback := cbn }) hget rfl hf]
  | pushed g body hg hb hfresh hf hs => exact ⟨_, (actions_append hf).symm⟩

/-- One more call before the rest of a block. -/
theorem FrameEffect.cons {rest : List APICall} {i n : Nat} {d : Done K} (hw : w.SameFrames w')
    (h : w'.FrameEffect pushes a f rest (i + 1) n d) (call : APICall) :
    w.FrameEffect pushes a f (call :: rest) i (n + 1) d := by
  have hlen : w'.frames.length = w.frames.length := by rw [hw.frames]
  cases h with
  | aborted hn ha hk => exact .aborted (by simpa using hn) ha (hw.actions ▸ hk)
  | finished c hn ha hd hf hs =>
    refine .finished c (by simpa using hn) ha ?_ (by rw [hf, hw.frames]) (hs.trans hw.stack)
    rcases hd with hd | hd
    · exact .inl hd
    · exact .inr ⟨hd.1, by simp [hd.2]⟩
  | paused cbn hn ha hd hf hs =>
    refine .paused cbn (by simpa using hn) ha hd ?_ (hs.trans hw.stack)
    rw [hf, hw.frames, Nat.add_assoc i 1, Nat.add_comm 1]
  | pushed c body g hn ha hd hb hg hfresh hf hs =>
    refine .pushed c body g (by simpa using hn) ha hd hb hg hfresh ?_ ?_
    · rw [hf, hw.frames, Nat.add_assoc i 1, Nat.add_comm 1]
    · rw [hs, hlen, hw.stack]

/-- The loop of a block. -/
theorem executeBlock_effect (hl : cfg.Lawful pushes) (hcb : f.callback = "") (size : Nat)
    (rest : List APICall) :
    ∀ (i : Nat) (w : Focus K), w.top = some (a, f) → size = i + rest.length →
      ∃ d n, executeBlock cfg a f size rest i w = some d ∧
        interpretedBlock cfg f rest i w = List.range' i n ∧
        w.FrameEffect pushes a f rest i n d := by
  induction rest with
  | nil =>
    intro i w ht hsize
    obtain ⟨w', hw', hf, hs⟩ := setPMAction_top (top_iff.mp ht).2 size
    exact ⟨⟨w', false, true, false⟩, 0, by simp [executeBlock, hw'], rfl,
      .finished size (Nat.zero_le _) rfl (.inr ⟨rfl, rfl⟩) hf hs⟩
  | cons call rest ih =>
    intro i w ht hsize
    obtain ⟨w₁, hcall, heffect, hsame⟩ := executeCall_effect hl ht hcb call
    generalize cfg.interpret call w.state f.args f.target f.tid = o at hcall hsame
    have hget := (top_iff.mp ht).2
    unfold executeBlock interpretedBlock
    simp only [hcall, Option.bind_some]
    by_cases habort : o.abort = true
    · refine ⟨_, 1, if_pos habort, ?_, .aborted (by simp) rfl (heffect.actions hget)⟩
      simp [habort]
    by_cases hterm : o.term = true
    · have hsame := hsame (.inr hterm)
      obtain ⟨w', hw', hf, hs⟩ := setPMAction_top (w := w₁) (hsame.frames ▸ hget) size
      refine ⟨⟨w', true, true, false⟩, 1, by simp [habort, hterm, hw'], by simp [hterm], ?_⟩
      exact .finished size (by simp) rfl (.inl rfl) (by rw [hf, hsame.frames])
        (hs.trans hsame.stack)
    by_cases hcomp : o.comp = true
    · have hsame := hsame (.inl hcomp)
      obtain ⟨d, n, hd, hevents, hdone⟩ := ih (i + 1) w₁ (hsame.top.trans ht)
        (by simp only [List.length_cons] at hsize; omega)
      refine ⟨d, n + 1, by simp [habort, hterm, hcomp, hd], ?_, hdone.cons hsame call⟩
      simp [habort, hterm, hcomp, hevents, List.range'_succ]
    -- the frame waits for the call
    cases heffect with
    | stays cbn hf hs =>
      have hlt := (List.getElem?_eq_some_iff.mp hget).1
      obtain ⟨w', hw', hf', hs'⟩ := setPMAction_top (w := w₁) (a := a)
        (f := { f with callback := cbn }) (by rw [hf, List.getElem?_set_self hlt]) (i + 1)
      refine ⟨⟨w', false, false, false⟩, 1, by simp [habort, hterm, hcomp, hw'],
        by simp [hcomp], ?_⟩
      refine .paused cbn (by simp) rfl ⟨rfl, rfl⟩ ?_ (hs'.trans hs)
      rw [hf', hf, List.set_set]
    | pushed g body hg hb hfresh hf hs =>
      have hlt := (List.getElem?_eq_some_iff.mp hget).1
      obtain ⟨w', hw', hf', hs'⟩ := setPMAction_top (w := w₁) (a := a) (f := f)
        (by rw [hf, List.getElem?_append_left hlt, hget]) (i + 1)
      refine ⟨⟨w', false, false, false⟩, 1, by simp [habort, hterm, hcomp, hw'],
        by simp [hcomp], ?_⟩
      refine .pushed call body g rfl rfl ⟨rfl, rfl⟩ hb hg hfresh ?_ (hs'.trans hs)
      rw [hf', hf, List.set_append_left _ _ hlt]

/-- One round for a frame. -/
theorem executeFrame_effect (hl : cfg.Lawful pushes) (ht : w.top = some (a, f))
    (hcb : f.callback = "") (hfit : f.currentAction ≤ f.action.numActions)
    (hsingle : ∀ call, f.action = .single call → f.currentAction = 0)
    (hc : w.StandaloneCompletes cfg) :
    ∃ d n, w.executeFrame cfg a f = some d ∧
      w.interpretedFrame cfg f = List.range' f.currentAction n ∧
      w.FrameEffect pushes a f f.remaining f.currentAction n d ∧
      ∀ call, f.action = .single call → d.abort = true ∨ d.term = true ∨ d.comp = true := by
  unfold executeFrame interpretedFrame PMFrame.remaining
  cases h : f.action with
  | single call =>
    obtain ⟨w', hcall, heffect, hsame⟩ := executeCall_effect hl ht hcb call
    have hcomplete := hc a f call ht hcb h
    generalize cfg.interpret call w.state f.args f.target f.tid = o at hcall hsame hcomplete
    have hzero := hsingle call h
    refine ⟨_, 1, hcall, by rw [hzero]; rfl, ?_, fun _ _ => ?_⟩
    · by_cases habort : o.abort = true
      · exact .aborted (by simp [APIAction.calls, hzero]) habort
          (heffect.actions (top_iff.mp ht).2)
      have hdone : o.comp = true ∨ o.term = true := by
        rcases hcomplete with h | h | h
        · exact .inl h
        · exact .inr h
        · exact absurd h habort
      have hsame := hsame hdone
      refine .finished f.currentAction (by simp [APIAction.calls, hzero]) (by simpa using habort)
        ?_ ?_ hsame.stack
      · rcases hdone with h | h
        · exact .inr ⟨h, by simp [APIAction.calls, hzero]⟩
        · exact .inl h
      · obtain ⟨hlt, he⟩ := List.getElem?_eq_some_iff.mp (top_iff.mp ht).2
        rw [hsame.frames, ← he]
        exact (List.set_getElem_self hlt).symm
    · rcases hcomplete with h | h | h
      · exact .inr (.inr h)
      · exact .inr (.inl h)
      · exact .inl h
  | block body =>
    rw [h] at hfit
    have hsize : body.length = f.currentAction + (body.drop f.currentAction).length := by
      simp only [APIAction.numActions, List.length_drop] at hfit ⊢
      omega
    obtain ⟨d, n, hd, hevents, heffect⟩ :=
      executeBlock_effect hl hcb body.length _ f.currentAction w ht hsize
    exact ⟨d, n, hd, hevents, heffect, fun call h => APIAction.noConfusion h⟩

end Focus

end Encider
