import Encider.Lib.Nest
import Encider.Api.Progress

/-! Every action of a frame is interpreted once, in the order of its block, and a call of
`executePM` returns. -/

namespace Encider

variable {K : Type}

/-- The position at which a frame begins. -/
def Focus.start (w : Focus K) (b : Nat) : Nat := ((w.frames[b]?).map PMFrame.currentAction).getD 0

/-- The frames of this state: those on its stack and those it pushes. -/
def Focus.Owned (w : Focus K) (b : Nat) : Prop := b ∈ w.stack ∨ w.frames.length ≤ b

/-- A stack of pending actions as it is pushed: blocks at any position, standalone
actions at their only one. -/
structure Focus.Pending (w : Focus K) : Prop where
  nodup : w.stack.Nodup
  frame : ∀ b ∈ w.stack, ∃ f, w.frames[b]? = some f ∧ f.currentAction ≤ f.action.numActions ∧
    ∀ call, f.action = .single call → f.currentAction = 0 ∧ f.callback = ""

/-- The actions of a frame that are interpreted are those from its start on, each once
and in order. -/
structure PMRun.InOrder (w : Focus K) (r : PMRun K) : Prop where
  actions : w.actions <+: r.focus.actions
  logged : ∀ p ∈ r.log, w.Owned p.1 ∧ p.1 < r.focus.frames.length
  order : ∀ b act, r.focus.actions[b]? = some act → w.Owned b →
    r.positions b = List.range' (w.start b) (r.positions b).length ∧
      w.start b + (r.positions b).length ≤ act.numActions

/-- A frame on the stack is at the action after those interpreted, and a frame that has
been popped has none left unless it was terminated. -/
structure PMRun.Tracked (w : Focus K) (r : PMRun K) : Prop where
  nodup : r.focus.stack.Nodup
  stacked : ∀ b ∈ r.focus.stack, w.Owned b ∧ ∃ f, r.focus.frames[b]? = some f ∧
    f.currentAction = w.start b + (r.positions b).length ∧
    ∀ call, f.action = .single call → f.currentAction = 0 ∧ f.callback = ""
  popped : ∀ b act, r.focus.actions[b]? = some act → w.Owned b → b ∉ r.focus.stack →
    w.start b + (r.positions b).length = act.numActions ∨ b ∈ r.terminated

namespace PMRun

variable {cfg : PMConfig K} {pushes : APICall → List APICall → Prop} {w : Focus K}
  {r r' : PMRun K} {a b : Nat} {f : PMFrame}

theorem positions_congr (h : r'.log = r.log) (b : Nat) : r'.positions b = r.positions b := by
  unfold positions
  rw [h]

theorem positions_append {l : List Nat} (h : r'.log = r.log ++ l.map fun i => (a, i)) (b : Nat) :
    r'.positions b = r.positions b ++ if b = a then l else [] := by
  unfold positions
  rw [h, List.filter_append, List.map_append]
  congr 1
  split
  · rename_i hb
    rw [List.filter_eq_self.mpr (by simp [hb]), List.map_map]
    exact List.map_id l
  · rename_i hb
    simp [Ne.symm hb]

theorem InOrder.longer (h : r.InOrder w) : w.frames.length ≤ r.focus.frames.length := by
  simpa using h.actions.length_le

theorem InOrder.unseen (h : r.InOrder w) (hb : r.focus.frames.length ≤ b) : r.positions b = [] := by
  unfold positions
  rw [List.map_eq_nil_iff, List.filter_eq_nil_iff]
  intro p hp he
  have := (h.logged p hp).2
  simp only [decide_eq_true_eq] at he
  omega

theorem start_new (hb : w.frames.length ≤ b) : w.start b = 0 := by
  unfold Focus.start
  rw [List.getElem?_eq_none hb]
  rfl

/-- New frames have not been interpreted. -/
theorem InOrder.keep (h : r.InOrder w) (ha : r.focus.actions <+: r'.focus.actions)
    (hlog : r'.log = r.log) : r'.InOrder w := by
  have hlen : r.focus.frames.length ≤ r'.focus.frames.length := by simpa using ha.length_le
  refine ⟨h.actions.trans ha, ?_, ?_⟩
  · intro p hp
    rw [hlog] at hp
    exact ⟨(h.logged p hp).1, (h.logged p hp).2.trans_le hlen⟩
  · intro b act hact hown
    rw [positions_congr hlog]
    by_cases hb : b < r.focus.frames.length
    · have hold := List.prefix_iff_getElem?.mp ha b (by simpa using hb)
      rw [hact] at hold
      exact h.order b act (by rw [hold]; exact List.getElem?_eq_getElem _) hown
    · rw [h.unseen (not_lt.mp hb), start_new (h.longer.trans (not_lt.mp hb))]
      exact ⟨rfl, Nat.zero_le _⟩

/-- The next `n` actions of a frame. -/
theorem InOrder.advance (h : r.InOrder w) (hf : r.focus.frames[a]? = some f) (hown : w.Owned a)
    (hcur : f.currentAction = w.start a + (r.positions a).length) {n : Nat}
    (hn : f.currentAction + n ≤ f.action.numActions) :
    InOrder w { r with log := r.log ++ (List.range' f.currentAction n).map fun i => (a, i) } := by
  have hpos (b : Nat) : positions
      { r with log := r.log ++ (List.range' f.currentAction n).map fun i => (a, i) } b =
        r.positions b ++ if b = a then List.range' f.currentAction n else [] :=
    positions_append rfl b
  refine ⟨h.actions, ?_, ?_⟩
  · intro p hp
    rcases List.mem_append.mp hp with hp | hp
    · exact h.logged p hp
    · obtain ⟨i, -, rfl⟩ := List.mem_map.mp hp
      exact ⟨hown, (List.getElem?_eq_some_iff.mp hf).1⟩
  · intro b act hact hb
    rw [hpos b]
    by_cases hba : b = a
    · subst hba
      obtain ⟨horder, -⟩ := h.order b act hact hb
      have hsame : act = f.action := by
        have hget : r.focus.actions[b]? = some f.action := by simp [hf]
        exact Option.some_inj.mp (hact.symm.trans hget)
      rw [if_pos rfl, List.length_append, List.length_range']
      refine ⟨?_, by rw [hsame]; omega⟩
      rw [horder, hcur, List.length_range', List.range'_append_1]
    · rw [if_neg hba, List.append_nil]
      exact h.order b act hact hb

/-- Nothing is interpreted, and the stack of frames is the same. -/
theorem Tracked.keep (h : r.Tracked w) (hs : r'.focus.stack = r.focus.stack)
    (hlog : r'.log = r.log) (hterm : r'.terminated = r.terminated)
    (hf : ∀ b ∈ r.focus.stack, ∀ f, r.focus.frames[b]? = some f → ∃ g, r'.focus.frames[b]? = some g ∧
      g.action = f.action ∧ g.currentAction = f.currentAction ∧ (f.callback = "" → g.callback = ""))
    (ha : r'.focus.actions = r.focus.actions) : r'.Tracked w := by
  refine ⟨hs ▸ h.nodup, ?_, ?_⟩
  · intro b hb
    rw [hs] at hb
    obtain ⟨hown, f, hget, hcur, hsingle⟩ := h.stacked b hb
    obtain ⟨g, hg, hact, hpos, hcb⟩ := hf b hb f hget
    refine ⟨hown, g, hg, by rw [hpos, hcur, positions_congr hlog], ?_⟩
    intro call hcall
    rw [hact] at hcall
    exact ⟨hpos.trans (hsingle call hcall).1, hcb (hsingle call hcall).2⟩
  · intro b act hact hown hb
    rw [positions_congr hlog, hterm]
    exact h.popped b act (ha ▸ hact) hown (hs ▸ hb)

/-- The frame at the top is popped. -/
theorem Tracked.pop (h : r.Tracked w) {rest : List Nat} (htop : r.focus.stack = a :: rest)
    (hs : r'.focus.stack = rest) (hlog : ∀ b, b ≠ a → r'.positions b = r.positions b)
    (hterm : r.terminated ⊆ r'.terminated)
    (hf : ∀ b, b ≠ a → r'.focus.frames[b]? = r.focus.frames[b]?)
    (hdone : ∀ act, r'.focus.actions[a]? = some act →
      w.start a + (r'.positions a).length = act.numActions ∨ a ∈ r'.terminated) : r'.Tracked w := by
  have hnodup := h.nodup
  rw [htop] at hnodup
  obtain ⟨hnot, hrest⟩ := List.nodup_cons.mp hnodup
  refine ⟨hs ▸ hrest, ?_, ?_⟩
  · intro b hb
    rw [hs] at hb
    have hne : b ≠ a := fun he => hnot (he ▸ hb)
    rw [hf b hne, hlog b hne]
    exact h.stacked b (htop ▸ List.mem_cons_of_mem a hb)
  · intro b act hact hown hb
    by_cases hba : b = a
    · subst hba
      exact hdone act hact
    · have hold : r.focus.actions[b]? = some act := by
        rw [← hact]
        simp [hf b hba]
      rw [hlog b hba]
      refine (h.popped b act hold hown ?_).imp id fun hm => hterm hm
      rw [htop, List.mem_cons, not_or]
      exact ⟨hba, hs ▸ hb⟩

/-- A block goes on by `n` actions. -/
theorem Tracked.advance (h : r.Tracked w) {g : PMFrame} {n : Nat} (ha : a ∈ r.focus.stack)
    (hget : r.focus.frames[a]? = some f) (hblock : ∀ call, f.action ≠ .single call)
    (hg : g.action = f.action) (hcur : g.currentAction = f.currentAction + n)
    (hs : r'.focus.stack = r.focus.stack) (hf : r'.focus.frames = r.focus.frames.set a g)
    (hpos : (r'.positions a).length = (r.positions a).length + n)
    (hlog : ∀ b, b ≠ a → r'.positions b = r.positions b)
    (hterm : r'.terminated = r.terminated) : r'.Tracked w := by
  refine ⟨hs ▸ h.nodup, ?_, ?_⟩
  · intro b hb
    rw [hs] at hb
    by_cases hba : b = a
    · subst hba
      obtain ⟨hown, f', hget', hcur', -⟩ := h.stacked b hb
      obtain rfl : f = f' := Option.some_inj.mp (hget.symm.trans hget')
      refine ⟨hown, g, ?_, by rw [hcur, hcur', hpos, Nat.add_assoc], ?_⟩
      · rw [hf, List.getElem?_set_self (List.getElem?_eq_some_iff.mp hget).1]
      · intro call hcall
        exact absurd (hg.symm.trans hcall) (hblock call)
    · rw [hf, List.getElem?_set_ne (Ne.symm hba), hlog b hba]
      exact h.stacked b hb
  · intro b act hact hown hb
    have hba : b ≠ a := fun he => hb (hs ▸ he ▸ ha)
    rw [hlog b hba, hterm]
    rw [Focus.actions_setFrame hget hg hf] at hact
    exact h.popped b act hact hown (hs ▸ hb)

/-- A frame is pushed. -/
theorem Tracked.push (h : r.Tracked w) (horder : r.InOrder w) {g : PMFrame}
    (hs : r'.focus.stack = r.focus.frames.length :: r.focus.stack)
    (hf : r'.focus.frames = r.focus.frames ++ [g]) (hg : g.currentAction = 0 ∧ g.callback = "")
    (hlog : r'.log = r.log) (hterm : r'.terminated = r.terminated) : r'.Tracked w := by
  have hlt : ∀ b ∈ r.focus.stack, b < r.focus.frames.length := by
    intro b hb
    obtain ⟨-, f, hget, -⟩ := h.stacked b hb
    exact (List.getElem?_eq_some_iff.mp hget).1
  refine ⟨?_, ?_, ?_⟩
  · rw [hs]
    exact List.nodup_cons.mpr ⟨fun hm => absurd (hlt _ hm) (lt_irrefl _), h.nodup⟩
  · intro b hb
    rw [hs] at hb
    rw [positions_congr hlog]
    rcases List.mem_cons.mp hb with rfl | hb
    · refine ⟨.inr horder.longer, g, by simp [hf], ?_, fun _ _ => hg⟩
      rw [horder.unseen le_rfl, start_new horder.longer, hg.1]
      rfl
    · rw [hf, List.getElem?_append_left (hlt b hb)]
      exact h.stacked b hb
  · intro b act hact hown hb
    rw [hs, List.mem_cons, not_or] at hb
    rw [positions_congr hlog, hterm]
    refine h.popped b act ?_ hown hb.2
    have hb' : b < r.focus.frames.length := by
      have hlt : b < r'.focus.actions.length := (List.getElem?_eq_some_iff.mp hact).1
      simp only [List.length_map, hf, List.length_append, List.length_singleton] at hlt
      omega
    rw [← hact]
    simp [hf, List.getElem?_append_left hb']

/-- What holds of every state of a run. -/
structure Good (w : Focus K) (r : PMRun K) : Prop where
  inOrder : r.InOrder w
  tracked : r.aborted = false → r.Tracked w

theorem Tracked.top (h : r.Tracked w) (horder : r.InOrder w) (ht : r.focus.top = some (a, f)) :
    ∃ rest, r.focus.stack = a :: rest ∧ r.focus.frames[a]? = some f ∧ w.Owned a ∧
      f.currentAction = w.start a + (r.positions a).length ∧
      f.currentAction ≤ f.action.numActions ∧
      ∀ call, f.action = .single call → f.currentAction = 0 ∧ f.callback = "" := by
  obtain ⟨hhead, hget⟩ := Focus.top_iff.mp ht
  obtain ⟨rest, hstack⟩ := List.head?_eq_some_iff.mp hhead
  obtain ⟨hown, f', hget', hcur, hsingle⟩ := h.stacked a (hstack ▸ List.mem_cons_self)
  obtain rfl : f = f' := Option.some_inj.mp (hget.symm.trans hget')
  refine ⟨rest, hstack, hget, hown, hcur, ?_, hsingle⟩
  rw [hcur]
  exact (horder.order a f.action (by simp [hget]) hown).2

/-- The run after a round whose frame `a` interprets `n` actions from position `i` on. -/
def after (r : PMRun K) (a i n : Nat) (d : Focus.Done K) : PMRun K where
  focus := if !d.abort && (d.term || d.comp) then d.focus.popPMFrame else d.focus
  log := r.log ++ (List.range' i n).map fun j => (a, j)
  terminated := if d.term then a :: r.terminated else r.terminated
  aborted := d.abort

/-- What a round does to the frames keeps the run good. -/
theorem Good.after (h : r.Good w) (ha : r.aborted = false) (ht : r.focus.top = some (a, f))
    {n : Nat} {d : Focus.Done K}
    (heffect : r.focus.FrameEffect pushes a f f.remaining f.currentAction n d)
    (hat : ∀ call, f.action = .single call → d.abort = true ∨ d.term = true ∨ d.comp = true) :
    (r.after a f.currentAction n d).Good w := by
  have htracked := h.tracked ha
  obtain ⟨rest, hstack, hget, hown, hcur, hfit, hsingle⟩ := htracked.top h.inOrder ht
  have hremaining : f.remaining.length = f.action.numActions - f.currentAction := by
    rw [PMFrame.remaining, List.length_drop, APIAction.calls_length]
  have hpos (b : Nat) : (r.after a f.currentAction n d).positions b =
      r.positions b ++ if b = a then List.range' f.currentAction n else [] :=
    positions_append rfl b
  have hother (b : Nat) (hb : b ≠ a) : (r.after a f.currentAction n d).positions b =
      r.positions b := by rw [hpos, if_neg hb, List.append_nil]
  have hself : ((r.after a f.currentAction n d).positions a).length =
      (r.positions a).length + n := by
    rw [hpos, if_pos rfl, List.length_append, List.length_range']
  have hlogged (hn : n ≤ f.remaining.length) :=
    h.inOrder.advance hget hown hcur (n := n) (by omega)
  -- a frame that goes on is a block's
  have hblock (hd : d.abort = false ∧ d.term = false ∧ d.comp = false) (call : APICall) :
      f.action ≠ .single call := by
    intro hcall
    have := hat call hcall
    simp [hd] at this
  cases heffect with
  | aborted hn hab hk =>
    refine ⟨(hlogged hn).keep ?_ rfl, fun hf => ?_⟩
    · simpa [PMRun.after, hab] using hk
    · rw [show (r.after a f.currentAction n d).aborted = d.abort from rfl, hab] at hf
      cases hf
  | finished c hn hab hd hf hs =>
    have hpop : (r.after a f.currentAction n d).focus = d.focus.popPMFrame := by
      refine if_pos ?_
      rcases hd with hd | hd
      · simp [hab, hd]
      · simp [hab, hd.1]
    have hactions : (r.after a f.currentAction n d).focus.actions = r.focus.actions := by
      rw [hpop]
      exact Focus.actions_setFrame (g := { f with currentAction := c }) hget rfl hf
    refine ⟨(hlogged hn).keep ?_ rfl, fun _ => htracked.pop hstack ?_ hother ?_ ?_ ?_⟩
    · rw [hactions]
    · rw [hpop]
      show d.focus.stack.tail = rest
      rw [hs, hstack]
      rfl
    · show r.terminated ⊆ if d.term = true then a :: r.terminated else r.terminated
      split
      · exact List.subset_cons_self a _
      · exact List.Subset.refl _
    · intro b hb
      rw [hpop]
      show d.focus.frames[b]? = _
      rw [hf, List.getElem?_set_ne (Ne.symm hb)]
    · intro act hact
      have hsame : f.action = act := by
        rw [hactions] at hact
        simpa [hget] using hact
      rcases hd with hd | hd
      · refine .inr ?_
        show a ∈ if d.term = true then a :: r.terminated else r.terminated
        rw [if_pos hd]
        exact List.mem_cons_self
      · refine .inl ?_
        rw [hself, ← hsame]
        have := hd.2
        omega
  | @paused m _ cbn hn hab hd hf hs =>
    have hfocus : (r.after a f.currentAction (m + 1) d).focus = d.focus := by
      simp [PMRun.after, hd]
    have hterm : (r.after a f.currentAction (m + 1) d).terminated = r.terminated := by
      simp [PMRun.after, hd]
    refine ⟨(hlogged hn).keep ?_ rfl, fun _ => ?_⟩
    · rw [hfocus, Focus.actions_setFrame
        (g := { f with currentAction := f.currentAction + m + 1, callback := cbn }) hget rfl hf]
    · refine htracked.advance (g := { f with
          currentAction := f.currentAction + m + 1, callback := cbn }) (hstack ▸ List.mem_cons_self)
        hget (hblock ⟨hab, hd⟩) rfl (Nat.add_assoc _ _ _) ?_ ?_ hself hother hterm
      · rw [hfocus, hs]
      · rw [hfocus, hf]
  | @pushed m _ call body g hn hab hd hb hg hfresh hf hs =>
    have hm : m < f.remaining.length := (List.getElem?_eq_some_iff.mp hn).1
    have hfocus : (r.after a f.currentAction (m + 1) d).focus = d.focus := by
      simp [PMRun.after, hd]
    have hterm : (r.after a f.currentAction (m + 1) d).terminated = r.terminated := by
      simp [PMRun.after, hd]
    -- first the frame goes on, then the new one is pushed
    let mid : PMRun K := { r.after a f.currentAction (m + 1) d with
      focus := r.focus.setFrame a { f with currentAction := f.currentAction + m + 1 } }
    have hmid : mid.focus.frames =
        r.focus.frames.set a { f with currentAction := f.currentAction + m + 1 } := rfl
    have hmidactions : mid.focus.actions = r.focus.actions :=
      Focus.actions_setFrame (g := { f with currentAction := f.currentAction + m + 1 }) hget rfl
        hmid
    have hlen : mid.focus.frames.length = r.focus.frames.length := by
      rw [hmid, List.length_set]
    have horder : mid.InOrder w := (hlogged hm).keep (by rw [hmidactions]) rfl
    have hmidtracked : mid.Tracked w := htracked.advance
      (g := { f with currentAction := f.currentAction + m + 1 }) (hstack ▸ List.mem_cons_self)
      hget (hblock ⟨hab, hd⟩) rfl (Nat.add_assoc _ _ _) rfl hmid hself hother hterm
    have hframes : d.focus.frames = mid.focus.frames ++ [g] := hf
    refine ⟨horder.keep ?_ rfl, fun _ => hmidtracked.push horder (g := g) ?_ ?_ hfresh rfl rfl⟩
    · rw [hfocus]
      exact ⟨_, (Focus.actions_append hframes).symm⟩
    · rw [hfocus, hs, hlen]
      rfl
    · rw [hfocus, hframes]

/-- A round. -/
theorem Good.round (h : r.Good w) (hl : cfg.Lawful pushes) (ha : r.aborted = false)
    (hc : r.focus.StandaloneCompletes cfg) : ∃ r', r.round cfg = some r' ∧ r'.Good w := by
  unfold PMRun.round
  cases ht : r.focus.top with
  | none => exact ⟨r, rfl, h⟩
  | some p =>
    obtain ⟨a, f⟩ := p
    dsimp only
    by_cases hcb : f.callback = ""
    · rw [if_neg (not_not.mpr hcb)]
      obtain ⟨rest, hstack, hget, hown, hcur, hfit, hsingle⟩ := (h.tracked ha).top h.inOrder ht
      obtain ⟨d, n, hd, hevents, heffect, hat⟩ := Focus.executeFrame_effect hl ht hcb hfit
        (fun call hcall => (hsingle call hcall).1) hc
      rw [hd, hevents]
      exact ⟨r.after a f.currentAction n d, rfl, h.after ha ht heffect hat⟩
    · rw [if_pos hcb]
      exact ⟨r, rfl, h⟩

theorem Good.congr (h : r.Good w) (hs : r'.focus.stack = r.focus.stack)
    (hf : r'.focus.frames = r.focus.frames) (hlog : r'.log = r.log)
    (hterm : r'.terminated = r.terminated) (ha : r'.aborted = r.aborted) : r'.Good w := by
  have hactions : r'.focus.actions = r.focus.actions := congrArg (List.map PMFrame.action) hf
  refine ⟨h.inOrder.keep (by rw [hactions]) hlog, fun haborted => ?_⟩
  refine (h.tracked (ha ▸ haborted)).keep hs hlog hterm ?_ hactions
  intro b _ f hget
  exact ⟨f, by rw [hf, hget], rfl, rfl, id⟩

/-- A callback returns. -/
theorem Good.returned (h : r.Good w) (ha : r.aborted = false) {cbn : String} {v : Focus K}
    (hv : r.focus.checkAndSetPMCallbackCompleted cbn = some v) : Good w { r with focus := v } := by
  unfold Focus.checkAndSetPMCallbackCompleted at hv
  cases ht : r.focus.top with
  | none =>
    rw [ht] at hv
    dsimp only at hv
    split at hv
    · cases hv
    · cases hv
      exact h
  | some p =>
    obtain ⟨a, f⟩ := p
    rw [ht] at hv
    dsimp only at hv
    split at hv
    · obtain ⟨rest, hstack, hget, hown, hcur, hfit, hsingle⟩ :=
        (h.tracked ha).top h.inOrder ht
      have hframes : (r.focus.setFrame a { f with callback := "" }).frames =
          r.focus.frames.set a { f with callback := "" } := rfl
      have hactions : (r.focus.setFrame a { f with callback := "" }).actions = r.focus.actions :=
        Focus.actions_setFrame (g := { f with callback := "" }) hget rfl hframes
      split at hv
      · rename_i hdone
        cases hv
        refine ⟨h.inOrder.keep (by rw [← hactions]; exact List.prefix_refl _) rfl, fun _ => ?_⟩
        refine (h.tracked ha).pop hstack (congrArg List.tail hstack) (fun _ _ => rfl)
          (List.Subset.refl _) ?_ ?_
        · intro b hb
          exact List.getElem?_set_ne (Ne.symm hb)
        · intro act hact
          have hsame : f.action = act := by
            have hget' : r.focus.actions[a]? = some f.action := by simp [hget]
            exact Option.some_inj.mp (hget'.symm.trans (hactions ▸ hact))
          refine .inl ?_
          show w.start a + (r.positions a).length = act.numActions
          rw [← hsame]
          omega
      · cases hv
        refine ⟨h.inOrder.keep (by rw [← hactions]) rfl, fun _ => ?_⟩
        refine (h.tracked ha).keep rfl rfl rfl ?_ hactions
        intro b hb g hg
        by_cases hba : b = a
        · subst hba
          obtain rfl : f = g := Option.some_inj.mp (hget.symm.trans hg)
          refine ⟨{ f with callback := "" }, ?_, rfl, rfl, fun _ => rfl⟩
          exact List.getElem?_set_self (List.getElem?_eq_some_iff.mp hget).1
        · exact ⟨g, (List.getElem?_set_ne (Ne.symm hba)).trans hg, rfl, rfl, id⟩
    · cases hv
      exact h

/-- A modelled API is called. -/
theorem Good.push (h : r.Good w) (ha : r.aborted = false) (act : APIAction) (args : List Expr)
    (target : KInstruction) (tid : Int) :
    Good w { r with focus := r.focus.pushPMFrame act args target tid } := by
  refine ⟨h.inOrder.keep ⟨_, (Focus.actions_append rfl).symm⟩ rfl, fun _ => ?_⟩
  exact (h.tracked ha).push h.inOrder rfl rfl ⟨rfl, rfl⟩ rfl rfl

theorem Good.step (h : r.Good w) (hl : cfg.Lawful pushes) (ha : r.aborted = false) {e : PMEvent K}
    (hok : e = .round → r.focus.StandaloneCompletes cfg) (hs : r.step cfg e = some r') :
    r'.Good w := by
  cases e with
  | round =>
    obtain ⟨r'', hr'', hgood⟩ := h.round hl ha (hok rfl)
    cases hr''.symm.trans hs
    exact hgood
  | returned cbn =>
    obtain ⟨v, hv, rfl⟩ := Option.map_eq_some_iff.mp hs
    exact h.returned ha hv
  | push act args target tid =>
    cases hs
    exact h.push ha act args target tid
  | update f =>
    cases hs
    exact h.congr rfl rfl rfl rfl rfl

theorem Good.start (hw : w.Pending) : Good w { focus := w } := by
  have hstart : ∀ b ∈ w.stack, ∀ f, w.frames[b]? = some f → w.start b = f.currentAction := by
    intro b _ f hget
    unfold Focus.start
    rw [hget]
    rfl
  have hstacked : ∀ b act, w.actions[b]? = some act → w.Owned b → b ∈ w.stack := by
    intro b act hact hown
    have hlt := (List.getElem?_eq_some_iff.mp hact).1
    rw [List.length_map] at hlt
    exact hown.resolve_right (not_le.mpr hlt)
  refine ⟨⟨List.prefix_refl _, by simp, ?_⟩, fun _ => ⟨hw.nodup, ?_, ?_⟩⟩
  · intro b act hact hown
    have hb := hstacked b act hact hown
    obtain ⟨f, hget, hfit, -⟩ := hw.frame b hb
    obtain rfl : f.action = act := by
      have hget' : w.actions[b]? = some f.action := by simp [hget]
      exact Option.some_inj.mp (hget'.symm.trans hact)
    exact ⟨rfl, (hstart b hb f hget).symm ▸ hfit⟩
  · intro b hb
    obtain ⟨f, hget, -, hsingle⟩ := hw.frame b hb
    exact ⟨.inl hb, f, hget, (hstart b hb f hget).symm, hsingle⟩
  · intro b act hact hown hb
    exact absurd (hstacked b act hact hown) hb

theorem Reached.good (hl : cfg.Lawful pushes) (hw : w.Pending) {ok : Focus K → Prop}
    (hok : ∀ v, ok v → v.StandaloneCompletes cfg) (h : Reached cfg ok w r) : r.Good w := by
  induction h with
  | start => exact .start hw
  | step _ ha hround hs ih => exact ih.step hl ha (fun he => hok _ (hround he)) hs

end PMRun

section Returns

variable {cfg : PMConfig K} {pushes : APICall → List APICall → Prop} {w : Focus K}
  {r r' : PMRun K} {a : Nat} {f : PMFrame} (W : APICall → Nat)

/-- What is still to be done for a frame, and for a stack of frames. -/
def PMFrame.load (f : PMFrame) : Nat := 1 + (f.remaining.map W).sum

def Focus.loadOf (w : Focus K) (b : Nat) : Nat := ((w.frames[b]?).map (PMFrame.load W)).getD 0

def Focus.load (w : Focus K) : Nat := (w.stack.map (w.loadOf W)).sum

variable {W}

theorem PMFrame.load_pos (f : PMFrame) : 0 < f.load W := by
  unfold PMFrame.load
  omega

theorem Focus.loadOf_get (hget : w.frames[a]? = some f) : w.loadOf W a = f.load W := by
  unfold Focus.loadOf
  rw [hget]
  rfl

/-- Nothing is left to do for now: the stack is empty, or its top waits for a callback. -/
def Focus.Waits (w : Focus K) : Prop :=
  w.stack = [] ∨ ∃ a f, w.top = some (a, f) ∧ f.callback ≠ ""

/-- A frame that goes on by `n + 1` actions has less to do. -/
theorem PMFrame.load_advance {g : PMFrame} {n : Nat} {call : APICall}
    (hn : f.remaining[n]? = some call) (hg : g.action = f.action)
    (hcur : g.currentAction = f.currentAction + n + 1) : g.load W + W call ≤ f.load W := by
  have hrest : g.remaining = f.remaining.drop (n + 1) := by
    rw [PMFrame.remaining, PMFrame.remaining, List.drop_drop, hg, hcur, Nat.add_assoc]
  have hdrop := List.sum_drop_succ W hn
  unfold PMFrame.load
  rw [hrest]
  omega

/-- Each round leaves less to do. -/
theorem PMRun.after_load (hW : ∀ call, 0 < W call)
    (hpush : ∀ call body, pushes call body → (body.map W).sum + 2 ≤ W call)
    (hnodup : r.focus.stack.Nodup) {rest : List Nat} (hstack : r.focus.stack = a :: rest)
    (hget : r.focus.frames[a]? = some f)
    (hvalid : ∀ b ∈ r.focus.stack, b < r.focus.frames.length) {n : Nat} {d : Focus.Done K}
    (heffect : r.focus.FrameEffect pushes a f f.remaining f.currentAction n d)
    (ha : d.abort = false) :
    (r.after a f.currentAction n d).focus.load W < r.focus.load W := by
  have hnot : a ∉ rest := by
    rw [hstack] at hnodup
    exact (List.nodup_cons.mp hnodup).1
  have hlt : a < r.focus.frames.length := (List.getElem?_eq_some_iff.mp hget).1
  have hold : r.focus.load W = f.load W + (rest.map (r.focus.loadOf W)).sum := by
    rw [Focus.load, hstack, List.map_cons, List.sum_cons, Focus.loadOf_get hget]
  have hrest (v : Focus K) (hv : ∀ b ∈ rest, v.frames[b]? = r.focus.frames[b]?) :
      rest.map (v.loadOf W) = rest.map (r.focus.loadOf W) := by
    refine List.map_congr_left fun b hb => ?_
    unfold Focus.loadOf
    rw [hv b hb]
  have hset (g : PMFrame) (b : Nat) (hb : b ∈ rest) :
      (r.focus.frames.set a g)[b]? = r.focus.frames[b]? :=
    List.getElem?_set_ne (ne_of_mem_of_not_mem hb hnot).symm
  rw [hold]
  cases heffect with
  | aborted _ hab => exact absurd (ha.symm.trans hab) Bool.false_ne_true
  | finished c hn hab hd hf hs =>
    have hpop : (r.after a f.currentAction n d).focus = d.focus.popPMFrame := by
      refine if_pos ?_
      rcases hd with hd | hd
      · simp [hab, hd]
      · simp [hab, hd.1]
    have hrestStack : d.focus.popPMFrame.stack = rest := by
      show d.focus.stack.tail = rest
      rw [hs, hstack]
      rfl
    rw [hpop, Focus.load, hrestStack, hrest d.focus.popPMFrame]
    · have := f.load_pos (W := W)
      omega
    · intro b hb
      show d.focus.frames[b]? = _
      rw [hf, hset _ b hb]
  | @paused m _ cbn hn hab hd hf hs =>
    have hfocus : (r.after a f.currentAction (m + 1) d).focus = d.focus := by
      simp [PMRun.after, hd]
    have hself : d.focus.frames[a]? = some { f with
        currentAction := f.currentAction + m + 1, callback := cbn } := by
      rw [hf, List.getElem?_set_self hlt]
    have hload := PMFrame.load_advance (W := W) (f := f) (g := { f with
      currentAction := f.currentAction + m + 1, callback := cbn })
      (List.getElem?_eq_getElem hn) rfl rfl
    have hpos := hW f.remaining[m]
    rw [hfocus, Focus.load, hs, hstack, List.map_cons, List.sum_cons, Focus.loadOf_get hself,
      hrest d.focus]
    · omega
    · intro b hb
      rw [hf, hset _ b hb]
  | @pushed m _ call body g hn hab hd hb hg hfresh hf hs =>
    have hfocus : (r.after a f.currentAction (m + 1) d).focus = d.focus := by
      simp [PMRun.after, hd]
    have hlen : a < (r.focus.frames.set a { f with
        currentAction := f.currentAction + m + 1 }).length := by
      rw [List.length_set]
      exact hlt
    have hself : d.focus.frames[a]? = some { f with currentAction := f.currentAction + m + 1 } := by
      rw [hf, List.getElem?_append_left hlen, List.getElem?_set_self hlt]
    have hnew : d.focus.frames[r.focus.frames.length]? = some g := by
      simp [hf]
    have hload := PMFrame.load_advance (W := W) (f := f)
      (g := { f with currentAction := f.currentAction + m + 1 }) hn rfl rfl
    have hfresh : g.load W = 1 + (body.map W).sum := by
      rw [PMFrame.load, PMFrame.remaining, hg, hfresh.1]
      rfl
    have hbody := hpush call body hb
    rw [hfocus, Focus.load, hs, hstack, List.map_cons, List.sum_cons, List.map_cons,
      List.sum_cons, Focus.loadOf_get hself, Focus.loadOf_get hnew, hrest d.focus]
    · omega
    · intro b hb
      rw [hf, List.getElem?_append_left, hset _ b hb]
      rw [List.length_set]
      exact hvalid b (hstack ▸ List.mem_cons_of_mem a hb)

/-- One round of `executePM`. -/
theorem Focus.executePM_round (ht : w.top = some (a, f)) (hcb : f.callback = "") {d : Focus.Done K}
    (hd : w.executeFrame cfg a f = some d) (r : PMRun K) (i n fuel : Nat) :
    w.executePM cfg (fuel + 1) =
      if d.abort = true then some ((r.after a i n d).focus, true)
      else (r.after a i n d).focus.executePM cfg fuel := by
  have hne : w.state.pmstack ≠ [] := by
    intro h
    have := (Focus.top_iff.mp ht).1
    simp [Focus.stack, h] at this
  rw [Focus.executePM, if_neg hne, ht, Option.bind_some]
  dsimp only
  rw [if_neg (not_not.mpr hcb), hd, Option.bind_some]
  by_cases hab : d.abort = true
  · simp [hab, PMRun.after]
  · simp [hab, PMRun.after]

theorem Focus.executePM_waits (h : w.Waits) (n : Nat) :
    w.executePM cfg (n + 1) = some (w, false) := by
  unfold Focus.executePM
  rcases h with h | h
  · exact if_pos h
  · obtain ⟨a, f, ht, hcb⟩ := h
    have hne : w.state.pmstack ≠ [] := by
      intro h
      have := (Focus.top_iff.mp ht).1
      simp [Focus.stack, h] at this
    rw [if_neg hne, ht, Option.bind_some]
    exact if_pos hcb

theorem PMRun.Tracked.waits (h : r.Tracked w) (ht : r.focus.top = none) : r.focus.Waits := by
  refine .inl ?_
  cases hs : r.focus.stack with
  | nil => rfl
  | cons a rest =>
    obtain ⟨-, f, hget, -⟩ := h.stacked a (hs ▸ List.mem_cons_self)
    have htop : r.focus.top = some (a, f) := Focus.top_iff.mpr ⟨by rw [hs]; rfl, hget⟩
    cases ht.symm.trans htop

/-- A call of `executePM` returns: it is a sequence of rounds, after which the state is
aborted or waits. -/
theorem PMRun.Good.executePM_returns (hl : cfg.Lawful pushes) (hW : ∀ call, 0 < W call)
    (hpush : ∀ call body, pushes call body → (body.map W).sum + 2 ≤ W call) (h : r.Good w)
    (ha : r.aborted = false)
    (hc : ∀ r', Rounds cfg r r' → r'.aborted = false → r'.focus.StandaloneCompletes cfg) :
    ∃ r' fuel, Rounds cfg r r' ∧ (r'.aborted = false → r'.focus.Waits) ∧
      ∀ n, fuel < n → r.focus.executePM cfg n = some (r'.focus, r'.aborted) := by
  induction hsize : r.focus.load W using Nat.strong_induction_on generalizing r with
  | _ size ih =>
    have htracked := h.tracked ha
    have hstay (hwaits : r.focus.Waits) : ∃ r' fuel, Rounds cfg r r' ∧
        (r'.aborted = false → r'.focus.Waits) ∧
          ∀ n, fuel < n → r.focus.executePM cfg n = some (r'.focus, r'.aborted) := by
      refine ⟨r, 0, .refl, fun _ => hwaits, fun n hn => ?_⟩
      obtain ⟨n, rfl⟩ := Nat.exists_eq_add_of_lt hn
      rw [ha, Nat.zero_add]
      exact Focus.executePM_waits hwaits n
    cases ht : r.focus.top with
    | none => exact hstay (htracked.waits ht)
    | some p =>
      obtain ⟨a, f⟩ := p
      by_cases hcb : f.callback = ""
      · obtain ⟨rest, hstack, hget, hown, hcur, hfit, hsingle⟩ := htracked.top h.inOrder ht
        obtain ⟨d, n, hd, hevents, heffect, hat⟩ := Focus.executeFrame_effect hl ht hcb hfit
          (fun call hcall => (hsingle call hcall).1) (hc r .refl ha)
        have hround : r.round cfg = some (r.after a f.currentAction n d) := by
          unfold PMRun.round
          rw [ht]
          dsimp only
          rw [if_neg (not_not.mpr hcb), hd, hevents]
          rfl
        have hstep : Rounds cfg r (r.after a f.currentAction n d) := .single ⟨ha, hround⟩
        have hunfold := Focus.executePM_round ht hcb hd r f.currentAction n
        by_cases hab : d.abort = true
        · refine ⟨r.after a f.currentAction n d, 0, hstep, ?_, fun m hm => ?_⟩
          · intro hno
            exact absurd (hno.symm.trans hab) Bool.false_ne_true
          · obtain ⟨m, rfl⟩ := Nat.exists_eq_add_of_lt hm
            rw [Nat.zero_add, hunfold, if_pos hab]
            exact congrArg some (congrArg _ hab.symm)
        · have hab' : d.abort = false := by simpa using hab
          have hvalid : ∀ b ∈ r.focus.stack, b < r.focus.frames.length := by
            intro b hb
            obtain ⟨-, g, hg, -⟩ := htracked.stacked b hb
            exact (List.getElem?_eq_some_iff.mp hg).1
          have hless := PMRun.after_load hW hpush htracked.nodup hstack hget hvalid heffect hab'
          obtain ⟨r', fuel, hrounds, hwaits, hreturns⟩ := ih _ (hsize ▸ hless)
            (h.after ha ht heffect hat) hab' (fun r' hr' => hc r' (hstep.trans hr')) rfl
          refine ⟨r', fuel + 1, hstep.trans hrounds, hwaits, fun m hm => ?_⟩
          obtain ⟨m, rfl⟩ := Nat.exists_eq_add_of_lt hm
          rw [hunfold, if_neg hab]
          exact hreturns _ (by omega)
      · exact hstay (.inr ⟨a, f, ht, hcb⟩)

end Returns

namespace ApiEnv

/-- The bodies that an action may push. -/
def subblocks (env : ApiEnv K) (call : APICall) : List (List APICall) :=
  [env.getSubblock (call.par 1), env.getSubblock (call.par 4)].filterMap id

theorem mem_subblocks {env : ApiEnv K} {call : APICall} {body : List APICall} :
    body ∈ env.subblocks call ↔ env.Pushes call body := by
  simp only [subblocks, Pushes, APICall.Label, List.mem_filterMap, List.mem_cons, List.not_mem_nil,
    or_false, id_eq]
  constructor
  · intro h
    obtain ⟨o, ho | ho, rfl⟩ := h
    · exact ⟨_, .inl rfl, ho.symm⟩
    · exact ⟨_, .inr rfl, ho.symm⟩
  · intro h
    obtain ⟨l, rfl | rfl, hl⟩ := h
    · exact ⟨_, .inl hl.symm, rfl⟩
    · exact ⟨_, .inr hl.symm, rfl⟩

/-- The configuration in which the handlers are those of the specification. -/
def config (env : ApiEnv K) : PMConfig K where
  interpret := env.interpret
  extendExecutionWith := fun _ _ _ => none

/-- A standalone action that is about to be interpreted completes at once. -/
def StandaloneAtOnce (env : ApiEnv K) (w : Focus K) : Prop :=
  ∀ a f call, w.top = some (a, f) → f.callback = "" → f.action = .single call →
    env.AtOnce call w.state f.args f.target

theorem config_lawful (env : ApiEnv K) : env.config.Lawful env.Pushes :=
  fun call state args target tid => env.interpret_lawful call state args target tid

theorem StandaloneAtOnce.completes {env : ApiEnv K} {w : Focus K} (h : env.StandaloneAtOnce w) :
    w.StandaloneCompletes env.config :=
  fun a f call ht hcb hact => interpret_completes.mpr (h a f call ht hcb hact)

end ApiEnv

theorem PMRun.Reached.rounds {cfg : PMConfig K} {ok : Focus K → Prop} {w : Focus K}
    {r r' : PMRun K} (h : Reached cfg ok w r) (hr : Rounds cfg r r')
    (hok : ∀ r', Rounds cfg r r' → r'.aborted = false → ok r'.focus) : Reached cfg ok w r' := by
  induction hr with
  | refl => exact h
  | tail hbefore hstep ih =>
    exact .step (e := .round) ih hstep.1 (fun _ => hok _ hbefore hstep.1) hstep.2

/-- Where standalone actions complete at once and no subblock is nested in itself, every
action of every frame is interpreted once and in order, `executePM` returns, and a frame
with no action left is popped when its callback returns. -/
theorem ApiEnv.actions_once (env : ApiEnv K) {w : Focus K} (hw : w.Pending) {r : PMRun K}
    (hr : PMRun.Reached env.config env.StandaloneAtOnce w r) :
    r.InOrder w ∧
    (r.aborted = false → r.Tracked w) ∧
    (∀ a f, r.focus.top = some (a, f) → f.action.numActions ≤ f.currentAction →
      (r.focus.checkAndSetPMCallbackCompleted f.callback).map Focus.stack =
        some r.focus.stack.tail) ∧
    (WellFounded (Within env.subblocks) → r.aborted = false →
      (∀ r', PMRun.Rounds env.config r r' → r'.aborted = false → env.StandaloneAtOnce r'.focus) →
      ∃ r' fuel, PMRun.Rounds env.config r r' ∧
        PMRun.Reached env.config env.StandaloneAtOnce w r' ∧
        (r'.aborted = false → r'.focus.Waits) ∧
        ∀ n, fuel < n → r.focus.executePM env.config n = some (r'.focus, r'.aborted)) := by
  have hgood := hr.good env.config_lawful hw fun _ h => h.completes
  refine ⟨hgood.inOrder, hgood.tracked, ?_, ?_⟩
  · intro a f ht hdone
    unfold Focus.checkAndSetPMCallbackCompleted
    rw [ht]
    simp only [if_true, if_pos hdone, Option.map_some]
    rfl
  · intro hnest ha hok
    have hweight (call : APICall) (body : List APICall) (hb : env.Pushes call body) :
        (body.map (Within.weight hnest)).sum + 2 ≤ Within.weight hnest call :=
      Within.weight_part hnest (mem_subblocks.mpr hb)
    have hpos (call : APICall) : 0 < Within.weight hnest call := by
      rw [Within.weight_eq]
      omega
    obtain ⟨r', fuel, hrounds, hwaits, hreturns⟩ := hgood.executePM_returns env.config_lawful hpos
      hweight ha fun r' hr' ha' => (hok r' hr' ha').completes
    exact ⟨r', fuel, hrounds, hr.rounds hrounds hok, hwaits, hreturns⟩

/-- A specification whose callbacks call functions of the module, and whose reference
counts are kept for one object. -/
def callingEnv : ApiEnv Unit where
  getSubblock := fun _ => none
  eval := fun _ _ _ _ _ => some (.constant 64 0)
  checkCondition := fun _ _ _ _ _ => some true
  getFunction := some
  getFunctionFromAddress := fun _ => none
  isInternal := fun _ => true
  pushFrame := fun _ f k => (f, k)
  initArgsAsSymbolic := fun _ _ => false
  terminateStateOnError := fun f k => (f, k)
  perform := fun _ _ _ _ _ => some fun f k => (f, k)

def decrement : APICall where
  desc := "refcount,op,expr,value,onzerocb"
  param := ["put", "dec", "arg0", "1", "none"]

def release : APICall where
  desc := "callback"
  param := ["put", "release"]

/-- A state whose reference count is two, with one pending action. -/
def twoReferences (a : APIAction) : Focus Unit where
  heap := { frames := [{ action := a, target := 0, args := [] }] }
  state := { id := 0, klee := (), pmstack := [0], refCountModel := fun _ => some 2 }

/-- A decrement, a callback and a decrement. -/
def putBlock : APIAction := .block [decrement, release, decrement]

def PMEvent.isRound : PMEvent K → Bool
  | .round => true
  | _ => false

/-- The state after some events, with `ok` before each round. -/
def PMRun.play (cfg : PMConfig K) (ok : Focus K → Bool) (r : PMRun K) :
    List (PMEvent K) → Option (PMRun K)
  | [] => some r
  | e :: es =>
    if r.aborted || (e.isRound && !ok r.focus) then none
    else (r.step cfg e).bind fun r => r.play cfg ok es

theorem PMRun.Reached.play {cfg : PMConfig K} {ok : Focus K → Bool} {w : Focus K}
    {es : List (PMEvent K)} {r r' : PMRun K} (h : Reached cfg (fun v => ok v = true) w r)
    (hs : r.play cfg ok es = some r') : Reached cfg (fun v => ok v = true) w r' := by
  induction es generalizing r with
  | nil =>
    cases hs
    exact h
  | cons e es ih =>
    unfold PMRun.play at hs
    split at hs
    · cases hs
    · rename_i hgo
      obtain ⟨r₁, hr₁, hs⟩ := Option.bind_eq_some_iff.mp hs
      simp only [Bool.or_eq_true, Bool.and_eq_true, Bool.not_eq_true', not_or] at hgo
      refine ih (.step h (by simpa using hgo.1) (fun he => ?_) hr₁) hs
      subst he
      simpa [PMEvent.isRound] using hgo.2

theorem PMRun.Reached.mono {cfg : PMConfig K} {ok ok' : Focus K → Prop} {w : Focus K}
    {r : PMRun K} (hok : ∀ v, ok v → ok' v) (h : Reached cfg ok w r) : Reached cfg ok' w r := by
  induction h with
  | start => exact .start
  | step _ ha hround hs ih => exact .step ih ha (fun he => hok _ (hround he)) hs

theorem twoReferences_pending (a : APIAction) : (twoReferences a).Pending := by
  refine ⟨List.nodup_singleton 0, fun b hb => ?_⟩
  obtain rfl : b = 0 := List.mem_singleton.mp hb
  exact ⟨_, rfl, Nat.zero_le _, fun _ _ => ⟨rfl, rfl⟩⟩

/-- The top is the block, if there is one. -/
def Focus.isBlock (w : Focus K) : Bool := w.top.all fun p => p.2.action == putBlock

theorem Focus.isBlock_atOnce {env : ApiEnv K} {w : Focus K} (h : w.isBlock = true) :
    env.StandaloneAtOnce w := by
  intro a f call ht _ hact
  unfold isBlock at h
  rw [ht] at h
  simp [hact, putBlock] at h

/-- The block of two decrements around a callback, once the callback has returned. -/
theorem putBlock_interpreted :
    ∃ r, r.positions 0 = [0, 1, 2] ∧ r.InOrder (twoReferences putBlock) ∧
      r.Tracked (twoReferences putBlock) ∧ r.focus.stack = [] ∧
      ∃ r' fuel, PMRun.Rounds callingEnv.config r r' ∧
        ∀ n, fuel < n → r.focus.executePM callingEnv.config n = some (r'.focus, r'.aborted) := by
  have hrun : (({ focus := twoReferences putBlock } : PMRun Unit).play callingEnv.config
      Focus.isBlock [.round, .round, .returned "release", .round]).map
      (fun r => (r.positions 0, r.focus.stack, r.aborted)) = some ([0, 1, 2], [], false) := by
    decide +kernel
  obtain ⟨r, hr, hfinal⟩ := Option.map_eq_some_iff.mp hrun
  obtain ⟨hpos, hstack, ha⟩ : r.positions 0 = [0, 1, 2] ∧ r.focus.stack = [] ∧ r.aborted = false :=
    by simpa using hfinal
  have hreached := (PMRun.Reached.play .start hr).mono fun v hv =>
    show callingEnv.StandaloneAtOnce v from Focus.isBlock_atOnce hv
  have hnest : WellFounded (Within callingEnv.subblocks) :=
    ⟨fun _ => ⟨_, fun _ h => by obtain ⟨_, hl, _⟩ := h; cases hl⟩⟩
  have htop : r.focus.top = none := by
    unfold Focus.top
    rw [show r.focus.state.pmstack = [] from hstack]
    rfl
  have hstay (r' : PMRun Unit) (h : PMRun.Rounds callingEnv.config r r') : r' = r := by
    induction h with
    | refl => rfl
    | tail _ hstep ih =>
      subst ih
      have := hstep.2
      unfold PMRun.round at this
      rw [htop] at this
      exact (Option.some_inj.mp this).symm
  obtain ⟨horder, htracked, -, hreturns⟩ :=
    callingEnv.actions_once (twoReferences_pending putBlock) hreached
  obtain ⟨r', fuel, hrounds, -, -, hexec⟩ := hreturns hnest ha fun r' hr' _ => by
    rw [hstay r' hr']
    intro a f call ht
    cases htop.symm.trans ht
  exact ⟨r, hpos, horder, htracked ha, hstack, r', fuel, hrounds, hexec⟩

/-- Standalone, a decrement that leaves a count other than zero does not complete, and the
same call of `executePM` interprets it again. -/
theorem standalone_decrement_repeated :
    (twoReferences (.single decrement)).Pending ∧
      ∃ r, PMRun.Reached callingEnv.config (fun _ => True) (twoReferences (.single decrement)) r ∧
        r.positions 0 = [0, 0] ∧ ¬r.InOrder (twoReferences (.single decrement)) ∧
        ((twoReferences (.single decrement)).executePM callingEnv.config 3).map
          (fun v => v.1.state.refCountModel (.constant 64 0)) = some (some 0) := by
  have hrun : (({ focus := twoReferences (.single decrement) } : PMRun Unit).play
      callingEnv.config (fun _ => true) [.round, .round]).map
      (fun r => r.positions 0) = some [0, 0] := by decide +kernel
  obtain ⟨r, hr, hpos⟩ := Option.map_eq_some_iff.mp hrun
  have hreached := (PMRun.Reached.play .start hr).mono fun v _ => trivial
  refine ⟨twoReferences_pending _, r, hreached, hpos, fun h => ?_, by decide +kernel⟩
  have hact : r.focus.actions[0]? = some (.single decrement) :=
    List.prefix_iff_getElem?.mp h.actions 0 Nat.zero_lt_one
  have horder := (h.order 0 _ hact (.inl List.mem_cons_self)).1
  rw [hpos] at horder
  cases horder

end Encider
