import Encider.Lib.Fold
import Encider.State.Operations

namespace Encider

variable {K : Type} {cfg : PMConfig K}

/-- The cells of life-cycle states that a state owns. -/
def ExecutionState.lcmCells (cfg : PMConfig K) (s : ExecutionState K) : List Nat :=
  if cfg.hasLCM then s.lcmState.toList else []

/-- From `w` to `w'` only cells of the state itself and fresh ones have been used. -/
structure Focus.Local (cfg : PMConfig K) (w w' : Focus K) : Prop where
  frames : Own.Step w.state.pmstack w.heap.frames w'.state.pmstack w'.heap.frames
  lcms : Own.Step (w.state.lcmCells cfg) w.heap.lcms (w'.state.lcmCells cfg) w'.heap.lcms

/-- Besides, no pending action has been dropped. -/
structure Focus.Stays (cfg : PMConfig K) (w w' : Focus K) : Prop extends w.Local cfg w' where
  kept : w.state.pmstack ⊆ w'.state.pmstack

namespace Focus

variable {w w' w'' : Focus K}

theorem Local.refl (w : Focus K) : w.Local cfg w := ⟨.refl _ _, .refl _ _⟩

theorem Local.trans (h : w.Local cfg w') (h' : w'.Local cfg w'') : w.Local cfg w'' :=
  ⟨h.frames.trans h'.frames, h.lcms.trans h'.lcms⟩

theorem Stays.refl (w : Focus K) : w.Stays cfg w := ⟨.refl w, List.Subset.refl _⟩

theorem Stays.trans (h : w.Stays cfg w') (h' : w'.Stays cfg w'') : w.Stays cfg w'' :=
  ⟨h.toLocal.trans h'.toLocal, List.Subset.trans h.kept h'.kept⟩

theorem setFrame_stays {a : Nat} (ha : a ∈ w.state.pmstack) (f : PMFrame) :
    w.Stays cfg (w.setFrame a f) :=
  ⟨⟨.write ha f, .refl _ _⟩, List.Subset.refl _⟩

theorem pushPMFrame_stays (w : Focus K) (a : APIAction) (args : List Expr)
    (target : KInstruction) (tid : Int) : w.Stays cfg (w.pushPMFrame a args target tid) :=
  ⟨⟨.alloc _ _ _, .refl _ _⟩, List.subset_cons_self _ _⟩

theorem popPMFrame_local (w : Focus K) : w.Local cfg w.popPMFrame :=
  ⟨.drop _ fun _ ha => List.mem_of_mem_tail ha, .refl _ _⟩

theorem top_mem {a : Nat} {f : PMFrame} (h : w.top = some (a, f)) : a ∈ w.state.pmstack := by
  unfold top at h
  obtain ⟨b, hb, h⟩ := Option.bind_eq_some_iff.mp h
  obtain ⟨g, -, h⟩ := Option.map_eq_some_iff.mp h
  cases h
  exact List.mem_of_head? hb

theorem setPMCallback_stays {cbn : String} (h : w.setPMCallback cbn = some w') :
    w.Stays cfg w' := by
  unfold setPMCallback at h
  obtain ⟨⟨a, f⟩, ha, h⟩ := Option.bind_eq_some_iff.mp h
  dsimp only at h
  split at h
  · cases h
  · cases h
    exact setFrame_stays (top_mem ha) _

theorem setPMAction_stays {a cn : Nat} (ha : a ∈ w.state.pmstack)
    (h : w.setPMAction a cn = some w') : w.Stays cfg w' := by
  unfold setPMAction at h
  obtain ⟨f, -, h⟩ := Option.map_eq_some_iff.mp h
  cases h
  exact setFrame_stays ha _

theorem apply_stays {e : Effect K} (h : w.apply e = some w') : w.Stays cfg w' := by
  cases e with
  | pushPMFrame a args target tid =>
    cases h
    exact pushPMFrame_stays w a args target tid
  | setPMCallback cbn => exact setPMCallback_stays h
  | update f =>
    cases h
    exact ⟨⟨.refl _ _, .refl _ _⟩, List.Subset.refl _⟩

theorem executeCall_stays {call : APICall} {f : PMFrame} {d : Done K}
    (h : w.executeCall cfg call f = some d) : w.Stays cfg d.focus := by
  unfold executeCall at h
  obtain ⟨t, ht, h⟩ := Option.map_eq_some_iff.mp h
  cases h
  exact List.foldlM_rel Stays.refl Stays.trans (fun _ _ _ => apply_stays) ht

theorem executeBlock_stays {pmf : Nat} {f : PMFrame} {size : Nat} {body : List APICall} {i : Nat}
    {d : Done K} (hp : pmf ∈ w.state.pmstack)
    (h : executeBlock cfg pmf f size body i w = some d) : w.Stays cfg d.focus := by
  induction body generalizing i w with
  | nil =>
    obtain ⟨t, ht, h⟩ := Option.map_eq_some_iff.mp h
    cases h
    exact setPMAction_stays hp ht
  | cons call rest ih =>
    unfold executeBlock at h
    obtain ⟨c, hc, h⟩ := Option.bind_eq_some_iff.mp h
    have hcall := executeCall_stays hc
    have hp' := hcall.kept hp
    split at h
    · cases h
      exact hcall
    · split at h
      · obtain ⟨t, ht, h⟩ := Option.map_eq_some_iff.mp h
        cases h
        exact hcall.trans (setPMAction_stays hp' ht)
      · split at h
        · exact hcall.trans (ih hp' h)
        · obtain ⟨t, ht, h⟩ := Option.map_eq_some_iff.mp h
          cases h
          exact hcall.trans (setPMAction_stays hp' ht)

theorem executeFrame_stays {pmf : Nat} {f : PMFrame} {d : Done K} (hp : pmf ∈ w.state.pmstack)
    (h : w.executeFrame cfg pmf f = some d) : w.Stays cfg d.focus := by
  unfold executeFrame at h
  split at h
  · exact executeCall_stays h
  · exact executeBlock_stays hp h

theorem executePM_local {fuel : Nat} {abort : Bool} (h : w.executePM cfg fuel = some (w', abort)) :
    w.Local cfg w' := by
  induction fuel generalizing w with
  | zero => cases h
  | succ fuel ih =>
    unfold executePM at h
    split at h
    · cases h
      exact .refl _
    · obtain ⟨⟨a, f⟩, ha, h⟩ := Option.bind_eq_some_iff.mp h
      dsimp only at h
      split at h
      · cases h
        exact .refl _
      · obtain ⟨d, hd, h⟩ := Option.bind_eq_some_iff.mp h
        have hframe := (executeFrame_stays (top_mem ha) hd).toLocal
        split at h
        · cases h
          exact hframe
        · split at h
          · exact hframe.trans ((popPMFrame_local _).trans (ih h))
          · exact hframe.trans (ih h)

/-- The cells are those of before, and their owner. -/
structure SameCells (w w' : Focus K) : Prop where
  heap : w'.heap = w.heap
  pmstack : w'.state.pmstack = w.state.pmstack
  lcmState : w'.state.lcmState = w.state.lcmState

theorem initiateAsync_same {fn : String} (h : w.initiateAsync cfg fn = some w') :
    w.SameCells w' := by
  unfold initiateAsync at h
  split at h
  · cases h
    exact ⟨rfl, rfl, rfl⟩
  · cases h

theorem initiateAll_same {fns : List String} (h : fns.foldlM (initiateAsync cfg) w = some w') :
    w.SameCells w' := by
  refine List.foldlM_rel (fun _ => ⟨rfl, rfl, rfl⟩) ?_ (fun _ _ _ => initiateAsync_same) h
  intro s t u hs ht
  exact ⟨ht.heap.trans hs.heap, ht.pmstack.trans hs.pmstack, ht.lcmState.trans hs.lcmState⟩

theorem startStep_same {curr : Nat} {seq : LifeCycleStep}
    (h : w.startStep cfg curr seq = some w') : w.SameCells w' := by
  cases seq with
  | parallel comps =>
    rw [startStep] at h
    split at h
    · split at h
      · exact initiateAll_same h
      · cases h
    · exact initiateAll_same h
  | identifier name successretval =>
    rw [startStep] at h
    split at h
    · cases h
      exact ⟨rfl, rfl, rfl⟩
    · split at h
      · obtain ⟨r, -, h⟩ := Option.map_eq_some_iff.mp h
        cases h
        exact ⟨rfl, rfl, rfl⟩
      · cases h

theorem updateLCMState_local (h : w.updateLCMState cfg = some w') : w.Local cfg w' := by
  unfold updateLCMState at h
  split at h
  · cases h
    exact .refl w
  · rename_i lcm hlcm
    split at h
    · cases h
      exact .refl w
    · rename_i p hp
      obtain ⟨l, -, h⟩ := Option.bind_eq_some_iff.mp h
      split at h
      · cases h
        exact .refl w
      · obtain ⟨seq, -, h⟩ := Option.bind_eq_some_iff.mp h
        obtain ⟨t, ht, h⟩ := Option.map_eq_some_iff.mp h
        cases h
        have hs := startStep_same ht
        have hown : p ∈ w.state.lcmCells cfg := by
          rw [ExecutionState.lcmCells, PMConfig.hasLCM, hlcm, hp]
          simp
        constructor
        · simp only [hs.heap, hs.pmstack]
          exact .refl _ _
        · simp only [ExecutionState.lcmCells, hs.heap, hs.lcmState]
          exact .write hown _

end Focus

/-- Every operation on a state is local to it. -/
theorem PMOp.run_local {w w' : Focus K} {op : PMOp K} (h : op.run cfg w = some w') :
    w.Local cfg w' := by
  cases op with
  | executePM fuel =>
    obtain ⟨⟨t, abort⟩, ht, h⟩ := Option.map_eq_some_iff.mp h
    cases h
    exact Focus.executePM_local ht
  | setPMCallback cbn => exact (Focus.setPMCallback_stays h).toLocal
  | setPMAction cn =>
    obtain ⟨⟨a, f⟩, ha, h⟩ := Option.bind_eq_some_iff.mp h
    exact (Focus.setPMAction_stays (Focus.top_mem ha) h).toLocal
  | updateLCMState => exact Focus.updateLCMState_local h
  | pushPMFrame a args target tid =>
    cases h
    exact (Focus.pushPMFrame_stays w a args target tid).toLocal
  | popPMFrame =>
    cases h
    exact Focus.popPMFrame_local w
  | update f =>
    have h : w.apply (.update f) = some w' := h
    exact (Focus.apply_stays h).toLocal

end Encider
