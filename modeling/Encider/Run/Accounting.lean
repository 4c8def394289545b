import Encider.Run.Step

namespace Encider

/-- No two live states share a node, and the usage of a state's node is what its own
path has cost. -/
structure Accounted (r : RunState) : Prop where
  distinct : (r.states.map RunningState.rdid).Nodup
  paid : ∀ s ∈ r.states, (r.node s.rdid).ru.toNat = s.cost

/-- The states left on the node of the state that was stepped. -/
def RunStep.heirs (st : RunStep) (o : RunOptions) (s : RunningState) : List InPlay :=
  if st.Registers o (st.play s) then
    (st.play s).filter fun p => p.alive && p.registered.isNone
  else (st.play s).filter InPlay.alive

/-- The step leaves one state at most without a node of its own, it charges what was
executed, and the usage fits into its word. -/
structure ChargesOnePath (o : RunOptions) (r : RunState) (st : RunStep) : Prop where
  heirs : ∀ s, (st.heirs o s).length ≤ 1
  executed : ∃ e, st.executed = some e ∧ getTimingCost o e = getTimingCost o st.ii
  room : ∀ s, r.states[st.index]? = some s → s.cost + (getTimingCost o st.ii).toNat < 2 ^ 32

/-- What the accounting needs besides: the nodes of the states exist. -/
structure Booked (r : RunState) : Prop extends Accounted r where
  known : ∀ s ∈ r.states, s.rdid < r.rdid

/-- What happens to the states in play keeps them copies of one state. -/
theorem StepEvent.apply_state {s : RunningState} {play : List InPlay}
    (h : ∀ p ∈ play, p.state = s) (e : StepEvent) : ∀ p ∈ e.apply play, p.state = s := by
  intro p hp
  cases e with
  | fork i =>
    simp only [StepEvent.apply] at hp
    split at hp
    · rename_i q hq
      rcases List.mem_append.mp hp with hp | hp
      · exact h p hp
      · rw [List.mem_singleton] at hp
        rw [hp]
        exact h q (List.mem_of_getElem? hq)
    · exact h p hp
  | terminate i =>
    obtain ⟨q, hq, rfl | rfl⟩ := List.of_mem_modify hp
    · exact h _ hq
    · exact h q hq
  | registerSuccessor i b =>
    obtain ⟨q, hq, rfl | rfl⟩ := List.of_mem_modify hp
    · exact h _ hq
    · exact h q hq

theorem play_state (st : RunStep) (s : RunningState) : ∀ p ∈ st.play s, p.state = s := by
  unfold RunStep.play
  have hone : ∀ p ∈ [({ state := s, alive := !st.ends } : InPlay)], p.state = s := by simp
  generalize [({ state := s, alive := !st.ends } : InPlay)] = play at hone
  induction st.events generalizing play with
  | nil => exact hone
  | cons e es ih => exact ih _ (e.apply_state hone)

namespace RunState

variable {r : RunState} {rdd : Nat}

/-- New nodes, and what is written to the node `rdd`, leave the usages as they are. -/
structure KeepsUsage (r r' : RunState) : Prop where
  grows : r.rdid ≤ r'.rdid
  ru : ∀ x < r.rdid, (r'.node x).ru = (r.node x).ru

theorem KeepsUsage.trans {r' r'' : RunState} (h : r.KeepsUsage r') (h' : r'.KeepsUsage r'') :
    r.KeepsUsage r'' :=
  ⟨h.grows.trans h'.grows, fun x hx => (h'.ru x (Nat.lt_of_lt_of_le hx h.grows)).trans (h.ru x hx)⟩

theorem newSucc_keepsUsage (r : RunState) (rdd place : Nat) (rd : RD) :
    r.KeepsUsage (r.newSucc rdd place rd) := by
  refine ⟨Nat.le_succ _, ?_⟩
  intro x hx
  simp only [newSucc]
  rw [Function.update_of_ne (Nat.ne_of_lt hx)]

theorem successorNode_ru (current : RD) (rdd : Nat) (b : BranchOutcome) :
    (successorNode current rdd b).ru = current.ru := by
  unfold successorNode
  dsimp only
  split
  · split <;> rfl
  · split <;> rfl

theorem addSuccessor_keepsUsage (r : RunState) (rdd : Nat) (b : BranchOutcome) :
    r.KeepsUsage (r.addSuccessor rdd b) := by
  unfold addSuccessor
  dsimp only
  refine KeepsUsage.trans ?_ (newSucc_keepsUsage _ rdd b.place _)
  split
  · refine ⟨Nat.le_refl _, ?_⟩
    intro x _
    by_cases hx : x = rdd
    · subst hx
      simp
    · simp [Function.update_of_ne hx]
  · exact ⟨Nat.le_refl _, fun _ _ => rfl⟩

theorem addSuccessor_rdid (r : RunState) (rdd : Nat) (b : BranchOutcome) :
    (r.addSuccessor rdd b).rdid = r.rdid + 1 := by
  unfold addSuccessor BranchOutcome.secret
  dsimp only
  split <;> rfl

/-- The new node starts with the usage of the branch. -/
theorem addSuccessor_ru (r : RunState) (rdd : Nat) (b : BranchOutcome) :
    ((r.addSuccessor rdd b).node r.rdid).ru = (r.node rdd).ru := by
  unfold addSuccessor newSucc
  dsimp only
  split
  all_goals
    simp only [Function.update_self]
    exact successorNode_ru _ _ _

/-- The states that the loop over `successorsPaths` leaves: each has a new node with the
usage of the branch, but for those that are not registered. -/
structure Placed (r : RunState) (rdd : Nat) (s : RunningState) (ps : List InPlay)
    (out : RunState × List RunningState) : Prop where
  keeps : r.KeepsUsage out.1
  cost : ∀ t ∈ out.2, t.cost = s.cost
  node : ∀ t ∈ out.2, t.rdid = rdd ∨
    r.rdid ≤ t.rdid ∧ t.rdid < out.1.rdid ∧ (out.1.node t.rdid).ru = (r.node rdd).ru
  stays : (ps.filter fun p => p.alive && p.registered.isNone).length = 0 →
    ∀ t ∈ out.2, t.rdid ≠ rdd
  distinct : (ps.filter fun p => p.alive && p.registered.isNone).length ≤ 1 →
    (out.2.map RunningState.rdid).Nodup

theorem registerAll_placed {s : RunningState} (hs : s.rdid = rdd) (hrdd : rdd < r.rdid)
    {ps : List InPlay} (hps : ∀ p ∈ ps, p.state = s) :
    r.Placed rdd s ps (r.registerAll rdd ps) := by
  induction ps generalizing r with
  | nil =>
    refine ⟨⟨Nat.le_refl _, fun _ _ => rfl⟩, ?_, ?_, ?_, ?_⟩ <;> simp [registerAll]
  | cons p ps ih =>
    have hp : p.state = s := hps p List.mem_cons_self
    have hrest : ∀ q ∈ ps, q.state = s := fun q hq => hps q (List.mem_cons_of_mem p hq)
    cases hreg : p.registered with
    | some b =>
      have hid := addSuccessor_rdid r rdd b
      have hold := addSuccessor_keepsUsage r rdd b
      obtain ⟨hkeeps, hcost, hnode, hstays, hdistinct⟩ :=
        ih (r := r.addSuccessor rdd b) (by omega) hrest
      have hnew : ∀ t ∈ (registerAll rdd ps (r.addSuccessor rdd b)).2, t.rdid = rdd ∨
          r.rdid < t.rdid ∧ t.rdid < (registerAll rdd ps (r.addSuccessor rdd b)).1.rdid ∧
          ((registerAll rdd ps (r.addSuccessor rdd b)).1.node t.rdid).ru = (r.node rdd).ru := by
        intro t ht
        rcases hnode t ht with h | ⟨hlow, hhigh, hru⟩
        · exact .inl h
        · exact .inr ⟨by omega, hhigh, hru.trans (hold.ru rdd hrdd)⟩
      have hhere : r.rdid < (registerAll rdd ps (r.addSuccessor rdd b)).1.rdid := by
        have := hkeeps.grows
        omega
      have hru : ((registerAll rdd ps (r.addSuccessor rdd b)).1.node r.rdid).ru =
          (r.node rdd).ru := by
        rw [hkeeps.ru r.rdid (by omega)]
        exact addSuccessor_ru r rdd b
      simp only [registerAll, hreg]
      cases halive : p.alive with
      | true =>
        refine ⟨hold.trans hkeeps, ?_, ?_, ?_, ?_⟩
        · intro t ht
          rcases List.mem_cons.mp ht with ht | ht
          · rw [ht, hp]
          · exact hcost t ht
        · intro t ht
          rcases List.mem_cons.mp ht with ht | ht
          · rw [ht]
            exact .inr ⟨Nat.le_refl _, hhere, hru⟩
          · rcases hnew t ht with h | ⟨hlow, hrest⟩
            · exact .inl h
            · exact .inr ⟨Nat.le_of_lt hlow, hrest⟩
        · intro hnone t ht
          rcases List.mem_cons.mp ht with ht | ht
          · rw [ht]
            exact Nat.ne_of_gt hrdd
          · exact hstays (by simpa [hreg] using hnone) t ht
        · intro hone
          simp only [if_true, List.map_cons, List.nodup_cons]
          refine ⟨?_, hdistinct (by simpa [hreg] using hone)⟩
          intro hmem
          obtain ⟨t, ht, heq⟩ := List.mem_map.mp hmem
          rcases hnew t ht with h | ⟨hlow, _⟩
          · omega
          · omega
      | false =>
        refine ⟨hold.trans hkeeps, hcost, ?_, ?_, ?_⟩
        · intro t ht
          rcases hnew t ht with h | ⟨hlow, hrest⟩
          · exact .inl h
          · exact .inr ⟨Nat.le_of_lt hlow, hrest⟩
        · intro hnone
          exact hstays (by simpa [hreg] using hnone)
        · intro hone
          exact hdistinct (by simpa [hreg] using hone)
    | none =>
      obtain ⟨hkeeps, hcost, hnode, hstays, hdistinct⟩ := ih hrdd hrest
      simp only [registerAll, hreg]
      cases halive : p.alive with
      | true =>
        refine ⟨hkeeps, ?_, ?_, ?_, ?_⟩
        · intro t ht
          rcases List.mem_cons.mp ht with ht | ht
          · rw [ht, hp]
          · exact hcost t ht
        · intro t ht
          rcases List.mem_cons.mp ht with ht | ht
          · rw [ht, hp]
            exact .inl hs
          · exact hnode t ht
        · intro hnone
          simp [halive, hreg] at hnone
        · intro hone
          have hnone : (ps.filter fun q => q.alive && q.registered.isNone).length = 0 := by
            simp only [List.filter_cons, halive, hreg, Option.isNone_none, Bool.and_self,
              if_true, List.length_cons] at hone
            omega
          simp only [if_true, List.map_cons, List.nodup_cons]
          refine ⟨?_, hdistinct (by omega)⟩
          intro hmem
          obtain ⟨t, ht, heq⟩ := List.mem_map.mp hmem
          exact hstays hnone t ht (by rw [heq, hp, hs])
      | false =>
        refine ⟨hkeeps, hcost, hnode, ?_, ?_⟩
        · intro hnone
          exact hstays (by simpa [halive] using hnone)
        · intro hone
          exact hdistinct (by simpa [halive] using hone)

theorem observed_keepsUsage (r : RunState) (s : RunningState) (place : Nat) :
    r.KeepsUsage (r.observed s place) := by
  have h := newSucc_keepsUsage r s.rdid place { r.node s.rdid with pathterminated := true }
  exact ⟨h.grows, h.ru⟩

theorem reset_keepsUsage (r : RunState) (s : RunningState) (place : Nat) :
    r.KeepsUsage (r.reset s place) := by
  have h := newSucc_keepsUsage r s.rdid place {}
  exact ⟨h.grows, h.ru⟩

/-- The state is on a node of its own, whose usage is what its path has cost. -/
structure Seated (r : RunState) (s : RunningState) (r' : RunState) (s' : RunningState) : Prop where
  keeps : r.KeepsUsage r'
  states : r'.states = r.states
  node : s'.rdid = s.rdid ∨ r.rdid ≤ s'.rdid
  known : s'.rdid < r'.rdid
  cost : s'.cost ≤ s.cost
  paid : (r'.node s'.rdid).ru.toNat = s'.cost

theorem handleTimingObservationPoint_seated {r₀ : RunState} {s₀ s : RunningState}
    (h : Seated r₀ s₀ r s) (ob : Observation) :
    Seated r₀ s₀ (r.handleTimingObservationPoint s ob).1 (r.handleTimingObservationPoint s ob).2 := by
  have hobserved := observed_keepsUsage r s ob.place
  have hgrows := h.keeps.grows
  unfold handleTimingObservationPoint
  dsimp only
  split
  · refine ⟨(h.keeps.trans hobserved).trans (reset_keepsUsage _ _ _), h.states, .inr ?_, ?_, ?_, ?_⟩
    · show r₀.rdid ≤ r.rdid + 1
      omega
    · exact Nat.lt_succ_self _
    · exact Nat.zero_le _
    · simp [reset, newSucc]
  · refine ⟨h.keeps.trans hobserved, h.states, h.node, ?_, h.cost, ?_⟩
    · exact Nat.lt_succ_of_lt h.known
    · rw [hobserved.ru _ h.known]
      exact h.paid

theorem observe_seated {s : RunningState} (hs : s.rdid < r.rdid)
    (hpaid : (r.node s.rdid).ru.toNat = s.cost) (st : RunStep) :
    Seated r s (st.observe r s).1 (st.observe r s).2 := by
  unfold RunStep.observe
  have hseated : Seated r s (r, s).1 (r, s).2 :=
    ⟨⟨Nat.le_refl _, fun _ _ => rfl⟩, rfl, .inl rfl, hs, Nat.le_refl _, hpaid⟩
  generalize (r, s) = x at hseated ⊢
  induction st.observations generalizing x with
  | nil => exact hseated
  | cons ob obs ih => exact ih _ (handleTimingObservationPoint_seated hseated ob)

theorem charge_ru (o : RunOptions) (st : RunStep) (rdd : Nat) :
    ((r.charge o st rdd).node rdd).ru = (r.node rdd).ru + getTimingCost o st.ii := by
  simp [charge]

theorem charge_ru_of_ne (o : RunOptions) (st : RunStep) {x : Nat} (h : x ≠ rdd) :
    ((r.charge o st rdd).node x).ru = (r.node x).ru := by
  simp [charge, Function.update_of_ne h]

/-- The states that are left of a step, whether they get nodes or not. -/
theorem branch_placed {o : RunOptions} {st : RunStep} {s : RunningState} (hs : s.rdid = rdd)
    (hrdd : rdd < r.rdid) (hheirs : (st.heirs o s).length ≤ 1) :
    let out := st.branch o rdd (st.play s) r
    r.KeepsUsage out.1 ∧ (out.2.map RunningState.rdid).Nodup ∧
    (∀ t ∈ out.2, t.cost = s.cost) ∧ ∀ t ∈ out.2, t.rdid = rdd ∨
      r.rdid ≤ t.rdid ∧ t.rdid < out.1.rdid ∧ (out.1.node t.rdid).ru = (r.node rdd).ru := by
  have hplay := play_state st s
  unfold RunStep.heirs at hheirs
  unfold RunStep.branch
  split at hheirs
  · rename_i hregisters
    rw [if_pos hregisters]
    have h := registerAll_placed hs hrdd hplay
    exact ⟨h.keeps, h.distinct hheirs, h.cost, h.node⟩
  · rename_i hregisters
    rw [if_neg hregisters]
    have hall : ∀ t ∈ ((st.play s).filter InPlay.alive).map InPlay.state, t = s := by
      intro t ht
      obtain ⟨p, hp, rfl⟩ := List.mem_map.mp ht
      exact hplay p (List.mem_of_mem_filter hp)
    refine ⟨⟨Nat.le_refl _, fun _ _ => rfl⟩, ?_, ?_, ?_⟩
    · match hfilter : (st.play s).filter InPlay.alive, hheirs with
      | [], _ => simp
      | [p], _ => simp
    · intro t ht
      rw [hall t ht]
    · intro t ht
      rw [hall t ht]
      exact .inl hs

theorem eraseIdx_apart {s : RunningState} {i : Nat} (h : r.states[i]? = some s)
    (hdistinct : (r.states.map RunningState.rdid).Nodup) :
    ((r.states.eraseIdx i).map RunningState.rdid).Nodup ∧
      ∀ t ∈ r.states.eraseIdx i, t ∈ r.states ∧ t.rdid ≠ s.rdid := by
  obtain ⟨hlt, hget⟩ := List.getElem?_eq_some_iff.mp h
  have hsplit : r.states = r.states.take i ++ s :: r.states.drop (i + 1) := by
    rw [← hget, List.getElem_cons_drop, List.take_append_drop]
  rw [List.eraseIdx_eq_take_drop_succ]
  generalize r.states.take i = before at *
  generalize r.states.drop (i + 1) = behind at *
  rw [hsplit] at hdistinct ⊢
  simp only [List.map_append, List.map_cons] at hdistinct ⊢
  have hperm : (s.rdid :: (before.map RunningState.rdid ++ behind.map RunningState.rdid)).Nodup :=
    List.perm_middle.nodup_iff.mp hdistinct
  rw [List.nodup_cons] at hperm
  refine ⟨hperm.2, ?_⟩
  intro t ht
  refine ⟨?_, ?_⟩
  · rcases List.mem_append.mp ht with ht | ht
    · exact List.mem_append_left _ ht
    · exact List.mem_append_right _ (List.mem_cons_of_mem s ht)
  · intro heq
    apply hperm.1
    rw [← heq, ← List.map_append]
    exact List.mem_map_of_mem ht

/-- A step that charges one path keeps the accounts. -/
theorem step_booked {o : RunOptions} {r' : RunState} {st : RunStep} (h : Booked r)
    (hcharges : ChargesOnePath o r st) (hstep : r.step o st = some r') : Booked r' := by
  unfold step at hstep
  obtain ⟨s, hs, rfl⟩ := Option.map_eq_some_iff.mp hstep
  have hmem : s ∈ r.states := List.mem_of_getElem? hs
  have hseat := observe_seated (h.known s hmem) (h.paid s hmem) st
  obtain ⟨hnodup, hothers⟩ := eraseIdx_apart hs h.distinct
  obtain ⟨e, hexecuted, hcost⟩ := hcharges.executed
  have hroom := hcharges.room s hs
  generalize hseen : st.observe r s = seen at hseat ⊢
  obtain ⟨r1, s1⟩ := seen
  dsimp only at hseat ⊢
  have hgrows := hseat.keeps.grows
  have hpassed : (s1.pass o st.executed).cost = s1.cost + (getTimingCost o st.ii).toNat := by
    rw [hexecuted, ← hcost]
    rfl
  have hcharged : ((r1.charge o st s1.rdid).node s1.rdid).ru.toNat =
      s1.cost + (getTimingCost o st.ii).toNat := by
    have hpaid := hseat.paid
    have hless := hseat.cost
    rw [charge_ru, BitVec.toNat_add, hpaid]
    exact Nat.mod_eq_of_lt (by omega)
  generalize hr2 : (if st.ends then _ else r1.charge o st s1.rdid) = r2
  have hnode : r2.node = (r1.charge o st s1.rdid).node := by
    rw [← hr2]
    split <;> rfl
  have hrdid : r2.rdid = r1.rdid := by
    rw [← hr2]
    split <;> rfl
  have hsame : (s1.pass o st.executed).rdid = s1.rdid := by
    rw [hexecuted]
    rfl
  obtain ⟨hkeeps, hdistinct, hleft, hplaced⟩ := branch_placed hsame
    (r := r2) (by rw [hrdid]; exact hseat.known) (hcharges.heirs (s1.pass o st.executed))
  generalize st.branch o s1.rdid (st.play (s1.pass o st.executed)) r2 = left at *
  have hfinal := hkeeps.grows
  have hapart : ∀ t ∈ r.states.eraseIdx st.index, t.rdid ≠ s1.rdid := by
    intro t ht heq
    obtain ⟨htmem, hne⟩ := hothers t ht
    have htknown := h.known t htmem
    rcases hseat.node with hsame' | hfresh <;> omega
  refine ⟨⟨?_, ?_⟩, ?_⟩
  · show ((r.states.eraseIdx st.index ++ left.2).map RunningState.rdid).Nodup
    rw [List.map_append, List.nodup_append]
    refine ⟨hnodup, hdistinct, ?_⟩
    intro a ha b hb heq
    obtain ⟨t, ht, rfl⟩ := List.mem_map.mp ha
    obtain ⟨u, hu, rfl⟩ := List.mem_map.mp hb
    have htknown := h.known t (hothers t ht).1
    have htne := hapart t ht
    rcases hplaced u hu with hu' | ⟨hlow, _⟩ <;> omega
  · intro t ht
    rcases List.mem_append.mp ht with ht | ht
    · obtain ⟨htmem, _⟩ := hothers t ht
      have htknown := h.known t htmem
      show (left.1.node t.rdid).ru.toNat = t.cost
      rw [hkeeps.ru _ (by omega), hnode, charge_ru_of_ne o st (hapart t ht),
        hseat.keeps.ru _ htknown]
      exact h.paid t htmem
    · show (left.1.node t.rdid).ru.toNat = t.cost
      rw [hleft t ht, hpassed, ← hcharged]
      rcases hplaced t ht with heq | ⟨_, _, hru⟩
      · rw [heq, hkeeps.ru _ (by rw [hrdid]; exact hseat.known), hnode]
      · rw [hru, hnode]
  · intro t ht
    show t.rdid < left.1.rdid
    have hknown := hseat.known
    rcases List.mem_append.mp ht with ht | ht
    · have htknown := h.known t (hothers t ht).1
      omega
    · rcases hplaced t ht with heq | ⟨_, hhigh, _⟩
      · omega
      · exact hhigh

theorem initial_booked : Booked .initial := by
  refine ⟨⟨?_, ?_⟩, ?_⟩
  · simp [initial]
  · simp [initial]
  · simp [initial]

theorem run_booked {o : RunOptions} (h : RunTo o (ChargesOnePath o) r) : Booked r := by
  induction h with
  | start => exact initial_booked
  | step _ hP hs ih => exact step_booked ih hP hs

/-- One instruction that costs one unit, at a secret branch with two registered successors. -/
def secretBranch : RunStep where
  index := 0
  ii := { opcode := .br, block := 0 }
  executed := some { opcode := .br, block := 0 }
  events := [.fork 0, .registerSuccessor 0 ⟨true, false, Constraint.tt, true, 0⟩,
    .registerSuccessor 1 ⟨true, false, Constraint.tt, true, 1⟩]

/-- A load whose address resolves to two objects. -/
def resolvedLoad : RunStep where
  index := 0
  ii := { opcode := .other, block := 0 }
  executed := some { opcode := .other, block := 0 }
  events := [.fork 0]

def unitTiming : RunOptions where
  getTimingModel _ := 1

end RunState

end Encider
