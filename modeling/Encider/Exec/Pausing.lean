import Mathlib

/-! `updateStates` with the pausing of secret-independent states. States are addresses. -/

namespace Encider

/-- The searchers whose `update` is modelled. -/
inductive SearcherKind where
  | dfs | weightedRandom
deriving DecidableEq

/-- The removal of a state in `DFSSearcher::update`, with its assertion; an empty list
has no `back()`. -/
def dfsRemove (states : List Nat) (es : Nat) : Option (List Nat) :=
  if states.getLast? = some es then some states.dropLast
  else if es ∈ states then some (states.erase es)
  else none

/-- `DiscretePDF::insert`, with its assertion. The weights are left out. -/
def pdfInsert (states : List Nat) (es : Nat) : Option (List Nat) :=
  if es ∈ states then none else some (states ++ [es])

/-- `inTree` and `remove`. -/
def pdfRemove (states : List Nat) (es : Nat) : List Nat :=
  if es ∈ states then states.erase es else states

def SearcherKind.update (states addedStates removedStates : List Nat) :
    SearcherKind → Option (List Nat)
  | .dfs => removedStates.foldlM dfsRemove (states ++ addedStates)
  | .weightedRandom =>
    (addedStates.foldlM pdfInsert states).map fun l => removedStates.foldl pdfRemove l

/-- The states in the searcher and the lists of the executor. -/
structure StateLists where
  searcher : List Nat
  states : Finset Nat
  pausedStates : List Nat := []
  continuedStates : List Nat := []

/-- What a call of `updateStates` finds: the added and removed states, which states descend
from a secret branch, and the statistic. -/
structure UpdateCall where
  addedStates : List Nat
  removedStates : List Nat
  isSecretDescendant : Nat → Bool
  sensitiveDesc : BitVec 64

/-- The added states that do not descend from a secret branch. -/
def UpdateCall.independent (c : UpdateCall) : List Nat :=
  c.addedStates.filter fun s => !c.isSecretDescendant s

namespace StateLists

/-- The lists after the pausing, and the added states that are left. -/
def pause (σ : StateLists) (c : UpdateCall) : StateLists × List Nat :=
  if c.sensitiveDesc > 0 then
    let paused := σ.pausedStates ++ c.independent
    ({ σ with pausedStates := paused }, paused.foldl List.erase c.addedStates)
  else
    ({ σ with continuedStates := σ.continuedStates ++ σ.pausedStates, pausedStates := [] },
      c.addedStates)

def updateStates (σ : StateLists) (k : SearcherKind) (c : UpdateCall) : Option StateLists :=
  let paused := σ.pause c
  (k.update σ.searcher paused.2 c.removedStates).bind fun l =>
    (k.update l paused.1.continuedStates paused.1.pausedStates).map fun l =>
      { paused.1 with
        searcher := l
        states := (σ.states ∪ paused.2.toFinset) \ c.removedStates.toFinset }

/-- The states behind a call. -/
def alive (live : Finset Nat) (c : UpdateCall) : Finset Nat :=
  (live ∪ c.addedStates.toFinset) \ c.removedStates.toFinset

/-- Every live state is scheduled once or paused, and no others are. -/
structure InPlace (σ : StateLists) (live : Finset Nat) : Prop where
  each : ∀ s ∈ live, (σ.searcher.count s = 1 ∧ s ∈ σ.states ∧ s ∉ σ.pausedStates) ∨
    (s ∉ σ.searcher ∧ s ∉ σ.states ∧ σ.pausedStates.count s = 1)
  only : ∀ s, s ∈ σ.searcher ∨ s ∈ σ.states ∨ s ∈ σ.pausedStates → s ∈ live

/-- What the executor may hand over: new states, and states of its own. -/
structure Handed (σ : StateLists) (live : Finset Nat) (c : UpdateCall) : Prop where
  distinct : c.addedStates.Nodup
  fresh : ∀ s ∈ c.addedStates, s ∉ live
  once : c.removedStates.Nodup
  own : ∀ s ∈ c.removedStates, s ∈ σ.states

/-- The runs from one state on whose calls all meet a condition. -/
inductive PauseRun (k : SearcherKind) (P : StateLists → UpdateCall → Prop) :
    StateLists → Finset Nat → Prop
  | start (s : Nat) : PauseRun k P { searcher := [s], states := {s} } {s}
  | call {σ σ' : StateLists} {live : Finset Nat} {c : UpdateCall} (h : PauseRun k P σ live)
      (hc : σ.Handed live c) (hP : P σ c) (hs : σ.updateStates k c = some σ') :
      PauseRun k P σ' (alive live c)

/-- No state is paused under the depth-first searcher, and none goes on again. -/
structure LeavesPaused (k : SearcherKind) (σ : StateLists) (c : UpdateCall) : Prop where
  dfs : k = .dfs → c.sensitiveDesc > 0 → ∀ s ∈ c.addedStates, c.isSecretDescendant s = true
  stays : ¬ c.sensitiveDesc > 0 → σ.pausedStates = []

end StateLists

theorem dfsRemove_of_mem {l : List Nat} {es : Nat} (hn : l.Nodup) (h : es ∈ l) :
    dfsRemove l es = some (l.erase es) := by
  unfold dfsRemove
  split
  · rename_i hlast
    obtain ⟨init, rfl⟩ := List.getLast?_eq_some_iff.mp hlast
    have hout : es ∉ init := by
      intro hmem
      exact (List.nodup_append.mp hn).2.2 es hmem es (List.mem_singleton_self es) rfl
    rw [List.dropLast_concat, List.erase_append_right _ hout]
    simp
  · rfl

theorem dfsRemove_of_notMem {l : List Nat} {es : Nat} (h : es ∉ l) : dfsRemove l es = none := by
  unfold dfsRemove
  rw [if_neg (fun hlast => h (List.mem_of_getLast? hlast)), if_neg h]

theorem dfsRemove_all {l rs : List Nat} (hn : l.Nodup) (hrs : rs.Nodup) (hsub : ∀ s ∈ rs, s ∈ l) :
    rs.foldlM dfsRemove l = some (l.diff rs) := by
  induction rs generalizing l with
  | nil => rfl
  | cons r rs ih =>
    obtain ⟨hr, hrs⟩ := List.nodup_cons.mp hrs
    rw [List.foldlM_cons, dfsRemove_of_mem hn (hsub r List.mem_cons_self), List.diff_cons]
    refine ih (hn.erase r) hrs ?_
    intro s hs
    have hne : s ≠ r := fun heq => hr (heq ▸ hs)
    exact (hn.mem_erase_iff).mpr ⟨hne, hsub s (List.mem_cons_of_mem r hs)⟩

theorem pdfInsert_all {l added : List Nat} (hn : (l ++ added).Nodup) :
    added.foldlM pdfInsert l = some (l ++ added) := by
  induction added generalizing l with
  | nil => simp
  | cons a added ih =>
    have hout : a ∉ l := by
      intro hmem
      exact (List.nodup_append.mp hn).2.2 a hmem a List.mem_cons_self rfl
    have hsplit : l ++ a :: added = (l ++ [a]) ++ added := by simp
    rw [List.foldlM_cons]
    unfold pdfInsert
    rw [if_neg hout, hsplit]
    exact ih (hsplit ▸ hn)

theorem pdfRemove_all (l rs : List Nat) : rs.foldl pdfRemove l = l.diff rs := by
  induction rs generalizing l with
  | nil => rfl
  | cons r rs ih =>
    rw [List.foldl_cons, List.diff_cons, ih]
    congr 1
    unfold pdfRemove
    split
    · rfl
    · rename_i hout
      exact (List.erase_of_not_mem hout).symm

/-- A searcher takes in new states, and lets go of some that it has. -/
theorem SearcherKind.update_eq {l added removed : List Nat} (k : SearcherKind)
    (hn : (l ++ added).Nodup) (hremoved : removed.Nodup)
    (hsub : k = .dfs → ∀ s ∈ removed, s ∈ l ++ added) :
    k.update l added removed = some ((l ++ added).diff removed) := by
  cases k with
  | dfs => exact dfsRemove_all hn hremoved (hsub rfl)
  | weightedRandom =>
    show ((added.foldlM pdfInsert l).map fun l => removed.foldl pdfRemove l) = _
    rw [pdfInsert_all hn, Option.map_some, pdfRemove_all]

namespace StateLists

/-- The lists between two calls. -/
structure Settled (k : SearcherKind) (σ : StateLists) (live : Finset Nat) : Prop where
  scheduled : σ.searcher.Nodup
  states : ∀ s, s ∈ σ.states ↔ s ∈ σ.searcher
  paused : σ.pausedStates.Nodup
  apart : ∀ s ∈ σ.pausedStates, s ∉ σ.searcher
  live : ∀ s, s ∈ live ↔ s ∈ σ.searcher ∨ s ∈ σ.pausedStates
  goesOn : σ.continuedStates = []
  dfs : k = .dfs → σ.pausedStates = []

/-- What the pausing leaves of the added states. -/
structure Paused (k : SearcherKind) (σ : StateLists) (c : UpdateCall) (extra : List Nat) :
    Prop where
  searcher : (σ.pause c).1.searcher = σ.searcher
  paused : (σ.pause c).1.pausedStates = σ.pausedStates ++ extra
  goesOn : (σ.pause c).1.continuedStates = []
  added : ∀ s ∈ extra, s ∈ c.addedStates
  once : extra.Nodup
  left : (σ.pause c).2.Nodup
  mem_left : ∀ s, s ∈ (σ.pause c).2 ↔ s ∈ c.addedStates ∧ s ∉ extra
  dfs : k = .dfs → extra = []

variable {k : SearcherKind} {σ σ' : StateLists} {live : Finset Nat} {c : UpdateCall}

theorem pause_paused (h : Settled k σ live) (hc : σ.Handed live c) (hP : LeavesPaused k σ c) :
    ∃ extra, Paused k σ c extra := by
  by_cases hpos : c.sensitiveDesc > 0
  · refine ⟨c.independent, ?_⟩
    have hpause : σ.pause c = ({ σ with pausedStates := σ.pausedStates ++ c.independent },
        c.addedStates.diff (σ.pausedStates ++ c.independent)) := by
      unfold pause
      rw [if_pos hpos, List.diff_eq_foldl]
    refine ⟨?_, ?_, ?_, ?_, hc.distinct.filter _, ?_, ?_, ?_⟩
    · rw [hpause]
    · rw [hpause]
    · rw [hpause]
      exact h.goesOn
    · intro s hs
      exact List.mem_of_mem_filter hs
    · rw [hpause]
      exact hc.distinct.diff
    · intro s
      rw [hpause, hc.distinct.mem_sdiff_iff, List.mem_append, not_or]
      constructor
      · intro hs
        exact ⟨hs.1, hs.2.2⟩
      · intro hs
        refine ⟨hs.1, ?_, hs.2⟩
        intro hpaused
        exact hc.fresh s hs.1 ((h.live s).mpr (.inr hpaused))
    · intro hdfs
      apply List.filter_eq_nil_iff.mpr
      intro s hs
      simp [hP.dfs hdfs hpos s hs]
  · refine ⟨[], ?_⟩
    have hpause : σ.pause c = ({ σ with
        continuedStates := σ.continuedStates ++ σ.pausedStates, pausedStates := [] },
        c.addedStates) := by
      unfold pause
      rw [if_neg hpos]
    have hnone := hP.stays hpos
    refine ⟨?_, ?_, ?_, by simp, List.nodup_nil, ?_, ?_, fun _ => rfl⟩
    · rw [hpause]
    · rw [hpause, hnone]
      rfl
    · rw [hpause]
      simp [h.goesOn, hnone]
    · rw [hpause]
      exact hc.distinct
    · intro s
      rw [hpause]
      simp

/-- A call that leaves the paused states alone goes through. -/
theorem updateStates_settled (h : Settled k σ live) (hc : σ.Handed live c)
    (hP : LeavesPaused k σ c) :
    ∃ σ', σ.updateStates k c = some σ' ∧ Settled k σ' (alive live c) := by
  obtain ⟨extra, hp⟩ := pause_paused h hc hP
  have hfresh : ∀ s ∈ c.addedStates, s ∉ σ.searcher ∧ s ∉ σ.pausedStates := by
    intro s hs
    have hout := hc.fresh s hs
    rw [h.live, not_or] at hout
    exact hout
  have hleft : ∀ s ∈ (σ.pause c).2, s ∉ σ.searcher := fun s hs =>
    (hfresh s ((hp.mem_left s).mp hs).1).1
  have hnodup : (σ.searcher ++ (σ.pause c).2).Nodup := by
    rw [List.nodup_append]
    refine ⟨h.scheduled, hp.left, ?_⟩
    intro a ha b hb heq
    exact hleft b hb (heq ▸ ha)
  have hown : ∀ s ∈ c.removedStates, s ∈ σ.searcher := fun s hs => (h.states s).mp (hc.own s hs)
  have hfirst := k.update_eq hnodup hc.once fun _ s hs => List.mem_append_left _ (hown s hs)
  generalize hl : (σ.searcher ++ (σ.pause c).2).diff c.removedStates = l at hfirst
  have hlnodup : l.Nodup := by
    rw [← hl]
    exact hnodup.diff
  have hmem : ∀ s, s ∈ l ↔ (s ∈ σ.searcher ∨ s ∈ (σ.pause c).2) ∧ s ∉ c.removedStates := by
    intro s
    rw [← hl, hnodup.mem_sdiff_iff, List.mem_append]
  have hapart : ∀ s ∈ σ.pausedStates ++ extra, s ∉ l := by
    intro s hs hsl
    obtain ⟨hsl, _⟩ := (hmem s).mp hsl
    rcases List.mem_append.mp hs with hs | hs
    · rcases hsl with hsl | hsl
      · exact h.apart s hs hsl
      · exact (hfresh s ((hp.mem_left s).mp hsl).1).2 hs
    · rcases hsl with hsl | hsl
      · exact (hfresh s (hp.added s hs)).1 hsl
      · exact ((hp.mem_left s).mp hsl).2 hs
  have hparked : (σ.pausedStates ++ extra).Nodup := by
    rw [List.nodup_append]
    refine ⟨h.paused, hp.once, ?_⟩
    intro a ha b hb heq
    exact (hfresh b (hp.added b hb)).2 (heq ▸ ha)
  have hnone : k = .dfs → σ.pausedStates ++ extra = [] := by
    intro hdfs
    rw [h.dfs hdfs, hp.dfs hdfs]
    rfl
  have hsecond : k.update l [] (σ.pausedStates ++ extra) = some l := by
    rw [k.update_eq (by rwa [List.append_nil]) hparked]
    · rw [List.append_nil, hlnodup.sdiff_eq_filter, Option.some_inj, List.filter_eq_self]
      intro s hs
      exact decide_eq_true fun hin => hapart s hin hs
    · intro hdfs s hs
      rw [hnone hdfs] at hs
      cases hs
  unfold updateStates
  simp only [hfirst, Option.bind_some, hp.goesOn, hp.paused, hsecond, Option.map_some]
  refine ⟨_, rfl, hlnodup, ?_, hparked, hapart, ?_, rfl, hnone⟩
  · intro s
    simp only [Finset.mem_sdiff, Finset.mem_union, List.mem_toFinset, h.states, hmem]
  · intro s
    rw [hmem, List.mem_append]
    simp only [alive, Finset.mem_sdiff, Finset.mem_union, List.mem_toFinset, h.live, hp.mem_left]
    have hparkedStays : s ∈ σ.pausedStates → s ∉ c.removedStates := fun hs hr =>
      h.apart s hs (hown s hr)
    have hextraStays : s ∈ extra → s ∈ c.addedStates ∧ s ∉ c.removedStates := fun hs =>
      ⟨hp.added s hs, fun hr => (hfresh s (hp.added s hs)).1 (hown s hr)⟩
    tauto

theorem Settled.inPlace (h : Settled k σ live) : InPlace σ live := by
  refine ⟨?_, ?_⟩
  · intro s hs
    rcases (h.live s).mp hs with hs | hs
    · refine .inl ⟨List.count_eq_one_of_mem h.scheduled hs, (h.states s).mpr hs, ?_⟩
      intro hpaused
      exact h.apart s hpaused hs
    · have hout := h.apart s hs
      exact .inr ⟨hout, fun hs' => hout ((h.states s).mp hs'),
        List.count_eq_one_of_mem h.paused hs⟩
  · intro s hs
    rw [h.live]
    rcases hs with hs | hs | hs
    · exact .inl hs
    · exact .inl ((h.states s).mp hs)
    · exact .inr hs

/-- The depth-first searcher does not have a state that is paused when it is added. -/
theorem dfs_pauses_none (h : Settled .dfs σ live) (hc : σ.Handed live c)
    (hpos : c.sensitiveDesc > 0) (hs : σ.updateStates .dfs c = some σ') :
    ∀ s ∈ c.addedStates, c.isSecretDescendant s = true := by
  intro s hadded
  by_contra hindependent
  have hmem : s ∈ c.independent :=
    List.mem_filter.mpr ⟨hadded, by simpa using hindependent⟩
  unfold updateStates at hs
  obtain ⟨l, hfirst, hs⟩ := Option.bind_eq_some_iff.mp hs
  obtain ⟨l', hsecond, _⟩ := Option.map_eq_some_iff.mp hs
  have hpause : σ.pause c = ({ σ with pausedStates := c.independent },
      c.addedStates.diff c.independent) := by
    unfold pause
    rw [if_pos hpos, h.dfs rfl, List.diff_eq_foldl]
    rfl
  rw [hpause] at hfirst hsecond
  have hleft : ∀ t ∈ c.addedStates.diff c.independent, t ∉ σ.searcher := by
    intro t ht hsched
    exact hc.fresh t ((hc.distinct.mem_sdiff_iff).mp ht).1 ((h.live t).mpr (.inl hsched))
  have hnodup : (σ.searcher ++ c.addedStates.diff c.independent).Nodup := by
    rw [List.nodup_append]
    refine ⟨h.scheduled, hc.distinct.diff, ?_⟩
    intro a ha b hb heq
    exact hleft b hb (heq ▸ ha)
  rw [SearcherKind.update_eq .dfs hnodup hc.once fun _ t ht =>
    List.mem_append_left _ ((h.states t).mp (hc.own t ht))] at hfirst
  have hout : ∀ t ∈ c.independent, t ∉ l := by
    intro t ht hl
    rw [← Option.some.inj hfirst, hnodup.mem_sdiff_iff, List.mem_append] at hl
    rcases hl.1 with hsched | hleft'
    · exact hc.fresh t (List.mem_of_mem_filter ht) ((h.live t).mpr (.inl hsched))
    · exact ((hc.distinct.mem_sdiff_iff).mp hleft').2 ht
  -- the first of them is not there to be removed
  obtain ⟨t, rest, hcons⟩ := List.exists_cons_of_ne_nil (List.ne_nil_of_mem hmem)
  change c.independent.foldlM dfsRemove (l ++ σ.continuedStates) = some l' at hsecond
  rw [h.goesOn, List.append_nil, hcons, List.foldlM_cons,
    dfsRemove_of_notMem (hout t (hcons ▸ List.mem_cons_self))] at hsecond
  cases hsecond

/-- A paused state that goes on is in the searcher only. -/
theorem none_goes_on (h : Settled k σ live) (hc : σ.Handed live c)
    (hpos : ¬ c.sensitiveDesc > 0) (hs : σ.updateStates k c = some σ')
    (hplace : InPlace σ' (alive live c)) : σ.pausedStates = [] := by
  by_contra hne
  obtain ⟨p, hp⟩ := List.exists_mem_of_ne_nil _ hne
  have hk : k = .weightedRandom := by
    cases k with
    | dfs => exact absurd (h.dfs rfl) hne
    | weightedRandom => rfl
  subst hk
  have hpause : σ.pause c = ({ σ with continuedStates := σ.pausedStates, pausedStates := [] },
      c.addedStates) := by
    unfold pause
    rw [if_neg hpos, h.goesOn]
    rfl
  unfold updateStates at hs
  rw [hpause] at hs
  obtain ⟨l, _, hs⟩ := Option.bind_eq_some_iff.mp hs
  obtain ⟨l', hsecond, hs⟩ := Option.map_eq_some_iff.mp hs
  have hout := h.apart p hp
  have hlive : p ∈ live := (h.live p).mpr (.inr hp)
  have hremoved : p ∉ c.removedStates := fun hr => hout ((h.states p).mp (hc.own p hr))
  have hadded : p ∉ c.addedStates := fun ha => hc.fresh p ha hlive
  have halive : p ∈ alive live c := by
    simp [alive, hlive, hremoved]
  cases hs
  rcases hplace.each p halive with ⟨_, hstates, _⟩ | ⟨_, _, hpaused⟩
  · simp only [Finset.mem_sdiff, Finset.mem_union, List.mem_toFinset, h.states] at hstates
    exact hstates.1.elim hout hadded
  · cases hpaused

theorem pauseRun_settled (h : PauseRun k (LeavesPaused k) σ live) : Settled k σ live := by
  induction h with
  | start s =>
    refine ⟨List.nodup_singleton s, ?_, List.nodup_nil, ?_, ?_, rfl, fun _ => rfl⟩
    · simp
    · simp
    · simp
  | call _ hc hP hs ih =>
    obtain ⟨σ'', hs', hsettled⟩ := updateStates_settled ih hc hP
    cases hs.symm.trans hs'
    exact hsettled

/-- In a run that leaves the paused states alone every state is in its place, and the next
call keeps it so exactly if it leaves them alone as well. -/
theorem pausing_keeps_states (k : SearcherKind) (σ : StateLists) (live : Finset Nat)
    (h : PauseRun k (LeavesPaused k) σ live) : InPlace σ live ∧
    ∀ c, σ.Handed live c → ((∃ σ', σ.updateStates k c = some σ' ∧ InPlace σ' (alive live c)) ↔
      LeavesPaused k σ c) := by
  have hsettled := pauseRun_settled h
  refine ⟨hsettled.inPlace, ?_⟩
  intro c hc
  constructor
  · intro hkeeps
    obtain ⟨σ', hs, hplace⟩ := hkeeps
    refine ⟨?_, fun hpos => none_goes_on hsettled hc hpos hs hplace⟩
    intro hdfs hpos
    subst hdfs
    exact dfs_pauses_none hsettled hc hpos hs
  · intro hP
    obtain ⟨σ', hs, hsettled'⟩ := updateStates_settled hsettled hc hP
    exact ⟨σ', hs, hsettled'.inPlace⟩

/-- The first state, and a fork below a secret branch. -/
def secretFork : UpdateCall where
  addedStates := [2]
  removedStates := []
  isSecretDescendant s := s == 2
  sensitiveDesc := 1

theorem secret_fork_in_place : InPlace { searcher := [1], states := {1} } {1} ∧
    ∃ σ', ({ searcher := [1], states := {1} } : StateLists).updateStates .dfs secretFork = some σ' ∧
      InPlace σ' (alive {1} secretFork) := by
  obtain ⟨hplace, hnext⟩ := pausing_keeps_states .dfs _ _ (.start 1)
  refine ⟨hplace, (hnext secretFork ⟨by decide, by decide, by decide, by decide⟩).mpr ⟨?_, ?_⟩⟩
  · intro _ _ s hs
    rw [List.mem_singleton.mp hs]
    rfl
  · intro hpos
    exact absurd (by decide) hpos

/-- A fork that does not descend from a secret branch. -/
def independentFork : UpdateCall where
  addedStates := [2]
  removedStates := []
  isSecretDescendant _ := false
  sensitiveDesc := 1

/-- The new state is paused, and the depth-first searcher has to remove a state that it does
not have. -/
theorem paused_state_not_there : ¬ ∀ k σ live, PauseRun k (fun _ _ => True) σ live →
    InPlace σ live ∧ ∀ c, σ.Handed live c →
      ∃ σ', σ.updateStates k c = some σ' ∧ InPlace σ' (alive live c) := by
  intro hall
  obtain ⟨σ', hs, _⟩ := (hall .dfs _ _ (.start 1)).2 independentFork
    ⟨by decide, by decide, by decide, by decide⟩
  cases hs

end StateLists

end Encider
