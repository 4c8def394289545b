import Encider.Search.Ledger

/-!
The searchers over other searchers: a batching searcher caches one state, an iterative-deepening
searcher takes states away from its base and gives them back, an interleaved searcher keeps all
its members alike.
-/

namespace Encider.Search

variable {σ : Type} [LinearOrder σ]

/-! ### Batching -/

namespace BatchingSearcher

variable {base : Searcher σ}

/-- The cached state is one of those held. -/
def ledger (l : Ledger base) (timeBudget : ℚ) (instructionBudget : UInt32) :
    Ledger (BatchingSearcher base timeBudget instructionBudget) where
  Tracks L o := l.Tracks L o.baseSearcher ∧ ∀ x ∈ o.lastState, x ∈ L
  Ready L r current added removed o :=
    l.Ready L (r.below 0) current added removed o.baseSearcher

theorem selectBase_sound {l : Ledger base} (hl : l.Sound) {L : Finset σ} {r : Readings}
    {o : Fields base.Obj σ} (h : l.Tracks L o.baseSearcher) (hL : L.Nonempty) :
    ∃ x ∈ L, ∃ o', selectBase base r o = some (x, o') ∧
      l.Tracks L o'.baseSearcher ∧ ∀ y ∈ o'.lastState, y ∈ L := by
  obtain ⟨x, hx, b, hselect, hb⟩ := hl.select (r.below 0) h hL
  refine ⟨x, hx, _, by rw [selectBase, hselect]; rfl, hb, ?_⟩
  intro y hy
  rw [Option.mem_some_iff] at hy
  exact hy ▸ hx

omit [LinearOrder σ] in
theorem raiseBudget_base (r : Readings) (o : Fields base.Obj σ) :
    (raiseBudget base r o).baseSearcher = o.baseSearcher := by
  simp only [raiseBudget]
  split <;> rfl

theorem ledger_sound {l : Ledger base} (hl : l.Sound) (timeBudget : ℚ)
    (instructionBudget : UInt32) : (ledger l timeBudget instructionBudget).Sound where
  init := ⟨hl.init, by simp [BatchingSearcher]⟩
  empty_iff h := hl.empty_iff h.1
  select := by
    intro L o r h hL
    obtain ⟨hbase, hlast⟩ := h
    change ∃ x ∈ L, ∃ o', selectState base r o = some (x, o') ∧ _
    unfold selectState
    cases hcached : o.lastState with
    | none => exact selectBase_sound hl hbase hL
    | some x =>
      by_cases hover : overBudget base r o
      · simp only [if_pos hover]
        rw [← raiseBudget_base r o] at hbase
        exact selectBase_sound hl hbase hL
      · simp only [if_neg hover]
        exact ⟨x, hlast x hcached, o, rfl, hbase, hlast⟩
  update := by
    intro L r current added removed o h hlegal hready
    obtain ⟨hbase, hlast⟩ := h
    obtain ⟨b, hrun, hb⟩ := hl.update hbase hlegal hready
    refine ⟨{ o with baseSearcher := b, lastState := o.lastState.filter (· ∉ removed) },
      ?_, hb, ?_⟩
    · change update base r current added removed o = _
      unfold update
      rw [hrun]
      rfl
    · intro x hx
      obtain ⟨hcached, hkept⟩ := Option.mem_filter_iff.mp hx
      exact mem_after.mpr ⟨Or.inl (hlast x hcached), by simpa using hkept⟩
  stuck := by
    intro L r current added removed o h hlegal hready
    change update base r current added removed o = none
    unfold update
    rw [hl.stuck h.1 hlegal hready]
    rfl
  ready_none h := hl.ready_none h.1
  missing := by
    intro L r x o h hx
    change update base r none [] [x] o = none
    have hrun : base.update (r.below 0) none [] [x] o.baseSearcher = none := hl.missing h.1 hx
    unfold update
    rw [hrun]
    rfl

end BatchingSearcher

/-! ### Iterative deepening -/

namespace IterativeDeepeningTimeSearcher

variable {base : Searcher σ}

/-- Each state is held by the base or paused, and the base holds one whenever there is one. An
update that is to pause `current` needs the base to hold it. -/
def ledger (l : Ledger base) (startTime : ℚ) :
    Ledger (IterativeDeepeningTimeSearcher base startTime) where
  Tracks L o := o.pausedStates ⊆ L ∧ l.Tracks (L \ o.pausedStates) o.baseSearcher ∧
    (L.Nonempty → (L \ o.pausedStates).Nonempty)
  Ready L r current added removed o :=
    l.Ready (L \ o.pausedStates) (r.below 0) current added
      (removed.filter (· ∉ o.pausedStates)) o.baseSearcher ∧
    ∀ c ∈ current, c ∉ removed → o.time < elapsed base r o →
      c ∈ L \ o.pausedStates ∨ c ∈ added

/-- The loop splits the removed states into the paused ones and the others. -/
theorem takePaused_eq (paused : Finset σ) (removed : List σ) :
    takePaused paused removed =
      (paused \ removed.toFinset, removed.filter (· ∉ paused)) := by
  have hloop : ∀ (rest alt : List σ) (left : Finset σ), left ⊆ paused →
      rest.foldl
        (fun p es => if es ∈ p.1 then (p.1.erase es, p.2.filter (· ≠ es)) else p) (left, alt) =
      (left \ rest.toFinset, alt.filter fun x => ¬ (x ∈ left ∧ x ∈ rest)) := by
    intro rest
    induction rest with
    | nil =>
      intro alt left _
      simp
    | cons es rest ih =>
      intro alt left hleft
      rw [List.foldl_cons]
      by_cases hes : es ∈ left
      · rw [if_pos hes, ih _ _ ((Finset.erase_subset _ _).trans hleft)]
        refine Prod.ext ?_ ?_
        · ext x
          simp
          tauto
        · rw [List.filter_filter]
          apply List.filter_congr
          intro x _
          by_cases hx : x = es
          · simp [hx, hes]
          · simp [hx]
      · rw [if_neg hes, ih _ _ hleft]
        refine Prod.ext ?_ ?_
        · ext x
          simp
          grind
        · apply List.filter_congr
          intro x _
          by_cases hx : x = es
          · simp [hx, hes]
          · simp [hx]
  rw [takePaused, hloop removed removed paused (Finset.Subset.refl _)]
  refine Prod.ext rfl ?_
  apply List.filter_congr
  intro x hx
  simp [hx]

/-- Handing the states left over to `resume`: the base is refilled when it ran out. -/
theorem resume_sound {l : Ledger base} (hl : l.Sound) (startTime : ℚ) {L paused : Finset σ}
    {r : Readings} {o : Fields base.Obj σ} {b : base.Obj} (hpaused : paused ⊆ L)
    (hb : l.Tracks (L \ paused) b) :
    ∃ o', resume base r o b paused = some o' ∧ (ledger l startTime).Tracks L o' := by
  unfold resume
  by_cases hempty : base.empty b
  · have hnone : L \ paused = ∅ := (hl.empty_iff hb).mp hempty
    have hlegal : Legal (L \ paused) (paused.sort (· ≤ ·)) [] := by
      rw [hnone]
      constructor <;> simp
    have hready : l.Ready (L \ paused) (r.below 2) none (paused.sort (· ≤ ·)) [] b :=
      hl.ready_none hb
    obtain ⟨b', hrun, hb'⟩ := hl.update hb hlegal hready
    have hall : after (L \ paused) (paused.sort (· ≤ ·)) [] = L := by
      ext x
      simp only [mem_after, Finset.mem_sdiff, Finset.mem_sort, List.not_mem_nil,
        not_false_eq_true, and_true]
      have := @hpaused x
      tauto
    rw [if_pos hempty, hrun]
    refine ⟨_, rfl, Finset.empty_subset L, ?_, ?_⟩
    · simpa [hall] using hb'
    · simp
  · rw [if_neg hempty]
    refine ⟨_, rfl, hpaused, hb, ?_⟩
    intro _
    rw [Finset.nonempty_iff_ne_empty]
    exact mt (hl.empty_iff hb).mpr hempty

/-- Pausing a state the base holds moves it from the base to the paused ones. -/
theorem pause_sound {l : Ledger base} (hl : l.Sound) {L paused : Finset σ} {r : Readings}
    {current : Option σ} {removed : List σ} {o : Fields base.Obj σ} {b : base.Obj}
    (hpaused : paused ⊆ L) (hb : l.Tracks (L \ paused) b)
    (hheld : ∀ c ∈ current, c ∉ removed → o.time < elapsed base r o → c ∈ L \ paused) :
    ∃ b' paused', pause base r current removed o b paused = some (b', paused') ∧
      paused' ⊆ L ∧ l.Tracks (L \ paused') b' := by
  unfold pause
  cases current with
  | none => exact ⟨b, paused, rfl, hpaused, hb⟩
  | some c =>
    by_cases hdue : c ∉ removed ∧ o.time < elapsed base r o
    · have hc : c ∈ L \ paused := hheld c rfl hdue.1 hdue.2
      have hready : l.Ready (L \ paused) (r.below 1) none [] [c] b := hl.ready_none hb
      obtain ⟨b', hrun, hb'⟩ := hl.update hb (Legal.remove hc) hready
      have hset : after (L \ paused) [] [c] = L \ insert c paused := by
        ext x
        simp
        tauto
      rw [hset] at hb'
      refine ⟨b', insert c paused, ?_, ?_, hb'⟩
      · simp only [if_pos hdue, Searcher.removeState, hrun, Option.map_some]
      · exact Finset.insert_subset (Finset.mem_sdiff.mp hc).1 hpaused
    · exact ⟨b, paused, if_neg hdue, hpaused, hb⟩

/-- The removed states that are not paused are removed from the base. -/
theorem legal_base {L paused : Finset σ} {added removed : List σ} (h : Legal L added removed) :
    Legal (L \ paused) added (removed.filter (· ∉ paused)) where
  added_nodup := h.added_nodup
  added_new x hx hL := h.added_new x hx (Finset.mem_sdiff.mp hL).1
  removed_nodup := h.removed_nodup.filter _
  removed_live := by
    intro x hx
    obtain ⟨hremoved, hactive⟩ := List.mem_filter.mp hx
    exact Finset.mem_sdiff.mpr ⟨h.removed_live x hremoved, by simpa using hactive⟩

/-- What the base holds after its update is what is live and not paused. -/
theorem after_base {L paused : Finset σ} {added removed : List σ} (hpaused : paused ⊆ L)
    (h : Legal L added removed) :
    after (L \ paused) added (removed.filter (· ∉ paused)) =
      after L added removed \ (paused \ removed.toFinset) := by
  ext x
  have hnew : x ∈ added → x ∉ paused := fun hx hp => h.added_new x hx (hpaused hp)
  simp
  tauto

theorem update_bind {r : Readings} {current : Option σ} {added removed : List σ}
    {o : Fields base.Obj σ} :
    update base r current added removed o =
      (base.update (r.below 0) current added (removed.filter (· ∉ o.pausedStates))
        o.baseSearcher).bind fun b =>
          (pause base r current removed o b (o.pausedStates \ removed.toFinset)).bind fun p =>
            resume base r o p.1 p.2 := by
  unfold update
  rw [takePaused_eq]
  rfl

theorem ledger_sound {l : Ledger base} (hl : l.Sound) (startTime : ℚ) :
    (ledger l startTime).Sound where
  init := by
    refine ⟨Finset.Subset.refl _, ?_, ?_⟩
    · simpa [IterativeDeepeningTimeSearcher] using hl.init
    · simp
  empty_iff := by
    intro L o h
    obtain ⟨hpaused, hbase, _⟩ := h
    change (base.empty o.baseSearcher && decide (o.pausedStates = ∅)) = true ↔ L = ∅
    rw [Bool.and_eq_true, hl.empty_iff hbase, decide_eq_true_iff]
    constructor
    · rintro ⟨hnone, hp⟩
      simpa [hp] using hnone
    · rintro rfl
      exact ⟨by simp, Finset.subset_empty.mp hpaused⟩
  select := by
    intro L o r h hL
    obtain ⟨hpaused, hbase, hactive⟩ := h
    obtain ⟨x, hx, b, hselect, hb⟩ := hl.select (r.below 0) hbase (hactive hL)
    refine ⟨x, (Finset.mem_sdiff.mp hx).1,
      { o with baseSearcher := b, startTime := r.here.wallTime 0 }, ?_, hpaused, hb, hactive⟩
    change selectState base r o = _
    unfold selectState
    rw [hselect]
    rfl
  update := by
    intro L r current added removed (o : Fields base.Obj σ) h hlegal hready
    obtain ⟨hpaused, hbase, _⟩ := h
    obtain ⟨hbelow, hheld⟩ := hready
    obtain ⟨b, hrun, hb⟩ := hl.update hbase (legal_base hlegal) hbelow
    rw [after_base hpaused hlegal] at hb
    have hpaused₁ : o.pausedStates \ removed.toFinset ⊆ after L added removed := by
      intro x hx
      have := @hpaused x
      simp at hx ⊢
      tauto
    have hheld₁ : ∀ c ∈ current, c ∉ removed → o.time < elapsed base r o →
        c ∈ after L added removed \ (o.pausedStates \ removed.toFinset) := by
      intro c hc hkept hdue
      have hnew : c ∈ added → c ∉ o.pausedStates :=
        fun hx hp => hlegal.added_new c hx (hpaused hp)
      have := hheld c hc hkept hdue
      simp at this ⊢
      tauto
    obtain ⟨b', paused', hpause, hpaused', hb'⟩ := pause_sound hl hpaused₁ hb hheld₁
    obtain ⟨o', hresume, ho'⟩ := resume_sound (r := r) (o := o) hl startTime hpaused' hb'
    refine ⟨o', ?_, ho'⟩
    change update base r current added removed o = some o'
    rw [update_bind, hrun, Option.bind_some, hpause, Option.bind_some, hresume]
  stuck := by
    intro L r current added removed (o : Fields base.Obj σ) h hlegal hready
    obtain ⟨hpaused, hbase, _⟩ := h
    change update base r current added removed o = none
    rw [update_bind]
    by_cases hbelow : l.Ready (L \ o.pausedStates) (r.below 0) current added
        (removed.filter (· ∉ o.pausedStates)) o.baseSearcher
    · obtain ⟨b, hrun, hb⟩ := hl.update hbase (legal_base hlegal) hbelow
      have hheld := not_and.mp hready hbelow
      simp only [not_forall, not_or] at hheld
      obtain ⟨c, hc, hkept, hdue, hinactive, hnew⟩ := hheld
      have hout : c ∉ after (L \ o.pausedStates) added
          (removed.filter (· ∉ o.pausedStates)) := by
        rw [mem_after]
        tauto
      have hmissing : base.removeState (r.below 1) c b = none := hl.missing hb hout
      obtain rfl : current = some c := hc
      rw [hrun, Option.bind_some]
      simp only [pause, if_pos (And.intro hkept hdue), hmissing, Option.map_none, Option.bind_none]
    · rw [hl.stuck hbase (legal_base hlegal) hbelow, Option.bind_none]
  ready_none h := ⟨hl.ready_none h.2.1, by simp⟩
  missing := by
    intro L r x (o : Fields base.Obj σ) h hx
    obtain ⟨hpaused, hbase, _⟩ := h
    change update base r none [] [x] o = none
    have hactive : x ∉ o.pausedStates := fun hp => hx (hpaused hp)
    have hrun : base.update (r.below 0) none [] [x] o.baseSearcher = none :=
      hl.missing hbase fun hL => hx (Finset.mem_sdiff.mp hL).1
    rw [update_bind]
    simp [hactive, hrun]

end IterativeDeepeningTimeSearcher

/-! ### Interleaving -/

namespace InterleavedSearcher

variable {n : ℕ} {searchers : Fin (n + 1) → Searcher σ}

/-- Every member holds all states. -/
def ledger (ls : ∀ i, Ledger (searchers i)) : Ledger (InterleavedSearcher searchers) where
  Tracks L o := (∀ i, (ls i).Tracks L (o.searchers i)) ∧ 0 < o.index ∧ o.index ≤ n + 1
  Ready L r current added removed o :=
    ∀ i, (ls i).Ready L (r.below i) current added removed (o.searchers i)

theorem sequence_some {α : Fin (n + 1) → Type} {f : ∀ i, Option (α i)} {g : ∀ i, α i}
    (h : ∀ i, f i = some (g i)) : sequence f = some g := by
  have hsome : ∀ i, (f i).isSome := by
    intro i
    rw [h i]
    rfl
  rw [sequence, dif_pos hsome]
  congr 1
  funext i
  simp [h i]

theorem sequence_none {α : Fin (n + 1) → Type} {f : ∀ i, Option (α i)} (i : Fin (n + 1))
    (h : f i = none) : sequence f = none := by
  apply dif_neg
  intro hsome
  simpa [h] using hsome i

omit [LinearOrder σ] in
theorem update_none {r : Readings} {current : Option σ} {added removed : List σ}
    {o : Fields searchers} (i : Fin (n + 1))
    (h : (searchers i).update (r.below i) current added removed (o.searchers i) = none) :
    update searchers r current added removed o = none := by
  unfold update
  rw [sequence_none i h]
  rfl

theorem ledger_sound {ls : ∀ i, Ledger (searchers i)} (hls : ∀ i, (ls i).Sound) :
    (ledger ls).Sound where
  init := ⟨fun i => (hls i).init, Nat.one_pos, by simp [InterleavedSearcher]⟩
  empty_iff h := (hls 0).empty_iff (h.1 0)
  select := by
    intro L o r h hL
    obtain ⟨hall, hpos, hle⟩ := h
    change ∃ x ∈ L, ∃ o', selectState searchers r o = some (x, o') ∧ _
    obtain ⟨i, hi⟩ : ∃ i, o.index = i + 1 := ⟨o.index - 1, by omega⟩
    have hlt : i < n + 1 := by omega
    obtain ⟨x, hx, b, hselect, hb⟩ := (hls ⟨i, hlt⟩).select (r.below i) (hall ⟨i, hlt⟩) hL
    refine ⟨x, hx,
      ⟨Function.update o.searchers ⟨i, hlt⟩ b, if i = 0 then n + 1 else i⟩, ?_, ?_, ?_⟩
    · simp only [selectState, hi, dif_pos hlt, hselect]
      rfl
    · intro j
      by_cases hj : j = ⟨i, hlt⟩
      · subst hj
        simpa using hb
      · simpa [hj] using hall j
    · simp only
      split <;> omega
  update := by
    intro L r current added removed o h hlegal hready
    obtain ⟨hall, hindex⟩ := h
    choose ss hrun hss using fun i => (hls i).update (hall i) hlegal (hready i)
    refine ⟨⟨ss, o.index⟩, ?_, hss, hindex⟩
    change update searchers r current added removed o = _
    unfold update
    rw [sequence_some hrun]
    rfl
  stuck := by
    intro L r current added removed o h hlegal hready
    obtain ⟨i, hi⟩ := not_forall.mp hready
    exact update_none i ((hls i).stuck (h.1 i) hlegal hi)
  ready_none h i := (hls i).ready_none (h.1 i)
  missing h hx := update_none 0 ((hls 0).missing (h.1 0) hx)

end InterleavedSearcher

/-! ### Compositions -/

def Composition.ledger : (c : Composition) → Ledger (c.searcher (σ := σ))
  | .dfs => DFSSearcher.ledger
  | .bfs => BFSSearcher.ledger
  | .random => RandomSearcher.ledger
  | .batching base timeBudget instructionBudget =>
    BatchingSearcher.ledger base.ledger timeBudget instructionBudget
  | .iterativeDeepening base startTime =>
    IterativeDeepeningTimeSearcher.ledger base.ledger startTime
  | .interleaved _ searchers => InterleavedSearcher.ledger fun i => (searchers i).ledger

theorem Composition.sound (c : Composition) : (c.ledger (σ := σ)).Sound := by
  induction c with
  | dfs => exact DFSSearcher.ledger_sound
  | bfs => exact BFSSearcher.ledger_sound
  | random => exact RandomSearcher.ledger_sound
  | batching base timeBudget instructionBudget ih => exact BatchingSearcher.ledger_sound ih _ _
  | iterativeDeepening base startTime ih => exact IterativeDeepeningTimeSearcher.ledger_sound ih _
  | interleaved n searchers ih => exact InterleavedSearcher.ledger_sound ih

end Encider.Search
