import Encider.Search.Session

/-!
The composition `constructUserSearcher` builds puts iterative deepening on top, if at all, and the
executor selects a state before each update that names one. Under this use no update pauses a
state twice: a selected state comes from the base searcher.
-/

namespace Encider.Search

variable {σ : Type} [LinearOrder σ]

/-- No iterative deepening at any level. -/
def Composition.Plain : Composition → Prop
  | .dfs => True
  | .bfs => True
  | .random => True
  | .batching base _ _ => base.Plain
  | .iterativeDeepening _ _ => False
  | .interleaved _ searchers => ∀ i, (searchers i).Plain

/-- Without iterative deepening a live current state is all an update needs. -/
theorem Composition.Plain.ready {c : Composition} (hc : c.Plain) {L : Finset σ} {r : Readings}
    {current : Option σ} {added removed : List σ} {o : (c.searcher (σ := σ)).Obj}
    (hcurrent : ∀ x ∈ current, x ∈ L) : c.ledger.Ready L r current added removed o := by
  induction c generalizing r with
  | dfs => trivial
  | bfs => exact fun x hx _ _ => hcurrent x hx
  | random => trivial
  | batching base timeBudget instructionBudget ih => exact ih hc
  | iterativeDeepening base startTime ih => exact hc.elim
  | interleaved n searchers ih => exact fun i => ih i (hc i)

/-- One turn of the loop in `Executor::run`, or an update outside of it. -/
inductive Round (σ : Type) where
  | work (select update : Readings) (addedStates removedStates : List σ)
  | idle (update : Readings) (addedStates removedStates : List σ)

namespace Session

variable {s : Searcher σ}

def round (t : Session s) : Round σ → Option (Session s)
  | .work select update added removed => do
    let t ← t.step (.selectState select)
    t.step (.update update t.last added removed)
  | .idle update added removed => t.step (.update update none added removed)

/-- The loop runs while a state is live, and its updates are legal. -/
def LegalRounds : Finset σ → List (Round σ) → Prop
  | _, [] => True
  | L, .work _ _ added removed :: rounds =>
    L.Nonempty ∧ Search.Legal L added removed ∧ LegalRounds (after L added removed) rounds
  | L, .idle _ added removed :: rounds =>
    Search.Legal L added removed ∧ LegalRounds (after L added removed) rounds

/-- Any use of a ledger whose object is ready for the state it just selected. -/
def Serves (l : Ledger s) : Prop :=
  ∀ {L r x added removed o o'}, l.Tracks L o → L.Nonempty → s.selectState r o = some (x, o') →
    ∀ r', l.Ready L r' (some x) added removed o'

theorem rounds_tracked {l : Ledger s} (hl : l.Sound) (hserves : Serves l) {t : Session s}
    (h : l.Tracks t.live t.obj) {rounds : List (Round σ)} (hlegal : LegalRounds t.live rounds) :
    ∃ t', rounds.foldlM round t = some t' ∧ l.Tracks t'.live t'.obj := by
  induction rounds generalizing t with
  | nil => exact ⟨t, rfl, h⟩
  | cons round' rounds ih =>
    rw [List.foldlM_cons]
    cases round' with
    | work select update added removed =>
      obtain ⟨hlive, hupdate, hrest⟩ := hlegal
      obtain ⟨x, _, o, hselect, ho⟩ := hl.select select h hlive
      have hready : l.Ready t.live update (some x) added removed o :=
        hserves h hlive hselect update
      obtain ⟨o', hrun, ho'⟩ := hl.update ho hupdate hready
      have hround : t.round (.work select update added removed) =
          some ⟨o', after t.live added removed, some x⟩ := by
        simp [round, step, hselect, hrun]
      rw [hround]
      exact ih (t := ⟨o', after t.live added removed, some x⟩) ho' hrest
    | idle update added removed =>
      obtain ⟨hupdate, hrest⟩ := hlegal
      have hready : l.Ready t.live update none added removed t.obj := hl.ready_none h
      obtain ⟨o', hrun, ho'⟩ := hl.update h hupdate hready
      have hround : t.round (.idle update added removed) =
          some ⟨o', after t.live added removed, t.last⟩ := by
        simp [round, step, hrun]
      rw [hround]
      exact ih (t := ⟨o', after t.live added removed, t.last⟩) ho' hrest

end Session

/-- Iterative deepening over a plain composition: the selected state is one the base holds. -/
theorem serves_deepening {base : Composition} (hbase : base.Plain) (startTime : ℚ) :
    Session.Serves (Composition.iterativeDeepening base startTime).ledger (σ := σ) := by
  intro L r x added removed o o' h hL hselect r'
  obtain ⟨hpaused, htracks, hactive⟩ := h
  obtain ⟨y, hy, b, hbelow, _⟩ := base.sound.select (r.below 0) htracks (hactive hL)
  have hx : some (x, o') =
      some (y, { o with baseSearcher := b, startTime := r.here.wallTime 0 }) := by
    rw [← hselect]
    change IterativeDeepeningTimeSearcher.selectState base.searcher r o = _
    unfold IterativeDeepeningTimeSearcher.selectState
    rw [hbelow]
    rfl
  obtain ⟨rfl, rfl⟩ := Prod.mk.inj (Option.some.inj hx)
  refine ⟨hbase.ready ?_, ?_⟩
  · intro z hz
    obtain rfl : x = z := Option.some.inj hz
    exact hy
  · intro z hz _ _
    obtain rfl : x = z := Option.some.inj hz
    exact Or.inl hy

theorem serves_plain {c : Composition} (hc : c.Plain) : Session.Serves c.ledger (σ := σ) := by
  intro L r x added removed o o' h hL hselect r'
  obtain ⟨y, hy, b, hselect', _⟩ := c.sound.select r h hL
  obtain ⟨rfl, rfl⟩ := Prod.mk.inj (Option.some.inj (hselect'.symm.trans hselect))
  exact hc.ready fun z hz => Option.some.inj hz ▸ hy

/-- The searchers the options build hold the live states through every run of the executor. -/
theorem userSearcher_keepsTrack {base : Composition} (hbase : base.Plain) (startTime : ℚ)
    {c : Composition} (hc : c = base ∨ c = .iterativeDeepening base startTime)
    {rounds : List (Round σ)} (hlegal : Session.LegalRounds ∅ rounds) :
    ∃ t, rounds.foldlM Session.round (Session.start c.searcher) = some t ∧
      c.ledger.Tracks t.live t.obj := by
  obtain rfl | rfl := hc
  · exact Session.rounds_tracked c.sound (serves_plain hbase) c.sound.init hlegal
  · exact Session.rounds_tracked (Composition.sound _) (serves_deepening hbase startTime)
      (Composition.sound _).init hlegal

end Encider.Search
