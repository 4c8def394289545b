import Encider.Search.Layers

/-!
Runs of calls on one composition. Batching over iterative deepening offers a state that was paused
a moment ago; the next update then pauses it once more and trips an assertion. The runs that meet
no such update are exactly the ones in which the composition holds the live states throughout.
-/

namespace Encider.Search

variable {σ : Type} [LinearOrder σ]

inductive Call (σ : Type) where
  | selectState (r : Readings)
  | update (r : Readings) (current : Option σ) (addedStates removedStates : List σ)

/-- An object, the states that are live and the state selected last. -/
structure Session (s : Searcher σ) where
  obj : s.Obj
  live : Finset σ
  last : Option σ

namespace Session

variable {s : Searcher σ}

def start (s : Searcher σ) : Session s := ⟨s.init, ∅, none⟩

def step (t : Session s) : Call σ → Option (Session s)
  | .selectState r => do
    let (x, o) ← s.selectState r t.obj
    some ⟨o, t.live, some x⟩
  | .update r current added removed => do
    let o ← s.update r current added removed t.obj
    some ⟨o, after t.live added removed, t.last⟩

/-- A state is selected while one is live (the loop of `Executor::run` ends with the last one),
and an update names the last selected state or none. -/
def Legal (t : Session s) : Call σ → Prop
  | .selectState _ => t.live.Nonempty
  | .update _ current added removed =>
    (current = none ∨ current = t.last) ∧ Search.Legal t.live added removed

/-- The call goes through, the object then holds the live states, and a selected one is live. -/
def KeepsTrack (l : Ledger s) (t : Session s) (call : Call σ) : Prop :=
  ∃ t', t.step call = some t' ∧ l.Tracks t'.live t'.obj ∧
    ∀ r, call = .selectState r → ∃ x ∈ t.live, t'.last = some x

/-- No update makes a searcher move or pause a state it does not hold. -/
def Ready (l : Ledger s) (t : Session s) : Call σ → Prop
  | .selectState _ => True
  | .update r current added removed => l.Ready t.live r current added removed t.obj

/-- `P` holds at every call of a run, as far as the run goes. -/
def Along (P : Session s → Call σ → Prop) : Session s → List (Call σ) → Prop
  | _, [] => True
  | t, call :: calls => P t call ∧ ∀ t', t.step call = some t' → Along P t' calls

/-- One call: it keeps track exactly when it is ready. -/
theorem keepsTrack_iff_ready {l : Ledger s} (hl : l.Sound) {t : Session s}
    (h : l.Tracks t.live t.obj) {call : Call σ} (hlegal : t.Legal call) :
    KeepsTrack l t call ↔ Ready l t call := by
  cases call with
  | selectState r =>
    refine ⟨fun _ => trivial, fun _ => ?_⟩
    obtain ⟨x, hx, o, hselect, ho⟩ := hl.select r h hlegal
    refine ⟨⟨o, t.live, some x⟩, ?_, ho, ?_⟩
    · simp only [step, hselect]
      rfl
    · intro r' _
      exact ⟨x, hx, rfl⟩
  | update r current added removed =>
    constructor
    · rintro ⟨t', hstep, _⟩
      by_contra hready
      have hstuck : s.update r current added removed t.obj = none :=
        hl.stuck h hlegal.2 hready
      simp [step, hstuck] at hstep
    · intro hready
      obtain ⟨o, hrun, ho⟩ := hl.update h hlegal.2 hready
      refine ⟨⟨o, after t.live added removed, t.last⟩, ?_, ho, by simp⟩
      simp only [step, hrun]
      rfl

/-- A whole run, by induction on the calls: the object holds the live states before each. -/
theorem along_iff {l : Ledger s} (hl : l.Sound) {t : Session s} (h : l.Tracks t.live t.obj)
    {calls : List (Call σ)} (hlegal : Along Legal t calls) :
    Along (KeepsTrack l) t calls ↔ Along (Ready l) t calls := by
  induction calls generalizing t with
  | nil => rfl
  | cons call calls ih =>
    obtain ⟨hcall, hcalls⟩ := hlegal
    simp only [Along, keepsTrack_iff_ready hl h hcall]
    apply and_congr_right
    intro hready
    obtain ⟨t', hstep, htracks, _⟩ := (keepsTrack_iff_ready hl h hcall).mpr hready
    constructor
    · intro hrest t₁ h₁
      obtain rfl : t' = t₁ := Option.some.inj (hstep.symm.trans h₁)
      exact (ih htracks (hcalls t' hstep)).mp (hrest t' hstep)
    · intro hrest t₁ h₁
      obtain rfl : t' = t₁ := Option.some.inj (hstep.symm.trans h₁)
      exact (ih htracks (hcalls t' hstep)).mpr (hrest t' hstep)

/-- A run in which every call keeps track runs to its end. -/
theorem Along.runs {l : Ledger s} {t : Session s} {calls : List (Call σ)}
    (h : Along (KeepsTrack l) t calls) : ∃ t', calls.foldlM step t = some t' := by
  induction calls generalizing t with
  | nil => exact ⟨t, rfl⟩
  | cons call calls ih =>
    obtain ⟨⟨t₁, hstep, _⟩, hrest⟩ := h
    obtain ⟨t', hrun⟩ := ih (hrest t₁ hstep)
    exact ⟨t', by simp [List.foldlM_cons, hstep, hrun]⟩

/-- Every composition holds the live states through a run of calls exactly when no update of the
run makes one of its searchers move or pause a state it does not hold. -/
theorem keepsTrack_iff (c : Composition) (calls : List (Call σ))
    (hlegal : Along Legal (start c.searcher) calls) :
    Along (KeepsTrack c.ledger) (start c.searcher) calls ↔
      Along (Ready c.ledger) (start c.searcher) calls :=
  along_iff c.sound c.sound.init hlegal

/-! ### A batch that outlives its pause -/

instance : (t : Session s) → (call : Call σ) → Decidable (Legal t call)
  | t, .selectState _ => inferInstanceAs (Decidable t.live.Nonempty)
  | t, .update _ current added removed =>
    inferInstanceAs
      (Decidable ((current = none ∨ current = t.last) ∧ Search.Legal t.live added removed))

instance decidableAlong {P : Session s → Call σ → Prop} [∀ t call, Decidable (P t call)] :
    (t : Session s) → (calls : List (Call σ)) → Decidable (Along P t calls)
  | _, [] => inferInstanceAs (Decidable True)
  | t, call :: calls =>
    match h : t.step call with
    | none => decidable_of_iff (P t call) (by simp [Along, h])
    | some t' =>
      have : Decidable (Along P t' calls) := decidableAlong t' calls
      decidable_of_iff (P t call ∧ Along P t' calls) (by simp [Along, h])

/-- Every clock shows the same time. -/
def atTime (time : ℚ) : Readings := fun _ => ⟨fun _ => time, 0, 0⟩

/-- Batching over iterative deepening over a depth-first searcher. -/
def batchedDeepening : Composition := .batching (.iterativeDeepening .dfs 0) 10 1000

/-- Of two states the second is selected and works for five seconds, then for one more. -/
def longBatch : List (Call ℕ) :=
  [.update (atTime 0) none [1, 2] [], .selectState (atTime 0),
    .update (atTime 5) (some 2) [] [], .selectState (atTime 5),
    .update (atTime 6) (some 2) [] []]

/-- The last update removes from the base a state that it lost to `pausedStates` before. -/
theorem longBatch_stops :
    Along Legal (start batchedDeepening.searcher) longBatch ∧
      ¬ Along (KeepsTrack batchedDeepening.ledger) (start batchedDeepening.searcher)
        longBatch := by
  refine ⟨by decide +kernel, ?_⟩
  intro h
  obtain ⟨t', hrun⟩ := h.runs
  have hstop : longBatch.foldlM step (start batchedDeepening.searcher) = none := by
    decide +kernel
  rw [hstop] at hrun
  cases hrun

theorem keepsTrack_longBatch :
    Along (KeepsTrack batchedDeepening.ledger) (start batchedDeepening.searcher) longBatch ↔
      Along (Ready batchedDeepening.ledger) (start batchedDeepening.searcher) longBatch :=
  keepsTrack_iff batchedDeepening longBatch (by decide +kernel)

end Session

end Encider.Search
