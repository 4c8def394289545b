import Mathlib.Data.Finset.Sort
import Mathlib.Data.Rat.Defs
import Mathlib.Algebra.Order.Ring.Rat

/-!
The searchers of `lib/Core/Searcher.cpp` that keep containers of their own, as objects behind the
interface of `class Searcher`, and the compositions the options can build from them. A failed
assertion and a read outside a container are `none`.
-/

namespace Encider.Search

variable {σ : Type} [LinearOrder σ]

/-- What one searcher reads during one call: the clock at its first, second, … reading, the
instruction counter and the random generator. -/
structure Reading where
  wallTime : ℕ → ℚ
  instructions : UInt64
  getInt32 : UInt32

/-- The readings of every searcher of a composition, under the path to it: two searchers read the
clock at two moments. -/
abbrev Readings := List ℕ → Reading

def Readings.here (r : Readings) : Reading := r []

def Readings.below (r : Readings) (i : ℕ) : Readings := fun path => r (i :: path)

/-- `class Searcher`: the fields of an object, as its constructor leaves them, and the calls. -/
structure Searcher (σ : Type) where
  Obj : Type
  init : Obj
  selectState : Readings → Obj → Option (σ × Obj)
  update : Readings → Option σ → List σ → List σ → Obj → Option Obj
  empty : Obj → Bool

def Searcher.removeState (s : Searcher σ) (r : Readings) (es : σ) (o : s.Obj) : Option s.Obj :=
  s.update r none [] [es] o

/-- The search for `es` from the front, with "invalid state removed" when it is not there. -/
def eraseState (states : List σ) (es : σ) : Option (List σ) :=
  if es ∈ states then some (states.erase es) else none

def DFSSearcher.remove (states : List σ) (es : σ) : Option (List σ) :=
  match states.getLast? with
  | none => none
  | some back => if es = back then some states.dropLast else eraseState states es

def DFSSearcher : Searcher σ where
  Obj := List σ
  init := []
  selectState _ states := states.getLast?.map (·, states)
  update _ _ added removed states := removed.foldlM DFSSearcher.remove (states ++ added)
  empty := List.isEmpty

def BFSSearcher.remove : List σ → σ → Option (List σ)
  | [], _ => none
  | front :: states, es =>
    if es = front then some states else eraseState (front :: states) es

/-- A current state that forked goes to the back. -/
def BFSSearcher.reorder (current : Option σ) (added removed states : List σ) :
    Option (List σ) :=
  match current with
  | none => some states
  | some c =>
    if added ≠ [] ∧ c ∉ removed then (eraseState states c).map (· ++ [c]) else some states

def BFSSearcher : Searcher σ where
  Obj := List σ
  init := []
  selectState _ states := states.head?.map (·, states)
  update _ current added removed states := do
    let states ← BFSSearcher.reorder current added removed states
    removed.foldlM BFSSearcher.remove (states ++ added)
  empty := List.isEmpty

def RandomSearcher : Searcher σ where
  Obj := List σ
  init := []
  selectState r states := states[r.here.getInt32.toNat % states.length]?.map (·, states)
  update _ _ added removed states := removed.foldlM eraseState (states ++ added)
  empty := List.isEmpty

/-- The fields of a `BatchingSearcher`. The constructor leaves the last two unset; they are read
only once `lastState` is. -/
structure BatchingSearcher.Fields (β σ : Type) where
  baseSearcher : β
  timeBudget : ℚ
  instructionBudget : UInt32
  lastState : Option σ
  lastStartTime : ℚ
  lastStartInstructions : UInt32

namespace BatchingSearcher

variable (base : Searcher σ)

def selectBase (r : Readings) (o : Fields base.Obj σ) : Option (σ × Fields base.Obj σ) := do
  let (s, b) ← base.selectState (r.below 0) o.baseSearcher
  some (s, { o with
    baseSearcher := b
    lastState := some s
    lastStartTime := r.here.wallTime 2
    lastStartInstructions := r.here.instructions.toUInt32 })

def overBudget (r : Readings) (o : Fields base.Obj σ) : Prop :=
  o.timeBudget < r.here.wallTime 0 - o.lastStartTime ∨
    o.instructionBudget.toUInt64 < r.here.instructions - o.lastStartInstructions.toUInt64

instance (r : Readings) (o : Fields base.Obj σ) : Decidable (overBudget base r o) :=
  inferInstanceAs (Decidable (_ ∨ _))

/-- A batch that took much longer than its budget becomes the budget. -/
def raiseBudget (r : Readings) (o : Fields base.Obj σ) : Fields base.Obj σ :=
  let delta := r.here.wallTime 1 - o.lastStartTime
  if o.timeBudget * (11 / 10) < delta then { o with timeBudget := delta } else o

def selectState (r : Readings) (o : Fields base.Obj σ) : Option (σ × Fields base.Obj σ) :=
  match o.lastState with
  | none => selectBase base r o
  | some s =>
    if overBudget base r o then selectBase base r (raiseBudget base r o) else some (s, o)

def update (r : Readings) (current : Option σ) (added removed : List σ)
    (o : Fields base.Obj σ) : Option (Fields base.Obj σ) := do
  let b ← base.update (r.below 0) current added removed o.baseSearcher
  some { o with
    baseSearcher := b
    lastState := o.lastState.filter (· ∉ removed) }

end BatchingSearcher

def BatchingSearcher (base : Searcher σ) (timeBudget : ℚ) (instructionBudget : UInt32) :
    Searcher σ where
  Obj := BatchingSearcher.Fields base.Obj σ
  init := ⟨base.init, timeBudget, instructionBudget, none, 0, 0⟩
  selectState := BatchingSearcher.selectState base
  update := BatchingSearcher.update base
  empty o := base.empty o.baseSearcher

/-- The fields of an `IterativeDeepeningTimeSearcher`; the paused states are a `std::set` of
pointers. -/
structure IterativeDeepeningTimeSearcher.Fields (β σ : Type) where
  baseSearcher : β
  time : ℚ
  startTime : ℚ
  pausedStates : Finset σ

namespace IterativeDeepeningTimeSearcher

variable (base : Searcher σ)

/-- The loop over the removed states: a paused one is taken out of `pausedStates` and of `alt`. -/
def takePaused (paused : Finset σ) (removed : List σ) : Finset σ × List σ :=
  removed.foldl
    (fun p es => if es ∈ p.1 then (p.1.erase es, p.2.filter (· ≠ es)) else p) (paused, removed)

def elapsed (r : Readings) (o : Fields base.Obj σ) : ℚ :=
  r.here.wallTime 0 - o.startTime

/-- A current state whose time is up is paused. -/
def pause (r : Readings) (current : Option σ) (removed : List σ) (o : Fields base.Obj σ)
    (b : base.Obj) (paused : Finset σ) : Option (base.Obj × Finset σ) :=
  match current with
  | none => some (b, paused)
  | some c =>
    if c ∉ removed ∧ o.time < elapsed base r o then
      (base.removeState (r.below 1) c b).map (·, insert c paused)
    else some (b, paused)

theorem le_isTrans : IsTrans σ (fun a b => a ≤ b) := inferInstance

theorem le_antisymm : Std.Antisymm (fun a b : σ => a ≤ b) := inferInstance

attribute [local instance] le_isTrans le_antisymm

/-- A base searcher that ran out of states gets the paused ones back and twice the time. -/
def resume (r : Readings) (o : Fields base.Obj σ) (b : base.Obj) (paused : Finset σ) :
    Option (Fields base.Obj σ) :=
  if base.empty b then do
    let b ← base.update (r.below 2) none (paused.sort (· ≤ ·)) [] b
    some { o with baseSearcher := b, time := o.time * 2, pausedStates := ∅ }
  else some { o with baseSearcher := b, pausedStates := paused }

def selectState (r : Readings) (o : Fields base.Obj σ) : Option (σ × Fields base.Obj σ) := do
  let (s, b) ← base.selectState (r.below 0) o.baseSearcher
  some (s, { o with baseSearcher := b, startTime := r.here.wallTime 0 })

def update (r : Readings) (current : Option σ) (added removed : List σ)
    (o : Fields base.Obj σ) : Option (Fields base.Obj σ) := do
  let (paused, alt) := takePaused o.pausedStates removed
  let b ← base.update (r.below 0) current added alt o.baseSearcher
  let (b, paused) ← pause base r current removed o b paused
  resume base r o b paused

end IterativeDeepeningTimeSearcher

/-- The constructor leaves `startTime` unset: it is whatever the memory held. -/
def IterativeDeepeningTimeSearcher (base : Searcher σ) (startTime : ℚ) : Searcher σ where
  Obj := IterativeDeepeningTimeSearcher.Fields base.Obj σ
  init := ⟨base.init, 1, startTime, ∅⟩
  selectState := IterativeDeepeningTimeSearcher.selectState base
  update := IterativeDeepeningTimeSearcher.update base
  empty o := base.empty o.baseSearcher && decide (o.pausedStates = ∅)

/-- The fields of an `InterleavedSearcher`; `index` is one past the searcher to ask next. -/
structure InterleavedSearcher.Fields {n : ℕ} (searchers : Fin (n + 1) → Searcher σ) where
  searchers : ∀ i, (searchers i).Obj
  index : ℕ

namespace InterleavedSearcher

variable {n : ℕ} (searchers : Fin (n + 1) → Searcher σ)

def selectState (r : Readings) (o : Fields searchers) : Option (σ × Fields searchers) :=
  match o.index with
  | 0 => none
  | i + 1 =>
    if h : i < n + 1 then do
      let (s, b) ← (searchers ⟨i, h⟩).selectState (r.below i) (o.searchers ⟨i, h⟩)
      some (s, ⟨Function.update o.searchers ⟨i, h⟩ b, if i = 0 then n + 1 else i⟩)
    else none

/-- One result for all searchers, or none when one of them has none. -/
def sequence {α : Fin (n + 1) → Type} (f : ∀ i, Option (α i)) : Option (∀ i, α i) :=
  if h : ∀ i, (f i).isSome then some fun i => (f i).get (h i) else none

def update (r : Readings) (current : Option σ) (added removed : List σ)
    (o : Fields searchers) : Option (Fields searchers) := do
  let ss ← sequence fun i => (searchers i).update (r.below i) current added removed (o.searchers i)
  some ⟨ss, o.index⟩

end InterleavedSearcher

def InterleavedSearcher {n : ℕ} (searchers : Fin (n + 1) → Searcher σ) : Searcher σ where
  Obj := InterleavedSearcher.Fields searchers
  init := ⟨fun i => (searchers i).init, 1⟩
  selectState := InterleavedSearcher.selectState searchers
  update := InterleavedSearcher.update searchers
  empty o := (searchers 0).empty (o.searchers 0)

/-- The ways to put searchers together. An interleaved searcher asks its first member whether it
is empty, so it has one. -/
inductive Composition where
  | dfs
  | bfs
  | random
  | batching (base : Composition) (timeBudget : ℚ) (instructionBudget : UInt32)
  | iterativeDeepening (base : Composition) (startTime : ℚ)
  | interleaved (n : ℕ) (searchers : Fin (n + 1) → Composition)

def Composition.searcher : Composition → Searcher σ
  | .dfs => DFSSearcher
  | .bfs => BFSSearcher
  | .random => RandomSearcher
  | .batching base timeBudget instructionBudget =>
    BatchingSearcher base.searcher timeBudget instructionBudget
  | .iterativeDeepening base startTime =>
    IterativeDeepeningTimeSearcher base.searcher startTime
  | .interleaved _ searchers => InterleavedSearcher fun i => (searchers i).searcher

end Encider.Search
