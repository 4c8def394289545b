import Encider.Lib.Fold
import Encider.State.ProgModel

namespace Encider

variable {K : Type}

/-- The part of `ExecutionState` that schedules the threads. The entries of
`initiatedAsync` stand in the order of their names. -/
structure Scheduling (K : Type) where
  id : Nat := 0
  threads : List (Async K) := []
  threadsQueue : List Int := [-1]
  rtid : Int := -1
  waitingForThreadsToTerminate : Bool := false
  preemptable : Bool
  initiatedAsync : List AsyncInfo := []

/-- `initiatedAsync` with one more instance of the function, and its number of instances. -/
def countAsync (fn : String) : List AsyncInfo → Nat × List AsyncInfo
  | [] => (1, [{ function := fn }])
  | aif :: rest =>
    if aif.function = fn then (aif.count + 1, { aif with count := aif.count + 1 } :: rest)
    else if fn < aif.function then (1, { function := fn } :: aif :: rest)
    else
      let r := countAsync fn rest
      (r.1, aif :: r.2)

/-- The first function with an instance that is not started, and the entries with that
instance started. -/
def startAsync : List AsyncInfo → Option (String × List AsyncInfo)
  | [] => none
  | aif :: rest =>
    if aif.numstarted < aif.count then
      some (aif.function, { aif with numstarted := aif.numstarted + 1 } :: rest)
    else (startAsync rest).map fun r => (r.1, aif :: r.2)

namespace Scheduling

def initiateAsync (s : Scheduling K) (fn : String) : Nat × Scheduling K :=
  let r := countAsync fn s.initiatedAsync
  (r.1, { s with initiatedAsync := r.2 })

/-- The thread of the constructor `Async`; `klee` is its first instruction and frame. -/
def newThread (s : Scheduling K) (klee : String → K) (fn : String) : Async K where
  function := fn
  klee := klee fn
  tid := s.threads.length
  context := s.id

/-- `scheduleAsync` where it starts a new instance. -/
def startInstance (s : Scheduling K) (klee : String → K) (fn : String)
    (started : List AsyncInfo) : Int × Scheduling K :=
  let a := s.newThread klee fn
  let queue := if s.threadsQueue.isEmpty then [-1] else s.threadsQueue
  (a.tid, { s with
    threads := s.threads ++ [a]
    threadsQueue := queue ++ [a.tid]
    rtid := a.tid
    initiatedAsync := started })

/-- `scheduleAsync` where it takes the next one from the queue; the assertion fails if
main is next while it waits. -/
def chooseNext (s : Scheduling K) : Option (Int × Scheduling K) :=
  match s.threadsQueue with
  | [] => some (-1, s)
  | next :: rest =>
    let queue := if !s.waitingForThreadsToTerminate || decide (0 ≤ next) then rest ++ [next]
      else rest
    if next = -1 then
      if s.waitingForThreadsToTerminate then none
      else some (next, { s with threadsQueue := queue, preemptable := false, rtid := -1 })
    else if 0 ≤ next then
      some (next, { s with
        threadsQueue := queue
        threads := s.threads.modify next.toNat fun a => { a with preemptable := false }
        rtid := next })
    else some (next, { s with threadsQueue := queue })

/-- Whether the running thread goes on. A running thread that does not exist is out of
the bounds of `threads`. -/
def goesOn (s : Scheduling K) : Option Bool :=
  if !s.waitingForThreadsToTerminate && decide (s.rtid = -1) && !s.preemptable then some true
  else if 0 ≤ s.rtid then (s.threads[s.rtid.toNat]?).map fun a => !a.preemptable
  else some false

def scheduleAsync (s : Scheduling K) (klee : String → K) : Option (Int × Scheduling K) :=
  s.goesOn.bind fun again =>
    if again then some (s.rtid, s)
    else match startAsync s.initiatedAsync with
      | some (fn, started) => some (s.startInstance klee fn started)
      | none => s.chooseNext

def setPreemptable (s : Scheduling K) (tid : Int) (value : Bool) : Int × Scheduling K :=
  if tid = -1 then (0, { s with preemptable := value })
  else if 0 ≤ tid ∧ tid.toNat < s.threads.length then
    (0, { s with threads := s.threads.modify tid.toNat fun a => { a with preemptable := value } })
  else (-1, s)

def terminateThread (s : Scheduling K) (tid : Int) : Scheduling K :=
  { s with
    threads := s.threads.modify tid.toNat fun a => { a with terminated := true, preemptable := true }
    threadsQueue := s.threadsQueue.filter fun next => next ≠ tid }

def activeThreads (s : Scheduling K) : Bool := s.threads.any fun a => !a.terminated

def setWaitingForThreadsToTerminate (s : Scheduling K) (value : Bool) : Scheduling K :=
  { s with
    waitingForThreadsToTerminate := value
    threadsQueue := if value then s.threadsQueue.filter fun next => next ≠ -1 else s.threadsQueue }

end Scheduling

/-- The operations of the executor: blocks entered make a thread preemptable, and main may
return while threads are alive. -/
inductive ThreadOp where
  | initiateAsync (fn : String)
  | scheduleAsync
  | setPreemptable (tid : Int)
  | terminateThread (tid : Int)
  | mainReturns
deriving DecidableEq

/-- What the executor can do in a state: the running thread terminates, and main returns
while it runs. -/
def ThreadOp.Possible (s : Scheduling K) : ThreadOp → Prop
  | .terminateThread tid => 0 ≤ tid ∧ tid = s.rtid
  | .mainReturns => s.rtid = -1 ∧ s.activeThreads = true
  | _ => True

def ThreadOp.run (klee : String → K) (s : Scheduling K) : ThreadOp → Option (Scheduling K)
  | .initiateAsync fn => some (s.initiateAsync fn).2
  | .scheduleAsync => (s.scheduleAsync klee).map Prod.snd
  | .setPreemptable tid => some (s.setPreemptable tid true).2
  | .terminateThread tid => some (s.terminateThread tid)
  | .mainReturns => some (s.setWaitingForThreadsToTerminate true)

/-- The states that runs reach whose steps all meet a condition. `preemptable` is not
initialised. -/
inductive ThreadRun (klee : String → K) (P : Scheduling K → ThreadOp → Prop) :
    Scheduling K → Prop
  | start (b : Bool) : ThreadRun klee P { preemptable := b }
  | step {s s' : Scheduling K} (h : ThreadRun klee P s) (op : ThreadOp)
      (hpossible : op.Possible s) (hP : P s op) (hs : op.run klee s = some s') :
      ThreadRun klee P s'

/-- No instance is started while main waits and all threads have terminated. -/
def StartsInTime (s : Scheduling K) (op : ThreadOp) : Prop :=
  op = .scheduleAsync → s.waitingForThreadsToTerminate = true → s.threadsQueue = [] →
    startAsync s.initiatedAsync = none

namespace Scheduling

/-- The thread of an id is alive. -/
def Alive (s : Scheduling K) (tid : Int) : Prop :=
  0 ≤ tid ∧ ∃ a, s.threads[tid.toNat]? = some a ∧ a.terminated = false

/-- The queue holds the threads that are alive, and main where it does not wait; one that
has terminated lets others run. -/
structure Fair (s : Scheduling K) : Prop where
  distinct : s.threadsQueue.Nodup
  queued : ∀ tid ∈ s.threadsQueue, tid = -1 ∨ s.Alive tid
  alive : ∀ tid, s.Alive tid → tid ∈ s.threadsQueue
  main : -1 ∈ s.threadsQueue ↔ s.waitingForThreadsToTerminate = false
  yields : ∀ a ∈ s.threads, a.terminated = true → a.preemptable = true
  running : s.rtid = -1 ∨ 0 ≤ s.rtid ∧ s.rtid.toNat < s.threads.length

variable {s s' : Scheduling K} {klee : String → K}

theorem Alive.congr (s s' : Scheduling K) (h : ∀ i : Nat, (s'.threads[i]?).map Async.terminated =
    (s.threads[i]?).map Async.terminated) (tid : Int) : s'.Alive tid ↔ s.Alive tid := by
  have hkey : ∀ t : Scheduling K, t.Alive tid ↔
      0 ≤ tid ∧ (t.threads[tid.toNat]?).map Async.terminated = some false := by
    intro t
    simp only [Alive, Option.map_eq_some_iff]
  rw [hkey, hkey, h]

/-- A thread that is marked otherwise is as alive as before. -/
theorem modify_terminated (threads : List (Async K)) (j : Nat) (b : Bool) (i : Nat) :
    ((threads.modify j fun a => { a with preemptable := b })[i]?).map Async.terminated =
      (threads[i]?).map Async.terminated := by
  rw [List.getElem?_modify]
  cases threads[i]? with
  | none => rfl
  | some a =>
    simp only [Option.map_eq_map, Option.map_some]
    split <;> rfl

theorem Alive.lt {tid : Int} (h : s.Alive tid) : tid.toNat < s.threads.length := by
  obtain ⟨_, a, ha, _⟩ := h
  exact (List.getElem?_eq_some_iff.mp ha).1

theorem Alive.ne_main {tid : Int} (h : s.Alive tid) : tid ≠ -1 := by
  have := h.1
  omega

/-- An operation on other parts of the state. -/
theorem Fair.frame (h : s.Fair) (hthreads : s'.threads = s.threads)
    (hqueue : s'.threadsQueue = s.threadsQueue) (hrtid : s'.rtid = s.rtid)
    (hwaiting : s'.waitingForThreadsToTerminate = s.waitingForThreadsToTerminate) : s'.Fair := by
  have halive : ∀ tid, s'.Alive tid ↔ s.Alive tid := by
    intro tid
    unfold Alive
    rw [hthreads]
  refine ⟨hqueue ▸ h.distinct, ?_, ?_, ?_, ?_, ?_⟩
  · intro tid ht
    rw [halive]
    exact h.queued tid (hqueue ▸ ht)
  · intro tid ht
    rw [hqueue]
    exact h.alive tid ((halive tid).mp ht)
  · rw [hqueue, hwaiting]
    exact h.main
  · rw [hthreads]
    exact h.yields
  · rw [hthreads, hrtid]
    exact h.running

theorem initial_fair (b : Bool) : ({ preemptable := b } : Scheduling K).Fair := by
  refine ⟨List.nodup_singleton _, ?_, ?_, ?_, ?_, .inl rfl⟩
  · intro tid ht
    exact .inl (List.mem_singleton.mp ht)
  · intro tid ht
    obtain ⟨_, a, ha, _⟩ := ht
    cases ha
  · simp
  · intro a ha
    cases ha

theorem Fair.setPreemptable (h : s.Fair) (tid : Int) : (s.setPreemptable tid true).2.Fair := by
  unfold Scheduling.setPreemptable
  split
  · exact h.frame rfl rfl rfl rfl
  · split
    · have halive := Alive.congr s { s with
        threads := s.threads.modify tid.toNat fun a => { a with preemptable := true } }
        (modify_terminated s.threads tid.toNat true)
      refine ⟨h.distinct, ?_, ?_, h.main, ?_, ?_⟩
      · intro t ht
        rw [halive]
        exact h.queued t ht
      · intro t ht
        exact h.alive t ((halive t).mp ht)
      · intro a ha
        obtain ⟨b, hb, heq | heq⟩ := List.of_mem_modify ha
        · rw [heq]
          exact h.yields b hb
        · rw [heq]
          exact fun _ => rfl
      · rw [List.length_modify]
        exact h.running
    · exact h

theorem Fair.terminateThread (h : s.Fair) {tid : Int} (htid : 0 ≤ tid) :
    (s.terminateThread tid).Fair := by
  have halive : ∀ t, (s.terminateThread tid).Alive t ↔ s.Alive t ∧ t ≠ tid := by
    intro t
    unfold Alive Scheduling.terminateThread
    simp only [List.getElem?_modify, Option.map_eq_map, Option.map_eq_some_iff]
    constructor
    · intro ht
      obtain ⟨hle, a, ⟨b, hb, hab⟩, ha⟩ := ht
      by_cases hsame : tid.toNat = t.toNat
      · rw [if_pos hsame] at hab
        rw [← hab] at ha
        contradiction
      · rw [if_neg hsame] at hab
        exact ⟨⟨hle, b, hb, hab ▸ ha⟩, fun heq => hsame (by rw [heq])⟩
    · intro ht
      obtain ⟨⟨hle, a, ha, hterminated⟩, hne⟩ := ht
      have hsame : tid.toNat ≠ t.toNat := by omega
      exact ⟨hle, a, ⟨a, ha, if_neg hsame⟩, hterminated⟩
  refine ⟨h.distinct.filter _, ?_, ?_, ?_, ?_, ?_⟩
  · intro t ht
    obtain ⟨ht, hne⟩ := List.mem_filter.mp ht
    rw [halive]
    rcases h.queued t ht with hmain | ha
    · exact .inl hmain
    · exact .inr ⟨ha, by simpa using hne⟩
  · intro t ht
    obtain ⟨ha, hne⟩ := (halive t).mp ht
    exact List.mem_filter.mpr ⟨h.alive t ha, by simpa using hne⟩
  · have hne : (-1 : Int) ≠ tid := by omega
    show -1 ∈ s.threadsQueue.filter _ ↔ s.waitingForThreadsToTerminate = false
    rw [List.mem_filter]
    simpa [hne] using h.main
  · intro a ha
    obtain ⟨b, hb, heq | heq⟩ := List.of_mem_modify ha
    · rw [heq]
      exact h.yields b hb
    · rw [heq]
      exact fun _ => rfl
  · show s.rtid = -1 ∨ 0 ≤ s.rtid ∧ s.rtid.toNat < (s.threads.modify _ _).length
    rw [List.length_modify]
    exact h.running

theorem Fair.setWaiting (h : s.Fair) : (s.setWaitingForThreadsToTerminate true).Fair := by
  refine ⟨h.distinct.filter _, ?_, ?_, ?_, h.yields, h.running⟩
  · intro t ht
    exact h.queued t (List.mem_of_mem_filter ht)
  · intro t ht
    exact List.mem_filter.mpr ⟨h.alive t ht, by simpa using Alive.ne_main ht⟩
  · simp [Scheduling.setWaitingForThreadsToTerminate]

/-- A new instance gets the next id, and goes to the end of the queue. -/
theorem Fair.startInstance (h : s.Fair) (hqueue : s.threadsQueue ≠ []) (fn : String)
    (started : List AsyncInfo) : (s.startInstance klee fn started).2.Fair := by
  have hnonempty : s.threadsQueue.isEmpty = false := by
    simpa using hqueue
  have halive : ∀ t, (s.startInstance klee fn started).2.Alive t ↔
      s.Alive t ∨ t = s.threads.length := by
    intro t
    unfold Alive Scheduling.startInstance
    simp only [List.getElem?_append]
    constructor
    · intro ht
      obtain ⟨hle, a, ha, hterminated⟩ := ht
      split at ha
      · exact .inl ⟨hle, a, ha, hterminated⟩
      · rw [List.getElem?_singleton] at ha
        split at ha
        · right
          omega
        · cases ha
    · intro ht
      rcases ht with ⟨hle, a, ha, hterminated⟩ | hnew
      · have hlt := (List.getElem?_eq_some_iff.mp ha).1
        refine ⟨hle, a, ?_, hterminated⟩
        rw [if_pos hlt]
        exact ha
      · subst hnew
        refine ⟨by omega, s.newThread klee fn, ?_, rfl⟩
        simp
  have hfresh : (s.threads.length : Int) ∉ s.threadsQueue := by
    intro hmem
    rcases h.queued _ hmem with hmain | ha
    · omega
    · have := ha.lt
      omega
  have hnext : (s.startInstance klee fn started).2.threadsQueue =
      s.threadsQueue ++ [(s.threads.length : Int)] := by
    simp [Scheduling.startInstance, hnonempty, newThread]
  refine ⟨?_, ?_, ?_, ?_, ?_, ?_⟩
  · rw [hnext, List.nodup_append]
    refine ⟨h.distinct, List.nodup_singleton _, ?_⟩
    intro a ha b hb heq
    rw [List.mem_singleton.mp hb] at heq
    exact hfresh (heq ▸ ha)
  · intro t ht
    rw [halive]
    rw [hnext] at ht
    rcases List.mem_append.mp ht with ht | ht
    · rcases h.queued t ht with hmain | ha
      · exact .inl hmain
      · exact .inr (.inl ha)
    · exact .inr (.inr (List.mem_singleton.mp ht))
  · intro t ht
    rw [hnext]
    rcases (halive t).mp ht with ha | hnew
    · exact List.mem_append_left _ (h.alive t ha)
    · exact List.mem_append_right _ (List.mem_singleton.mpr hnew)
  · rw [hnext, List.mem_append, List.mem_singleton]
    have hne : ¬ (-1 : Int) = s.threads.length := by omega
    show _ ↔ s.waitingForThreadsToTerminate = false
    rw [← h.main]
    exact ⟨fun hm => hm.resolve_right hne, Or.inl⟩
  · intro a ha
    rcases List.mem_append.mp ha with ha | ha
    · exact h.yields a ha
    · rw [List.mem_singleton.mp ha]
      intro hterminated
      cases hterminated
  · right
    simp [Scheduling.startInstance, newThread]

/-- The next one from the queue runs, and goes to the end of it. -/
theorem Fair.chooseNext (h : s.Fair) : ∃ r t, s.chooseNext = some (r, t) ∧ t.Fair ∧
    (r = -1 ∨ t.Alive r) := by
  unfold Scheduling.chooseNext
  cases hqueue : s.threadsQueue with
  | nil => exact ⟨-1, s, rfl, h, .inl rfl⟩
  | cons next rest =>
    have hperm : (rest ++ [next]).Perm s.threadsQueue := by
      rw [hqueue]
      exact List.perm_append_singleton next rest
    have hin : next ∈ s.threadsQueue := by
      rw [hqueue]
      exact List.mem_cons_self
    rcases h.queued next hin with hmain | ha
    · have hwaiting := h.main.mp (hmain ▸ hin)
      subst hmain
      simp only [hwaiting]
      refine ⟨-1, _, rfl, ?_, .inl rfl⟩
      refine ⟨hperm.nodup_iff.mpr h.distinct, ?_, ?_, ?_, h.yields, .inl rfl⟩
      · intro t ht
        exact h.queued t (hperm.mem_iff.mp ht)
      · intro t ht
        exact hperm.mem_iff.mpr (h.alive t ht)
      · simp
    · have hle := ha.1
      have hne := ha.ne_main
      have halive := Alive.congr s { s with
        threadsQueue := rest ++ [next]
        threads := s.threads.modify next.toNat fun a => { a with preemptable := false }
        rtid := next } (modify_terminated s.threads next.toNat false)
      simp only [hle, hne, decide_true, Bool.or_true, if_true, if_false]
      refine ⟨next, _, rfl, ?_, .inr ((halive next).mpr ha)⟩
      refine ⟨hperm.nodup_iff.mpr h.distinct, ?_, ?_, ?_, ?_, ?_⟩
      · intro t ht
        rw [halive]
        exact h.queued t (hperm.mem_iff.mp ht)
      · intro t ht
        exact hperm.mem_iff.mpr (h.alive t ((halive t).mp ht))
      · rw [← h.main]
        exact hperm.mem_iff
      · intro a hm hterminated
        obtain ⟨j, hj⟩ := List.mem_iff_getElem?.mp hm
        rw [List.getElem?_modify] at hj
        obtain ⟨b, hb, hab⟩ := Option.map_eq_some_iff.mp hj
        split at hab
        · rename_i heq
          obtain ⟨_, c, hc, hcalive⟩ := ha
          rw [heq, hb] at hc
          cases hc
          rw [← hab] at hterminated
          exact absurd (hcalive.symm.trans hterminated) (by decide)
        · rw [← hab] at hterminated ⊢
          exact h.yields b (List.mem_of_getElem? hb) hterminated
      · right
        rw [List.length_modify]
        exact ⟨hle, ha.lt⟩

theorem Fair.goesOn (h : s.Fair) : ∃ again, s.goesOn = some again ∧
    (again = true → s.rtid = -1 ∨ s.Alive s.rtid) := by
  unfold Scheduling.goesOn
  split
  · rename_i hmain
    simp only [Bool.and_eq_true, decide_eq_true_eq] at hmain
    exact ⟨true, rfl, fun _ => .inl hmain.1.2⟩
  · split
    · rename_i hle
      rcases h.running with hmain | ⟨_, hlt⟩
      · omega
      · rw [List.getElem?_eq_getElem hlt]
        refine ⟨_, rfl, ?_⟩
        intro hstays
        right
        refine ⟨hle, _, List.getElem?_eq_getElem hlt, ?_⟩
        have hyields := h.yields _ (List.getElem_mem hlt)
        cases hterminated : (s.threads[s.rtid.toNat]).terminated with
        | false => rfl
        | true =>
          dsimp only at hstays
          rw [hyields hterminated] at hstays
          cases hstays
    · exact ⟨false, rfl, fun hfalse => by cases hfalse⟩

/-- `scheduleAsync` returns, with main or a thread that is alive. -/
theorem Fair.schedules (h : s.Fair) : ∃ r t, s.scheduleAsync klee = some (r, t) ∧
    (r = -1 ∨ t.Alive r) := by
  obtain ⟨again, hagain, hrunning⟩ := h.goesOn
  unfold Scheduling.scheduleAsync
  rw [hagain, Option.bind_some]
  cases again with
  | true => exact ⟨s.rtid, s, rfl, hrunning rfl⟩
  | false =>
    cases hstart : startAsync s.initiatedAsync with
    | some found =>
      refine ⟨_, _, rfl, .inr ⟨Int.natCast_nonneg _, s.newThread klee found.1, ?_, rfl⟩⟩
      simp [newThread]
    | none =>
      obtain ⟨r, t, hnext, _, hr⟩ := h.chooseNext
      exact ⟨r, t, hnext, hr⟩

theorem Fair.scheduleAsync (h : s.Fair) (htime : StartsInTime s .scheduleAsync) {r : Int}
    (hs : s.scheduleAsync klee = some (r, s')) : s'.Fair := by
  unfold Scheduling.scheduleAsync at hs
  obtain ⟨again, hagain, hs⟩ := Option.bind_eq_some_iff.mp hs
  cases again with
  | true =>
    cases hs
    exact h
  | false =>
    cases hstart : startAsync s.initiatedAsync with
    | some found =>
      simp only [hstart] at hs
      cases hs
      refine h.startInstance ?_ found.1 found.2
      intro hempty
      -- main is in the queue unless it waits
      have hwaiting : s.waitingForThreadsToTerminate = true := by
        have hmain := h.main
        simpa [hempty] using hmain
      rw [htime rfl hwaiting hempty] at hstart
      cases hstart
    | none =>
      simp only [hstart] at hs
      obtain ⟨r', t, hnext, hfair, _⟩ := h.chooseNext
      cases hnext.symm.trans hs
      exact hfair

theorem run_fair {op : ThreadOp} (h : s.Fair) (hpossible : op.Possible s)
    (htime : StartsInTime s op) (hs : op.run klee s = some s') : s'.Fair := by
  cases op with
  | initiateAsync fn =>
    cases hs
    exact h.frame rfl rfl rfl rfl
  | scheduleAsync =>
    obtain ⟨⟨r, t⟩, hsome, heq⟩ := Option.map_eq_some_iff.mp hs
    cases heq
    exact h.scheduleAsync htime hsome
  | setPreemptable tid =>
    cases hs
    exact h.setPreemptable tid
  | terminateThread tid =>
    cases hs
    exact h.terminateThread hpossible.1
  | mainReturns =>
    cases hs
    exact h.setWaiting

theorem threadRun_fair (h : ThreadRun klee StartsInTime s) : s.Fair := by
  induction h with
  | start b => exact initial_fair b
  | step _ op hpossible hP hs ih => exact run_fair ih hpossible hP hs

/-- What the scheduler owes to its threads. -/
structure Schedules (klee : String → K) (s : Scheduling K) : Prop where
  returns : ∃ r t, s.scheduleAsync klee = some (r, t) ∧ (r = -1 ∨ t.Alive r)
  once : ∀ tid, s.Alive tid → s.threadsQueue.count tid = 1

/-- In a run that starts no instance while main waits alone, `scheduleAsync` returns main or
a thread that is alive, its assertion holds, and each thread that is alive is in the queue
once. -/
theorem run_schedules (klee : String → K) (s : Scheduling K)
    (h : ThreadRun klee StartsInTime s) : Schedules klee s := by
  have hfair := threadRun_fair h
  exact ⟨hfair.schedules, fun tid ht =>
    List.count_eq_one_of_mem hfair.distinct (hfair.alive tid ht)⟩

/-- The executor up to the return of main, which has started one thread. -/
def mainReturned : Scheduling Unit where
  threads := [{ function := "worker", klee := (), tid := 0, context := 0, preemptable := true }]
  threadsQueue := [0]
  waitingForThreadsToTerminate := true
  preemptable := false
  initiatedAsync := [{ function := "worker", numstarted := 1 }]

theorem mainReturned_run (P : Scheduling Unit → ThreadOp → Prop)
    (hP : ∀ s op, s.waitingForThreadsToTerminate = false → P s op) :
    ThreadRun (fun _ => ()) P mainReturned := by
  have hstart : ThreadRun (fun _ => ()) P _ := .start true
  exact hstart.step (.initiateAsync "worker") trivial (hP _ _ rfl) rfl
    |>.step (.setPreemptable (-1)) trivial (hP _ _ rfl) rfl
    |>.step .scheduleAsync trivial (hP _ _ rfl) rfl
    |>.step (.setPreemptable 0) trivial (hP _ _ rfl) rfl
    |>.step .scheduleAsync trivial (hP _ _ rfl) rfl
    |>.step .mainReturns ⟨rfl, rfl⟩ (hP _ _ rfl) rfl

theorem mainReturned_schedules : Schedules (fun _ => ()) mainReturned := by
  refine run_schedules _ _ (mainReturned_run _ ?_)
  intro s op hwaiting _ hwaiting'
  rw [hwaiting] at hwaiting'
  cases hwaiting'

/-- The thread starts another instance and terminates: main is in the queue again, and its
turn comes while it waits. -/
theorem late_instance_schedules_main : ¬ ∀ s : Scheduling Unit,
    ThreadRun (fun _ => ()) (fun _ _ => True) s → Schedules (fun _ => ()) s := by
  intro hall
  have hrun : ThreadRun (fun _ => ()) (fun _ _ => True) mainReturned :=
    mainReturned_run _ fun _ _ _ => trivial
  have hsecond := hrun.step .scheduleAsync trivial trivial rfl
    |>.step (.initiateAsync "worker") trivial trivial rfl
    |>.step (.terminateThread 0) ⟨by decide, rfl⟩ trivial rfl
    |>.step .scheduleAsync trivial trivial rfl
    |>.step (.setPreemptable 1) trivial trivial rfl
  obtain ⟨r, t, hnext, _⟩ := (hall _ hsecond).returns
  cases hnext

end Scheduling

end Encider
