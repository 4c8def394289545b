import Encider.Flow.Context

/-! The facts of a state's own path, and the runs in which each state sees exactly these. -/

namespace Encider

variable {R L M : Type}

/-- The facts of one path: those of each active call, the last one first, and those of the
memory. -/
structure PathFlow (R L M : Type) where
  contexts : List (R × L)
  memory : M

namespace PathFlow

def seen (p : PathFlow R L M) : Option (R × L × M) :=
  p.contexts.head?.map fun c => (c.1, c.2, p.memory)

def write (p : PathFlow R L M) (f : R × L × M → R × L × M) : PathFlow R L M :=
  match p.contexts with
  | [] => p
  | c :: rest =>
    let facts := f (c.1, c.2, p.memory)
    { contexts := (facts.1, facts.2.1) :: rest, memory := facts.2.2 }

def call (cfg : FlowConfig R L M) (p : PathFlow R L M) : PathFlow R L M :=
  { p with contexts := (cfg.regMap, cfg.localIFlow) :: p.contexts }

def ret (p : PathFlow R L M) : PathFlow R L M :=
  match p.contexts with
  | _ :: c :: rest => { p with contexts := c :: rest }
  | _ => p

def replace (cfg : FlowConfig R L M) (p : PathFlow R L M) : PathFlow R L M :=
  { p with contexts := (cfg.regMap, cfg.localIFlow) :: p.contexts.tail }

/-- The facts after a step of the path's own state. -/
def after (cfg : FlowConfig R L M) (p : PathFlow R L M) : FlowEvent R L M → PathFlow R L M
  | .write _ f => p.write f
  | .call _ | .callback _ => p.call cfg
  | .ret _ => p.ret
  | .extendExecutionWith _ => p.replace cfg
  | _ => p

end PathFlow

/-- The facts of all paths after a step: a new state begins with those of the old one. -/
def ownAfter (cfg : FlowConfig R L M) (g : FlowState R L M) (own : Nat → PathFlow R L M)
    (e : FlowEvent R L M) : Nat → PathFlow R L M :=
  match e with
  | .fork s | .branch s => Function.update own g.made (own s)
  | e => Function.update own e.actor ((own e.actor).after cfg e)

namespace FlowState

/-- The maps at an address hold these facts. -/
def Holds (g : FlowState R L M) (c : InfoFlowData) (facts : R × L) : Prop :=
  g.regMaps[c.regMap]? = some facts.1 ∧ g.localIFlows[c.localIFlow]? = some facts.2

/-- The current context is the last one of a state. -/
def Top (g : FlowState R L M) (s : Nat) : Prop :=
  ∃ c stk, g.infoflowstack s = some (c :: stk) ∧ g.currentInfoFlowContext = some c

/-- No other live state holds one of the current maps. -/
def Unshared (g : FlowState R L M) (s : Nat) : Prop :=
  ∀ c, g.currentInfoFlowContext = some c → ∀ t ∈ g.live, t ≠ s → ∀ stk,
    g.infoflowstack t = some stk → ∀ d ∈ stk, d.regMap ≠ c.regMap ∧ d.localIFlow ≠ c.localIFlow

/-- A state is the one selected last. -/
def InTurn (g : FlowState R L M) (s : Nat) : Prop :=
  g.Top s ∧ ∀ last ∈ g.live, g.lastState = some last → last = s

/-- The steps that keep the states apart. -/
def Apart (g : FlowState R L M) : FlowEvent R L M → Prop
  | .select s => g.lastState = none → g.Top s
  | .write s _ => g.Top s ∧ g.Unshared s
  | .call s => g.InTurn s
  | .ret s => 1 < g.calls s → g.InTurn s
  | .callback _ | .extendExecutionWith _ | .branch _ => False
  | .seed _ | .fork _ | .terminateState _ => True

/-- A state's stack, with one entry for each active call, holds the facts of its path. -/
structure Faithful (g : FlowState R L M) (s : Nat) (p : PathFlow R L M) (stk : List InfoFlowData) :
    Prop where
  stack : g.infoflowstack s = some stk
  calls : stk.length = g.calls s
  nonempty : stk ≠ []
  contexts : List.Forall₂ g.Holds stk p.contexts
  memory : g.memoryInfoFlow s = p.memory
  regMaps : (stk.map InfoFlowData.regMap).Nodup
  localIFlows : (stk.map InfoFlowData.localIFlow).Nodup

/-- What holds in every state of a run whose steps keep the states apart. -/
structure Settled (g : FlowState R L M) (own : Nat → PathFlow R L M) : Prop where
  faithful : ∀ s ∈ g.live, ∃ stk, g.Faithful s (own s) stk
  selected : ∀ s ∈ g.live, g.lastState = some s → g.Top s
  saved : ∀ s, g.lastState = some s → s < g.made ∧ (∃ c stk, g.infoflowstack s = some (c :: stk)) ∧
    ∃ c, g.currentInfoFlowContext = some c
  made : ∀ s ∈ g.live, s < g.made

variable {cfg : FlowConfig R L M} {g g' : FlowState R L M} {own : Nat → PathFlow R L M} {s t : Nat}
  {p : PathFlow R L M} {stk : List InfoFlowData}

theorem Holds.bounds {c : InfoFlowData} {facts : R × L} (h : g.Holds c facts) :
    c.regMap < g.regMaps.length ∧ c.localIFlow < g.localIFlows.length :=
  ⟨(List.getElem?_eq_some_iff.mp h.1).1, (List.getElem?_eq_some_iff.mp h.2).1⟩

/-- A step that leaves a state's stack, its calls, its memory and its maps alone. -/
theorem Faithful.frame (h : g.Faithful s p stk) (hs : g'.infoflowstack s = g.infoflowstack s)
    (hc : g'.calls s = g.calls s) (hm : g'.memoryInfoFlow s = g.memoryInfoFlow s)
    (hh : ∀ c ∈ stk, ∀ facts, g.Holds c facts → g'.Holds c facts) : g'.Faithful s p stk where
  stack := hs.trans h.stack
  calls := h.calls.trans hc.symm
  nonempty := h.nonempty
  contexts := by
    refine List.forall₂_iff_get.mpr ⟨h.contexts.length_eq, fun i hi hi' => ?_⟩
    exact hh _ (List.get_mem _ _) _ (h.contexts.get hi hi')
  memory := hm.trans h.memory
  regMaps := h.regMaps
  localIFlows := h.localIFlows

theorem Top.stack (h : g.Top s) (hf : g.Faithful s p stk) :
    ∃ c rest, stk = c :: rest ∧ g.currentInfoFlowContext = some c := by
  obtain ⟨c, rest, hs, hcur⟩ := h
  exact ⟨c, rest, Option.some_inj.mp (hf.stack.symm.trans hs), hcur⟩

/-- What a state sees at the top of its stack. -/
theorem Faithful.seen (h : g.Faithful s p stk) (ht : g.Top s) : g.seen s = p.seen := by
  obtain ⟨c, rest, rfl, hcur⟩ := ht.stack h
  cases hp : p.contexts with
  | nil =>
    have := h.contexts
    rw [hp] at this
    cases this
  | cons facts restFacts =>
    have hall := h.contexts
    rw [hp] at hall
    cases hall with
    | cons hhead htail =>
      simp [FlowState.seen, PathFlow.seen, hcur, hhead.1, hhead.2, hp, h.memory]

theorem Top.save (h : g.Top s) : g.saveInfoFlowContext s = some g := by
  obtain ⟨c, stk, hs, hc⟩ := h
  have hsame : Function.update g.infoflowstack s (some (c :: stk)) = g.infoflowstack := by
    rw [← hs]
    exact Function.update_eq_self s _
  unfold saveInfoFlowContext
  rw [hs, hc]
  exact congrArg some (by rw [setStack, hsame])

/-- The current context is not part of what a stack holds. -/
theorem Faithful.setCurrent (h : g.Faithful s p stk) (c : Option InfoFlowData)
    (last : Option Nat) :
    Faithful { g with currentInfoFlowContext := c, lastState := last } s p stk :=
  h.frame rfl rfl rfl fun _ _ _ hc => hc

/-- A live state is made the current one. -/
theorem Settled.turn (h : g.Settled own) (hs : s ∈ g.live) {last : Option Nat}
    (hlast : last = none ∨ last = some s) :
    ∃ g', g.updateCurrentInfoFlowContext s = some g' ∧
      Settled { g' with lastState := last } own ∧ g'.live = g.live ∧
      Top { g' with lastState := last } s := by
  obtain ⟨stk, hf⟩ := h.faithful s hs
  obtain ⟨c, rest, rfl⟩ := List.exists_cons_of_ne_nil hf.nonempty
  have htop : Top { g with currentInfoFlowContext := some c, lastState := last } s :=
    ⟨c, rest, hf.stack, rfl⟩
  have hlast (t : Nat) (ht : last = some t) : t = s := by
    rcases hlast with hno | hs
    · exact absurd (hno.symm.trans ht) (by simp)
    · exact Option.some_inj.mp (ht.symm.trans hs)
  refine ⟨{ g with currentInfoFlowContext := some c }, by
    simp [updateCurrentInfoFlowContext, hf.stack], ⟨?_, ?_, ?_, h.made⟩, rfl, htop⟩
  · intro t ht
    obtain ⟨stk, hft⟩ := h.faithful t ht
    exact ⟨stk, hft.setCurrent (some c) last⟩
  · intro t _ ht
    exact hlast t ht ▸ htop
  · intro t ht
    obtain rfl := hlast t ht
    exact ⟨h.made t hs, ⟨c, rest, hf.stack⟩, c, rfl⟩

/-- The context of the state selected last is saved; for a live one nothing changes. -/
theorem Settled.save (h : g.Settled own) {last : Nat} (hlast : g.lastState = some last) :
    ∃ g', g.saveInfoFlowContext last = some g' ∧ g'.Settled own ∧ g'.live = g.live := by
  by_cases hlive : last ∈ g.live
  · exact ⟨g, (h.selected last hlive hlast).save, h, rfl⟩
  · obtain ⟨hmade, ⟨d, stk, hs⟩, c, hc⟩ := h.saved last hlast
    have hne (t : Nat) (ht : t ∈ g.live) : t ≠ last := fun he => hlive (he ▸ ht)
    refine ⟨g.setStack last (c :: stk), by simp [saveInfoFlowContext, hs, hc],
      ⟨?_, ?_, ?_, h.made⟩, rfl⟩
    · intro t ht
      obtain ⟨stk, hft⟩ := h.faithful t ht
      exact ⟨stk, hft.frame (Function.update_of_ne (hne t ht) _ _) rfl rfl fun _ _ _ hh => hh⟩
    · intro t ht hsel
      exact absurd (Option.some_inj.mp (hsel.symm.trans hlast)) (hne t ht)
    · intro t ht
      obtain rfl : t = last := Option.some_inj.mp (ht.symm.trans hlast)
      exact ⟨hmade, ⟨c, stk, Function.update_self _ _ _⟩, c, hc⟩

/-- The switch to a live state. -/
theorem Settled.select (h : g.Settled own) (hs : s ∈ g.live) (hok : g.lastState = none → g.Top s) :
    ∃ g', g.select s = some g' ∧ g'.Settled own ∧ g'.live = g.live ∧ g'.Top s := by
  unfold FlowState.select
  cases hlast : g.lastState with
  | none =>
    obtain ⟨stk, hf⟩ := h.faithful s hs
    obtain ⟨c, rest, hstk, hc⟩ := hok hlast
    have htop : Top { g with lastState := some s } s := ⟨c, rest, hstk, hc⟩
    refine ⟨_, rfl, ⟨?_, ?_, ?_, h.made⟩, rfl, htop⟩
    · intro t ht
      obtain ⟨stk, hft⟩ := h.faithful t ht
      exact ⟨stk, hft.setCurrent g.currentInfoFlowContext (some s)⟩
    · intro t _ ht
      exact Option.some_inj.mp ht ▸ htop
    · intro t ht
      obtain rfl := Option.some_inj.mp ht
      exact ⟨h.made s hs, ⟨c, rest, hstk⟩, c, hc⟩
  | some last =>
    dsimp only
    by_cases hsame : last = s
    · subst hsame
      rw [if_neg (not_not.mpr rfl)]
      exact ⟨g, rfl, h, rfl, h.selected last hs hlast⟩
    · obtain ⟨g₁, hg₁, hsettled, hlive⟩ := h.save hlast
      obtain ⟨g₂, hg₂, hsettled₂, hlive₂, htop⟩ :=
        hsettled.turn (hlive ▸ hs) (.inr rfl)
      rw [if_pos hsame, hg₁, Option.bind_some, hg₂]
      exact ⟨_, rfl, hsettled₂, hlive₂.trans hlive, htop⟩

/-- The facts of one state change, and nothing else that the others depend on. -/
theorem Settled.change (h : g.Settled own) {q : PathFlow R L M}
    (hself : s ∈ g.live → ∃ stk, g'.Faithful s q stk)
    (hother : ∀ t ∈ g.live, t ≠ s → ∀ stk, g.Faithful t (own t) stk → g'.Faithful t (own t) stk)
    (hselected : ∀ t ∈ g.live, g'.lastState = some t → g'.Top t)
    (hsaved : ∀ t, g'.lastState = some t → t < g.made ∧
      (∃ c stk, g'.infoflowstack t = some (c :: stk)) ∧ ∃ c, g'.currentInfoFlowContext = some c)
    (hlive : g'.live = g.live) (hmade : g'.made = g.made) :
    g'.Settled (Function.update own s q) := by
  refine ⟨?_, ?_, ?_, ?_⟩
  · intro t ht
    rw [hlive] at ht
    by_cases hts : t = s
    · subst hts
      rw [Function.update_self]
      exact hself ht
    · rw [Function.update_of_ne hts]
      obtain ⟨stk, hf⟩ := h.faithful t ht
      exact ⟨stk, hother t ht hts stk hf⟩
  · intro t ht
    exact hselected t (hlive ▸ ht)
  · intro t ht
    rw [hmade]
    exact hsaved t ht
  · intro t ht
    rw [hmade]
    exact h.made t (hlive ▸ ht)

/-- An instruction writes to maps that no other live state holds. -/
theorem Settled.write (h : g.Settled own) (hs : s ∈ g.live) (ht : g.Top s) (hu : g.Unshared s)
    (f : R × L × M → R × L × M) :
    ∃ g', g.write s f = some g' ∧ g'.Settled (Function.update own s ((own s).write f)) := by
  obtain ⟨stk, hf⟩ := h.faithful s hs
  obtain ⟨c, rest, rfl, hc⟩ := ht.stack hf
  have hseen := hf.seen ht
  obtain ⟨facts, restFacts, hp⟩ : ∃ facts restFacts, (own s).contexts = facts :: restFacts := by
    refine List.exists_cons_of_ne_nil fun hno => ?_
    have := hf.contexts.length_eq
    simp [hno] at this
  have hcontexts := hf.contexts
  rw [hp] at hcontexts
  obtain ⟨hhead, htail⟩ := List.forall₂_cons.mp hcontexts
  have hown : (own s).seen = some (facts.1, facts.2, (own s).memory) := by
    simp [PathFlow.seen, hp]
  generalize hout : f (facts.1, facts.2, (own s).memory) = out
  let g₁ : FlowState R L M := { g with
    regMaps := g.regMaps.set c.regMap out.1
    localIFlows := g.localIFlows.set c.localIFlow out.2.1
    memoryInfoFlow := Function.update g.memoryInfoFlow s out.2.2 }
  have hwrite : g.write s f = some g₁ := by
    unfold FlowState.write
    rw [hc, Option.bind_some, hseen, hown, Option.map_some, hout]
    simp only [g₁, hc]
  have hq : (own s).write f = { contexts := (out.1, out.2.1) :: restFacts, memory := out.2.2 } := by
    simp only [PathFlow.write, hp, hout]
  -- the maps at other addresses are the same
  have hkeep (d : InfoFlowData) (hd : d.regMap ≠ c.regMap ∧ d.localIFlow ≠ c.localIFlow)
      (x : R × L) (hh : g.Holds d x) : g₁.Holds d x :=
    ⟨(List.getElem?_set_ne hd.1.symm).trans hh.1, (List.getElem?_set_ne hd.2.symm).trans hh.2⟩
  refine ⟨g₁, hwrite, h.change (fun _ => ⟨c :: rest, ?_⟩) ?_ ?_ ?_ rfl rfl⟩
  · have hregs := hf.regMaps
    have hflows := hf.localIFlows
    simp only [List.map_cons, List.nodup_cons, List.mem_map, not_exists, not_and] at hregs hflows
    rw [hq]
    refine ⟨hf.stack, hf.calls, hf.nonempty, ?_, Function.update_self _ _ _, hf.regMaps,
      hf.localIFlows⟩
    refine .cons ⟨List.getElem?_set_self hhead.bounds.1, List.getElem?_set_self hhead.bounds.2⟩ ?_
    refine List.forall₂_iff_get.mpr ⟨htail.length_eq, fun i hi hi' => ?_⟩
    exact hkeep _ ⟨hregs.1 _ (List.get_mem _ _), hflows.1 _ (List.get_mem _ _)⟩ _
      (htail.get hi hi')
  · intro t htlive hts stk hft
    exact hft.frame rfl rfl (Function.update_of_ne hts _ _) fun d hd x hh =>
      hkeep d (hu c hc t htlive hts stk hft.stack d hd) x hh
  · exact fun t htlive hsel => h.selected t htlive hsel
  · exact h.saved

theorem Holds.newContext {c : InfoFlowData} {facts : R × L} (h : g.Holds c facts) :
    (g.newContext cfg).1.Holds c facts :=
  ⟨(List.getElem?_append_left h.bounds.1).trans h.1,
    (List.getElem?_append_left h.bounds.2).trans h.2⟩

theorem newContext_holds : (g.newContext cfg).1.Holds (g.newContext cfg).2
    (cfg.regMap, cfg.localIFlow) := by
  constructor
  · simp [newContext]
  · simp [newContext]

/-- The state selected last calls a function. -/
theorem Settled.call (h : g.Settled own) (hs : s ∈ g.live) (ht : g.InTurn s) :
    ∃ g', (g.pushFrame s).pushInfoFlowContext cfg s = some g' ∧
      g'.Settled (Function.update own s ((own s).call cfg)) := by
  obtain ⟨stk, hf⟩ := h.faithful s hs
  have hsave : (g.pushFrame s).saveInfoFlowContext s = some (g.pushFrame s) :=
    Top.save (g := g.pushFrame s) ht.1
  have hstack : (g.pushFrame s).infoflowstack s = some stk := hf.stack
  have hfresh : ∀ d ∈ stk, d.regMap ≠ g.regMaps.length ∧ d.localIFlow ≠ g.localIFlows.length := by
    intro d hd
    obtain ⟨i, hi, rfl⟩ := List.getElem_of_mem hd
    have hbounds := (hf.contexts.get hi (hf.contexts.length_eq ▸ hi)).bounds
    exact ⟨Nat.ne_of_lt hbounds.1, Nat.ne_of_lt hbounds.2⟩
  have hholds (t : Nat) (c : Option InfoFlowData) (new : List InfoFlowData) (d : InfoFlowData)
      (x : R × L) (hh : ((g.pushFrame s).newContext cfg).1.Holds d x) :
      Holds { ((g.pushFrame s).newContext cfg).1.setStack t new with
        currentInfoFlowContext := c } d x := hh
  unfold pushInfoFlowContext
  rw [hsave, Option.bind_some, hstack, Option.map_some]
  refine ⟨_, rfl, h.change (fun _ => ⟨_, Function.update_self _ _ _, ?_, List.cons_ne_nil _ _, ?_,
    hf.memory, ?_, ?_⟩) ?_ ?_ ?_ rfl rfl⟩
  · show stk.length + 1 = Function.update g.calls s (g.calls s + 1) s
    rw [Function.update_self, hf.calls]
  · refine .cons (hholds _ _ _ _ _ newContext_holds) ?_
    refine List.forall₂_iff_get.mpr ⟨hf.contexts.length_eq, fun i hi hi' => ?_⟩
    exact hholds _ _ _ _ _ (Holds.newContext (g := g.pushFrame s) (hf.contexts.get hi hi'))
  · rw [List.map_cons, List.nodup_cons]
    refine ⟨fun hm => ?_, hf.regMaps⟩
    obtain ⟨d, hd, he⟩ := List.mem_map.mp hm
    exact (hfresh d hd).1 he
  · rw [List.map_cons, List.nodup_cons]
    refine ⟨fun hm => ?_, hf.localIFlows⟩
    obtain ⟨d, hd, he⟩ := List.mem_map.mp hm
    exact (hfresh d hd).2 he
  · intro t _ hts stk' hft
    exact hft.frame (Function.update_of_ne hts _ _) (Function.update_of_ne hts _ _) rfl
      fun d _ x hh => hholds _ _ _ _ _ (Holds.newContext (g := g.pushFrame s) hh)
  · intro t htlive hsel
    obtain rfl := ht.2 t htlive hsel
    exact ⟨_, _, Function.update_self _ _ _, rfl⟩
  · intro t hsel
    obtain ⟨hmade, ⟨c, rest, hst⟩, -⟩ := h.saved t hsel
    refine ⟨hmade, ?_, _, rfl⟩
    by_cases hts : t = s
    · subst hts
      exact ⟨_, _, Function.update_self _ _ _⟩
    · exact ⟨c, rest, (Function.update_of_ne hts _ _).trans hst⟩

/-- The state selected last returns from a function. -/
theorem Settled.ret (h : g.Settled own) (hs : s ∈ g.live) (hcalls : 1 < g.calls s)
    (ht : g.InTurn s) :
    ∃ g', (g.popFrame s).popInfoFlowContext s = some g' ∧
      g'.Settled (Function.update own s (own s).ret) := by
  obtain ⟨stk, hf⟩ := h.faithful s hs
  have hlen := hf.calls
  obtain ⟨c, d, rest, rfl⟩ : ∃ c d rest, stk = c :: d :: rest := by
    cases stk with
    | nil => simp at hlen; omega
    | cons c stk =>
      cases stk with
      | nil => simp at hlen; omega
      | cons d rest => exact ⟨c, d, rest, rfl⟩
  have hcontexts := hf.contexts
  obtain ⟨x, y, restFacts, hp⟩ : ∃ x y restFacts, (own s).contexts = x :: y :: restFacts := by
    generalize (own s).contexts = contexts at hcontexts
    cases hcontexts with
    | cons _ htail =>
      cases htail with
      | cons _ _ => exact ⟨_, _, _, rfl⟩
  rw [hp] at hcontexts
  have hstack : (g.popFrame s).infoflowstack s = some (c :: d :: rest) := hf.stack
  have hq : (own s).ret = { contexts := y :: restFacts, memory := (own s).memory } := by
    simp only [PathFlow.ret, hp]
  unfold popInfoFlowContext
  rw [hstack]
  refine ⟨_, rfl, h.change (fun _ => ⟨d :: rest, Function.update_self _ _ _, ?_,
    List.cons_ne_nil _ _, ?_, ?_, (List.nodup_cons.mp hf.regMaps).2,
    (List.nodup_cons.mp hf.localIFlows).2⟩) ?_ ?_ ?_ rfl rfl⟩
  · show rest.length + 1 = Function.update g.calls s (g.calls s - 1) s
    rw [Function.update_self, ← hlen]
    rfl
  · rw [hq]
    exact (List.forall₂_cons.mp hcontexts).2
  · rw [hq]
    exact hf.memory
  · intro t _ hts stk' hft
    exact hft.frame (Function.update_of_ne hts _ _) (Function.update_of_ne hts _ _) rfl
      fun _ _ _ hh => hh
  · intro t htlive hsel
    obtain rfl := ht.2 t htlive hsel
    exact ⟨_, _, Function.update_self _ _ _, rfl⟩
  · intro t hsel
    obtain ⟨hmade, ⟨c', rest', hst⟩, -⟩ := h.saved t hsel
    refine ⟨hmade, ?_, _, rfl⟩
    by_cases hts : t = s
    · subst hts
      exact ⟨_, _, Function.update_self _ _ _⟩
    · exact ⟨c', rest', (Function.update_of_ne hts _ _).trans hst⟩

/-- A return from the first function. -/
theorem Faithful.ret_first (h : g.Faithful s p stk) (hcalls : g.calls s ≤ 1) : p.ret = p := by
  have hlen : p.contexts.length ≤ 1 := by
    rw [← h.contexts.length_eq, h.calls]
    exact hcalls
  unfold PathFlow.ret
  split
  · rename_i hp
    rw [hp] at hlen
    simp at hlen
  · rfl

/-- A fork: the new state holds the facts of the old one. -/
theorem Settled.fork (h : g.Settled own) (hs : s ∈ g.live) :
    ∃ g', (g.addState s).cloneInfoFlowContext s g.made = some g' ∧
      g'.Settled (Function.update own g.made (own s)) := by
  obtain ⟨stk, hf⟩ := h.faithful s hs
  have hstack : (g.addState s).infoflowstack s = some stk := hf.stack
  have hne (t : Nat) (ht : t ∈ g.live) : t ≠ g.made := Nat.ne_of_lt (h.made t ht)
  unfold cloneInfoFlowContext
  rw [hstack, Option.map_some]
  refine ⟨_, rfl, ?_, ?_, ?_, ?_⟩
  · intro t ht
    rcases List.mem_cons.mp ht with he | ht
    · subst he
      rw [Function.update_self]
      refine ⟨stk, Function.update_self _ _ _, ?_, hf.nonempty, hf.contexts,
        (Function.update_self _ _ _).trans hf.memory, hf.regMaps, hf.localIFlows⟩
      show stk.length = Function.update g.calls g.made (g.calls s) g.made
      rw [Function.update_self, hf.calls]
    · obtain ⟨stk', hft⟩ := h.faithful t ht
      rw [Function.update_of_ne (hne t ht)]
      exact ⟨stk', hft.frame (Function.update_of_ne (hne t ht) _ _)
        (Function.update_of_ne (hne t ht) _ _) (Function.update_of_ne (hne t ht) _ _)
        fun _ _ _ hh => hh⟩
  · intro t ht hsel
    have hlt := (h.saved t hsel).1
    rcases List.mem_cons.mp ht with he | ht
    · omega
    · obtain ⟨c, rest, hst, hc⟩ := h.selected t ht hsel
      exact ⟨c, rest, (Function.update_of_ne (hne t ht) _ _).trans hst, hc⟩
  · intro t hsel
    obtain ⟨hmade, ⟨c, rest, hst⟩, hc⟩ := h.saved t hsel
    exact ⟨Nat.lt_succ_of_lt hmade,
      ⟨c, rest, (Function.update_of_ne (Nat.ne_of_lt hmade) _ _).trans hst⟩, hc⟩
  · intro t ht
    rcases List.mem_cons.mp ht with he | ht
    · show t < g.made + 1
      omega
    · exact Nat.lt_succ_of_lt (h.made t ht)

/-- A state ends. -/
theorem Settled.terminateState (h : g.Settled own) :
    Settled { g with live := g.live.filter (· ≠ s) } own := by
  have hsub (t : Nat) (ht : t ∈ g.live.filter (· ≠ s)) : t ∈ g.live := List.mem_of_mem_filter ht
  refine ⟨?_, ?_, h.saved, fun t ht => h.made t (hsub t ht)⟩
  · intro t ht
    obtain ⟨stk, hft⟩ := h.faithful t (hsub t ht)
    exact ⟨stk, hft.frame rfl rfl rfl fun _ _ _ hh => hh⟩
  · exact fun t ht hsel => h.selected t (hsub t ht) hsel

/-- A step that keeps the states apart. -/
theorem Settled.step (h : g.Settled own) (hcfg : cfg.infoflow = true) {e : FlowEvent R L M}
    (hok : g.Apart e) (hs : g.step cfg e = some g') : g'.Settled (ownAfter cfg g own e) := by
  unfold FlowState.step at hs
  split at hs
  · rename_i hlive
    cases e with
    | select s =>
      obtain ⟨g₁, hg₁, hsettled, -⟩ := h.select hlive hok
      cases hg₁.symm.trans hs
      rwa [show ownAfter cfg g own (.select s) = own from Function.update_eq_self _ _]
    | seed s =>
      have hlive : s ∈ g.live := hlive
      obtain ⟨g₁, hg₁, hsettled, -⟩ := h.turn hlive (.inl rfl)
      simp only [act, hcfg, if_true] at hs
      rw [hg₁] at hs
      cases hs
      rwa [show ownAfter cfg g own (.seed s) = own from Function.update_eq_self _ _]
    | write s f =>
      obtain ⟨g₁, hg₁, hsettled⟩ := h.write hlive hok.1 hok.2 f
      cases hg₁.symm.trans hs
      exact hsettled
    | call s =>
      obtain ⟨g₁, hg₁, hsettled⟩ := h.call hlive hok
      simp only [act, hcfg, if_true] at hs
      cases hg₁.symm.trans hs
      exact hsettled
    | ret s =>
      simp only [act, hcfg, if_true] at hs
      split at hs
      · rename_i hcalls
        cases hs
        obtain ⟨stk, hf⟩ := h.faithful s hlive
        rw [show ownAfter cfg g own (.ret s) = own from
          (congrArg _ (hf.ret_first hcalls)).trans (Function.update_eq_self _ _)]
        exact h
      · rename_i hcalls
        have hcalls : 1 < g.calls s := by omega
        obtain ⟨g₁, hg₁, hsettled⟩ := h.ret hlive hcalls (hok hcalls)
        cases hg₁.symm.trans hs
        exact hsettled
    | callback | extendExecutionWith | branch => exact hok.elim
    | fork s =>
      obtain ⟨g₁, hg₁, hsettled⟩ := h.fork hlive
      cases hg₁.symm.trans hs
      exact hsettled
    | terminateState s =>
      cases hs
      rw [show ownAfter cfg g own (.terminateState s) = own from Function.update_eq_self _ _]
      exact h.terminateState
  · cases hs

/-- The facts with which a path begins. -/
def initialOwn (cfg : FlowConfig R L M) : Nat → PathFlow R L M :=
  fun _ => { contexts := [(cfg.regMap, cfg.localIFlow)], memory := cfg.memoryInfoFlow }

theorem initial_settled (hcfg : cfg.infoflow = true) :
    (initial cfg).Settled (initialOwn cfg) := by
  simp only [initial, hcfg, if_true, initInfoFlowContext, newContext, List.nil_append]
  refine ⟨?_, ?_, ?_, ?_⟩
  · intro s hs
    obtain rfl := List.mem_singleton.mp hs
    exact ⟨[⟨0, 0⟩], rfl, rfl, List.cons_ne_nil _ _,
      .cons ⟨rfl, rfl⟩ .nil, rfl, List.nodup_singleton _, List.nodup_singleton _⟩
  · intro s _ hsel
    cases hsel
  · intro s hsel
    cases hsel
  · intro s hs
    obtain rfl := List.mem_singleton.mp hs
    exact Nat.zero_lt_one

end FlowState

/-- A run whose steps meet `ok`, with the facts of the states' own paths. -/
inductive FlowRun (cfg : FlowConfig R L M) (ok : FlowState R L M → FlowEvent R L M → Prop) :
    FlowState R L M → (Nat → PathFlow R L M) → Prop
  | start : FlowRun cfg ok (.initial cfg) (FlowState.initialOwn cfg)
  | step {g g' : FlowState R L M} {own : Nat → PathFlow R L M} {e : FlowEvent R L M}
      (h : FlowRun cfg ok g own) (hok : ok g e) (hs : g.step cfg e = some g') :
      FlowRun cfg ok g' (ownAfter cfg g own e)

theorem FlowRun.settled {cfg : FlowConfig R L M} {g : FlowState R L M}
    {own : Nat → PathFlow R L M} (hcfg : cfg.infoflow = true)
    (h : FlowRun cfg FlowState.Apart g own) : g.Settled own := by
  induction h with
  | start => exact FlowState.initial_settled hcfg
  | step _ hok hs ih => exact ih.step hcfg hok hs

/-- With INFOFLOW defined, in a run whose steps keep the states apart, each live state has
its own stack with one entry for each active call, its maps hold the facts of its own path,
and these are what the state sees when it is resumed. -/
theorem contexts_of_own_path {cfg : FlowConfig R L M} (hcfg : cfg.infoflow = true)
    {g : FlowState R L M} {own : Nat → PathFlow R L M} (hrun : FlowRun cfg FlowState.Apart g own)
    {s : Nat} (hs : s ∈ g.live) :
    (∃ stk, g.Faithful s (own s) stk) ∧
      (g.Apart (.select s) →
        ∃ g', g.step cfg (.select s) = some g' ∧ g'.seen s = (own s).seen) := by
  have hsettled := hrun.settled hcfg
  refine ⟨hsettled.faithful s hs, fun hok => ?_⟩
  obtain ⟨g', hg', hsettled', hlive, htop⟩ := hsettled.select hs hok
  obtain ⟨stk, hf⟩ := hsettled'.faithful s (hlive ▸ hs)
  exact ⟨g', (if_pos hs).trans hg', hf.seen htop⟩

/-- Register maps and flow facts as lists of numbers. -/
def listFlow (infoflow : Bool) : FlowConfig (List Nat) (List Nat) Unit where
  infoflow := infoflow
  regMap := []
  localIFlow := []
  memoryInfoFlow := ()

/-- An instruction that adds a fact. -/
def addFact (n : Nat) (facts : List Nat × List Nat × Unit) : List Nat × List Nat × Unit :=
  (facts.1, n :: facts.2.1, ())

/-- The function called by the first state adds a fact; then the state is forked, and the
new state sees that fact. -/
theorem forked_sees_fact :
    ∃ g own, FlowRun (listFlow true) FlowState.Apart g own ∧
      (∃ stk, g.Faithful 1 (own 1) stk) ∧
      ∃ g', g.step (listFlow true) (.select 1) = some g' ∧ g'.seen 1 = some ([], [7], ()) := by
  have hselect : FlowRun (listFlow true) FlowState.Apart _ _ :=
    .step (e := .select 0) .start (fun _ => ⟨_, _, rfl, rfl⟩) rfl
  have hcall : FlowRun (listFlow true) FlowState.Apart _ _ :=
    .step (e := .call 0) hselect
      ⟨⟨_, _, rfl, rfl⟩, fun last _ h => (Option.some_inj.mp h).symm⟩ rfl
  have hwrite : FlowRun (listFlow true) FlowState.Apart _ _ :=
    .step (e := .write 0 (addFact 7)) hcall
      ⟨⟨_, _, rfl, rfl⟩, fun c _ t ht hne => absurd (List.mem_singleton.mp ht) hne⟩ rfl
  have hfork : FlowRun (listFlow true) FlowState.Apart _ _ :=
    .step (e := .fork 0) hwrite trivial rfl
  obtain ⟨hfaithful, hresumed⟩ := contexts_of_own_path rfl hfork (s := 1) List.mem_cons_self
  obtain ⟨g', hg', hseen⟩ := hresumed fun h => by cases h
  exact ⟨_, _, hfork, hfaithful, g', hg', hseen⟩

/-- A fork copies the pointers only: what the first state adds after the fork is what the
new state sees, though its own path has no facts. -/
theorem fork_shares_maps :
    ∃ g own, FlowRun (listFlow true) (fun _ _ => True) g own ∧ 1 ∈ g.live ∧
      g.lastState = some 0 ∧ (own 1).seen = some ([], [], ()) ∧
      ∃ g', g.step (listFlow true) (.select 1) = some g' ∧ g'.seen 1 = some ([], [7], ()) := by
  have hselect : FlowRun (listFlow true) (fun _ _ => True) _ _ :=
    .step (e := .select 0) .start trivial rfl
  have hfork : FlowRun (listFlow true) (fun _ _ => True) _ _ :=
    .step (e := .fork 0) hselect trivial rfl
  have hwrite : FlowRun (listFlow true) (fun _ _ => True) _ _ :=
    .step (e := .write 0 (addFact 7)) hfork trivial rfl
  exact ⟨_, _, hwrite, List.mem_cons_self, rfl, rfl, _, rfl, rfl⟩

/-- A state made by `branch` has no stack, and the switch to it reads a null pointer. -/
theorem branch_leaves_no_stack :
    ∃ g own, FlowRun (listFlow true) (fun _ _ => True) g own ∧ 1 ∈ g.live ∧
      g.infoflowstack 1 = none ∧ g.step (listFlow true) (.select 1) = none := by
  have hselect : FlowRun (listFlow true) (fun _ _ => True) _ _ :=
    .step (e := .select 0) .start trivial rfl
  have hbranch : FlowRun (listFlow true) (fun _ _ => True) _ _ :=
    .step (e := .branch 0) hselect trivial rfl
  exact ⟨_, _, hbranch, List.mem_cons_self, rfl, rfl⟩

end Encider
