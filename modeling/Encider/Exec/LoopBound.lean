import Encider.Exec.LastCondition

namespace Encider

theorem PathState.addConstraint_counts {s t : PathState} {c : Constraint} {forBranch : Bool}
    (h : s.addConstraint c forBranch = some t) : s.SameCounts t := by
  unfold PathState.addConstraint at h
  split at h
  · split at h
    · cases h
      exact fun key side => rfl
    · cases h
  · cases h
    exact fun key side => rfl

/-- A fork gives both successors the counts of the state. -/
theorem fork_counts {S : Solver} {o : ForkOptions} {s t : PathState} {cond : Constraint}
    {forBranch : Bool} {first second : Option PathState}
    (h : fork S o s cond forBranch = some (first, second))
    (ht : first = some t ∨ second = some t) : s.SameCounts t := by
  unfold fork at h
  split at h
  · cases h
    rcases ht with ht | ht <;> cases ht
    exact fun key side => rfl
  · cases h
    rcases ht with ht | ht <;> cases ht
    exact fun key side => rfl
  · rw [Option.map_eq_some_iff] at h
    obtain ⟨a, ha, h⟩ := h
    cases h
    rcases ht with ht | ht <;> cases ht
    exact PathState.addConstraint_counts ha
  · rw [Option.map_eq_some_iff] at h
    obtain ⟨a, ha, h⟩ := h
    cases h
    rcases ht with ht | ht <;> cases ht
    exact PathState.addConstraint_counts ha
  · rw [Option.bind_eq_some_iff] at h
    obtain ⟨a, ha, h⟩ := h
    rw [Option.map_eq_some_iff] at h
    obtain ⟨b, hb, h⟩ := h
    split at h
    · cases h
      rcases ht with ht | ht <;> cases ht
    · cases h
      rcases ht with ht | ht <;> cases ht
      · exact (PathState.addConstraint_counts ha :)
      · exact (PathState.addConstraint_counts hb :)

/-- Both incremented counts exceed the bound. -/
def BothExceed (o : ForkOptions) (key : String) (s : PathState) : Prop :=
  o.loopBound < s.getForkFreq key false + 1 ∧ o.loopBound < s.getForkFreq key true + 1

/-- What becomes of the counts on a path that goes on behind a branch. -/
inductive CountsAfter (S : Solver) (o : ForkOptions) (excluded : String → Bool)
    (site : BranchSite) (s : PathState) (cond : Constraint) : Bool → PathState → Prop
  | unbounded {side s'} (hb : ¬ site.Bounded o excluded) (hc : s.SameCounts s') :
      CountsAfter S o excluded site s cond side s'
  | single {side s'} (hb : site.Bounded o excluded) (h2 : ¬ ForksTwoWay S o s cond)
      (hc : (s.addForkFreq site.key side).SameCounts s') :
      CountsAfter S o excluded site s cond side s'
  | onTrue {s'} (hb : site.Bounded o excluded) (h2 : ForksTwoWay S o s cond)
      (hle : ¬ o.loopBound < s.getForkFreq site.key true + 1)
      (hc : ((s.addForkFreq site.key true).addForkFreq site.key false).SameCounts s') :
      CountsAfter S o excluded site s cond true s'
  | onFalse {s'} (hb : site.Bounded o excluded) (h2 : ForksTwoWay S o s cond)
      (hle : BothExceed o site.key s ∨ ¬ o.loopBound < s.getForkFreq site.key false + 1)
      (hc : s.SameCounts s') : CountsAfter S o excluded site s cond false s'

section

variable {S : Solver} {o : ForkOptions} {excluded : String → Bool} {site : BranchSite}
  {s s' : PathState} {cond : Constraint} {r : BrResult} {side : Bool}

theorem boundedFirst_counts (o : ForkOptions) (key : String) (cond : Constraint)
    (first : PathState) : first.SameCounts (boundedFirst o key cond first).state := by
  unfold boundedFirst
  cases o.handleSingleSuccessors <;> exact fun _ _ => rfl

theorem boundedSecond_counts (o : ForkOptions) (key : String) (cond : Constraint)
    (second : PathState) : second.SameCounts (boundedSecond o key cond second).state := by
  unfold boundedSecond
  dsimp only
  split
  · exact fun _ _ => rfl
  · cases o.handleSingleSuccessors <;> exact fun _ _ => rfl

/-- The successor that goes on has its own counts, and the bounds that let it go on
are read off the counts of the first one. -/
theorem boundedBoth_counts {key : String} {first second : PathState}
    (h : (boundedBoth o key cond first second).Survives side s') :
    (side = true ∧ first.SameCounts s' ∧ ¬ o.loopBound < first.getForkFreq key true) ∨
      (side = false ∧ second.SameCounts s' ∧
        ((o.loopBound < first.getForkFreq key false ∧ o.loopBound < first.getForkFreq key true) ∨
          ¬ o.loopBound < first.getForkFreq key false)) := by
  generalize hr : boundedBoth o key cond first second = r at h
  obtain ⟨c, hc, ht, hs⟩ := h
  unfold boundedBoth at hr
  dsimp only [gt_iff_lt] at hr
  split at hr
  · rename_i hboth
    cases hr
    cases side with
    | true =>
      cases hc
      cases ht
    | false =>
      cases hc
      cases hs
      exact .inr ⟨rfl, fun _ _ => rfl, .inl hboth⟩
  · split at hr
    · rename_i hnb htc
      cases hr
      cases side with
      | true =>
        cases hc
        cases ht
      | false =>
        cases hc
        cases hs
        refine .inr ⟨rfl, ?_, .inr fun hfc => hnb ⟨hfc, htc⟩⟩
        cases o.handleSingleSuccessors <;> exact fun _ _ => rfl
    · split at hr
      · rename_i htc hfc
        cases hr
        cases side with
        | true =>
          cases hc
          cases hs
          refine .inl ⟨rfl, ?_, htc⟩
          cases o.handleSingleSuccessors <;> exact fun _ _ => rfl
        | false =>
          cases hc
          cases ht
      · rename_i htc hfc
        cases hr
        cases side with
        | true =>
          cases hc
          cases hs
          exact .inl ⟨rfl, fun _ _ => rfl, htc⟩
        | false =>
          cases hc
          cases hs
          exact .inr ⟨rfl, fun _ _ => rfl, .inr hfc⟩

/-- A path that goes on behind a branch has taken one of four ways. -/
theorem executeBr_counts (hr : executeBr S o excluded site s cond = some r)
    (h : r.Survives side s') : CountsAfter S o excluded site s cond side s' := by
  unfold executeBr at hr
  rw [Option.map_eq_some_iff] at hr
  obtain ⟨⟨first, second⟩, hfork, hr⟩ := hr
  have hcounts : ∀ {t}, first = some t ∨ second = some t → s.SameCounts t := fork_counts hfork
  by_cases hb : site.Bounded o excluded
  · rw [if_pos hb] at hr
    cases first with
    | none =>
      have hone : ¬ ForksTwoWay S o s cond := by
        intro h2
        obtain ⟨f, g, h2⟩ := h2
        rw [hfork] at h2
        cases h2
      obtain ⟨c, hc, -, hs⟩ := h
      cases second with
      | none =>
        cases hr
        cases side <;> cases hc
      | some b =>
        cases hr
        cases side <;> cases hc
        cases hs
        exact .single hb hone (((hcounts (.inr rfl)).add _ _).trans (boundedSecond_counts _ _ _ _))
    | some a =>
      cases second with
      | none =>
        have hone : ¬ ForksTwoWay S o s cond := by
          intro h2
          obtain ⟨f, g, h2⟩ := h2
          rw [hfork] at h2
          cases h2
        obtain ⟨c, hc, -, hs⟩ := h
        cases hr
        cases side <;> cases hc
        cases hs
        exact .single hb hone (((hcounts (.inl rfl)).add _ _).trans (boundedFirst_counts _ _ _ _))
      | some b =>
        have htwo : ForksTwoWay S o s cond := ⟨a, b, hfork⟩
        have ha : s.SameCounts a := hcounts (.inl rfl)
        cases hr
        have hread : ∀ sd, ((a.addForkFreq site.key true).addForkFreq site.key false).getForkFreq
            site.key sd = s.getForkFreq site.key sd + 1 := by
          intro sd
          cases sd <;> simp [ha site.key]
        rcases boundedBoth_counts h with ⟨rfl, hs, hle⟩ | ⟨rfl, hs, hle⟩
        · rw [hread] at hle
          exact .onTrue hb htwo hle (((ha.add _ _).add _ _).trans hs)
        · rw [hread, hread] at hle
          exact .onFalse hb htwo hle ((hcounts (.inr rfl)).trans hs)
  · rw [if_neg hb] at hr
    obtain ⟨c, hc, -, hs⟩ := h
    cases hr
    cases side with
    | true =>
      obtain ⟨a, ha, hac⟩ := Option.map_eq_some_iff.mp hc
      rw [← hs, ← hac]
      exact .unbounded hb (hcounts (.inl ha))
    | false =>
      obtain ⟨a, ha, hac⟩ := Option.map_eq_some_iff.mp hc
      rw [← hs, ← hac]
      exact .unbounded hb (hcounts (.inr ha))

end

/-- A conditional branch that a path has passed, with the state before it and the
side that the path is on behind it. -/
structure BranchStep where
  options : ForkOptions
  site : BranchSite
  state : PathState
  cond : Constraint
  side : Bool

namespace BranchStep

def Bounded (st : BranchStep) (excluded : String → Bool) : Prop :=
  st.site.Bounded st.options excluded

def TwoWay (S : Solver) (st : BranchStep) : Prop := ForksTwoWay S st.options st.state st.cond

def execute (S : Solver) (excluded : String → Bool) (st : BranchStep) : Option BrResult :=
  executeBr S st.options excluded st.site st.state st.cond

/-- A count of the state before the step. -/
def count (st : BranchStep) (side : Bool) : BitVec 32 := st.state.getForkFreq st.site.key side

/-- The path has gone on behind a two-way fork at a branch that is not excluded. -/
def Survival (S : Solver) (excluded : String → Bool) (key : String) (side : Bool)
    (st : BranchStep) : Prop :=
  st.site.key = key ∧ excluded st.site.location = false ∧ st.side = side ∧ st.TwoWay S

end BranchStep

/-- A chain of states from `s₀` under the loop bound `B`, with the branches it has
passed, newest first. What else is executed or forked leaves the counts as they are. -/
inductive Path (S : Solver) (B : BitVec 32) (excluded : String → Bool) (s₀ : PathState) :
    List BranchStep → PathState → Prop
  | start : Path S B excluded s₀ [] s₀
  | other {h s s'} (p : Path S B excluded s₀ h s) (hs : s.SameCounts s') :
      Path S B excluded s₀ h s'
  | branch {h r s'} {st : BranchStep} (p : Path S B excluded s₀ h st.state)
      (hB : st.options.loopBound = B) (hr : st.execute S excluded = some r)
      (hs : r.Survives st.side s') : Path S B excluded s₀ (st :: h) s'

open Classical in
/-- How often the path went on behind a two-way fork on one side of a branch. -/
noncomputable def survivals (S : Solver) (excluded : String → Bool) (key : String) (side : Bool)
    (h : List BranchStep) : Nat :=
  h.countP fun st => decide (st.Survival S excluded key side)

/-- What a loop bound promises of a path: no side of a branch is passed more than
once above the bound, the two sides together a bounded number of times, and where
both counts exceed the bound no successor goes on. -/
structure LoopBoundHolds (S : Solver) (B : BitVec 32) (excluded : String → Bool)
    (h : List BranchStep) : Prop where
  side_le : ∀ key side, survivals S excluded key side h ≤ B.toNat + 1
  total_le : ∀ key, survivals S excluded key true h + survivals S excluded key false h ≤
    2 * (B.toNat + 1)
  cut : ∀ st ∈ h, st.Bounded excluded → st.TwoWay S → BothExceed st.options st.site.key st.state →
    ∀ r, st.execute S excluded = some r → ∀ side s', ¬ r.Survives side s'

/-- The counts before a step at a bounded branch have room to grow, and at a two-way
fork they are not both at the bound; a path that leaves on the false side has a false
count of at least the number of times it did so before. -/
structure CountsCurrent (S : Solver) (excluded : String → Bool) (h : List BranchStep)
    (st : BranchStep) : Prop where
  room : ∀ side, st.count side ≠ BitVec.allOnes 32
  below : st.TwoWay S → ¬ BothExceed st.options st.site.key st.state
  counted : st.TwoWay S → st.side = false →
    survivals S excluded st.site.key false h ≤ (st.count false).toNat

/-- Every step at a bounded branch finds current counts. -/
def StaysCurrent (S : Solver) (excluded : String → Bool) (h : List BranchStep) : Prop :=
  ∀ st h', (st :: h') <:+ h → st.Bounded excluded → CountsCurrent S excluded h' st

theorem survivals_cons_of {S : Solver} {excluded : String → Bool} {key : String} {side : Bool}
    {h : List BranchStep} {st : BranchStep} (hs : st.Survival S excluded key side) :
    survivals S excluded key side (st :: h) = survivals S excluded key side h + 1 := by
  classical
  exact List.countP_cons_of_pos (by simpa using hs)

theorem survivals_cons_of_not {S : Solver} {excluded : String → Bool} {key : String} {side : Bool}
    {h : List BranchStep} {st : BranchStep} (hs : ¬ st.Survival S excluded key side) :
    survivals S excluded key side (st :: h) = survivals S excluded key side h := by
  classical
  exact List.countP_cons_of_neg (by simpa using hs)

theorem toNat_succ {c : BitVec 32} (h : c ≠ BitVec.allOnes 32) : (c + 1).toNat = c.toNat + 1 := by
  have hlt : c.toNat ≠ 2 ^ 32 - 1 := by
    intro he
    refine h (BitVec.eq_of_toNat_eq ?_)
    rw [he, BitVec.toNat_allOnes]
  have hone : (1 : BitVec 32).toNat = 1 := rfl
  have := c.isLt
  rw [BitVec.toNat_add]
  omega

theorem toNat_le_grown {c : BitVec 32} {p : Prop} [Decidable p] (h : p → c ≠ BitVec.allOnes 32) :
    c.toNat ≤ (c + if p then 1 else 0).toNat := by
  split
  · rename_i hp
    rw [toNat_succ (h hp)]
    exact Nat.le_succ _
  · rw [add_zero]

/-- The survivals of the path are held down by the counts and the bound. -/
structure Capped (S : Solver) (B : BitVec 32) (excluded : String → Bool) (h : List BranchStep)
    (s : PathState) : Prop where
  counted : ∀ key, survivals S excluded key true h ≤ (s.getForkFreq key true).toNat
  le : ∀ key side, survivals S excluded key side h ≤ B.toNat

section

variable {S : Solver} {B : BitVec 32} {excluded : String → Bool} {h : List BranchStep}

theorem Capped.of_counts {s s' : PathState} (hh : Capped S B excluded h s)
    (hle : ∀ key, (s.getForkFreq key true).toNat ≤ (s'.getForkFreq key true).toNat) :
    Capped S B excluded h s' :=
  ⟨fun key => (hh.counted key).trans (hle key), hh.le⟩

/-- A step that is no survival adds nothing. -/
theorem Capped.skip {s : PathState} {st : BranchStep} (hh : Capped S B excluded h s)
    (hs : ∀ key side, ¬ st.Survival S excluded key side) : Capped S B excluded (st :: h) s := by
  refine ⟨fun key => ?_, fun key side => ?_⟩
  · rw [survivals_cons_of_not (hs key true)]
    exact hh.counted key
  · rw [survivals_cons_of_not (hs key side)]
    exact hh.le key side

/-- The step behind a branch keeps the survivals down. -/
theorem Capped.branch {s' : PathState} {st : BranchStep} (hB : st.options.loopBound = B)
    (hne : B ≠ 0) (hh : Capped S B excluded h st.state)
    (hcur : st.Bounded excluded → CountsCurrent S excluded h st)
    (hc : CountsAfter S st.options excluded st.site st.state st.cond st.side s') :
    Capped S B excluded (st :: h) s' := by
  generalize hside : st.side = side at hc
  cases hc with
  | unbounded hb hc =>
    have hex : excluded st.site.location ≠ false := fun he => hb ⟨hB ▸ hne, he⟩
    refine (hh.skip fun key side hs => hex hs.2.1).of_counts ?_
    intro key
    rw [hc]
  | single hb h2 hc =>
    refine (hh.skip fun key side hs => h2 hs.2.2.2).of_counts ?_
    intro key
    rw [hc, PathState.getForkFreq_addForkFreq]
    refine toNat_le_grown ?_
    intro hk
    rw [hk.1]
    exact (hcur hb).room true
  | onTrue hb h2 hle hc =>
    have hroom := (hcur hb).room true
    have hT : survivals S excluded st.site.key true (st :: h) =
        survivals S excluded st.site.key true h + 1 :=
      survivals_cons_of ⟨rfl, hb.2, hside, h2⟩
    have hcount : (st.state.getForkFreq st.site.key true + 1).toNat = (st.count true).toNat + 1 :=
      toNat_succ hroom
    have hbound : (st.count true).toNat + 1 ≤ B.toNat := by
      rw [← hcount, ← hB]
      exact BitVec.not_lt.mp hle
    have hold : survivals S excluded st.site.key true h ≤ (st.count true).toNat :=
      hh.counted st.site.key
    have hnew : ∀ key, s'.getForkFreq key true =
        st.state.getForkFreq key true + if key = st.site.key then 1 else 0 := by
      intro key
      rw [hc, PathState.getForkFreq_addForkFreq, PathState.getForkFreq_addForkFreq]
      simp
    constructor
    · intro key
      rw [hnew]
      by_cases hk : key = st.site.key
      · subst hk
        rw [if_pos rfl, hcount, hT]
        omega
      · rw [if_neg hk, add_zero, survivals_cons_of_not fun hs => hk hs.1.symm]
        exact hh.counted key
    · intro key side
      by_cases hs : st.Survival S excluded key side
      · obtain ⟨rfl, -, hs, -⟩ := hs
        obtain rfl := hs.symm.trans hside
        rw [hT]
        omega
      · rw [survivals_cons_of_not hs]
        exact hh.le key side
  | onFalse hb h2 hle hc =>
    have hnb : ¬ st.options.loopBound < st.count false + 1 :=
      hle.resolve_left ((hcur hb).below h2)
    have hbound : (st.count false).toNat + 1 ≤ B.toNat := by
      rw [← toNat_succ ((hcur hb).room false), ← hB]
      exact BitVec.not_lt.mp hnb
    have hold := (hcur hb).counted h2 hside
    constructor
    · intro key
      rw [hc, survivals_cons_of_not fun hs => by cases hs.2.2.1.symm.trans hside]
      exact hh.counted key
    · intro key side
      by_cases hs : st.Survival S excluded key side
      · rw [survivals_cons_of hs]
        obtain ⟨rfl, -, hs, -⟩ := hs
        obtain rfl := hs.symm.trans hside
        omega
      · rw [survivals_cons_of_not hs]
        exact hh.le key side

theorem Path.capped {s₀ s : PathState} (p : Path S B excluded s₀ h s) (hne : B ≠ 0)
    (hcur : StaysCurrent S excluded h) : Capped S B excluded h s := by
  induction p with
  | start => exact ⟨fun _ => Nat.zero_le _, fun _ _ => Nat.zero_le _⟩
  | other p hs ih =>
    refine (ih hcur).of_counts ?_
    intro key
    rw [hs]
  | @branch h r s' st p hB hr hs ih =>
    have hold : StaysCurrent S excluded h := fun st' h' hsuf =>
      hcur st' h' (hsuf.trans (List.suffix_cons _ _))
    exact (ih hold).branch hB hne (hcur st h List.suffix_rfl) (executeBr_counts hr hs)

/-- On a path whose counts stay current the loop bound holds. -/
theorem loopBound_holds {s₀ s : PathState} (hne : B ≠ 0) (p : Path S B excluded s₀ h s)
    (hcur : StaysCurrent S excluded h) : LoopBoundHolds S B excluded h := by
  have hcap := p.capped hne hcur
  refine ⟨fun key side => (hcap.le key side).trans (Nat.le_succ _), fun key => ?_, ?_⟩
  · have ht := hcap.le key true
    have hf := hcap.le key false
    omega
  · intro st hst hb h2 hboth
    obtain ⟨h1, h', rfl⟩ := List.append_of_mem hst
    exact absurd hboth ((hcur st h' (List.suffix_append h1 _) hb).below h2)

end

/-- Where both counts exceed the bound the false successor goes on all the same. -/
theorem both_exceed_goes_on {S : Solver} {o : ForkOptions} {excluded : String → Bool}
    {site : BranchSite} {s : PathState} {cond : Constraint} (hb : site.Bounded o excluded)
    (h2 : ForksTwoWay S o s cond) (hboth : BothExceed o site.key s) :
    ∃ r s', executeBr S o excluded site s cond = some r ∧ r.Survives false s' := by
  obtain ⟨f, g, hfork⟩ := h2
  have hcounts := fork_counts hfork (.inl rfl)
  rw [executeBr_two_way hfork, if_pos hb]
  refine ⟨_, g, rfl, ?_⟩
  unfold boundedBoth
  simp only [PathState.getForkFreq_addForkFreq, hcounts site.key, and_self, and_false,
    reduceCtorEq, ↓reduceIte, add_zero, gt_iff_lt]
  unfold BothExceed at hboth
  rw [if_pos hboth]
  exact ⟨_, rfl, rfl, rfl⟩

/-- Within the bounds both successors go on. -/
theorem boundedBoth_within {o : ForkOptions} {key : String} (cond : Constraint)
    {first : PathState} (second : PathState) (ht : ¬ o.loopBound < first.getForkFreq key true)
    (hf : ¬ o.loopBound < first.getForkFreq key false) :
    (boundedBoth o key cond first second).Survives true
        { first with lastCondition := some cond } ∧
      (boundedBoth o key cond first second).Survives false
        { second with lastCondition := some cond } := by
  unfold boundedBoth
  simp only [gt_iff_lt, ht, hf, and_self, ↓reduceIte]
  exact ⟨⟨_, rfl, rfl, rfl⟩, _, rfl, rfl, rfl⟩

/-- The input in which the byte `n` is one and the others are zero. -/
def onlyByte (n : Nat) : Assignment := fun _ i => if i = n then 1 else 0

theorem inputBit_onlyByte {i n : Nat} (hi : i < 2 ^ 32) :
    (inputBit i).Holds (onlyByte n) ↔ i = n := by
  have hmod : i % 4294967296 = i := Nat.mod_eq_of_lt hi
  simp only [inputBit, Constraint.Holds, Expr.Holds, Expr.value, UpdateList.contents, Array.initial,
    onlyByte, const_value, hmod, Nat.reducePow, List.getElem?_nil, Option.getD_none]
  split <;> simp [*]

/-- Behind failed tests of the first bytes the next byte is open. -/
theorem nextBit_unknown (S : Solver) {cs : List Constraint} {n : Nat} (hn : n < 2 ^ 32)
    (hcs : ∀ c ∈ cs, ∃ i, i < n ∧ c = (inputBit i).isZero) :
    S.evaluate cs (inputBit n) = .unknown := by
  refine Solver.evaluate_unknown.mpr ⟨⟨onlyByte n, ?_, ?_⟩, uniform false, ?_, ?_⟩
  · intro c hc
    obtain ⟨i, hi, rfl⟩ := hcs c hc
    rw [Constraint.isZero_holds, inputBit_onlyByte (hi.trans hn)]
    omega
  · rw [inputBit_onlyByte hn]
  · intro c hc
    obtain ⟨i, -, rfl⟩ := hcs c hc
    rw [Constraint.isZero_holds, inputBit_uniform]
    decide
  · rw [inputBit_uniform]
    decide

theorem loopHead_bounded : loopHead.Bounded { loopBound := 1 } (fun _ => false) := by decide

theorem firstPass_within {s : PathState} (h : PathState.SameCounts {} s) (side : Bool) :
    ¬ (1 : BitVec 32) < ((s.addForkFreq loopHead.key true).addForkFreq loopHead.key
      false).getForkFreq loopHead.key side := by
  rw [PathState.getForkFreq_addForkFreq, PathState.getForkFreq_addForkFreq, h]
  cases side <;> decide

/-- A loop that is left when an input byte is odd goes round once for every byte,
whatever the loop bound of one says. -/
theorem falsePath (n : Nat) (hn : n ≤ 2 ^ 32) :
    ∃ h s, Path Solver.ideal 1 (fun _ => false) {} h s ∧
      survivals Solver.ideal (fun _ => false) loopHead.key false h = n ∧
        PathState.SameCounts {} s ∧ ∀ c ∈ s.constraints, ∃ i, i < n ∧ c = (inputBit i).isZero := by
  induction n with
  | zero =>
    refine ⟨[], {}, .start, rfl, fun _ _ => rfl, ?_⟩
    intro c hc
    cases hc
  | succ n ih =>
    obtain ⟨h, s, p, hk, hcounts, hcs⟩ := ih (by omega)
    have hu := nextBit_unknown Solver.ideal (show n < 2 ^ 32 by omega) hcs
    have hfork : fork Solver.ideal { loopBound := 1 } s (inputBit n) true =
        some (some (forked s (inputBit n)).1, some (forked s (inputBit n)).2) :=
      fork_unknown hu rfl (.inl rfl)
    let st : BranchStep := ⟨{ loopBound := 1 }, loopHead, s, inputBit n, false⟩
    have hst : st.Survival Solver.ideal (fun _ => false) loopHead.key false :=
      ⟨rfl, rfl, rfl, ⟨_, _, hfork⟩⟩
    refine ⟨st :: h, { (forked s (inputBit n)).2 with lastCondition := some (inputBit n) },
      .branch p rfl (executeBr_two_way hfork) ?_, ?_, hcounts, ?_⟩
    · rw [if_pos loopHead_bounded]
      exact (boundedBoth_within _ _ (firstPass_within hcounts true)
        (firstPass_within hcounts false)).2
    · rw [survivals_cons_of hst, hk]
    · intro c hc
      rcases List.mem_cons.mp hc with rfl | hc
      · exact ⟨n, Nat.lt_succ_self n, rfl⟩
      · obtain ⟨i, hi, rfl⟩ := hcs c hc
        exact ⟨i, Nat.lt_succ_of_lt hi, rfl⟩

/-- Under the bound one a path goes on three times on the false side of a branch. -/
theorem threeBytes_bound_missed :
    ∃ h s, Path Solver.ideal 1 (fun _ => false) {} h s ∧
      ¬ LoopBoundHolds Solver.ideal 1 (fun _ => false) h := by
  obtain ⟨h, s, p, hk, -⟩ := falsePath 3 (by decide)
  refine ⟨h, s, p, ?_⟩
  intro hb
  have hle := hb.side_le loopHead.key false
  rw [hk] at hle
  exact absurd hle (by decide)

/-- The path that enters the loop once, behind the true side. -/
theorem oneByte_bound_holds :
    ∃ h s, Path Solver.ideal 1 (fun _ => false) {} h s ∧
      survivals Solver.ideal (fun _ => false) loopHead.key true h = 1 ∧
        LoopBoundHolds Solver.ideal 1 (fun _ => false) h := by
  have hfork : fork Solver.ideal { loopBound := 1 } {} (inputBit 0) true =
      some (some (forked {} (inputBit 0)).1, some (forked {} (inputBit 0)).2) :=
    fork_unknown (inputBit_unknown Solver.ideal 0) rfl (.inl rfl)
  let st : BranchStep := ⟨{ loopBound := 1 }, loopHead, {}, inputBit 0, true⟩
  have hcounts : PathState.SameCounts {} (forked {} (inputBit 0)).1 := fun _ _ => rfl
  have hin := boundedBoth_within (o := { loopBound := 1 }) (inputBit 0) (forked {} (inputBit 0)).2
    (firstPass_within hcounts true) (firstPass_within hcounts false)
  have hr : st.execute Solver.ideal (fun _ => false) = some _ := executeBr_two_way hfork
  rw [if_pos loopHead_bounded] at hr
  have p := Path.branch .start rfl hr hin.1
  have hst : st.Survival Solver.ideal (fun _ => false) loopHead.key true :=
    ⟨rfl, rfl, rfl, ⟨_, _, hfork⟩⟩
  refine ⟨[st], _, p, survivals_cons_of hst, loopBound_holds (by decide) p ?_⟩
  intro st' h' hsuf _
  rcases List.suffix_cons_iff.mp hsuf with he | hnil
  · cases he
    refine ⟨?_, ?_, ?_⟩
    · intro side
      cases side <;> decide
    · intro _ hboth
      exact absurd hboth.1 (by decide)
    · intro _ hside
      cases hside
  · cases List.suffix_nil.mp hnil

end Encider
