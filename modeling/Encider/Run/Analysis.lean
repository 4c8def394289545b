import Encider.Resource.Terminated
import Encider.Run.Paths

namespace Encider

open ResourceTree

/-- The loop of `timeSideChannelAnalysis` over the registered roots, which are ordered by
their addresses; `checkLeakage` writes nothing to the maps. -/
def RunState.timeSideChannelAnalysis (r : RunState) (hv : HashValue) (roots : List Nat) :
    Option Maps :=
  roots.foldlM (fun m rroot =>
    match r.tree.find rroot with
    | some t => propagate hv r.node r.tree.labels.length t m
    | none => some m) fun _ => {}

/-- What the analysis needs of the tree it starts from: keys that cohere, at most one
leaf that ends normally below each inner H-branch, and for each ended path a usage that
is an `int` and is shared by the leaves with its keys. -/
structure Told (T : ResourceTree) (hv : HashValue) (ended : List EndedPath) : Prop where
  cohere : T.KeysCohere hv
  once : T.CountedOnce
  small : ∀ p ∈ ended, p.ru < 2 ^ 31
  same : ∀ p ∈ ended, ∀ a k, T.Key hv p.rd a k → ∀ l ∈ T.tree.leaves, T.Key hv l a k →
    (T.node l).ru = (T.node p.rd).ru

variable {hv : HashValue}

/-- Leaves without an H-ancestor leave the maps as they are. -/
theorem propagate_clear {node : Nat → RD} {fuel : Nat} {t : Rose Nat} (m : Maps)
    (h : ∀ x ∈ t.labels, (node x).HA = none) : propagate hv node fuel t m = some m := by
  rw [propagate_eq_visit]
  have hleaves : ∀ x ∈ t.leaves, (node x).HA = none :=
    fun x hx => h x ((Rose.leaves_sublist t).subset hx)
  generalize t.leaves = leaves at hleaves ⊢
  induction leaves with
  | nil => rfl
  | cons x xs ih =>
    rw [List.foldlM_cons, climbHA, Climb.climb_top (hleaves x List.mem_cons_self)]
    exact ih fun y hy => hleaves y (List.mem_cons_of_mem x hy)

namespace RunState

variable {r : RunState}

/-- The roots on which paths have started again add nothing. -/
theorem analysis_again (h : Rooted r) {roots : List Nat}
    (hroots : ∀ x ∈ roots, x ∈ r.resourceTreeRootList ∧ x ≠ 0) (m : Maps) :
    roots.foldlM (fun m rroot =>
      match r.tree.find rroot with
      | some t => propagate hv r.node r.tree.labels.length t m
      | none => some m) m = some m := by
  induction roots with
  | nil => rfl
  | cons root roots ih =>
    obtain ⟨hmem, hne⟩ := hroots root List.mem_cons_self
    have hrest := ih fun x hx => hroots x (List.mem_cons_of_mem root hx)
    rw [List.foldlM_cons]
    cases hfind : r.tree.find root with
    | none => exact hrest
    | some t =>
      have hclear : ∀ x ∈ t.labels, (r.node x).HA = none := by
        intro x hx
        apply h.clear x
        exact ⟨root, hmem, hne, Rose.under_of_find hfind hx⟩
      dsimp only
      rw [propagate_clear m hclear]
      exact hrest

/-- In any order of its roots the analysis comes to what the walk from the first one does. -/
theorem analysis_eq (h : Shaped r) (hr : Rooted r) (hs : Spread r) {roots : List Nat}
    (hroots : roots.Perm r.resourceTreeRootList) :
    r.timeSideChannelAnalysis hv roots = (h.toTree hs).propagate hv := by
  have hnodup : roots.Nodup := hroots.nodup_iff.mpr hr.nodup
  have hfirst : 0 ∈ roots := hroots.mem_iff.mpr hr.first
  obtain ⟨pre, post, rfl⟩ := List.append_of_mem hfirst
  have hmem : ∀ x ∈ pre ++ post, x ∈ r.resourceTreeRootList ∧ x ≠ 0 := by
    have hperm : (0 :: (pre ++ post)).Nodup := List.perm_middle.nodup_iff.mp hnodup
    intro x hx
    refine ⟨?_, ?_⟩
    · apply hroots.mem_iff.mp
      apply List.perm_middle.mem_iff.mpr
      exact List.mem_cons_of_mem 0 hx
    · intro hx0
      rw [hx0] at hx
      exact (List.nodup_cons.mp hperm).1 hx
  have hfind : r.tree.find 0 = some r.tree := by
    rw [← h.root]
    exact Rose.find_label r.tree
  unfold timeSideChannelAnalysis
  rw [List.foldlM_append, analysis_again hr fun x hx => hmem x (List.mem_append_left _ hx)]
  simp only [Option.bind_eq_bind, Option.bind_some, List.foldlM_cons, hfind]
  cases hm : propagate hv r.node r.tree.labels.length r.tree fun _ => {} with
  | none =>
    have hnone : (h.toTree hs).propagate hv = none := hm
    rw [hnone]
    rfl
  | some m =>
    have hsome : (h.toTree hs).propagate hv = some m := hm
    rw [hsome, Option.bind_some]
    exact analysis_again hr (fun x hx => hmem x (List.mem_append_right _ hx)) m

end RunState

/-- The range under each key of an ended path holds its usage. -/
theorem Told.held {T : ResourceTree} {ended : List EndedPath} (h : Told T hv ended) {m : Maps}
    (hm : Priced T hv T.tree.leaves m) {p : EndedPath} (hp : p ∈ ended)
    (hleaf : p.rd ∈ T.tree.leaves) (hru : (T.node p.rd).ru.toNat = p.ru) {a : Nat} {e : HCLC}
    (hr : T.Reaches p.rd a e) :
    ∃ range, (m a).Ru[getHash hv e]? = some range ∧ Range.Holds range p.ru := by
  obtain ⟨pre, l, post, hsplit, ⟨d, hd, hkey⟩, hnew⟩ :=
    List.exists_first (p := fun x => T.Key hv x a (getHash hv e)) ⟨p.rd, hleaf, hr.key⟩
  have hl : l ∈ T.tree.leaves := by simp [hsplit]
  obtain ⟨range, hentry, hholds⟩ := hm.first_holds h.cohere hsplit hd fun x hx hxk =>
    hnew x hx (hkey ▸ hxk)
  have hsame := h.same p hp a _ hr.key l hl ⟨d, hd, hkey⟩
  have hint : (T.node l).ru.toInt = p.ru := by
    rw [hsame, BitVec.toInt_eq_toNat_cond, hru, if_pos]
    have := h.small p hp
    omega
  rw [hkey] at hentry
  rw [hint] at hholds
  exact ⟨range, hentry, hholds⟩

/-- A return that ends the path of the first state. -/
def pathEnd : RunStep where
  index := 0
  ii := { opcode := .ret, block := 0 }
  executed := some { opcode := .ret, block := 0 }
  ends := true

/-- A call at which the attacker looks at the clock, and the path goes on. -/
def observedCall : RunStep where
  index := 0
  ii := { opcode := .call, callee := some "ocall", block := 0 }
  executed := some { opcode := .call, callee := some "ocall", block := 0 }
  observations := [{ restart := false }]

theorem secretBranch_keeps : KeepsPaths RunState.unitTiming .initial RunState.secretBranch where
  heirs _ := Nat.zero_le 1
  executed := ⟨_, rfl, rfl⟩
  room s hs := by
    cases hs
    decide
  block e he := by
    cases he
    rfl
  plain h := absurd rfl h
  ends h := by cases h
  once s hs h := by
    cases hs
    cases h

/-- A path ends on its leaf. -/
theorem pathEnd_keeps {r : RunState} (hroom : ∀ s, r.states[0]? = some s → s.cost < 2)
    (hleaf : ∀ s, r.states[0]? = some s → s.rdid ∈ r.tree.leaves) :
    KeepsPaths RunState.unitTiming r pathEnd where
  heirs _ := Nat.zero_le 1
  executed := ⟨_, rfl, rfl⟩
  room s hs := by
    have := hroom s hs
    have hone : (getTimingCost RunState.unitTiming pathEnd.ii).toNat = 1 := by decide
    omega
  block e he := by
    cases he
    rfl
  plain h := absurd rfl h
  ends _ := by
    refine ⟨rfl, hleaf, ?_⟩
    intro s
    have hno : ¬ pathEnd.Registers RunState.unitTiming (pathEnd.play s) := by
      intro h
      cases h.1
    exact ⟨hno, by rw [RunStep.heirs, if_neg hno]; rfl⟩
  once s _ _ s' p hp b hb := by
    rw [List.mem_singleton.mp hp] at hb
    cases hb

/-- Both sides of a secret branch go on. -/
def branched : RunState := (RunState.initial.step RunState.unitTiming RunState.secretBranch).get rfl

def oneEnded : RunState := (branched.step RunState.unitTiming pathEnd).get rfl

def bothEnded : RunState := (oneEnded.step RunState.unitTiming pathEnd).get rfl

theorem bothEnded_reached : RunTo RunState.unitTiming (KeepsPaths RunState.unitTiming) bothEnded := by
  have hbranch : RunTo RunState.unitTiming (KeepsPaths RunState.unitTiming) branched :=
    .step .start secretBranch_keeps (Option.some_get _).symm
  have hfirst : RunTo RunState.unitTiming (KeepsPaths RunState.unitTiming) oneEnded := by
    refine .step hbranch (pathEnd_keeps ?_ ?_) (Option.some_get _).symm
    · intro s hs
      cases hs
      decide
    · intro s hs
      cases hs
      decide
  refine .step hfirst (pathEnd_keeps ?_ ?_) (Option.some_get _).symm
  · intro s hs
    cases hs
    decide
  · intro s hs
    cases hs
    decide

theorem bothEnded_leaf {T : ResourceTree} (hnode : T.node = bothEnded.node)
    (htree : T.tree = bothEnded.tree) {l : Nat} (hl : l ∈ T.tree.leaves) :
    (T.node l).HA = some 0 ∧ (T.node l).own = (Constraint.tt, Constraint.tt) ∧
      (T.node l).ru = 2 := by
  have hleaves : bothEnded.tree.leaves = [1, 2] := by decide
  rw [htree, hleaves] at hl
  rw [hnode]
  simp only [List.mem_cons, List.not_mem_nil, or_false] at hl
  rcases hl with rfl | rfl
  · exact ⟨rfl, rfl, rfl⟩
  · exact ⟨rfl, rfl, rfl⟩

theorem bothEnded_told {T : ResourceTree} (hnode : T.node = bothEnded.node)
    (htree : T.tree = bothEnded.tree) : Told T lowBits bothEnded.ended := by
  have hended : ∀ p ∈ bothEnded.ended, p.ru = 2 ∧ p.rd ∈ bothEnded.tree.leaves := by decide
  have htop : (T.node 0).HA = none := by
    rw [hnode]
    rfl
  refine ⟨?_, ?_, ?_, ?_⟩
  · apply KeysCohere.of_alike
    intro l hl l' hl'
    obtain ⟨hHA, hown, _⟩ := bothEnded_leaf hnode htree hl
    obtain ⟨hHA', hown', _⟩ := bothEnded_leaf hnode htree hl'
    exact ⟨hHA.trans hHA'.symm, hown.trans hown'.symm⟩
  · intro pre l post b d a hsplit hb hba
    have hl : l ∈ T.tree.leaves := by simp [hsplit]
    obtain ⟨hHA, _⟩ := bothEnded_leaf hnode htree hl
    exfalso
    cases hb with
    | here h =>
      rw [hHA] at h
      cases h
      rw [htop] at hba
      cases hba
    | there h hr =>
      rw [hHA] at h
      cases h
      cases hr with
      | here h =>
        rw [htop] at h
        cases h
      | there h _ =>
        rw [htop] at h
        cases h
  · intro p hp
    rw [(hended p hp).1]
    decide
  · intro p hp a k _ l hl _
    have hrd := (hended p hp).2
    rw [← htree] at hrd
    rw [(bothEnded_leaf hnode htree hl).2.2, (bothEnded_leaf hnode htree hrd).2.2]

end Encider
