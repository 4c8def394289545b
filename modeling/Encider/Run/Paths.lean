import Encider.Run.Accounting

/-! What a run does to the tree of its nodes, and where the ended paths lie in it. -/

namespace Encider

open RunState

/-- The nodes are those of the tree, and an H-ancestor is an H-branch above its node. -/
structure Shaped (r : RunState) : Prop where
  root : r.tree.label = 0
  nodup : r.tree.labels.Nodup
  ids : ∀ x, x ∈ r.tree.labels ↔ x < r.rdid
  fresh : ∀ x, r.rdid ≤ x → (r.node x).HA = none
  above : ∀ x a, (r.node x).HA = some a → r.tree.Under a x ∧ (r.node a).isHBr = true

/-- No leaf is an H-branch. -/
def Spread (r : RunState) : Prop :=
  ∀ l ∈ r.tree.leaves, (r.node l).isHBr = false

/-- The node is one on which a path has started again, or lies below one. -/
def RunState.Again (r : RunState) (x : Nat) : Prop :=
  ∃ root ∈ r.resourceTreeRootList, root ≠ 0 ∧ (x = root ∨ r.tree.Under root x)

/-- The first root is the only one with H-branches below it. -/
structure Rooted (r : RunState) : Prop where
  nodup : r.resourceTreeRootList.Nodup
  first : 0 ∈ r.resourceTreeRootList
  known : ∀ x ∈ r.resourceTreeRootList, x < r.rdid
  clear : ∀ x, r.Again x → (r.node x).HA = none

/-- Only the node `d` is written to, and new nodes come to lie below it. -/
structure Spares (d : Nat) (r r' : RunState) : Prop where
  grows : r.rdid ≤ r'.rdid
  node : ∀ x < r.rdid, x ≠ d → r'.node x = r.node x
  leaf : ∀ x ∈ r.tree.leaves, x ≠ d → x ∈ r'.tree.leaves
  again : ∀ x < r.rdid, r'.Again x → r.Again x

/-- The path has a leaf with its usage and its blocks. -/
structure Kept (r : RunState) (p : EndedPath) : Prop where
  leaf : p.rd ∈ r.tree.leaves
  known : p.rd < r.rdid
  ru : (r.node p.rd).ru.toNat = p.ru
  bbs : (r.node p.rd).bbs = p.bbs

theorem Spares.refl (d : Nat) (r : RunState) : Spares d r r :=
  ⟨Nat.le_refl _, fun _ _ _ => rfl, fun _ h _ => h, fun _ _ h => h⟩

/-- A node that is written to later is the same one or a new one. -/
theorem Spares.trans {d d' : Nat} {r r' r'' : RunState} (h : Spares d r r')
    (h' : Spares d' r' r'') (hd : d' = d ∨ r.rdid ≤ d') (hlt : ∀ x ∈ r.tree.leaves, x < r.rdid) :
    Spares d r r'' := by
  have hne : ∀ x < r.rdid, x ≠ d → x ≠ d' := by
    intro x hx hxd
    omega
  refine ⟨h.grows.trans h'.grows, ?_, ?_, ?_⟩
  · intro x hx hxd
    rw [h'.node x (Nat.lt_of_lt_of_le hx h.grows) (hne x hx hxd), h.node x hx hxd]
  · intro x hx hxd
    apply h'.leaf x (h.leaf x hx hxd)
    exact hne x (hlt x hx) hxd
  · intro x hx hagain
    apply h.again x hx
    exact h'.again x (Nat.lt_of_lt_of_le hx h.grows) hagain

theorem Kept.spared {d : Nat} {r r' : RunState} {p : EndedPath} (h : Kept r p)
    (hs : Spares d r r') (hne : p.rd ≠ d) : Kept r' p := by
  have hnode := hs.node p.rd h.known hne
  refine ⟨hs.leaf _ h.leaf hne, Nat.lt_of_lt_of_le h.known hs.grows, ?_, ?_⟩
  · rw [hnode]
    exact h.ru
  · rw [hnode]
    exact h.bbs

namespace Shaped

variable {r : RunState}

theorem leaf_lt (h : Shaped r) : ∀ x ∈ r.tree.leaves, x < r.rdid := by
  intro x hx
  apply (h.ids x).mp
  exact (Rose.leaves_sublist r.tree).subset hx

theorem under_lt (h : Shaped r) {a x : Nat} (hu : r.tree.Under a x) :
    a < r.rdid ∧ x < r.rdid :=
  ⟨(h.ids a).mp hu.mem_left, (h.ids x).mp hu.mem_right⟩

/-- The tree of the run, once no leaf is an H-branch. -/
def toTree (h : Shaped r) (hs : Spread r) : ResourceTree where
  node := r.node
  tree := r.tree
  nodup := h.nodup
  above := h.above
  leaf := hs

end Shaped

namespace RunState

variable {r : RunState} {rdd place : Nat} {rd : RD}

/-- A new node whose H-ancestor is an H-branch above it keeps the tree in shape. -/
theorem newSucc_shaped (h : Shaped r) (hrdd : rdd < r.rdid)
    (hrd : ∀ a, rd.HA = some a → (a = rdd ∨ r.tree.Under a rdd) ∧ (r.node a).isHBr = true) :
    Shaped (r.newSucc rdd place rd) := by
  have hmem : rdd ∈ r.tree.labels := (h.ids rdd).mpr hrdd
  have hnew : r.rdid ∉ r.tree.labels := by
    rw [h.ids]
    exact Nat.lt_irrefl _
  have hold : ∀ a x, r.tree.Under a x ∨ (x = r.rdid ∧ (a = rdd ∨ r.tree.Under a rdd)) →
      (r.newSucc rdd place rd).tree.Under a x := by
    intro a x hu
    simp only [newSucc, Rose.under_graft]
    rcases hu with hu | ⟨hx, ha | ha⟩
    · exact .inl hu
    · exact .inr ⟨hx, .inl ⟨ha, hmem⟩⟩
    · exact .inr ⟨hx, .inr ha⟩
  have hbranch : ∀ a, a < r.rdid → ((r.newSucc rdd place rd).node a).isHBr = (r.node a).isHBr := by
    intro a ha
    simp only [newSucc]
    rw [Function.update_of_ne (Nat.ne_of_lt ha)]
  refine ⟨?_, Rose.nodup_graft h.nodup hnew, ?_, ?_, ?_⟩
  · simp only [newSucc, Rose.label_graft]
    exact h.root
  · intro x
    simp only [newSucc, Rose.mem_labels_graft, h.ids]
    omega
  · intro x hx
    have hx' : r.rdid + 1 ≤ x := hx
    simp only [newSucc]
    rw [Function.update_of_ne (by omega)]
    exact h.fresh x (by omega)
  · intro x a hxa
    by_cases hx : x = r.rdid
    · subst hx
      simp only [newSucc, Function.update_self] at hxa
      obtain ⟨ha, hbr⟩ := hrd a hxa
      have hlt : a < r.rdid := by
        rcases ha with ha | ha
        · omega
        · exact (h.under_lt ha).1
      exact ⟨hold a _ (.inr ⟨rfl, ha⟩), (hbranch a hlt).trans hbr⟩
    · simp only [newSucc, Function.update_of_ne hx] at hxa
      obtain ⟨hu, hbr⟩ := h.above x a hxa
      exact ⟨hold a x (.inl hu), (hbranch a (h.under_lt hu).1).trans hbr⟩

/-- A node with the same H-ancestor, which is an H-branch if it was one. -/
theorem setNode_shaped (h : Shaped r) (hHA : rd.HA = (r.node rdd).HA)
    (hbr : (r.node rdd).isHBr = true → rd.isHBr = true) :
    Shaped { r with node := Function.update r.node rdd rd } := by
  have hsame : ∀ x, (Function.update r.node rdd rd x).HA = (r.node x).HA := by
    intro x
    by_cases hx : x = rdd
    · subst hx
      rw [Function.update_self, hHA]
    · rw [Function.update_of_ne hx]
  refine ⟨h.root, h.nodup, h.ids, ?_, ?_⟩
  · intro x hx
    exact (hsame x).trans (h.fresh x hx)
  · intro x a hxa
    obtain ⟨hu, ha⟩ := h.above x a ((hsame x).symm.trans hxa)
    refine ⟨hu, ?_⟩
    by_cases had : a = rdd
    · subst had
      simp only [Function.update_self]
      exact hbr ha
    · simp only [Function.update_of_ne had]
      exact ha

theorem newSucc_spread (hrdd : ∀ l ∈ r.tree.leaves, l ≠ rdd → (r.node l).isHBr = false)
    (hlt : ∀ x ∈ r.tree.leaves, x < r.rdid) (hrd : rd.isHBr = false) :
    Spread (r.newSucc rdd place rd) := by
  intro l hl
  simp only [newSucc, Rose.mem_leaves_graft] at hl ⊢
  rcases hl with ⟨hl, hne⟩ | ⟨hl, _⟩
  · rw [Function.update_of_ne (Nat.ne_of_lt (hlt l hl))]
    exact hrdd l hl hne
  · rw [hl, Function.update_self]
    exact hrd

/-- A new node lies below a restart where its predecessor does. -/
theorem newSucc_again (h : Shaped r) (hrdd : rdd < r.rdid) {x : Nat} :
    (r.newSucc rdd place rd).Again x ↔ r.Again x ∨ (x = r.rdid ∧ r.Again rdd) := by
  have hmem : rdd ∈ r.tree.labels := (h.ids rdd).mpr hrdd
  simp only [Again, newSucc, Rose.under_graft]
  constructor
  · rintro ⟨root, hroot, hne, hx⟩
    rcases hx with hx | hx | ⟨hx, ⟨hd, _⟩ | hd⟩
    · exact .inl ⟨root, hroot, hne, .inl hx⟩
    · exact .inl ⟨root, hroot, hne, .inr hx⟩
    · exact .inr ⟨hx, root, hroot, hne, .inl hd.symm⟩
    · exact .inr ⟨hx, root, hroot, hne, .inr hd⟩
  · intro hx
    rcases hx with ⟨root, hroot, hne, hx | hx⟩ | ⟨hx, root, hroot, hne, hd | hd⟩
    · exact ⟨root, hroot, hne, .inl hx⟩
    · exact ⟨root, hroot, hne, .inr (.inl hx)⟩
    · exact ⟨root, hroot, hne, .inr (.inr ⟨hx, .inl ⟨hd.symm, hmem⟩⟩)⟩
    · exact ⟨root, hroot, hne, .inr (.inr ⟨hx, .inr hd⟩)⟩

theorem newSucc_rooted (h : Shaped r) (hr : Rooted r) (hrdd : rdd < r.rdid)
    (hrd : r.Again rdd → rd.HA = none) : Rooted (r.newSucc rdd place rd) := by
  refine ⟨hr.nodup, hr.first, ?_, ?_⟩
  · intro x hx
    exact Nat.lt_succ_of_lt (hr.known x hx)
  · intro x hx
    by_cases hxr : x = r.rdid
    · subst hxr
      simp only [newSucc, Function.update_self]
      rcases (newSucc_again h hrdd).mp hx with hx | hx
      · obtain ⟨root, hroot, hne, hx | hx⟩ := hx
        · have := hr.known root hroot
          omega
        · have := (h.under_lt hx).2
          omega
      · exact hrd hx.2
    · simp only [newSucc, Function.update_of_ne hxr]
      rcases (newSucc_again h hrdd).mp hx with hx | hx
      · exact hr.clear x hx
      · exact absurd hx.1 hxr

theorem newSucc_spares (h : Shaped r) (hrdd : rdd < r.rdid) :
    Spares rdd r (r.newSucc rdd place rd) := by
  refine ⟨Nat.le_succ _, ?_, ?_, ?_⟩
  · intro x hx _
    simp only [newSucc]
    rw [Function.update_of_ne (Nat.ne_of_lt hx)]
  · intro x hx hne
    simp only [newSucc, Rose.mem_leaves_graft]
    exact .inl ⟨hx, hne⟩
  · intro x hx hagain
    rcases (newSucc_again h hrdd).mp hagain with hagain | ⟨hx', _⟩
    · exact hagain
    · omega

/-- A node written to anew, with the same H-ancestor. -/
theorem setNode_rooted (hr : Rooted r) (hHA : rd.HA = (r.node rdd).HA) :
    Rooted { r with node := Function.update r.node rdd rd } := by
  refine ⟨hr.nodup, hr.first, hr.known, ?_⟩
  intro x hx
  have hclear := hr.clear x hx
  by_cases hxd : x = rdd
  · subst hxd
    simp only [Function.update_self]
    exact hHA.trans hclear
  · simp only [Function.update_of_ne hxd]
    exact hclear

theorem setNode_spares (r : RunState) (rdd : Nat) (rd : RD) :
    Spares rdd r { r with node := Function.update r.node rdd rd } := by
  refine ⟨Nat.le_refl _, ?_, fun _ h _ => h, fun _ _ h => h⟩
  intro x _ hne
  simp only [Function.update_of_ne hne]

/-- The tree and the nodes of a run, and one node among them. -/
structure At (r : RunState) (rdd : Nat) : Prop where
  shaped : Shaped r
  rooted : Rooted r
  spread : Spread r
  known : rdd < r.rdid

/-- A successor of `rdd`, with what is copied from there. -/
structure Succeeds (rdd : Nat) (r r' : RunState) : Prop where
  there : At r' rdd
  spares : Spares rdd r r'
  bbs : (r'.node rdd).bbs = (r.node rdd).bbs
  ended : r'.ended = r.ended

theorem successorNode_HA (current : RD) (rdd : Nat) (b : BranchOutcome) :
    (successorNode current rdd b).HA = if BranchOutcome.secret b then some rdd else current.HA := by
  unfold successorNode BranchOutcome.secret
  dsimp only
  cases b.hasHloc <;> cases b.hasLloc <;> cases b.consistent <;> rfl

theorem successorNode_kept (current : RD) (rdd : Nat) (b : BranchOutcome) :
    (successorNode current rdd b).isHBr = false ∧
      (successorNode current rdd b).bbs = current.bbs := by
  unfold successorNode
  dsimp only
  split
  · split <;> exact ⟨rfl, rfl⟩
  · split <;> exact ⟨rfl, rfl⟩

/-- A registered successor, if no path that has started again is at a secret branch. -/
theorem addSuccessor_succeeds (h : At r rdd) (b : BranchOutcome)
    (hb : BranchOutcome.secret b = true → ¬ r.Again rdd) : Succeeds rdd r (r.addSuccessor rdd b) := by
  have hmark : ∀ rd : RD, rd.HA = (r.node rdd).HA → rd.bbs = (r.node rdd).bbs →
      ((r.node rdd).isHBr = true → rd.isHBr = true) → (BranchOutcome.secret b = true → rd.isHBr = true) →
      Succeeds rdd r (newSucc { r with node := Function.update r.node rdd rd } rdd b.place
        (successorNode (r.node rdd) rdd b)) := by
    intro rd hHA hbbs hbr hsecret
    have hshaped := setNode_shaped h.shaped hHA hbr
    have hrooted := setNode_rooted h.rooted hHA
    have hkept := successorNode_kept (r.node rdd) rdd b
    refine ⟨⟨?_, ?_, ?_, Nat.lt_succ_of_lt h.known⟩, ?_, ?_, rfl⟩
    · apply newSucc_shaped hshaped h.known
      intro a ha
      rw [successorNode_HA] at ha
      split at ha
      · rename_i hs
        cases ha
        refine ⟨.inl rfl, ?_⟩
        simp only [Function.update_self]
        exact hsecret hs
      · refine ⟨.inr (h.shaped.above rdd a ha).1, ?_⟩
        apply (hshaped.above rdd a _).2
        simp only [Function.update_self]
        rw [hHA]
        exact ha
    · apply newSucc_rooted hshaped hrooted h.known
      intro hagain
      have hsecret : BranchOutcome.secret b ≠ true := fun hs => hb hs hagain
      rw [successorNode_HA, if_neg hsecret]
      exact h.rooted.clear rdd hagain
    · refine newSucc_spread ?_ hshaped.leaf_lt hkept.1
      intro l hl hne
      simp only [Function.update_of_ne hne]
      exact h.spread l hl
    · apply Spares.trans (setNode_spares r rdd rd) _ (.inl rfl) h.shaped.leaf_lt
      exact newSucc_spares hshaped h.known
    · simp only [newSucc]
      rw [Function.update_of_ne (Nat.ne_of_lt h.known), Function.update_self, hbbs]
  unfold addSuccessor
  dsimp only
  split
  · exact hmark _ rfl rfl (fun _ => rfl) fun _ => rfl
  · rename_i hs
    have hself := hmark (r.node rdd) rfl rfl id fun h' => absurd h' hs
    rw [Function.update_eq_self] at hself
    exact hself

/-- What the new node takes over. -/
theorem addSuccessor_new (h : At r rdd) (b : BranchOutcome) :
    ((r.addSuccessor rdd b).node r.rdid).bbs = (r.node rdd).bbs ∧
      ((r.addSuccessor rdd b).Again r.rdid → r.Again rdd) := by
  have hnode : ∀ node' : Nat → RD, (Function.update node' r.rdid (successorNode (r.node rdd) rdd b)
      r.rdid).bbs = (r.node rdd).bbs := by
    intro node'
    rw [Function.update_self]
    exact (successorNode_kept _ _ _).2
  have hagain : (r.newSucc rdd b.place (successorNode (r.node rdd) rdd b)).Again r.rdid →
      r.Again rdd := by
    intro hnew
    rcases (newSucc_again h.shaped h.known).mp hnew with ⟨root, hroot, hne, hx | hx⟩ | hx
    · have := h.rooted.known root hroot
      omega
    · have := (h.shaped.under_lt hx).2
      omega
    · exact hx.2
  unfold addSuccessor
  dsimp only
  split
  · exact ⟨hnode _, hagain⟩
  · exact ⟨hnode _, hagain⟩

theorem Succeeds.trans {r' r'' : RunState} (h : Succeeds rdd r r') (h' : Succeeds rdd r' r'')
    (hlt : ∀ x ∈ r.tree.leaves, x < r.rdid) : Succeeds rdd r r'' :=
  ⟨h'.there, h.spares.trans h'.spares (.inl rfl) hlt, h'.bbs.trans h.bbs, h'.ended.trans h.ended⟩

/-- A state that is left of a step on the node `rdd`. -/
structure Left (r : RunState) (rdd : Nat) (s : RunningState) (r' : RunState) (t : RunningState) :
    Prop where
  blocks : t.blocks = s.blocks
  restarted : t.restarted = s.restarted
  bbs : (r'.node t.rdid).bbs = (r.node rdd).bbs
  again : r'.Again t.rdid → r.Again rdd
  node : t.rdid = rdd ∨ r.rdid ≤ t.rdid

/-- The states that the loop over `successorsPaths` leaves stand for the path so far. -/
theorem registerAll_left {s : RunningState} (hs : s.rdid = rdd) {ps : List InPlay}
    (hps : ∀ p ∈ ps, p.state = s)
    (hsecret : ∀ p ∈ ps, ∀ b, p.registered = some b → BranchOutcome.secret b = true →
      ¬ r.Again rdd) (h : At r rdd) :
    Succeeds rdd r (r.registerAll rdd ps).1 ∧
      ∀ t ∈ (r.registerAll rdd ps).2, Left r rdd s (r.registerAll rdd ps).1 t := by
  induction ps generalizing r with
  | nil => exact ⟨⟨h, Spares.refl rdd r, rfl, rfl⟩, by simp [registerAll]⟩
  | cons p ps ih =>
    have hp : p.state = s := hps p List.mem_cons_self
    have hrest : ∀ q ∈ ps, q.state = s := fun q hq => hps q (List.mem_cons_of_mem p hq)
    cases hreg : p.registered with
    | some b =>
      have hfirst := addSuccessor_succeeds h b (hsecret p List.mem_cons_self b hreg)
      obtain ⟨hbbs, hagain⟩ := addSuccessor_new h b
      have hback : (r.addSuccessor rdd b).Again rdd → r.Again rdd := hfirst.spares.again rdd h.known
      obtain ⟨hthen, hleft⟩ := ih hrest (fun q hq c hc hcs hr =>
        hsecret q (List.mem_cons_of_mem p hq) c hc hcs (hback hr)) hfirst.there
      have hid := addSuccessor_rdid r rdd b
      have hne : r.rdid ≠ rdd := Nat.ne_of_gt h.known
      have hold : ∀ t ∈ (registerAll rdd ps (r.addSuccessor rdd b)).2,
          Left r rdd s (registerAll rdd ps (r.addSuccessor rdd b)).1 t := by
        intro t ht
        obtain ⟨h1, h2, h3, h4, h5⟩ := hleft t ht
        refine ⟨h1, h2, h3.trans hfirst.bbs, fun ha => hback (h4 ha), ?_⟩
        omega
      have hnew : Left r rdd s (registerAll rdd ps (r.addSuccessor rdd b)).1
          { p.state with rdid := r.rdid } := by
        rw [hp]
        refine ⟨rfl, rfl, ?_, ?_, .inr (Nat.le_refl _)⟩
        · rw [hthen.spares.node r.rdid (by omega) hne]
          exact hbbs
        · intro ha
          exact hagain (hthen.spares.again r.rdid (by omega) ha)
      refine ⟨?_, ?_⟩
      · simp only [registerAll, hreg]
        exact hfirst.trans hthen h.shaped.leaf_lt
      · simp only [registerAll, hreg]
        intro t ht
        split at ht
        · rcases List.mem_cons.mp ht with ht | ht
          · rw [ht]
            exact hnew
          · exact hold t ht
        · exact hold t ht
    | none =>
      obtain ⟨hthen, hleft⟩ := ih hrest
        (fun q hq => hsecret q (List.mem_cons_of_mem p hq)) h
      refine ⟨?_, ?_⟩
      · simp only [registerAll, hreg]
        exact hthen
      · simp only [registerAll, hreg]
        intro t ht
        split at ht
        · rcases List.mem_cons.mp ht with ht | ht
          · rw [ht, hp]
            refine ⟨rfl, rfl, ?_, ?_, .inl hs⟩
            · rw [hs]
              exact hthen.bbs
            · rw [hs]
              exact hthen.spares.again rdd h.known
          · exact hleft t ht
        · exact hleft t ht

/-- The state after some observation points of its step. -/
structure Watched (r₀ : RunState) (s₀ : RunningState) (r : RunState) (s : RunningState) :
    Prop where
  there : At r s.rdid
  seated : Seated r₀ s₀ r s
  spares : Spares s₀.rdid r₀ r
  bbs : (r.node s.rdid).bbs = s.blocks
  again : r.Again s.rdid → s.restarted = true
  ended : ∀ p ∈ r.ended, Kept r p ∧ p.rd ≠ s.rdid ∧ (p ∈ r₀.ended ∨ r₀.rdid ≤ p.rd)

/-- The copy that ends at an observation point has a leaf of its own. -/
theorem observed_watched {r₀ : RunState} {s₀ s : RunningState} (h : Watched r₀ s₀ r s)
    (hplain : (r.node s.rdid).isHBr = false) (hlt : ∀ x ∈ r₀.tree.leaves, x < r₀.rdid) :
    Watched r₀ s₀ (r.observed s place) s ∧
      ((r.observed s place).node s.rdid).isHBr = false := by
  have hshaped := h.there.shaped
  have hgrows := h.seated.keeps.grows
  have hne : s.rdid ≠ r.rdid := Nat.ne_of_lt h.there.known
  have hsame : (r.observed s place).node s.rdid = r.node s.rdid := by
    simp only [observed, newSucc]
    rw [Function.update_of_ne hne]
  have hspares : Spares s.rdid r (r.observed s place) := by
    have hnew : Spares s.rdid r
        (r.newSucc s.rdid place { r.node s.rdid with pathterminated := true }) :=
      newSucc_spares hshaped h.there.known
    exact ⟨hnew.grows, hnew.node, hnew.leaf, hnew.again⟩
  refine ⟨⟨⟨?_, ?_, ?_, Nat.lt_succ_of_lt h.there.known⟩, ?_, ?_, ?_, ?_, ?_⟩, ?_⟩
  · have hnew : Shaped (r.newSucc s.rdid place { r.node s.rdid with pathterminated := true }) := by
      apply newSucc_shaped hshaped h.there.known
      intro a ha
      obtain ⟨hu, hbr⟩ := hshaped.above s.rdid a ha
      exact ⟨.inr hu, hbr⟩
    exact ⟨hnew.root, hnew.nodup, hnew.ids, hnew.fresh, hnew.above⟩
  · have hnew : Rooted (r.newSucc s.rdid place { r.node s.rdid with pathterminated := true }) := by
      apply newSucc_rooted hshaped h.there.rooted h.there.known
      exact h.there.rooted.clear s.rdid
    exact ⟨hnew.nodup, hnew.first, hnew.known, hnew.clear⟩
  · exact newSucc_spread (fun l hl _ => h.there.spread l hl) hshaped.leaf_lt hplain
  · refine ⟨h.seated.keeps.trans (observed_keepsUsage r s place), h.seated.states, h.seated.node,
      Nat.lt_succ_of_lt h.seated.known, h.seated.cost, ?_⟩
    rw [hsame]
    exact h.seated.paid
  · exact h.spares.trans hspares h.seated.node hlt
  · rw [hsame]
    exact h.bbs
  · intro hagain
    exact h.again (hspares.again s.rdid h.there.known hagain)
  · intro p hp
    rcases List.mem_cons.mp hp with hp | hp
    · rw [hp]
      refine ⟨⟨?_, Nat.lt_succ_self _, ?_, ?_⟩, hne.symm, .inr hgrows⟩
      · simp only [observed, newSucc, Rose.mem_leaves_graft]
        exact .inr ⟨trivial, (hshaped.ids _).mpr h.there.known⟩
      · simp only [observed, newSucc, Function.update_self]
        exact h.seated.paid
      · simp only [observed, newSucc, Function.update_self]
        exact h.bbs
    · obtain ⟨hkept, hpne, hpo⟩ := h.ended p hp
      exact ⟨hkept.spared hspares hpne, hpne, hpo⟩
  · rw [hsame]
    exact hplain

/-- The state that starts again does so on a leaf without an H-ancestor. -/
theorem reset_watched {r₀ : RunState} {s₀ s : RunningState} (h : Watched r₀ s₀ r s)
    (hlt : ∀ x ∈ r₀.tree.leaves, x < r₀.rdid) :
    Watched r₀ s₀ (r.reset s place)
      { s with rdid := r.rdid, cost := 0, blocks := ∅, restarted := true } := by
  have hshaped := h.there.shaped
  have hgrows := h.seated.keeps.grows
  have hnew : Shaped (r.newSucc s.rdid place {}) := by
    apply newSucc_shaped hshaped h.there.known
    intro a ha
    cases ha
  have hagain : ∀ x < r.rdid, (r.reset s place).Again x → r.Again x := by
    intro x hx ⟨root, hroot, hne, hxr⟩
    rcases List.mem_cons.mp hroot with hroot | hroot
    · subst hroot
      rcases hxr with hxr | hxr
      · omega
      · simp only [reset, newSucc, Rose.under_graft] at hxr
        rcases hxr with hxr | ⟨hxr, _⟩
        · have := (hshaped.under_lt hxr).1
          omega
        · omega
    · have hold : (r.newSucc s.rdid place {}).Again x := ⟨root, hroot, hne, hxr⟩
      rcases (newSucc_again hshaped h.there.known).mp hold with hold | ⟨hxr, _⟩
      · exact hold
      · omega
  have hspares : Spares s.rdid r (r.reset s place) := by
    have hsp : Spares s.rdid r (r.newSucc s.rdid place {}) :=
      newSucc_spares hshaped h.there.known
    exact ⟨hsp.grows, hsp.node, hsp.leaf, hagain⟩
  refine ⟨⟨?_, ?_, ?_, Nat.lt_succ_self _⟩, ?_, ?_, ?_, fun _ => rfl, ?_⟩
  · exact ⟨hnew.root, hnew.nodup, hnew.ids, hnew.fresh, hnew.above⟩
  · refine ⟨?_, ?_, ?_, ?_⟩
    · refine List.nodup_cons.mpr ⟨?_, h.there.rooted.nodup⟩
      intro hmem
      have := h.there.rooted.known _ hmem
      omega
    · exact List.mem_cons_of_mem _ h.there.rooted.first
    · intro x hx
      rcases List.mem_cons.mp hx with hx | hx
      · rw [hx]
        exact Nat.lt_succ_self _
      · exact Nat.lt_succ_of_lt (h.there.rooted.known x hx)
    · intro x hx
      rcases Nat.lt_trichotomy x r.rdid with hxr | hxr | hxr
      · simp only [reset, newSucc, Function.update_of_ne (Nat.ne_of_lt hxr)]
        exact h.there.rooted.clear x (hagain x hxr hx)
      · subst hxr
        simp only [reset, newSucc, Function.update_self]
      · exact hnew.fresh x hxr
  · exact newSucc_spread (fun l hl _ => h.there.spread l hl) hshaped.leaf_lt rfl
  · refine ⟨h.seated.keeps.trans (reset_keepsUsage r s place), h.seated.states, .inr hgrows,
      Nat.lt_succ_self _, Nat.zero_le _, ?_⟩
    simp [reset, newSucc]
  · exact h.spares.trans hspares h.seated.node hlt
  · simp only [reset, newSucc, Function.update_self]
  · intro p hp
    obtain ⟨hkept, hpne, hpo⟩ := h.ended p hp
    exact ⟨hkept.spared hspares hpne, Nat.ne_of_lt hkept.known, hpo⟩

theorem handleTimingObservationPoint_watched {r₀ : RunState} {s₀ s : RunningState}
    (h : Watched r₀ s₀ r s) (hplain : (r.node s.rdid).isHBr = false)
    (hlt : ∀ x ∈ r₀.tree.leaves, x < r₀.rdid) (ob : Observation) :
    let seen := r.handleTimingObservationPoint s ob
    Watched r₀ s₀ seen.1 seen.2 ∧ (seen.1.node seen.2.rdid).isHBr = false := by
  obtain ⟨hob, hobplain⟩ : Watched r₀ s₀ (r.observed s ob.place) s ∧
      ((r.observed s ob.place).node s.rdid).isHBr = false := observed_watched h hplain hlt
  unfold handleTimingObservationPoint
  dsimp only
  split
  · refine ⟨reset_watched hob hlt, ?_⟩
    simp only [reset, newSucc, Function.update_self]
  · exact ⟨hob, hobplain⟩

theorem observe_watched {s : RunningState} (h : Watched r s r s) (st : RunStep)
    (hplain : st.observations ≠ [] → (r.node s.rdid).isHBr = false) :
    Watched r s (st.observe r s).1 (st.observe r s).2 := by
  have hlt := h.there.shaped.leaf_lt
  unfold RunStep.observe
  have hwatched : Watched r s (r, s).1 (r, s).2 := h
  have hx : st.observations ≠ [] → ((r, s).1.node (r, s).2.rdid).isHBr = false := hplain
  clear hplain
  generalize (r, s) = x at hwatched hx ⊢
  generalize st.observations = obs at hx ⊢
  induction obs generalizing x with
  | nil => exact hwatched
  | cons ob obs ih =>
    obtain ⟨h1, h2⟩ := handleTimingObservationPoint_watched hwatched (hx (by simp)) hlt ob
    exact ih _ h1 fun _ => h2

/-- The usage and the blocks of the node grow, and nothing else of what counts here. -/
theorem charge_succeeds (h : At r rdd) (o : RunOptions) (st : RunStep) :
    At (r.charge o st rdd) rdd ∧ Spares rdd r (r.charge o st rdd) ∧
      ((r.charge o st rdd).node rdd).bbs = insert st.ii.block (r.node rdd).bbs := by
  refine ⟨⟨?_, ?_, ?_, h.known⟩, ?_, ?_⟩
  · exact setNode_shaped h.shaped rfl id
  · exact setNode_rooted h.rooted rfl
  · intro l hl
    have hold := h.spread l hl
    by_cases hlr : l = rdd
    · subst hlr
      simp only [charge, Function.update_self]
      exact hold
    · simp only [charge, Function.update_of_ne hlr]
      exact hold
  · exact setNode_spares r rdd _
  · simp only [charge, Function.update_self]

theorem branch_left {o : RunOptions} {st : RunStep} {s : RunningState} (h : At r rdd)
    (hs : s.rdid = rdd)
    (hsecret : ∀ p ∈ st.play s, ∀ b, p.registered = some b → BranchOutcome.secret b = true →
      ¬ r.Again rdd) :
    Succeeds rdd r (st.branch o rdd (st.play s) r).1 ∧
      ∀ t ∈ (st.branch o rdd (st.play s) r).2,
        Left r rdd s (st.branch o rdd (st.play s) r).1 t := by
  have hplay := play_state st s
  unfold RunStep.branch
  split
  · exact registerAll_left hs hplay hsecret h
  · refine ⟨⟨h, Spares.refl rdd r, rfl, rfl⟩, ?_⟩
    intro t ht
    obtain ⟨p, hp, rfl⟩ := List.mem_map.mp ht
    rw [hplay p (List.mem_of_mem_filter hp)]
    refine ⟨rfl, rfl, ?_, ?_, .inl hs⟩
    · rw [hs]
    · rw [hs]
      exact id

end RunState

/-- The step charges one path, in the block that it executes; a path is observed on a node
that is no H-branch, ends on a leaf and leaves no state there, and meets no secret branch
once it has started again. -/
structure KeepsPaths (o : RunOptions) (r : RunState) (st : RunStep) : Prop extends
    ChargesOnePath o r st where
  block : ∀ e, st.executed = some e → e.block = st.ii.block
  plain : st.observations ≠ [] → ∀ s, r.states[st.index]? = some s →
    (r.node s.rdid).isHBr = false
  ends : st.ends = true → st.observations = [] ∧
    (∀ s, r.states[st.index]? = some s → s.rdid ∈ r.tree.leaves) ∧
    ∀ s, ¬ st.Registers o (st.play s) ∧ st.heirs o s = []
  once : ∀ s, r.states[st.index]? = some s → (st.observe r s).2.restarted = true →
    ∀ s', ∀ p ∈ st.play s', ∀ b, p.registered = some b → BranchOutcome.secret b = false

/-- What runs keep whose steps keep the paths. -/
structure PathsKept (r : RunState) : Prop where
  booked : Booked r
  shaped : Shaped r
  rooted : Rooted r
  spread : Spread r
  blocks : ∀ s ∈ r.states, (r.node s.rdid).bbs = s.blocks
  again : ∀ s ∈ r.states, r.Again s.rdid → s.restarted = true
  ended : ∀ p ∈ r.ended, Kept r p ∧ ∀ s ∈ r.states, p.rd ≠ s.rdid

namespace RunState

variable {r : RunState}

theorem initial_pathsKept : PathsKept .initial := by
  have hagain : ∀ x, ¬ RunState.initial.Again x := by
    intro x ⟨root, hroot, hne, _⟩
    exact hne (List.mem_singleton.mp hroot)
  refine ⟨initial_booked, ⟨rfl, ?_, ?_, fun _ _ => rfl, ?_⟩, ⟨?_, ?_, ?_, ?_⟩, ?_, ?_, ?_, ?_⟩
  · simp [initial, Rose.labels, Rose.labelsAll]
  · intro x
    simp [initial, Rose.labels, Rose.labelsAll]
  · intro x a h
    cases h
  · simp [initial]
  · simp [initial]
  · simp [initial]
  · intro x hx
    exact absurd hx (hagain x)
  · intro l _
    rfl
  · simp [initial]
  · intro s _ hs
    exact absurd hs (hagain _)
  · simp [initial]

theorem watched_of_kept (h : PathsKept r) {s : RunningState} (hs : s ∈ r.states) :
    Watched r s r s := by
  refine ⟨⟨h.shaped, h.rooted, h.spread, h.booked.known s hs⟩, ?_, Spares.refl _ r,
    h.blocks s hs, h.again s hs, ?_⟩
  · exact ⟨⟨Nat.le_refl _, fun _ _ => rfl⟩, rfl, .inl rfl, h.booked.known s hs, Nat.le_refl _,
      h.booked.paid s hs⟩
  · intro p hp
    obtain ⟨hkept, hapart⟩ := h.ended p hp
    exact ⟨hkept, hapart s hs, .inl hp⟩

/-- The end of a path, and the states that go on, after a step. -/
theorem step_pathsKept {o : RunOptions} {r' : RunState} {st : RunStep} (h : PathsKept r)
    (hkeeps : KeepsPaths o r st) (hstep : r.step o st = some r') : PathsKept r' := by
  have hbooked := step_booked h.booked hkeeps.toChargesOnePath hstep
  unfold step at hstep
  obtain ⟨s, hs, rfl⟩ := Option.map_eq_some_iff.mp hstep
  have hmem : s ∈ r.states := List.mem_of_getElem? hs
  obtain ⟨_, hothers⟩ := eraseIdx_apart hs h.booked.distinct
  obtain ⟨e, hexecuted, hcost⟩ := hkeeps.executed
  have hblock := hkeeps.block e hexecuted
  have hroom := hkeeps.room s hs
  have honce := hkeeps.once s hs
  have hwatch := observe_watched (watched_of_kept h hmem) st fun hob => hkeeps.plain hob s hs
  have hunseen : st.ends = true → st.observe r s = (r, s) := by
    intro hends
    unfold RunStep.observe
    rw [(hkeeps.ends hends).1]
    rfl
  generalize hseen : st.observe r s = seen at hwatch hunseen honce hbooked ⊢
  obtain ⟨r1, s1⟩ := seen
  dsimp only at hwatch honce hbooked ⊢
  obtain ⟨hat, hcharged, hblocks⟩ := charge_succeeds hwatch.there o st
  have hpassed : (s1.pass o st.executed).rdid = s1.rdid ∧
      (s1.pass o st.executed).restarted = s1.restarted ∧
      (s1.pass o st.executed).blocks = insert st.ii.block s1.blocks ∧
      (s1.pass o st.executed).cost = s1.cost + (getTimingCost o st.ii).toNat := by
    rw [hexecuted, ← hcost, ← hblock]
    exact ⟨rfl, rfl, rfl, rfl⟩
  obtain ⟨hrdid, hrestarted, hpassedblocks, hpassedcost⟩ := hpassed
  generalize hr2 : (if st.ends then _ else r1.charge o st s1.rdid) = r2 at hbooked ⊢
  have hsame : r2.node = (r1.charge o st s1.rdid).node ∧ r2.tree = r1.tree ∧ r2.rdid = r1.rdid ∧
      r2.resourceTreeRootList = r1.resourceTreeRootList := by
    rw [← hr2]
    split <;> exact ⟨rfl, rfl, rfl, rfl⟩
  obtain ⟨hnode2, htree2, hrdid2, hroots2⟩ := hsame
  have hat2 : At r2 s1.rdid := by
    rw [← hr2]
    split
    · exact ⟨⟨hat.shaped.root, hat.shaped.nodup, hat.shaped.ids, hat.shaped.fresh,
        hat.shaped.above⟩, ⟨hat.rooted.nodup, hat.rooted.first, hat.rooted.known,
        hat.rooted.clear⟩, hat.spread, hat.known⟩
    · exact hat
  have hspares2 : Spares s1.rdid r1 r2 := by
    rw [← hr2]
    split
    · exact ⟨hcharged.grows, hcharged.node, hcharged.leaf, hcharged.again⟩
    · exact hcharged
  have hended2 : ∀ p ∈ r2.ended, p ∈ r1.ended ∨
      (st.ends = true ∧ p = ⟨s1.rdid, s1.cost + (getTimingCost o st.ii).toNat,
        insert st.ii.block s1.blocks⟩) := by
    rw [← hr2]
    intro p hp
    split at hp
    · rename_i hends
      rcases List.mem_cons.mp hp with hp | hp
      · rw [hp, hpassedcost, hpassedblocks]
        exact .inr ⟨hends, rfl⟩
      · exact .inl hp
    · exact .inl hp
  have hsecret : ∀ p ∈ st.play (s1.pass o st.executed), ∀ b, p.registered = some b →
      BranchOutcome.secret b = true → ¬ r2.Again s1.rdid := by
    intro p hp b hb hbs hagain
    have hrestart := hwatch.again (hspares2.again _ hwatch.there.known hagain)
    rw [honce hrestart _ p hp b hb] at hbs
    cases hbs
  obtain ⟨hsucceeds, hleft⟩ := branch_left hat2 hrdid hsecret
  have hnone : st.ends = true → st.branch o s1.rdid (st.play (s1.pass o st.executed)) r2 =
      (r2, []) := by
    intro hends
    obtain ⟨_, _, hgone⟩ := hkeeps.ends hends
    obtain ⟨hregisters, hheirs⟩ := hgone (s1.pass o st.executed)
    rw [RunStep.heirs, if_neg hregisters] at hheirs
    rw [RunStep.branch, if_neg hregisters, hheirs]
    rfl
  generalize st.branch o s1.rdid (st.play (s1.pass o st.executed)) r2 = left at *
  have hall : Spares s.rdid r left.1 := by
    have hfrom := hspares2.trans hsucceeds.spares (.inl rfl) hwatch.there.shaped.leaf_lt
    exact hwatch.spares.trans hfrom hwatch.seated.node h.shaped.leaf_lt
  have hthere := hsucceeds.there
  have hgrows := hwatch.seated.keeps.grows
  refine ⟨hbooked, ⟨hthere.shaped.root, hthere.shaped.nodup, hthere.shaped.ids,
    hthere.shaped.fresh, hthere.shaped.above⟩, ⟨hthere.rooted.nodup, hthere.rooted.first,
    hthere.rooted.known, hthere.rooted.clear⟩, hthere.spread, ?_, ?_, ?_⟩
  · intro t ht
    rcases List.mem_append.mp ht with ht | ht
    · obtain ⟨htmem, hne⟩ := hothers t ht
      rw [hall.node _ (h.booked.known t htmem) hne]
      exact h.blocks t htmem
    · have hone := hleft t ht
      rw [hone.bbs, hone.blocks, hpassedblocks, hnode2, hblocks, hwatch.bbs]
  · intro t ht hagain
    rcases List.mem_append.mp ht with ht | ht
    · obtain ⟨htmem, _⟩ := hothers t ht
      exact h.again t htmem (hall.again _ (h.booked.known t htmem) hagain)
    · have hone := hleft t ht
      rw [hone.restarted, hrestarted]
      apply hwatch.again
      exact hspares2.again _ hwatch.there.known (hone.again hagain)
  · intro p hp
    rw [hsucceeds.ended] at hp
    rcases hended2 p hp with hp | ⟨hends, rfl⟩
    · obtain ⟨hkept, hne, hfrom⟩ := hwatch.ended p hp
      have hstill : Kept left.1 p := (hkept.spared hspares2 hne).spared hsucceeds.spares hne
      refine ⟨⟨hstill.leaf, hstill.known, hstill.ru, hstill.bbs⟩, ?_⟩
      intro t ht
      rcases List.mem_append.mp ht with ht | ht
      · obtain ⟨htmem, _⟩ := hothers t ht
        have hknown := h.booked.known t htmem
        rcases hfrom with hfrom | hfrom
        · exact (h.ended p hfrom).2 t htmem
        · omega
      · have hnode := (hleft t ht).node
        have hlt := hkept.known
        omega
    · rw [hnone hends]
      obtain ⟨_, hleaf, _⟩ := hkeeps.ends hends
      have hself := hunseen hends
      cases hself
      have hpaid := h.booked.paid s hmem
      refine ⟨⟨?_, ?_, ?_, ?_⟩, ?_⟩
      · rw [htree2]
        exact hleaf s hs
      · rw [hrdid2]
        exact h.booked.known s hmem
      · rw [hnode2, charge_ru, BitVec.toNat_add, hpaid]
        exact Nat.mod_eq_of_lt hroom
      · rw [hnode2, hblocks, hwatch.bbs]
      · intro t ht
        rw [List.append_nil] at ht
        exact (hothers t ht).2.symm

theorem run_pathsKept {o : RunOptions} (h : RunTo o (KeepsPaths o) r) : PathsKept r := by
  induction h with
  | start => exact initial_pathsKept
  | step _ hP hs ih => exact step_pathsKept ih hP hs

end RunState

end Encider
