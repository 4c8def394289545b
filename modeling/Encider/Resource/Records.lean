import Encider.Resource.Blocks

namespace Encider

open Std

namespace ResourceTree

/-- For every key of an H-ancestor the recorded blocks, leaves and counts are
those of exactly the leaves with that key. -/
def RecordsRight (T : ResourceTree) (hv : HashValue) (m : Maps) : Prop :=
  ∀ a, ∀ k ∈ (m a).Ru,
    (∀ i, i ∈ (m a).bbm.getD k ∅ ↔ i ∈ blocks T hv T.tree.leaves a k) ∧
      (∀ l, l ∈ (m a).RDSet.getD k ∅ ↔ l ∈ T.tree.leaves ∧ T.Key hv l a k) ∧
        (m a).terminated.getD k 0 = ended T hv T.tree.leaves a k

/-- The order of the leaves keeps their blocks and counts apart. -/
structure OrderApart (T : ResourceTree) (hv : HashValue) : Prop where
  counted : T.CountedOnce
  blocks : ∀ pre l post, T.tree.leaves = pre ++ l :: post → BlocksApart T hv pre l

/-- No key is shared by a leaf right below an H-ancestor and one further below. -/
def Separate (T : ResourceTree) (hv : HashValue) : Prop :=
  ∀ a k, ∀ l ∈ T.tree.leaves, ∀ l' ∈ T.tree.leaves, T.Key hv l a k → T.Key hv l' a k →
    (T.node l).HA = some a → (T.node l').HA = some a

/-- Leaves with one key above an inner H-branch have the same blocks. -/
def SameBlocks (T : ResourceTree) (hv : HashValue) : Prop :=
  ∀ a k, ∀ l ∈ T.tree.leaves, ∀ l' ∈ T.tree.leaves, T.Key hv l a k → T.Key hv l' a k →
    (T.node l).HA ≠ some a → (T.node l).bbs ⊆ (T.node l').bbs

end ResourceTree

open ResourceTree

variable {T : ResourceTree} {hv : HashValue}

theorem recordsRight_of_apart (hk : T.KeysCohere hv) (ha : T.OrderApart hv) :
    ∃ m, T.propagate hv = some m ∧ T.RecordsRight hv m := by
  obtain ⟨m, hm, hr, hcov, hcnt⟩ := T.propagate_rule hk
    (fun vs m => Covered T hv vs m ∧ Counted T hv vs m)
    ⟨by simp [Covered, blocks], by simp [Counted, ended]⟩ (by
      rintro vs l post m m' hl hr hr' hvis ⟨hc, hn⟩
      have hvs := leaves_upto hl
      exact ⟨hc.snoc hk hvs hr hr' hvis (ha.blocks vs l post hl), hn.snoc hk hvs hr' hvis
        fun b d a hb hba => ha.counted vs l post b d a hl hb hba⟩)
  exact ⟨m, hm, fun a k _ => ⟨hcov a k, (hr a).RDSet k, hcnt a k⟩⟩

section Reorder

variable {t : Rose Nat} (h : T.tree.Reorder t)
include h

theorem blocks_reorder (a : Nat) (k : ExHash) :
    blocks (T.reorder h) hv (T.reorder h).tree.leaves a k = blocks T hv T.tree.leaves a k := by
  ext i
  simp only [blocks, Set.mem_ofPred_eq, mem_leaves_reorder h]
  rfl

theorem ended_reorder (a : Nat) (k : ExHash) :
    ended (T.reorder h) hv (T.reorder h).tree.leaves a k = ended T hv T.tree.leaves a k :=
  h.leaves_perm.symm.countP_eq _

theorem recordsRight_reorder (m : Maps) :
    (T.reorder h).RecordsRight hv m ↔ T.RecordsRight hv m := by
  simp only [RecordsRight, blocks_reorder h, ended_reorder h, mem_leaves_reorder h]
  rfl

theorem ResourceTree.Separate.reorder (hs : T.Separate hv) : (T.reorder h).Separate hv :=
  fun a k l hl l' hl' =>
    hs a k l ((mem_leaves_reorder h l).mp hl) l' ((mem_leaves_reorder h l').mp hl')

theorem ResourceTree.SameBlocks.reorder (hs : T.SameBlocks hv) : (T.reorder h).SameBlocks hv :=
  fun a k l hl l' hl' =>
    hs a k l ((mem_leaves_reorder h l).mp hl) l' ((mem_leaves_reorder h l').mp hl')

end Reorder

/-- The leaf visited first fixes the blocks of its key above an inner H-branch,
when no leaf right below has that key. -/
theorem head_blocks (hk : T.KeysCohere hv) {l b a : Nat} {d : HCLC} {post : List Nat}
    (hl : T.tree.leaves = l :: post) (hb : T.Reaches l b d) (hba : (T.node b).HA = some a)
    (hsep : ∀ x ∈ T.tree.leaves, T.Key hv x a (getHash hv ((T.node b).conj d)) →
      (T.node x).HA ≠ some a) :
    ∃ m, T.propagate hv = some m ∧
      ∀ i, i ∈ (m a).bbm.getD (getHash hv ((T.node b).conj d)) ∅ ↔ i ∈ (T.node l).bbs := by
  have hkey : T.Key hv l a (getHash hv ((T.node b).conj d)) := (hb.extend hba).key
  obtain ⟨m, hm, -, hp⟩ := T.propagate_rule hk (fun vs m => (vs = [] → Covered T hv [] m) ∧
    ∀ ws, vs = l :: ws → ∀ i,
      i ∈ (m a).bbm.getD (getHash hv ((T.node b).conj d)) ∅ ↔ i ∈ (T.node l).bbs)
    ⟨fun _ => by simp [Covered, blocks], by simp⟩ (by
      rintro vs y post' m m' hly hr hr' hvis ⟨h0, hi⟩
      refine ⟨by simp, ?_⟩
      intro ws hws i
      have hvs := leaves_upto hly
      cases vs with
      | nil =>
        obtain ⟨rfl, rfl⟩ := List.cons.inj hws
        have hap : BlocksApart T hv [] y := ⟨by simp, by simp⟩
        have hc := (h0 rfl).snoc hk hvs hr hr' hvis hap a (getHash hv ((T.node b).conj d)) i
        rw [hc, blocks_snoc_self hkey]
        simp [blocks]
      | cons z vs =>
        obtain ⟨rfl, -⟩ := List.cons.inj hws
        rw [← hi vs rfl i]
        by_cases hy : T.Key hv y a (getHash hv ((T.node b).conj d))
        · obtain ⟨e, he, heq⟩ := hy
          rcases he.last with ⟨hya, -⟩ | ⟨c, f, hc, hca, -⟩
          · exact absurd hya (hsep y (hvs y (by simp)) ⟨e, he, heq⟩)
          · rw [hvis.keep_bbm hc hca (((hr a).mem_bbm _).mpr ⟨z, List.mem_cons_self, hkey⟩)]
        · rw [hvis.bbm_other hr hr' hy])
  exact ⟨m, hm, hp.2 post hl⟩

/-- The recorded blocks hold those of every leaf visited. -/
def Held (T : ResourceTree) (hv : HashValue) (vs : List Nat) (m : Maps) : Prop :=
  ∀ a k, ∀ x ∈ vs, T.Key hv x a k → (T.node x).bbs ⊆ (m a).bbm.getD k ∅

theorem Held.snoc (hk : T.KeysCohere hv) (hs : T.SameBlocks hv) {vs : List Nat} {l : Nat}
    {m m' : Maps} (hvs : ∀ x ∈ vs ++ [l], x ∈ T.tree.leaves)
    (hr : ∀ a, Recorded T hv vs a (m a)) (hr' : ∀ a, Recorded T hv (vs ++ [l]) a (m' a))
    (h : Visits T hv l m m') (hh : Held T hv vs m) : Held T hv (vs ++ [l]) m' := by
  intro a k x hx hxk
  rcases List.mem_append.mp hx with hx | hx
  · exact (hh a k x hx hxk).trans (h.bbm_mono hr hr' a k)
  · rw [List.mem_singleton] at hx
    subst hx
    obtain ⟨e, he, rfl⟩ := hxk
    refine Climb.Reaches.rec_last
      (P := fun a e => (T.node x).bbs ⊆ (m' a).bbm.getD (getHash hv e) ∅) ?_ ?_ he
    · intro a ha
      rw [h.bbm_direct ha, if_pos rfl]
      exact Finset.subset_union_right
    · intro b d a (hb : T.Reaches x b d) ihb hba
      by_cases hold : ∃ y ∈ vs, T.Key hv y a (getHash hv ((T.node b).conj d))
      · obtain ⟨y, hy, hyk⟩ := hold
        have hxy := hs a _ x (hvs x (by simp)) y (hvs y (by simp [hy])) (hb.extend hba).key hyk
          (hb.not_direct hba)
        exact (hxy.trans (hh a _ y hy hyk)).trans (h.bbm_mono hr hr' a _)
      · intro i hi
        obtain ⟨kr, hkr, hkd⟩ := (hr' b).exists_toList (l := x) (by simp) hb.key
        refine (h.bbm_new hk hvs hr hr' hb hba (fun y hy hyk => hold ⟨y, hy, hyk⟩) i).mpr
          (.inr ⟨kr, hkr, ?_, ?_⟩)
        · rw [hkd, ExHash.cmp_self]
          simp
        · rw [hkd]
          exact ihb hi

/-- Blocks that came along with a new key are still there. -/
def Drawn (T : ResourceTree) (hv : HashValue) (vs : List Nat) (m : Maps) : Prop :=
  ∀ pre l post b d a, vs = pre ++ l :: post → T.Reaches l b d → (T.node b).HA = some a →
    (∀ x ∈ pre, ¬ T.Key hv x a (getHash hv ((T.node b).conj d))) →
      ∀ x ∈ pre, (T.Key hv x a (getHash hv (T.node b).own) ∨
        ∃ e, T.Reaches x b e ∧ ExHash.cmp (getHash hv e) (getHash hv d) = .lt) →
          (T.node x).bbs ⊆ (m a).bbm.getD (getHash hv ((T.node b).conj d)) ∅

theorem Drawn.snoc (hk : T.KeysCohere hv) {vs : List Nat} {l : Nat} {m m' : Maps}
    (hvs : ∀ x ∈ vs ++ [l], x ∈ T.tree.leaves) (hr : ∀ a, Recorded T hv vs a (m a))
    (hr' : ∀ a, Recorded T hv (vs ++ [l]) a (m' a)) (h : Visits T hv l m m')
    (hh : Held T hv vs m) (hh' : Held T hv (vs ++ [l]) m') (hd : Drawn T hv vs m) :
    Drawn T hv (vs ++ [l]) m' := by
  intro pre y post b d a hs hb hba hnew x hx hxk
  rcases List.snoc_split hs with ⟨-, rfl, rfl⟩ | ⟨post', -, hv'⟩
  · intro i hi
    refine (h.bbm_new hk hvs hr hr' hb hba hnew i).mpr ?_
    rcases hxk with hxk | ⟨e, he, hlt⟩
    · exact .inl (hh a _ x hx hxk hi)
    · have hxv : x ∈ vs ++ [l] := List.mem_append_left _ hx
      have hkey : T.Key hv x b (getHash hv e) := he.key
      obtain ⟨kr, hkr, hke⟩ := (hr' b).exists_toList hxv hkey
      refine .inr ⟨kr, hkr, ?_, ?_⟩
      · rw [hke, hlt]
        simp
      · rw [hke]
        exact hh' b _ x hxv he.key hi
  · exact (hd pre y post' b d a hv' hb hba hnew x hx hxk).trans (h.bbm_mono hr hr' a _)

/-- The result of the walk, when the records come out right. -/
theorem drawn_of_right (hk : T.KeysCohere hv) (hs : T.SameBlocks hv)
    (hr : ∃ m, T.propagate hv = some m ∧ T.RecordsRight hv m) :
    ∃ m, (∀ a, Recorded T hv T.tree.leaves a (m a)) ∧ Drawn T hv T.tree.leaves m ∧
      T.RecordsRight hv m := by
  obtain ⟨m, hm, hright⟩ := hr
  obtain ⟨m', hm', hrec, -, hd⟩ := T.propagate_rule hk
    (fun vs m => Held T hv vs m ∧ Drawn T hv vs m) ⟨by simp [Held], by simp [Drawn]⟩ (by
      rintro vs l post m m' hl hr hr' hvis ⟨hh, hd⟩
      have hvs := leaves_upto hl
      have hh' := hh.snoc hk hs hvs hr hr' hvis
      exact ⟨hh', hd.snoc hk hvs hr hr' hvis hh hh'⟩)
  rw [hm] at hm'
  cases hm'
  exact ⟨m, hrec, hd, hright⟩

/-- Every order of the successors gives right records. -/
def ResourceTree.RecordsAlwaysRight (T : ResourceTree) (hv : HashValue) : Prop :=
  ∀ t (h : T.tree.Reorder t), ∃ m, (T.reorder h).propagate hv = some m ∧ T.RecordsRight hv m

theorem sameBlocks_of_right (hk : T.KeysCohere hv) (hs : T.Separate hv) (hr : T.RecordsAlwaysRight hv) :
    T.SameBlocks hv := by
  intro a k l hl l' hl' hlk hlk' hla i hi
  obtain ⟨e, he, rfl⟩ := hlk'
  have hla' : (T.node l').HA ≠ some a := fun h => hla (hs a _ l' hl' l hl ⟨e, he, rfl⟩ hlk h)
  rcases he.last with ⟨h, -⟩ | ⟨b, d, hb, hba, rfl⟩
  · exact absurd h hla'
  obtain ⟨t, h, post, hpost⟩ := leaf_front hl'
  obtain ⟨m, hm, hright⟩ := hr t h
  obtain ⟨m', hm', hblocks⟩ := head_blocks (T := T.reorder h) (hk.reorder h) hpost hb hba
    (fun x hx hxk hxa => hla' (hs a _ x ((mem_leaves_reorder h x).mp hx) l' hl' hxk
      ⟨_, he, rfl⟩ hxa))
  rw [hm] at hm'
  cases hm'
  refine (hblocks i).mp (((hright a _ ?_).1 i).mpr ⟨l, hl, hlk, hi⟩)
  obtain ⟨m', hm', hrec, -⟩ := (T.reorder h).propagate_rule (hk.reorder h) (fun _ _ => True)
    trivial (fun _ _ _ _ _ _ _ _ _ _ => trivial)
  rw [hm] at hm'
  cases hm'
  exact ((hrec a).mem_Ru _).mpr ⟨l', (mem_leaves_reorder h l').mpr hl', _, he, rfl⟩

theorem countedOnce_of_right (hk : T.KeysCohere hv) (hr : T.RecordsAlwaysRight hv) : T.CountedOnce := by
  intro pre l post b d a hsplit hb hba x hx e he
  cases ht : (T.node x).pathterminated with
  | false => rfl
  | true =>
    have hxl : x ∈ T.tree.leaves := by simp [hsplit, hx]
    obtain ⟨t, h, rest, hrest⟩ := leaf_front hxl
    have hne : l ≠ x := by
      rintro rfl
      have hn := T.nodup.sublist (Rose.leaves_sublist T.tree)
      rw [hsplit] at hn
      exact (List.disjoint_of_nodup_append hn) hx List.mem_cons_self
    have hlr : l ∈ rest := by
      have hl : l ∈ (T.reorder h).tree.leaves :=
        (mem_leaves_reorder h l).mpr (by simp [hsplit])
      rw [hrest] at hl
      exact (List.mem_cons.mp hl).resolve_left hne
    obtain ⟨m, hm, hover⟩ := propagate_overcounts (T := T.reorder h) (hk.reorder h) hrest he hba
      ht ⟨l, hlr, d, hb⟩
    obtain ⟨m', hm', hright⟩ := hr t h
    rw [hm] at hm'
    cases hm'
    obtain ⟨m', hm', hrec, -⟩ := (T.reorder h).propagate_rule (hk.reorder h) (fun _ _ => True)
      trivial (fun _ _ _ _ _ _ _ _ _ _ => trivial)
    rw [hm] at hm'
    cases hm'
    have hmem : getHash hv ((T.node b).conj e) ∈ (m a).Ru :=
      ((hrec a).mem_Ru _).mpr ⟨x, (mem_leaves_reorder h x).mpr hxl, _, he.extend hba, rfl⟩
    have hcount := (hright a _ hmem).2.2
    rw [← ended_reorder h] at hcount
    exact absurd hcount (Nat.ne_of_gt hover)

theorem orderApart_of_right (hk : T.KeysCohere hv) (hs : T.Separate hv) (hr : T.RecordsAlwaysRight hv)
    {t : Rose Nat} (h : T.tree.Reorder t) : (T.reorder h).OrderApart hv := by
  have hk' := hk.reorder h
  have hs' := hs.reorder h
  have hsame := (sameBlocks_of_right hk hs hr).reorder h
  have hright : (T.reorder h).RecordsAlwaysRight hv := by
    intro u hu
    obtain ⟨m, hm, hmr⟩ := hr u (h.trans hu)
    exact ⟨m, hm, (recordsRight_reorder h m).mpr hmr⟩
  refine ⟨countedOnce_of_right hk' hright, ?_⟩
  intro pre l post hsplit
  have hl : l ∈ (T.reorder h).tree.leaves := by simp [hsplit]
  have hpre : ∀ x ∈ pre, x ∈ (T.reorder h).tree.leaves := fun x hx => by simp [hsplit, hx]
  refine ⟨?_, ?_⟩
  · rintro b d a hb hba ⟨x, hx, hxk⟩ i hi
    exact ⟨x, hx, hxk, hsame a _ l hl x (hpre x hx) (hb.extend hba).key hxk (hb.not_direct hba) hi⟩
  · intro b d a hb hba hnew x hx hxk i hi
    obtain ⟨m, hrec, hd, hmr⟩ := drawn_of_right hk' hsame (hright t (.refl t))
    have hmem : getHash hv (((T.reorder h).node b).conj d) ∈ (m a).Ru :=
      ((hrec a).mem_Ru _).mpr ⟨l, hl, (hb.extend hba).key⟩
    obtain ⟨y, hy, hyk, hyi⟩ := ((hmr a _ hmem).1 i).mp
      (hd pre l post b d a hsplit hb hba hnew x hx hxk hi)
    have hyl : ((T.reorder h).node y).HA ≠ some a :=
      fun hya => hb.not_direct hba (hs' a _ y hy l hl hyk (hb.extend hba).key hya)
    exact hsame a _ y hy l hl hyk (hb.extend hba).key hyl hyi

/-- An H-branch below another one, with two leaves that have the same constraints. -/
def nestedLeaves (bbs2 bbs3 : Finset Nat) (terminated : Bool) : ResourceTree where
  node
    | 0 => { isHBr := true }
    | 1 => { isHBr := true, HA := some 0 }
    | 2 => { HA := some 1, bbs := bbs2, pathterminated := terminated }
    | 3 => { HA := some 1, bbs := bbs3, pathterminated := terminated }
    | _ => {}
  tree := .node 0 [.node 1 [.node 2 [], .node 3 []]]
  nodup := by decide
  above := by
    intro x a h
    match x, h with
    | 1, h =>
      cases h
      exact ⟨.inl ⟨rfl, by decide⟩, rfl⟩
    | 2, h | 3, h =>
      cases h
      exact ⟨.inr (.inl (.inl ⟨rfl, by decide⟩)), rfl⟩
  leaf := by simp [Rose.leaves, Rose.leavesAll]

theorem nestedLeaves_first {bbs2 bbs3 : Finset Nat} {t : Bool} {l : Nat}
    (hl : l ∈ (nestedLeaves bbs2 bbs3 t).tree.leaves) :
    ((nestedLeaves bbs2 bbs3 t).node l).HA = some 1 ∧
      ((nestedLeaves bbs2 bbs3 t).node l).own = (Constraint.tt, Constraint.tt) := by
  simp only [nestedLeaves, Rose.leaves, Rose.leavesAll, List.append_nil, List.mem_append,
    List.mem_singleton] at hl
  rcases hl with rfl | rfl <;> exact ⟨rfl, rfl⟩

end Encider
