import Encider.Resource.Terminated

namespace Encider

open Std ResourceTree

/-- The blocks of the leaves `vs` below `a` with the key `k`. -/
def blocks (T : ResourceTree) (hv : HashValue) (vs : List Nat) (a : Nat) (k : ExHash) : Set Nat :=
  {i | ∃ x ∈ vs, T.Key hv x a k ∧ i ∈ (T.node x).bbs}

variable {T : ResourceTree} {hv : HashValue}

theorem blocks_snoc_other {vs : List Nat} {l a : Nat} {k : ExHash} (hl : ¬ T.Key hv l a k) :
    blocks T hv (vs ++ [l]) a k = blocks T hv vs a k := by
  ext i
  simp [blocks, or_and_right, exists_or, hl]

theorem blocks_snoc_self {vs : List Nat} {l a : Nat} {k : ExHash} (hl : T.Key hv l a k) (i : Nat) :
    i ∈ blocks T hv (vs ++ [l]) a k ↔ i ∈ blocks T hv vs a k ∨ i ∈ (T.node l).bbs := by
  simp [blocks, or_and_right, exists_or, hl]

section Visit

variable {vs : List Nat} {l : Nat} {m m' : Maps} (h : Visits T hv l m m')

include h

/-- Blocks recorded above an inner H-branch are never touched again from there. -/
theorem Visits.keep_bbm {b a : Nat} {d : HCLC} (hb : T.Reaches l b d)
    (hba : (T.node b).HA = some a) {k : ExHash} (hk : k ∈ (m a).bbm) :
    (m' a).bbm.getD k ∅ = (m a).bbm.getD k ∅ := by
  obtain ⟨bs, hbs⟩ := (ExMap.mem_iff _ _).mp hk
  rw [ExMap.getD_of_getElem? hbs,
    ExMap.getD_of_getElem? ((h.through b d a hb hba).bbm.keep k bs hbs)]

theorem Visits.bbm_direct {a : Nat} (hl : (T.node l).HA = some a) (k : ExHash) :
    (m' a).bbm.getD k ∅ = if getHash hv (T.node l).own = k
      then (m a).bbm.getD k ∅ ∪ (T.node l).bbs else (m a).bbm.getD k ∅ := by
  rw [h.direct a hl, recordLeaf, ExMap.getD_insert]
  split
  · rename_i hk
    rw [hk]
  · rfl

/-- The blocks of the keys that the leaf does not have stay as they are. -/
theorem Visits.bbm_other (hr : ∀ a, Recorded T hv vs a (m a))
    (hr' : ∀ a, Recorded T hv (vs ++ [l]) a (m' a)) {a : Nat} {k : ExHash}
    (hl : ¬ T.Key hv l a k) : (m' a).bbm.getD k ∅ = (m a).bbm.getD k ∅ := by
  by_cases hex : ∃ e, T.Reaches l a e
  · obtain ⟨e, he⟩ := hex
    rcases he.last with ⟨ha, -⟩ | ⟨b, d, hb, hba, -⟩
    · rw [h.bbm_direct ha, if_neg]
      intro hk
      exact hl ⟨_, reaches_first ha, hk⟩
    · by_cases hk : k ∈ (m a).bbm
      · exact h.keep_bbm hb hba hk
      · have hk' : k ∉ (m' a).bbm := by
          rw [(hr a).mem_bbm] at hk
          rw [(hr' a).mem_bbm]
          rintro ⟨x, hx, hxk⟩
          rcases List.mem_append.mp hx with hx | hx
          · exact hk ⟨x, hx, hxk⟩
          · rw [List.mem_singleton] at hx
            subst hx
            exact hl hxk
        rw [TreeMap.getD_eq_fallback hk, TreeMap.getD_eq_fallback hk']
  · rw [h.away a fun e he => hex ⟨e, he⟩]

/-- Recorded blocks stay. -/
theorem Visits.bbm_mono (hr : ∀ a, Recorded T hv vs a (m a))
    (hr' : ∀ a, Recorded T hv (vs ++ [l]) a (m' a)) (a : Nat) (k : ExHash) :
    (m a).bbm.getD k ∅ ⊆ (m' a).bbm.getD k ∅ := by
  by_cases hl : T.Key hv l a k
  · obtain ⟨e, he, -⟩ := hl
    rcases he.last with ⟨ha, -⟩ | ⟨b, d, hb, hba, -⟩
    · rw [h.bbm_direct ha]
      split
      · exact Finset.subset_union_left
      · exact Finset.Subset.refl _
    · by_cases hk : k ∈ (m a).bbm
      · rw [h.keep_bbm hb hba hk]
      · rw [TreeMap.getD_eq_fallback hk]
        exact Finset.empty_subset _
  · rw [h.bbm_other hr hr' hl]

/-- The blocks under a new key: those under the branch's own hash, and those of
its entries up to the leaf's. -/
theorem Visits.bbm_new (hk : T.KeysCohere hv) (hvs : ∀ x ∈ vs ++ [l], x ∈ T.tree.leaves)
    (hr : ∀ a, Recorded T hv vs a (m a)) (hr' : ∀ a, Recorded T hv (vs ++ [l]) a (m' a))
    {b a : Nat} {d : HCLC} (hb : T.Reaches l b d) (hba : (T.node b).HA = some a)
    (hnew : ∀ x ∈ vs, ¬ T.Key hv x a (getHash hv ((T.node b).conj d))) (i : Nat) :
    i ∈ (m' a).bbm.getD (getHash hv ((T.node b).conj d)) ∅ ↔
      i ∈ (m a).bbm.getD (getHash hv (T.node b).own) ∅ ∨
        ∃ kr ∈ (m' b).Ru.toList, ExHash.cmp kr.1 (getHash hv d) ≠ .gt ∧
          i ∈ (m' b).bbm.getD kr.1 ∅ := by
  have hmem : getHash hv ((T.node b).conj d) ∈ (m' a).bbm :=
    ((hr' a).mem_bbm _).mpr ⟨l, by simp, (hb.extend hba).key⟩
  obtain ⟨bs, hbs⟩ := (ExMap.mem_iff _ _).mp hmem
  rw [ExMap.getD_of_getElem? hbs]
  rcases (h.through b d a hb hba).bbm.only _ bs hbs with h0 | ⟨kr, hkr, hland, hiff⟩
  · obtain ⟨x, hx, hxk⟩ := ((hr a).mem_bbm _).mp ((ExMap.mem_iff _ _).mpr ⟨bs, h0⟩)
    exact absurd hxk (hnew x hx)
  · rw [hiff, new_landing hk hvs (hr' b) hb hba hnew hkr hland]
    rfl

end Visit

/-- What the leaf `l` must not meet when it comes after the leaves `vs`: its
blocks are known where its key is, and where its key is new the leaves whose
blocks come along have none of their own. -/
structure BlocksApart (T : ResourceTree) (hv : HashValue) (vs : List Nat) (l : Nat) : Prop where
  known : ∀ b d a, T.Reaches l b d → (T.node b).HA = some a →
    (∃ x ∈ vs, T.Key hv x a (getHash hv ((T.node b).conj d))) →
      ∀ i ∈ (T.node l).bbs, i ∈ blocks T hv vs a (getHash hv ((T.node b).conj d))
  fresh : ∀ b d a, T.Reaches l b d → (T.node b).HA = some a →
    (∀ x ∈ vs, ¬ T.Key hv x a (getHash hv ((T.node b).conj d))) →
      ∀ x ∈ vs, (T.Key hv x a (getHash hv (T.node b).own) ∨
        ∃ e, T.Reaches x b e ∧ ExHash.cmp (getHash hv e) (getHash hv d) = .lt) →
          (T.node x).bbs ⊆ (T.node l).bbs

/-- The recorded blocks are right. -/
def Covered (T : ResourceTree) (hv : HashValue) (vs : List Nat) (m : Maps) : Prop :=
  ∀ a k i, i ∈ (m a).bbm.getD k ∅ ↔ i ∈ blocks T hv vs a k

theorem Covered.snoc (hk : T.KeysCohere hv) {vs : List Nat} {l : Nat} {m m' : Maps}
    (hvs : ∀ x ∈ vs ++ [l], x ∈ T.tree.leaves) (hr : ∀ a, Recorded T hv vs a (m a))
    (hr' : ∀ a, Recorded T hv (vs ++ [l]) a (m' a)) (h : Visits T hv l m m')
    (hap : BlocksApart T hv vs l) (hc : Covered T hv vs m) : Covered T hv (vs ++ [l]) m' := by
  intro a k i
  by_cases hl : T.Key hv l a k
  · obtain ⟨e, he, rfl⟩ := hl
    refine Climb.Reaches.rec_last (P := fun a e => ∀ i, i ∈ (m' a).bbm.getD (getHash hv e) ∅ ↔
      i ∈ blocks T hv (vs ++ [l]) a (getHash hv e)) ?_ ?_ he i
    · intro a ha i
      rw [h.bbm_direct ha, if_pos rfl, Finset.mem_union, hc,
        blocks_snoc_self (reaches_first ha).key]
    · intro b d a (hb : T.Reaches l b d) ihb hba i
      have hkey : T.Key hv l a (getHash hv ((T.node b).conj d)) := (hb.extend hba).key
      rw [blocks_snoc_self hkey]
      by_cases hold : ∃ x ∈ vs, T.Key hv x a (getHash hv ((T.node b).conj d))
      · rw [h.keep_bbm hb hba (((hr a).mem_bbm _).mpr hold), hc]
        refine ⟨.inl, ?_⟩
        rintro (hi | hi)
        · exact hi
        · exact hap.known b d a hb hba hold i hi
      · have hnew : ∀ x ∈ vs, ¬ T.Key hv x a (getHash hv ((T.node b).conj d)) :=
          fun x hx hxk => hold ⟨x, hx, hxk⟩
        have hfresh := hap.fresh b d a hb hba hnew
        have hempty : i ∉ blocks T hv vs a (getHash hv ((T.node b).conj d)) := by
          rintro ⟨x, hx, hxk, -⟩
          exact hnew x hx hxk
        rw [h.bbm_new hk hvs hr hr' hb hba hnew]
        constructor
        · rintro (hi | ⟨kr, hkr, hle, hi⟩)
          · obtain ⟨x, hx, hxk, hxi⟩ := (hc _ _ _).mp hi
            exact .inr (hfresh x hx (.inl hxk) hxi)
          · obtain ⟨y, hy, hyk⟩ := (hr' b).mem_of_toList hkr
            right
            by_cases hkd : kr.1 = getHash hv d
            · rw [hkd, ihb] at hi
              obtain ⟨x, hx, ⟨c, hxc, hcd⟩, hxi⟩ := hi
              rcases List.mem_append.mp hx with hx | hx
              · exact absurd ⟨_, hxc.extend hba, hk x (hvs x (List.mem_append_left _ hx)) l
                  (hvs l (by simp)) b c d hxc hb hcd⟩ (hnew x hx)
              · rw [List.mem_singleton] at hx
                exact hx ▸ hxi
            · have hlk : ¬ T.Key hv l b kr.1 := fun hlk => hkd (hlk.unique hb.key)
              rw [h.bbm_other hr hr' hlk, hc] at hi
              obtain ⟨x, hx, ⟨c, hxc, hck⟩, hxi⟩ := hi
              refine hfresh x hx (.inr ⟨c, hxc, ?_⟩) hxi
              rw [hck]
              cases hcmp : ExHash.cmp kr.1 (getHash hv d) with
              | lt => rfl
              | eq => exact absurd (LawfulEqCmp.eq_of_compare hcmp) hkd
              | gt => exact absurd hcmp hle
        · rintro (hi | hi)
          · exact absurd hi hempty
          · have hbkey : T.Key hv l b (getHash hv d) := hb.key
            obtain ⟨kr, hkr, hkd⟩ := (hr' b).exists_toList (l := l) (by simp) hbkey
            refine .inr ⟨kr, hkr, ?_, ?_⟩
            · rw [hkd, ExHash.cmp_self]
              simp
            · rw [hkd, ihb, blocks_snoc_self hb.key]
              exact .inr hi
  · rw [h.bbm_other hr hr' hl, hc, blocks_snoc_other hl]

end Encider
