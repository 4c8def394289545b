import Encider.Resource.Visit

namespace Encider

open Std

namespace ResourceTree

/-- The usages of the leaves below `a` with the key `k`. -/
def usages (T : ResourceTree) (hv : HashValue) (a : Nat) (k : ExHash) : Set Int :=
  {x | ∃ l ∈ T.tree.leaves, T.Key hv l a k ∧ x = (T.node l).ru.toNat}

/-- Every H-ancestor has an entry for each of its leaves, with exactly the least
and the greatest usage of the leaves with that key. -/
def RangesRight (T : ResourceTree) (hv : HashValue) (m : Maps) : Prop :=
  ∀ a k, (∃ l ∈ T.tree.leaves, T.Key hv l a k) →
    ∃ r, (m a).Ru[k]? = some r ∧ IsLeast (T.usages hv a k) r.1 ∧ IsGreatest (T.usages hv a k) r.2

/-- Every order of the successors gives right ranges. -/
def RangesAlwaysRight (T : ResourceTree) (hv : HashValue) : Prop :=
  ∀ t (h : T.tree.Reorder t), ∃ m, (T.reorder h).propagate hv = some m ∧ T.RangesRight hv m

/-- The usages are representable as an `int`. -/
def SmallUsage (T : ResourceTree) : Prop :=
  ∀ l ∈ T.tree.leaves, (T.node l).HA.isSome → (T.node l).ru.toNat < 2 ^ 31

/-- Leaves that share a key below an H-ancestor share their usage. -/
def SameUsage (T : ResourceTree) (hv : HashValue) : Prop :=
  ∀ a k, ∀ l ∈ T.tree.leaves, ∀ l' ∈ T.tree.leaves, T.Key hv l a k → T.Key hv l' a k →
    (T.node l).ru = (T.node l').ru

/-- A leaf that brings a new key to `a` through the inner H-branch `b` comes after
no leaf with another usage whose key at `a` is the own hash of `b`. -/
def OwnHashApart (T : ResourceTree) (hv : HashValue) : Prop :=
  ∀ pre l post b d a, T.tree.leaves = pre ++ l :: post → T.Reaches l b d →
    (T.node b).HA = some a → (∀ x ∈ pre, ¬ T.Key hv x a (getHash hv ((T.node b).conj d))) →
      ∀ x ∈ pre, T.Key hv x a (getHash hv (T.node b).own) → (T.node x).ru = (T.node l).ru

end ResourceTree

open ResourceTree

variable {T : ResourceTree} {hv : HashValue}

theorem Visits.keep_Ru {l : Nat} {m m' : Maps} (h : Visits T hv l m m') {a : Nat} {k : ExHash}
    {r : Range} (hk : (m a).Ru[k]? = some r) : (m' a).Ru[k]? = some r := by
  by_cases ha : ∃ e, T.Reaches l a e
  · obtain ⟨e, he⟩ := ha
    rcases he.last with ⟨hl, _⟩ | ⟨b, d, hb, hba, _⟩
    · have hm : k ∈ (m a).Ru := (ExMap.mem_iff _ _).mpr ⟨r, hk⟩
      rw [h.direct a hl, recordLeaf, ExMap.getElem?_insertIfNew, if_neg, hk]
      rintro ⟨rfl, hn⟩
      exact hn hm
    · exact (h.through b d a hb hba).Ru.keep k r hk
  · rw [h.away a (fun e he => ha ⟨e, he⟩), hk]

/-- The range a leaf gets when its key is new. -/
def leafRange (rd : RD) : Range := combineRange emptyRange rd.ruRange

/-- How every entry got its range: from the first leaf with its key. -/
structure Priced (T : ResourceTree) (hv : HashValue) (vs : List Nat) (m : Maps) : Prop where
  direct : ∀ pre l post a, vs = pre ++ l :: post → (T.node l).HA = some a →
    (∀ x ∈ pre, ¬ T.Key hv x a (getHash hv (T.node l).own)) →
      (m a).Ru[getHash hv (T.node l).own]? = some (leafRange (T.node l))
  through : ∀ pre l post b d a, vs = pre ++ l :: post → T.Reaches l b d →
    (T.node b).HA = some a → (∀ x ∈ pre, ¬ T.Key hv x a (getHash hv ((T.node b).conj d))) →
      ∃ R r, (m b).Ru[getHash hv d]? = some r ∧
        (m a).Ru[getHash hv ((T.node b).conj d)]? = some (combineRange R r) ∧
        (((∀ x ∈ pre, ¬ T.Key hv x a (getHash hv (T.node b).own)) ∧ R = emptyRange) ∨
          ((∃ x ∈ pre, T.Key hv x a (getHash hv (T.node b).own)) ∧
            (m a).Ru[getHash hv (T.node b).own]? = some R))

theorem Priced.snoc (hk : T.KeysCohere hv) {vs : List Nat} {l0 : Nat} {m m' : Maps}
    (hvs : ∀ x ∈ vs ++ [l0], x ∈ T.tree.leaves) (hr : ∀ a, Recorded T hv vs a (m a))
    (hr' : ∀ a, Recorded T hv (vs ++ [l0]) a (m' a)) (hvis : Visits T hv l0 m m')
    (h : Priced T hv vs m) : Priced T hv (vs ++ [l0]) m' := by
  refine ⟨?_, ?_⟩
  · intro pre l post a hs hl hnew
    rcases List.snoc_split hs with ⟨-, rfl, rfl⟩ | ⟨post', -, hv'⟩
    · have hnot : getHash hv (T.node l0).own ∉ (m a).Ru := by
        rw [(hr a).mem_Ru]
        rintro ⟨x, hx, hkx⟩
        exact hnew x hx hkx
      rw [hvis.direct a hl, recordLeaf, ExMap.getElem?_insertIfNew, if_pos ⟨rfl, hnot⟩,
        TreeMap.getD_eq_fallback hnot, leafRange]
    · exact hvis.keep_Ru (h.direct pre l post' a hv' hl hnew)
  · intro pre l post b d a hs hb hba hnew
    rcases List.snoc_split hs with ⟨-, rfl, rfl⟩ | ⟨post', -, hv'⟩
    · have hlast : l0 ∈ vs ++ [l0] := by simp
      obtain ⟨r, hrb⟩ := (ExMap.mem_iff _ _).mp (((hr' b).mem_Ru _).mpr ⟨l0, hlast, hb.key⟩)
      obtain ⟨v, hva⟩ :=
        (ExMap.mem_iff _ _).mp (((hr' a).mem_Ru _).mpr ⟨l0, hlast, (hb.extend hba).key⟩)
      have hm := hvis.through b d a hb hba
      refine ⟨startRange hv (T.node b) (m a), r, hrb, ?_, ?_⟩
      · rcases hm.Ru.only _ v hva with h0 | ⟨kr, hkr, hland, rfl⟩
        · obtain ⟨x, hx, hkx⟩ := ((hr a).mem_Ru _).mp ((ExMap.mem_iff _ _).mpr ⟨v, h0⟩)
          exact absurd hkx (hnew x hx)
        · have hkr2 := TreeMap.mem_toList_iff_getElem?_eq_some.mp hkr
          rw [new_landing hk hvs (hr' b) hb hba hnew hkr hland, hrb] at hkr2
          rw [hva, Option.some.inj hkr2]
      · by_cases hown : getHash hv (T.node b).own ∈ (m a).Ru
        · right
          obtain ⟨R, hR⟩ := (ExMap.mem_iff _ _).mp hown
          refine ⟨((hr a).mem_Ru _).mp hown, ?_⟩
          rw [startRange, ExMap.getD_of_getElem? hR]
          exact hvis.keep_Ru hR
        · left
          refine ⟨fun x hx hkx => hown (((hr a).mem_Ru _).mpr ⟨x, hx, hkx⟩), ?_⟩
          rw [startRange, TreeMap.getD_eq_fallback hown]
    · obtain ⟨R, r, h1, h2, h3⟩ := h.through pre l post' b d a hv' hb hba hnew
      exact ⟨R, r, hvis.keep_Ru h1, hvis.keep_Ru h2,
        h3.imp_right fun hx => ⟨hx.1, hvis.keep_Ru hx.2⟩⟩

theorem leaves_upto {vs : List Nat} {l : Nat} {post : List Nat}
    (h : T.tree.leaves = vs ++ l :: post) : ∀ x ∈ vs ++ [l], x ∈ T.tree.leaves := by
  intro x hx
  rw [h]
  simp only [List.mem_append, List.mem_cons] at hx ⊢
  tauto

theorem propagate_priced (hk : T.KeysCohere hv) :
    ∃ m, T.propagate hv = some m ∧ Priced T hv T.tree.leaves m := by
  obtain ⟨m, hm, -, hp⟩ := T.propagate_rule hk (Priced T hv) ⟨by simp, by simp⟩
    fun vs l post m m' hl hr hr' hvis h => h.snoc hk (leaves_upto hl) hr hr' hvis
  exact ⟨m, hm, hp⟩

/-- The usage lies in the range. -/
def Range.Holds (r : Range) (n : Int) : Prop := r.1 ≤ n ∧ n ≤ r.2

/-- A range that is combined with another one holds no less. -/
theorem combineRange_holds {R r : Range} {n : Int} (h : r.Holds n) : (combineRange R r).Holds n :=
  ⟨(min_le_right R.1 r.1).trans h.1, h.2.trans (le_max_right R.2 r.2)⟩

/-- The first leaf with a key is in the range of its entry, on all its H-ancestors. -/
theorem Priced.first_holds (hk : T.KeysCohere hv) {m : Maps} (h : Priced T hv T.tree.leaves m)
    {pre post : List Nat} {l a : Nat} {e : HCLC} (hsplit : T.tree.leaves = pre ++ l :: post)
    (hr : T.Reaches l a e) (hnew : ∀ x ∈ pre, ¬ T.Key hv x a (getHash hv e)) :
    ∃ r, (m a).Ru[getHash hv e]? = some r ∧ Range.Holds r (T.node l).ru.toInt := by
  revert hnew
  refine Climb.Reaches.rec_last (P := fun a e => (∀ x ∈ pre, ¬ T.Key hv x a (getHash hv e)) →
    ∃ r, (m a).Ru[getHash hv e]? = some r ∧ Range.Holds r (T.node l).ru.toInt) ?_ ?_ hr
  · intro a ha hnew
    refine ⟨_, h.direct pre l post a hsplit ha hnew, ?_⟩
    exact combineRange_holds ⟨Int.le_refl _, Int.le_refl _⟩
  · intro b d a hb ihb hba hnew
    have hl : l ∈ T.tree.leaves := by simp [hsplit]
    obtain ⟨r, hentry, hholds⟩ := ihb fun x hx ⟨e', he', heq⟩ => by
      have hxl : x ∈ T.tree.leaves := by simp [hsplit, hx]
      exact hnew x hx ⟨_, he'.extend hba, hk x hxl l hl b e' d he' hb heq⟩
    obtain ⟨R, r', h1, h2, _⟩ := h.through pre l post b d a hsplit hb hba hnew
    rw [hentry] at h1
    cases h1
    exact ⟨_, h2, combineRange_holds hholds⟩

/-- The range of one usage that is representable. -/
def point (rd : RD) : Range := (rd.ru.toNat, rd.ru.toNat)

theorem leafRange_eq {rd : RD} (h : rd.ru.toNat < 2 ^ 31) : leafRange rd = point rd := by
  have hi : rd.ru.toInt = rd.ru.toNat := by
    rw [BitVec.toInt_eq_toNat_cond, if_pos (by omega)]
  simp only [leafRange, combineRange, emptyRange, RD.ruRange, point, hi]
  ext
  · simp only
    omega
  · simp only
    omega

theorem combine_empty_point {rd : RD} (h : rd.ru.toNat < 2 ^ 31) :
    combineRange emptyRange (point rd) = point rd := by
  simp only [combineRange, emptyRange, point]
  ext
  · simp only
    omega
  · simp only
    omega

theorem small_of_reaches (hs : T.SmallUsage) {l a : Nat} {e : HCLC} (hl : l ∈ T.tree.leaves)
    (h : T.Reaches l a e) : (T.node l).ru.toNat < 2 ^ 31 := by
  refine hs l hl ?_
  cases h with
  | here h => exact Option.isSome_of_eq_some h
  | there h _ => exact Option.isSome_of_eq_some h

/-- Under the conditions every first leaf of a key prices its entry. -/
theorem Priced.first_point (hk : T.KeysCohere hv) (hs : T.SmallUsage) (ho : T.OwnHashApart hv)
    {m : Maps} (h : Priced T hv T.tree.leaves m) (n : Nat) :
    ∀ pre l post a e, pre.length = n → T.tree.leaves = pre ++ l :: post → T.Reaches l a e →
      (∀ x ∈ pre, ¬ T.Key hv x a (getHash hv e)) →
        (m a).Ru[getHash hv e]? = some (point (T.node l)) := by
  induction n using Nat.strongRecOn with
  | ind n ih =>
    intro pre l post a e hn hsplit hr
    have hl : l ∈ T.tree.leaves := by simp [hsplit]
    have hsm := small_of_reaches hs hl hr
    refine Climb.Reaches.rec_last (P := fun a e => (∀ x ∈ pre, ¬ T.Key hv x a (getHash hv e)) →
      (m a).Ru[getHash hv e]? = some (point (T.node l))) ?_ ?_ hr
    · intro a ha hnew
      rw [h.direct pre l post a hsplit ha hnew, leafRange_eq hsm]
    · intro b d a hb ihb hba hnew
      have hnewb : ∀ x ∈ pre, ¬ T.Key hv x b (getHash hv d) := by
        rintro x hx ⟨e', he', heq⟩
        have hxl : x ∈ T.tree.leaves := by simp [hsplit, hx]
        exact hnew x hx ⟨_, he'.extend hba, hk x hxl l hl b e' d he' hb heq⟩
      obtain ⟨R, r, h1, h2, h3⟩ := h.through pre l post b d a hsplit hb hba hnew
      rw [ihb hnewb] at h1
      cases h1
      rw [h2]
      congr 1
      rcases h3 with ⟨-, rfl⟩ | ⟨hx, hR⟩
      · exact combine_empty_point hsm
      · obtain ⟨p, x, q, rfl, ⟨c, hc, hcx⟩, hp⟩ := List.exists_first hx
        have hlt : p.length < n := by
          rw [← hn]
          simp
        have hp' := ih p.length hlt p x (q ++ l :: post) a c rfl (by simp [hsplit]) hc
          (fun y hy => by rw [hcx]; exact hp y hy)
        rw [hcx, hR] at hp'
        have hru := ho _ l post b d a hsplit hb hba hnew x (by simp) ⟨c, hc, hcx⟩
        rw [Option.some.inj hp', point, point, hru]
        simp [combineRange]

theorem usages_point (hsame : T.SameUsage hv) {l a : Nat} {k : ExHash} (hl : l ∈ T.tree.leaves)
    (hk : T.Key hv l a k) : IsLeast (T.usages hv a k) (point (T.node l)).1 ∧
      IsGreatest (T.usages hv a k) (point (T.node l)).2 := by
  have hall : ∀ x ∈ T.usages hv a k, x = (T.node l).ru.toNat := by
    rintro x ⟨l', hl', hk', rfl⟩
    rw [hsame a k l' hl' l hl hk' hk]
  have hmem : ((T.node l).ru.toNat : Int) ∈ T.usages hv a k := ⟨l, hl, hk, rfl⟩
  exact ⟨⟨hmem, fun x hx => (hall x hx).ge⟩, ⟨hmem, fun x hx => (hall x hx).le⟩⟩

theorem rangesRight_of_conditions (hk : T.KeysCohere hv) (hs : T.SmallUsage)
    (hsame : T.SameUsage hv) (ho : T.OwnHashApart hv) :
    ∃ m, T.propagate hv = some m ∧ T.RangesRight hv m := by
  obtain ⟨m, hm, hp⟩ := propagate_priced hk
  refine ⟨m, hm, ?_⟩
  intro a k hex
  obtain ⟨pre, l, post, hsplit, ⟨e, he, hek⟩, hpre⟩ := List.exists_first hex
  have hl : l ∈ T.tree.leaves := by simp [hsplit]
  have hf := hp.first_point hk hs ho pre.length pre l post a e rfl hsplit he
    (fun x hx => by rw [hek]; exact hpre x hx)
  rw [hek] at hf
  exact ⟨_, hf, usages_point hsame hl ⟨e, he, hek⟩⟩

theorem ResourceTree.RangesRight.entry (hsame : T.SameUsage hv) {m : Maps} (h : T.RangesRight hv m)
    {l a : Nat} {k : ExHash} (hl : l ∈ T.tree.leaves) (hk : T.Key hv l a k) :
    (m a).Ru[k]? = some (point (T.node l)) := by
  obtain ⟨r, hr, h1, h2⟩ := h a k ⟨l, hl, hk⟩
  obtain ⟨g1, g2⟩ := usages_point hsame hl hk
  rw [hr, Prod.ext (h1.unique g1) (h2.unique g2)]

section Reorder

variable {t : Rose Nat} (h : T.tree.Reorder t)
include h

theorem mem_leaves_reorder (x : Nat) : x ∈ (T.reorder h).tree.leaves ↔ x ∈ T.tree.leaves :=
  h.leaves_perm.mem_iff.symm

theorem ResourceTree.KeysCohere.reorder (hk : T.KeysCohere hv) : (T.reorder h).KeysCohere hv :=
  fun l hl l' hl' => hk l ((mem_leaves_reorder h l).mp hl) l' ((mem_leaves_reorder h l').mp hl')

theorem usages_reorder (a : Nat) (k : ExHash) :
    (T.reorder h).usages hv a k = T.usages hv a k := by
  ext x
  simp only [usages, Set.mem_ofPred_eq, mem_leaves_reorder h]
  rfl

theorem rangesRight_reorder (m : Maps) : (T.reorder h).RangesRight hv m ↔ T.RangesRight hv m := by
  simp only [RangesRight, mem_leaves_reorder h, usages_reorder h]
  rfl

theorem ResourceTree.SmallUsage.reorder (hs : T.SmallUsage) : (T.reorder h).SmallUsage :=
  fun l hl => hs l ((mem_leaves_reorder h l).mp hl)

theorem ResourceTree.SameUsage.reorder (hs : T.SameUsage hv) : (T.reorder h).SameUsage hv :=
  fun a k l hl l' hl' => hs a k l ((mem_leaves_reorder h l).mp hl) l' ((mem_leaves_reorder h l').mp hl')

end Reorder

/-- The result of the walk, when the ranges come out right. -/
theorem priced_of_right (hk : T.KeysCohere hv)
    (hr : ∃ m, T.propagate hv = some m ∧ T.RangesRight hv m) :
    ∃ m, Priced T hv T.tree.leaves m ∧ T.RangesRight hv m := by
  obtain ⟨m, hm, hright⟩ := hr
  obtain ⟨m', hm', hp⟩ := propagate_priced hk
  rw [hm] at hm'
  cases hm'
  exact ⟨m, hp, hright⟩

/-- A leaf visited first prices its entry alone, on all its H-ancestors. -/
theorem Priced.head_point {m : Maps} {l : Nat} {post : List Nat} (h : Priced T hv (l :: post) m)
    (hs : (T.node l).ru.toNat < 2 ^ 31) {a : Nat} {e : HCLC} (hr : T.Reaches l a e) :
    (m a).Ru[getHash hv e]? = some (point (T.node l)) := by
  refine Climb.Reaches.rec_last
    (P := fun a e => (m a).Ru[getHash hv e]? = some (point (T.node l))) ?_ ?_ hr
  · intro a ha
    rw [h.direct [] l post a rfl ha (by simp), leafRange_eq hs]
  · intro b d a hb ihb hba
    obtain ⟨R, r, h1, h2, h3⟩ := h.through [] l post b d a rfl hb hba (by simp)
    rw [ihb] at h1
    cases h1
    rcases h3 with ⟨-, rfl⟩ | ⟨⟨x, hx, -⟩, -⟩
    · rw [h2, combine_empty_point hs]
    · simp at hx

/-- The least usage is not negative, so the first leaf fits an `int`. -/
theorem small_of_right {m : Maps} {l a : Nat} {post : List Nat} (h : Priced T hv (l :: post) m)
    (hl : l ∈ T.tree.leaves) (hright : T.RangesRight hv m) (ha : (T.node l).HA = some a) :
    (T.node l).ru.toNat < 2 ^ 31 := by
  have hkey : T.Key hv l a (getHash hv (T.node l).own) := (reaches_first ha).key
  obtain ⟨r, hr, ⟨⟨x, -, -, hx⟩, -⟩, -⟩ := hright a _ ⟨l, hl, hkey⟩
  rw [h.direct [] l post a rfl ha (by simp)] at hr
  have hr1 : (leafRange (T.node l)).1 = r.1 := by rw [Option.some.inj hr]
  rw [hx] at hr1
  simp only [leafRange, combineRange, emptyRange, RD.ruRange] at hr1
  have hi := BitVec.toInt_eq_toNat_cond (T.node l).ru
  have := (T.node l).ru.isLt
  split at hi <;> omega

theorem ResourceTree.leaf_front {l : Nat} (hl : l ∈ T.tree.leaves) :
    ∃ (t : Rose Nat) (h : T.tree.Reorder t) (post : List Nat),
      (T.reorder h).tree.leaves = l :: post := by
  obtain ⟨t, post, h, hp⟩ := Rose.front hl
  exact ⟨t, h, post, hp⟩

theorem smallUsage_of_right (hk : T.KeysCohere hv)
    (hr : T.RangesAlwaysRight hv) : T.SmallUsage := by
  intro l hl hsome
  obtain ⟨a, ha⟩ := Option.isSome_iff_exists.mp hsome
  obtain ⟨t, h, post, hpost⟩ := leaf_front hl
  obtain ⟨m, hm, hright⟩ := hr t h
  obtain ⟨m', hp, hright'⟩ := priced_of_right (hk.reorder h)
    ⟨m, hm, (rangesRight_reorder h m).mpr hright⟩
  rw [hpost] at hp
  exact small_of_right (T := T.reorder h) hp ((mem_leaves_reorder h l).mpr hl) hright' ha

theorem sameUsage_of_right (hk : T.KeysCohere hv)
    (hr : T.RangesAlwaysRight hv) : T.SameUsage hv := by
  intro a k l hl l' hl' hkl hkl'
  obtain ⟨e, he, rfl⟩ := hkl
  have hsm := small_of_reaches (smallUsage_of_right hk hr) hl he
  obtain ⟨t, h, post, hpost⟩ := leaf_front hl
  obtain ⟨m, hm, hright⟩ := hr t h
  obtain ⟨m', hp, hright'⟩ := priced_of_right (hk.reorder h)
    ⟨m, hm, (rangesRight_reorder h m).mpr hright⟩
  rw [hpost] at hp
  obtain ⟨r, hent, h1, h2⟩ := (rangesRight_reorder h m').mp hright' a _ ⟨l', hl', hkl'⟩
  rw [hp.head_point hsm he] at hent
  cases hent
  have hge := h1.2 ⟨l', hl', hkl', rfl⟩
  have hle := h2.2 ⟨l', hl', hkl', rfl⟩
  simp only [point] at hge hle
  apply BitVec.eq_of_toNat_eq
  change ((T.node l).ru.toNat : Int) ≤ _ at hge
  change _ ≤ ((T.node l).ru.toNat : Int) at hle
  omega

theorem ownHashApart_of_right (hk : T.KeysCohere hv) (hsame : T.SameUsage hv)
    (hr : ∃ m, T.propagate hv = some m ∧ T.RangesRight hv m) : T.OwnHashApart hv := by
  obtain ⟨m, hp, hright⟩ := priced_of_right hk hr
  intro pre l post b d a hsplit hb hba hnew x hx hkx
  have hl : l ∈ T.tree.leaves := by simp [hsplit]
  have hxl : x ∈ T.tree.leaves := by simp [hsplit, hx]
  obtain ⟨R, r, h1, h2, h3⟩ := hp.through pre l post b d a hsplit hb hba hnew
  rw [hright.entry hsame hl hb.key] at h1
  cases h1
  rw [hright.entry hsame hl (hb.extend hba).key] at h2
  rcases h3 with ⟨hno, -⟩ | ⟨-, hR⟩
  · exact absurd hkx (hno x hx)
  · rw [hright.entry hsame hxl hkx] at hR
    cases hR
    have h4 := Option.some.inj h2
    simp only [point, combineRange, Prod.mk.injEq] at h4
    apply BitVec.eq_of_toNat_eq
    omega

/-- A hash of constants that keeps their low bits. -/
def lowBits : HashValue := fun _ v => v.setWidth 32

/-- An H-branch with two leaves that have the same constraints. -/
def sharedLeaves (ru1 ru2 : BitVec 32) : ResourceTree where
  node
    | 0 => { isHBr := true }
    | 1 => { HA := some 0, ru := ru1 }
    | 2 => { HA := some 0, ru := ru2 }
    | _ => {}
  tree := .node 0 [.node 1 [], .node 2 []]
  nodup := by decide
  above := by
    intro x a h
    match x, h with
    | 1, h | 2, h =>
      cases h
      exact ⟨.inl ⟨rfl, by decide⟩, rfl⟩
  leaf := by simp [Rose.leaves, Rose.leavesAll]

theorem sharedLeaves_first {ru1 ru2 : BitVec 32} {l : Nat}
    (hl : l ∈ (sharedLeaves ru1 ru2).tree.leaves) :
    ((sharedLeaves ru1 ru2).node l).HA = some 0 ∧
      ((sharedLeaves ru1 ru2).node l).own = (Constraint.tt, Constraint.tt) := by
  simp only [sharedLeaves, Rose.leaves, Rose.leavesAll, List.append_nil, List.mem_append,
    List.mem_singleton] at hl
  rcases hl with rfl | rfl <;> exact ⟨rfl, rfl⟩

end Encider
