import Encider.Resource.Ranges

namespace Encider

open Std ResourceTree

open Classical in
/-- How many of the leaves `vs` below `a` with the key `k` ended normally. -/
noncomputable def ended (T : ResourceTree) (hv : HashValue) (vs : List Nat) (a : Nat)
    (k : ExHash) : Nat :=
  vs.countP fun x => T.Key hv x a k ∧ (T.node x).pathterminated = true

variable {T : ResourceTree} {hv : HashValue}

open Classical in
theorem ended_snoc (vs : List Nat) (l a : Nat) (k : ExHash) :
    ended T hv (vs ++ [l]) a k = ended T hv vs a k +
      if T.Key hv l a k ∧ (T.node l).pathterminated = true then 1 else 0 := by
  simp [ended, List.countP_append, List.countP_cons]

open Classical in
/-- The terminated leaves of `vs` that have the key `k` at `a` and come through `b`. -/
noncomputable def endedThrough (T : ResourceTree) (hv : HashValue) (vs : List Nat) (b a : Nat)
    (k : ExHash) : Nat :=
  vs.countP fun x => (∃ d, T.Reaches x b d) ∧ T.Key hv x a k ∧ (T.node x).pathterminated = true

/-- The counts of the entries of `b` that land at `k`, summed, count every leaf
below `b` once. -/
theorem landed_ended (hk : T.KeysCohere hv) {ws : List Nat} {b a : Nat} {m : RDMaps}
    (hb : Recorded T hv ws b m) (hws : ∀ x ∈ ws, x ∈ T.tree.leaves)
    (hba : (T.node b).HA = some a) (k : ExHash) {vs : List Nat} (hvs : ∀ x ∈ vs, x ∈ ws) :
    (m.Ru.toList.map fun kr =>
      if landing hv (T.node b) m kr.1 = some k then ended T hv vs b kr.1 else 0).sum =
        endedThrough T hv vs b a k := by
  classical
  induction vs with
  | nil => simp [ended, endedThrough]
  | cons x vs ih =>
    let f : ExHash → Nat := fun q =>
      if landing hv (T.node b) m q = some k ∧ T.Key hv x b q ∧ (T.node x).pathterminated = true
      then 1 else 0
    have hsplit : ∀ kr : ExHash × Range,
        (if landing hv (T.node b) m kr.1 = some k then ended T hv (x :: vs) b kr.1 else 0) =
          (if landing hv (T.node b) m kr.1 = some k then ended T hv vs b kr.1 else 0) +
            f kr.1 := by
      intro kr
      simp only [ended, List.countP_cons, f]
      split <;> simp [*]
    have hone : (m.Ru.toList.map fun kr => f kr.1).sum =
        if (∃ d, T.Reaches x b d) ∧ T.Key hv x a k ∧ (T.node x).pathterminated = true
        then 1 else 0 := by
      by_cases hx : ∃ d, T.Reaches x b d
      · obtain ⟨d, hd⟩ := hx
        have hxw := hvs x List.mem_cons_self
        have hland := hb.landing_eq hk hws hxw hd
        rw [List.sum_map_key (k := getHash hv d) ?_ (hb.exists_toList hxw hd.key)]
        · have hkey : getHash hv ((T.node b).conj d) = k ↔ T.Key hv x a k :=
            ⟨fun h => ⟨_, hd.extend hba, h⟩, fun h => (hd.extend hba).key.unique h⟩
          simp only [f, hland, Option.some.injEq, hkey, hd.key, true_and]
          have : ∃ d, T.Reaches x b d := ⟨d, hd⟩
          simp only [this, true_and]
        · intro q hq
          simp only [f]
          rw [if_neg]
          rintro ⟨-, hq', -⟩
          exact hq (hq'.unique hd.key)
        · refine TreeMap.ordered_keys_toList.imp ?_
          intro p q hpq he
          rw [he, ExHash.cmp_self] at hpq
          cases hpq
      · rw [if_neg (fun h => hx h.1)]
        refine List.sum_eq_zero ?_
        intro y hy
        obtain ⟨kr, -, rfl⟩ := List.mem_map.mp hy
        simp only [f]
        rw [if_neg]
        rintro ⟨-, ⟨d, hd, -⟩, -⟩
        exact hx ⟨d, hd⟩
    simp only [hsplit, List.sum_map_add, hone]
    rw [ih fun y hy => hvs y (List.mem_cons_of_mem _ hy)]
    simp [endedThrough, List.countP_cons]

theorem endedThrough_snoc (hv : HashValue) (vs : List Nat) {l b : Nat} {d : HCLC}
    (hl : T.Reaches l b d) (a : Nat) (k : ExHash) : endedThrough T hv (vs ++ [l]) b a k + ended T hv vs a k =
      endedThrough T hv vs b a k + ended T hv (vs ++ [l]) a k := by
  classical
  have hex : ∃ d, T.Reaches l b d := ⟨d, hl⟩
  have hsn : endedThrough T hv (vs ++ [l]) b a k = endedThrough T hv vs b a k +
      if T.Key hv l a k ∧ (T.node l).pathterminated = true then 1 else 0 := by
    simp only [endedThrough, List.countP_append, List.countP_cons, List.countP_nil,
      decide_eq_true_eq, Nat.zero_add, hex, true_and]
  rw [hsn, ended_snoc]
  omega

/-- A leaf that goes straight to `a` is counted there once. -/
theorem Visits.terminated_direct {l a : Nat} {m m' : Maps} (h : Visits T hv l m m')
    (vs : List Nat) (hl : (T.node l).HA = some a) (k : ExHash) :
    (m' a).terminated.getD k 0 + ended T hv vs a k =
      (m a).terminated.getD k 0 + ended T hv (vs ++ [l]) a k := by
  have hkey : T.Key hv l a k ↔ getHash hv (T.node l).own = k :=
    ⟨fun hk => (reaches_first hl).key.unique hk, fun hk => ⟨_, reaches_first hl, hk⟩⟩
  rw [h.direct a hl, recordLeaf, ended_snoc]
  simp only [hkey]
  by_cases ht : (T.node l).pathterminated = true
  · simp only [ht, ↓reduceIte, ExMap.getD_insert, and_true]
    split
    · rename_i he
      rw [he]
      omega
    · rfl
  · simp [ht]

theorem Visits.terminated_away {l a : Nat} {m m' : Maps} (h : Visits T hv l m m')
    (vs : List Nat) (hl : ∀ e, ¬ T.Reaches l a e) (k : ExHash) :
    (m' a).terminated.getD k 0 + ended T hv vs a k =
      (m a).terminated.getD k 0 + ended T hv (vs ++ [l]) a k := by
  rw [h.away a hl, ended_snoc, if_neg, Nat.add_zero]
  rintro ⟨⟨e, he, -⟩, -⟩
  exact hl e he

/-- The counters never miss a leaf. -/
def NoneMissed (T : ResourceTree) (hv : HashValue) (vs : List Nat) (m : Maps) : Prop :=
  ∀ a k, ended T hv vs a k ≤ (m a).terminated.getD k 0

/-- The counters are right. -/
def Counted (T : ResourceTree) (hv : HashValue) (vs : List Nat) (m : Maps) : Prop :=
  ∀ a k, (m a).terminated.getD k 0 = ended T hv vs a k

section Step

variable {vs : List Nat} {l : Nat} {m m' : Maps} (hk : T.KeysCohere hv)
  (hvs : ∀ x ∈ vs ++ [l], x ∈ T.tree.leaves)
  (hr' : ∀ a, Recorded T hv (vs ++ [l]) a (m' a)) (h : Visits T hv l m m')

include hk hvs hr' h

/-- What merging `b` adds is at least one for every terminated leaf below `b`. -/
theorem merged_ge {b a : Nat} {d : HCLC} (hb : T.Reaches l b d) (hba : (T.node b).HA = some a)
    (hm : ∀ k, ended T hv (vs ++ [l]) b k ≤ (m' b).terminated.getD k 0) (k : ExHash) :
    (m a).terminated.getD k 0 + endedThrough T hv (vs ++ [l]) b a k ≤
      (m' a).terminated.getD k 0 := by
  rw [(h.through b d a hb hba).terminated,
    ← landed_ended hk (hr' b) hvs hba k (fun x (hx : x ∈ vs ++ [l]) => hx)]
  refine Nat.add_le_add_left (List.sum_le_sum ?_) _
  intro kr _
  split
  · exact hm kr.1
  · exact Nat.le_refl _

/-- Every visit counts its leaf everywhere. -/
theorem terminated_grows (hn : NoneMissed T hv vs m) (a : Nat) (k : ExHash) :
    (m a).terminated.getD k 0 + ended T hv (vs ++ [l]) a k ≤
      (m' a).terminated.getD k 0 + ended T hv vs a k := by
  by_cases hex : ∃ e, T.Reaches l a e
  · obtain ⟨e, he⟩ := hex
    refine Climb.Reaches.rec_last (P := fun a _ => ∀ k, (m a).terminated.getD k 0 +
      ended T hv (vs ++ [l]) a k ≤ (m' a).terminated.getD k 0 + ended T hv vs a k) ?_ ?_ he k
    · intro c hc k
      exact (h.terminated_direct vs hc k).ge
    · intro b d c hb ihb hbc k
      have hge := merged_ge hk hvs hr' h hb hbc (fun q => by
        have h1 := ihb q
        have h2 := hn b q
        omega) k
      have hsn := endedThrough_snoc hv vs hb c k
      omega
  · exact (h.terminated_away vs (fun e he => hex ⟨e, he⟩) k).ge

theorem NoneMissed.snoc (hn : NoneMissed T hv vs m) : NoneMissed T hv (vs ++ [l]) m' := by
  intro a k
  have h1 := terminated_grows hk hvs hr' h hn a k
  have h2 := hn a k
  omega

/-- Where no earlier leaf below the branches on the way was terminated, the
counters stay right. -/
theorem Counted.snoc (hn : Counted T hv vs m)
    (hone : ∀ b d a, T.Reaches l b d → (T.node b).HA = some a → ∀ x ∈ vs, ∀ e, T.Reaches x b e →
      (T.node x).pathterminated = false) : Counted T hv (vs ++ [l]) m' := by
  intro a k
  by_cases hex : ∃ e, T.Reaches l a e
  · obtain ⟨e, he⟩ := hex
    refine Climb.Reaches.rec_last (P := fun a _ => ∀ k, (m' a).terminated.getD k 0 =
      ended T hv (vs ++ [l]) a k) ?_ ?_ he k
    · intro c hc k
      have h1 := h.terminated_direct vs hc k
      rw [hn c k] at h1
      omega
    · intro b d c hb ihb hbc k
      have hz : endedThrough T hv vs b c k = 0 := by
        refine List.countP_eq_zero.mpr ?_
        intro x hx
        simp only [decide_eq_true_eq]
        rintro ⟨⟨e, hxe⟩, -, ht⟩
        rw [hone b d c hb hbc x hx e hxe] at ht
        cases ht
      have hsn := endedThrough_snoc hv vs hb c k
      rw [(h.through b d c hb hbc).terminated]
      simp only [ihb]
      rw [landed_ended hk (hr' b) hvs hbc k (fun _ hx => hx), hn c k]
      omega
  · have h1 := h.terminated_away vs (fun e he => hex ⟨e, he⟩) k
    rw [hn a k] at h1
    omega

end Step

/-- No leaf leaves an inner H-branch after a terminated one. -/
def ResourceTree.CountedOnce (T : ResourceTree) : Prop :=
  ∀ pre l post b d a, T.tree.leaves = pre ++ l :: post → T.Reaches l b d →
    (T.node b).HA = some a → ∀ x ∈ pre, ∀ e, T.Reaches x b e → (T.node x).pathterminated = false

theorem propagate_counted (hk : T.KeysCohere hv) (hc : T.CountedOnce) :
    ∃ m, T.propagate hv = some m ∧ Counted T hv T.tree.leaves m := by
  obtain ⟨m, hm, -, hp⟩ := T.propagate_rule hk (Counted T hv) (by simp [Counted, ended])
    fun vs l post m m' hl _ hr' hvis h => h.snoc hk (leaves_upto hl) hr' hvis
      fun b d a hb hba => hc vs l post b d a hl hb hba
  exact ⟨m, hm, hp⟩

/-- A terminated leaf that comes first through an inner H-branch is counted
again by the next leaf on that way. -/
theorem propagate_overcounts (hk : T.KeysCohere hv) {l b a : Nat} {d : HCLC} {post : List Nat}
    (hl : T.tree.leaves = l :: post) (hb : T.Reaches l b d) (hba : (T.node b).HA = some a)
    (ht : (T.node l).pathterminated = true) (hx : ∃ x ∈ post, ∃ e, T.Reaches x b e) :
    ∃ m, T.propagate hv = some m ∧
      ended T hv T.tree.leaves a (getHash hv ((T.node b).conj d)) <
        (m a).terminated.getD (getHash hv ((T.node b).conj d)) 0 := by
  obtain ⟨m, hm, -, -, hp⟩ := T.propagate_rule hk (fun vs m => NoneMissed T hv vs m ∧
    ∀ ws, vs = l :: ws → (∃ x ∈ ws, ∃ e, T.Reaches x b e) →
      ended T hv vs a (getHash hv ((T.node b).conj d)) <
        (m a).terminated.getD (getHash hv ((T.node b).conj d)) 0) ⟨by simp [NoneMissed, ended],
          by simp⟩ (by
    rintro vs y post' m m' hly _ hr' hvis ⟨hn, hi⟩
    have hvs := leaves_upto hly
    refine ⟨hn.snoc hk hvs hr' hvis, ?_⟩
    intro ws hws hex
    cases vs with
    | nil =>
      rw [List.nil_append, List.cons.injEq] at hws
      rw [← hws.2] at hex
      simp at hex
    | cons z vs =>
      rw [List.cons_append, List.cons.injEq] at hws
      obtain ⟨rfl, rfl⟩ := hws
      have hgrow := terminated_grows hk hvs hr' hvis hn a (getHash hv ((T.node b).conj d))
      by_cases hy : ∃ e, T.Reaches y b e
      · obtain ⟨e, hye⟩ := hy
        have hge := merged_ge hk hvs hr' hvis hye hba (fun q => (hn.snoc hk hvs hr' hvis) b q)
          (getHash hv ((T.node b).conj d))
        have hsn := endedThrough_snoc hv (z :: vs) hye a
          (getHash hv ((T.node b).conj d))
        have hpos : 0 < endedThrough T hv (z :: vs) b a (getHash hv ((T.node b).conj d)) :=
          List.countP_pos_iff.mpr ⟨z, List.mem_cons_self, by
            simp only [decide_eq_true_eq]
            exact ⟨⟨d, hb⟩, (hb.extend hba).key, ht⟩⟩
        have hle := hn a (getHash hv ((T.node b).conj d))
        omega
      · obtain ⟨x, hx, e, hxe⟩ := hex
        have hxv : x ∈ vs := by
          rcases List.mem_append.mp hx with hx | hx
          · exact hx
          · rw [List.mem_singleton] at hx
            subst hx
            exact absurd ⟨e, hxe⟩ hy
        have hlt := hi vs rfl ⟨x, hxv, e, hxe⟩
        omega)
  exact ⟨m, hm, hp post hl hx⟩

end Encider
