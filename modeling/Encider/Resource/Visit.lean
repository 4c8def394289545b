import Encider.Resource.Merge

namespace Encider

open Std

namespace ResourceTree

/-- Along the HA links one comes from `x` with the constraints `e` to `a` with `d`. -/
abbrev Onward (T : ResourceTree) : Nat → HCLC → Nat → HCLC → Prop :=
  Climb.Reaches (fun x => (T.node x).HA) fun b => (T.node b).conj

/-- Along the HA links `l` comes to `a` with the accumulated constraints `e`. -/
def Reaches (T : ResourceTree) (l a : Nat) (e : HCLC) : Prop :=
  T.Onward l (T.node l).own a e

/-- `k` is the hash of the constraints that `l` has at `a`. -/
def Key (T : ResourceTree) (hv : HashValue) (l a : Nat) (k : ExHash) : Prop :=
  ∃ e, T.Reaches l a e ∧ getHash hv e = k

/-- Leaves with one hash at an inner H-branch keep one hash above it. Only a
collision of a constant with a compound constraint can break this. -/
def KeysCohere (T : ResourceTree) (hv : HashValue) : Prop :=
  ∀ l ∈ T.tree.leaves, ∀ l' ∈ T.tree.leaves, ∀ b e e', T.Reaches l b e → T.Reaches l' b e' →
    getHash hv e = getHash hv e' →
      getHash hv ((T.node b).conj e) = getHash hv ((T.node b).conj e')

variable {T : ResourceTree} {hv : HashValue}

/-- Conjunctions with constraints of one hash have one hash, constants aside. -/
theorem and_hash {l r r' : Expr} (hr : r.isConstant = false) (hr' : r'.isConstant = false)
    (h : r.computeHash hv = r'.computeHash hv) :
    (AndExpr.create l r).computeHash hv = (AndExpr.create l r').computeHash hv := by
  rw [AndExpr.create_nonconstant l hr, AndExpr.create_nonconstant l hr']
  cases l with
  | constant w cl =>
    simp only [AndExpr.createPartial]
    split
    · exact h
    · split
      · rfl
      · simp only [Expr.computeHash, h]
  | _ => simp only [Expr.computeHash, h]

/-- Without a constant that hashes like another constraint the keys cohere. -/
theorem KeysCohere.of_separated
    (hsep : ∀ c d : Constraint, c.val.isConstant = true →
      c.val.computeHash hv = d.val.computeHash hv → c = d) : T.KeysCohere hv := by
  have hand : ∀ b c d : Constraint, c.val.computeHash hv = d.val.computeHash hv →
      (Constraint.and b c).val.computeHash hv = (Constraint.and b d).val.computeHash hv := by
    intro b c d h
    cases hc : c.val.isConstant with
    | true => rw [hsep c d hc h]
    | false =>
      cases hd : d.val.isConstant with
      | true => rw [hsep d c hd h.symm]
      | false => exact and_hash hc hd h
  intro l _ l' _ b e e' _ _ heq
  simp only [getHash, Prod.mk.injEq] at heq
  simp only [getHash, RD.conj, Prod.mk.injEq]
  exact ⟨hand _ _ _ heq.1, hand _ _ _ heq.2⟩

theorem Reaches.unique {l a : Nat} {e e' : HCLC} (h : T.Reaches l a e) (h' : T.Reaches l a e') :
    e = e' := Climb.Reaches.unique T.rank_lt h h'

theorem Reaches.extend {l b a : Nat} {e : HCLC} (h : T.Reaches l b e)
    (hb : (T.node b).HA = some a) : T.Reaches l a ((T.node b).conj e) :=
  Climb.Reaches.extend h hb

theorem reaches_first {l a : Nat} (h : (T.node l).HA = some a) : T.Reaches l a (T.node l).own :=
  .here h

/-- Leaves that start alike climb alike. -/
theorem Reaches.congr {l l' a : Nat} {e : HCLC} (h : T.Reaches l a e)
    (hHA : (T.node l).HA = (T.node l').HA) (hown : (T.node l).own = (T.node l').own) :
    T.Reaches l' a e := by
  rw [Reaches, hown] at h
  cases h with
  | here hx => exact .here (hHA.symm.trans hx)
  | there hx ht => exact .there (hHA.symm.trans hx) ht

theorem KeysCohere.of_alike (h : ∀ l ∈ T.tree.leaves, ∀ l' ∈ T.tree.leaves,
    (T.node l).HA = (T.node l').HA ∧ (T.node l).own = (T.node l').own) : T.KeysCohere hv := by
  intro l hl l' hl' b e e' he he' _
  obtain ⟨hHA, hown⟩ := h l hl l' hl'
  rw [(he.congr hHA hown).unique he']

theorem Reaches.isHBr {l a : Nat} {e : HCLC} (h : T.Reaches l a e) : (T.node a).isHBr = true := by
  rcases Climb.Reaches.last h with ⟨hl, _⟩ | ⟨b, _, _, hb, _⟩
  · exact (T.above _ _ hl).2
  · exact (T.above _ _ hb).2

theorem Reaches.key {l a : Nat} {e : HCLC} (h : T.Reaches l a e) : T.Key hv l a (getHash hv e) :=
  ⟨e, h, rfl⟩

theorem Key.unique {l a : Nat} {k k' : ExHash} (h : T.Key hv l a k) (h' : T.Key hv l a k') :
    k = k' := by
  obtain ⟨e, hr, rfl⟩ := h
  obtain ⟨e', hr', rfl⟩ := h'
  rw [hr.unique hr']

theorem Reaches.not_direct {l b a : Nat} {e : HCLC} (h : T.Reaches l b e)
    (hb : (T.node b).HA = some a) : (T.node l).HA ≠ some a :=
  Climb.Reaches.not_first T.rank_lt h hb

theorem Reaches.through_unique {l b b' a : Nat} {e e' : HCLC} (h : T.Reaches l b e)
    (h' : T.Reaches l b' e') (hb : (T.node b).HA = some a) (hb' : (T.node b').HA = some a) :
    b = b' := Climb.Reaches.last_unique T.rank_lt h h' hb hb'

/-- The leaf climbs to `a` at once or through an inner H-branch. -/
theorem Reaches.last {l a : Nat} {e : HCLC} (h : T.Reaches l a e) :
    ((T.node l).HA = some a ∧ e = (T.node l).own) ∨
      ∃ b d, T.Reaches l b d ∧ (T.node b).HA = some a ∧ e = (T.node b).conj d :=
  Climb.Reaches.last h

theorem Reaches.ne {l a : Nat} {e : HCLC} (h : T.Reaches l a e) : a ≠ l := by
  rintro rfl
  exact absurd (Climb.Reaches.rank_lt T.rank_lt h) (lt_irrefl _)

end ResourceTree

open ResourceTree

variable {T : ResourceTree} {hv : HashValue}

/-- After the leaves `vs` the maps of `a` know exactly the leaves of `vs` that
reach `a`. -/
structure Recorded (T : ResourceTree) (hv : HashValue) (vs : List Nat) (a : Nat) (m : RDMaps) :
    Prop where
  HE : ∀ (k : ExHash) (e : HCLC), m.HE[k]? = some e →
    getHash hv e = k ∧ ∃ l ∈ vs, T.Reaches l a e
  mem_Ru : ∀ k, k ∈ m.Ru ↔ ∃ l ∈ vs, T.Key hv l a k
  mem_HE : ∀ k, k ∈ m.HE ↔ ∃ l ∈ vs, T.Key hv l a k
  mem_bbm : ∀ k, k ∈ m.bbm ↔ ∃ l ∈ vs, T.Key hv l a k
  RDSet : ∀ k l, l ∈ m.RDSet.getD k ∅ ↔ l ∈ vs ∧ T.Key hv l a k

namespace Recorded

theorem empty (a : Nat) : Recorded T hv [] a {} where
  HE k e h := by simp at h
  mem_Ru := by simp
  mem_HE := by simp
  mem_bbm := by simp
  RDSet := by simp

theorem away {vs : List Nat} {a l : Nat} {m : RDMaps} (h : Recorded T hv vs a m)
    (hl : ∀ e, ¬ T.Reaches l a e) : Recorded T hv (vs ++ [l]) a m := by
  have hkey : ∀ k, ¬ T.Key hv l a k := fun k ⟨e, he, _⟩ => hl e he
  refine ⟨?_, ?_, ?_, ?_, ?_⟩
  · intro k e he
    obtain ⟨hk, x, hx, hr⟩ := h.HE k e he
    exact ⟨hk, x, List.mem_append_left _ hx, hr⟩
  · simp [h.mem_Ru, or_and_right, exists_or, hkey]
  · simp [h.mem_HE, or_and_right, exists_or, hkey]
  · simp [h.mem_bbm, or_and_right, exists_or, hkey]
  · intro k x
    rw [h.RDSet, List.mem_append, List.mem_singleton]
    refine ⟨fun hx => ⟨.inl hx.1, hx.2⟩, ?_⟩
    rintro ⟨hx | rfl, hk⟩
    · exact ⟨hx, hk⟩
    · exact absurd hk (hkey k)

/-- Keys of the leaves seen so far and one more that reaches `a` with `e`. -/
theorem snoc_key {vs : List Nat} {a l : Nat} {e : HCLC} (hl : T.Reaches l a e) (k : ExHash) :
    (∃ x ∈ vs ++ [l], T.Key hv x a k) ↔ getHash hv e = k ∨ ∃ x ∈ vs, T.Key hv x a k := by
  have hkey : T.Key hv l a k ↔ getHash hv e = k :=
    ⟨fun h => hl.key.unique h, fun h => ⟨e, hl, h⟩⟩
  simp [or_and_right, exists_or, hkey, or_comm]

theorem record {vs : List Nat} {a l : Nat} {m : RDMaps} (h : Recorded T hv vs a m)
    (hl : (T.node l).HA = some a) :
    Recorded T hv (vs ++ [l]) a (recordLeaf hv (T.node l) l m) := by
  have hr := reaches_first hl
  refine ⟨?_, ?_, ?_, ?_, ?_⟩
  · intro k e he
    simp only [recordLeaf, ExMap.getElem?_insertIfNew] at he
    split at he
    · rename_i hc
      cases he
      exact ⟨hc.1, l, by simp, hr⟩
    · obtain ⟨hk, x, hx, hx'⟩ := h.HE k e he
      exact ⟨hk, x, List.mem_append_left _ hx, hx'⟩
  · intro k
    rw [snoc_key hr, recordLeaf, ExMap.mem_insertIfNew, h.mem_Ru]
  · intro k
    rw [snoc_key hr, recordLeaf, ExMap.mem_insertIfNew, h.mem_HE]
  · intro k
    rw [snoc_key hr, recordLeaf, ExMap.mem_insert, h.mem_bbm]
  · intro k x
    simp only [recordLeaf, ExMap.getD_insert, List.mem_append, List.mem_singleton]
    split
    · rename_i hk
      subst hk
      rw [Finset.mem_insert, h.RDSet]
      constructor
      · rintro (rfl | hx)
        · exact ⟨.inr rfl, hr.key⟩
        · exact ⟨.inl hx.1, hx.2⟩
      · rintro ⟨hx | rfl, hk⟩
        · exact .inr ⟨hx, hk⟩
        · exact .inl rfl
    · rename_i hne
      rw [h.RDSet]
      refine ⟨fun hx => ⟨.inl hx.1, hx.2⟩, ?_⟩
      rintro ⟨hx | rfl, hk⟩
      · exact ⟨hx, hk⟩
      · exact absurd (hr.key.unique hk) hne

/-- A leaf below `b` lands above `b` under its own key. -/
theorem landing_eq {vs : List Nat} {b : Nat} {m : RDMaps} (h : Recorded T hv vs b m)
    (hk : T.KeysCohere hv) (hvs : ∀ x ∈ vs, x ∈ T.tree.leaves) {l : Nat} (hl : l ∈ vs) {e : HCLC}
    (hr : T.Reaches l b e) :
    landing hv (T.node b) m (getHash hv e) = some (getHash hv ((T.node b).conj e)) := by
  obtain ⟨d, hd⟩ := (ExMap.mem_iff _ _).mp ((h.mem_HE _).mpr ⟨l, hl, hr.key⟩)
  obtain ⟨hh, x, hx, hxr⟩ := h.HE _ _ hd
  simp only [landing, hd, Option.map_some]
  rw [hk x (hvs x hx) l (hvs l hl) b d e hxr hr hh]

/-- The leaf of an entry that lands at `k` has the key `k` above `b`. -/
theorem landed_key {vs : List Nat} {b a : Nat} {m : RDMaps} (h : Recorded T hv vs b m)
    (hk : T.KeysCohere hv) (hvs : ∀ x ∈ vs, x ∈ T.tree.leaves) (hb : (T.node b).HA = some a)
    {k q : ExHash} (hl : landing hv (T.node b) m k = some q) {x : Nat} (hx : x ∈ vs)
    (hxk : T.Key hv x b k) : T.Key hv x a q := by
  obtain ⟨e, he, rfl⟩ := hxk
  rw [h.landing_eq hk hvs hx he] at hl
  exact ⟨_, he.extend hb, Option.some.inj hl⟩

theorem mem_of_toList {vs : List Nat} {a : Nat} {m : RDMaps} (h : Recorded T hv vs a m)
    {kr : ExHash × Range} (hm : kr ∈ m.Ru.toList) : ∃ l ∈ vs, T.Key hv l a kr.1 :=
  (h.mem_Ru _).mp ((ExMap.mem_iff _ _).mpr ⟨kr.2, TreeMap.mem_toList_iff_getElem?_eq_some.mp hm⟩)

theorem exists_toList {vs : List Nat} {a l : Nat} {m : RDMaps} (h : Recorded T hv vs a m)
    (hl : l ∈ vs) {k : ExHash} (hk : T.Key hv l a k) : ∃ kr ∈ m.Ru.toList, kr.1 = k := by
  obtain ⟨r, hr⟩ := (ExMap.mem_iff _ _).mp ((h.mem_Ru k).mpr ⟨l, hl, hk⟩)
  exact ⟨(k, r), TreeMap.mem_toList_iff_getElem?_eq_some.mpr hr, rfl⟩

/-- Merging the branch `b`, to which the leaf `l` was just added. -/
theorem merge {vs : List Nat} {b a l : Nat} {m mb m' : RDMaps} {d : HCLC}
    (h : Recorded T hv vs a m) (hb : Recorded T hv (vs ++ [l]) b mb) (hk : T.KeysCohere hv)
    (hvs : ∀ x ∈ vs ++ [l], x ∈ T.tree.leaves) (hl : T.Reaches l b d)
    (ha : (T.node b).HA = some a) (hm : MergedOver hv (T.node b) mb m mb.Ru.toList m') :
    Recorded T hv (vs ++ [l]) a m' := by
  have hlast : l ∈ vs ++ [l] := by simp
  have hland := hb.landing_eq hk hvs hlast hl
  have hmem : ∀ k, (∃ x ∈ vs ++ [l], T.Key hv x a k) ↔ (∃ x ∈ vs, T.Key hv x a k) ∨
      ∃ kr ∈ mb.Ru.toList, landing hv (T.node b) mb kr.1 = some k := by
    intro k
    constructor
    · rw [snoc_key (hl.extend ha)]
      rintro (rfl | hx)
      · obtain ⟨kr, hkr, he⟩ := hb.exists_toList hlast hl.key
        exact .inr ⟨kr, hkr, by rw [he, hland]⟩
      · exact .inl hx
    · rintro (⟨x, hx, hx'⟩ | ⟨kr, hkr, hkl⟩)
      · exact ⟨x, List.mem_append_left _ hx, hx'⟩
      · obtain ⟨x, hx, hxk⟩ := hb.mem_of_toList hkr
        exact ⟨x, hx, hb.landed_key hk hvs ha hkl hx hxk⟩
  refine ⟨?_, ?_, ?_, ?_, ?_⟩
  · intro k e he
    rcases hm.HE.only k e he with h0 | ⟨kr, hkr, c, hc, rfl, hh⟩
    · obtain ⟨hk', x, hx, hxr⟩ := h.HE k e h0
      exact ⟨hk', x, List.mem_append_left _ hx, hxr⟩
    · obtain ⟨-, x, hx, hxr⟩ := hb.HE _ _ hc
      exact ⟨hh, x, hx, hxr.extend ha⟩
  · intro k
    rw [hm.Ru.mem, h.mem_Ru, hmem]
  · intro k
    rw [hm.HE.mem, h.mem_HE, hmem]
  · intro k
    rw [hm.bbm.mem, h.mem_bbm, hmem]
  · intro k x
    rw [hm.RDSet, h.RDSet]
    constructor
    · rintro (⟨hx, hxk⟩ | ⟨kr, _, hkl, hx⟩)
      · exact ⟨List.mem_append_left _ hx, hxk⟩
      · obtain ⟨hx, hxk⟩ := (hb.RDSet _ _).mp hx
        exact ⟨hx, hb.landed_key hk hvs ha hkl hx hxk⟩
    · rintro ⟨hx, hxk⟩
      rcases List.mem_append.mp hx with hx' | hx'
      · exact .inl ⟨hx', hxk⟩
      · rw [List.mem_singleton] at hx'
        subst hx'
        obtain ⟨kr, hkr, he⟩ := hb.exists_toList hx hl.key
        have hkk := (hl.extend ha).key.unique hxk
        exact .inr ⟨kr, hkr, by rw [he, hland, hkk], (hb.RDSet _ _).mpr ⟨hx, he ▸ hl.key⟩⟩

end Recorded

/-- What the climb of the leaf `l` does to the maps. -/
structure Visits (T : ResourceTree) (hv : HashValue) (l : Nat) (m m' : Maps) : Prop where
  away : ∀ a, (∀ e, ¬ T.Reaches l a e) → m' a = m a
  direct : ∀ a, (T.node l).HA = some a → m' a = recordLeaf hv (T.node l) l (m a)
  through : ∀ b d a, T.Reaches l b d → (T.node b).HA = some a →
    MergedOver hv (T.node b) (m' b) (m a) (m' b).Ru.toList (m' a)

/-- Under a new key above `b` only the entry of the leaf just visited lands. -/
theorem new_landing (hk : T.KeysCohere hv) {vs : List Nat} {l b a : Nat} {d : HCLC} {mb : RDMaps}
    (hvs : ∀ x ∈ vs ++ [l], x ∈ T.tree.leaves) (hr : Recorded T hv (vs ++ [l]) b mb)
    (hb : T.Reaches l b d) (hba : (T.node b).HA = some a)
    (hnew : ∀ x ∈ vs, ¬ T.Key hv x a (getHash hv ((T.node b).conj d))) {kr : ExHash × Range}
    (hkr : kr ∈ mb.Ru.toList)
    (hland : landing hv (T.node b) mb kr.1 = some (getHash hv ((T.node b).conj d))) :
    kr.1 = getHash hv d := by
  obtain ⟨x, hx, hxk⟩ := hr.mem_of_toList hkr
  have hxa := hr.landed_key hk hvs hba hland hx hxk
  rcases List.mem_append.mp hx with hx | hx
  · exact absurd hxa (hnew x hx)
  · rw [List.mem_singleton] at hx
    subst hx
    exact hxk.unique hb.key

/-- The state of the climb of `l` that stands at `x` with `e`: the nodes above are
as in `m`, the others have what the visit gives them. -/
structure Climbed (T : ResourceTree) (hv : HashValue) (vs : List Nat) (l : Nat) (m : Maps)
    (x : Nat) (e : HCLC) (s : Maps) : Prop where
  here : (x = l ∧ e = (T.node l).own) ∨ ∃ d, T.Reaches l x d ∧ e = (T.node x).conj d
  todo : ∀ a d, T.Onward x e a d → s a = m a
  recorded : ∀ a, (∀ d, ¬ T.Onward x e a d) → Recorded T hv (vs ++ [l]) a (s a)
  away : ∀ a, (∀ e, ¬ T.Reaches l a e) → s a = m a
  direct : ∀ a, (∀ d, ¬ T.Onward x e a d) → (T.node l).HA = some a →
    s a = recordLeaf hv (T.node l) l (m a)
  through : ∀ a, (∀ d, ¬ T.Onward x e a d) → ∀ b d, T.Reaches l b d →
    (T.node b).HA = some a →
      MergedOver hv (T.node b) (s b) (m a) (s b).Ru.toList (s a)

namespace Climbed

variable {vs : List Nat} {l x a : Nat} {m s : Maps} {e : HCLC}

theorem start (h : ∀ a, Recorded T hv vs a (m a)) :
    Climbed T hv vs l m l (T.node l).own m where
  here := .inl ⟨rfl, rfl⟩
  todo _ _ _ := rfl
  recorded a ha := (h a).away ha
  away _ _ := rfl
  direct _ ha hl := absurd (reaches_first hl) (ha _)
  through _ ha _ _ hb hba := absurd (hb.extend hba) (ha _)

/-- What the climb reaches from `a` it reaches from the node below, and only `a` more. -/
theorem reaches_above (hx : (T.node x).HA = some a) {c : Nat} {d : HCLC}
    (h : T.Onward x e c d) :
    c = a ∨ T.Onward a ((T.node a).conj e) c d := by
  cases h with
  | here hc =>
    rw [hx] at hc
    exact .inl (Option.some.inj hc).symm
  | there hb ht =>
    rw [hx] at hb
    cases hb
    exact .inr ht

theorem self_done : ∀ d, ¬ T.Onward x e x d :=
  fun _ hr => absurd (Climb.Reaches.rank_lt T.rank_lt hr) (lt_irrefl _)

/-- The node above is reached from the leaf, with what the climb carries. -/
theorem reaches (h : Climbed T hv vs l m x e s) (hx : (T.node x).HA = some a) :
    T.Reaches l a e := by
  rcases h.here with ⟨rfl, rfl⟩ | ⟨d, hd, rfl⟩
  · exact reaches_first hx
  · exact hd.extend hx

/-- One move of the climb, given what the step writes into the maps of `a`. -/
theorem move (h : Climbed T hv vs l m x e s) (hx : (T.node x).HA = some a) {v : RDMaps}
    (hv1 : Recorded T hv (vs ++ [l]) a v)
    (hv2 : (T.node l).HA = some a → v = recordLeaf hv (T.node l) l (m a))
    (hv3 : ∀ b d, T.Reaches l b d → (T.node b).HA = some a →
      MergedOver hv (T.node b) (s b) (m a) (s b).Ru.toList v) :
    Climbed T hv vs l m a ((T.node a).conj e) (Function.update s a v) := by
  have hra := h.reaches hx
  have hne : ∀ b d, T.Reaches l b d → (T.node b).HA = some a → b ≠ a := by
    rintro b d _ hb rfl
    exact absurd (T.rank_lt _ _ hb) (lt_irrefl _)
  have hdone : ∀ c, c ≠ a → (∀ d, ¬ T.Onward a ((T.node a).conj e) c d) →
      ∀ d, ¬ T.Onward x e c d := by
    intro c hca hc d hr
    rcases reaches_above hx hr with rfl | hr
    · exact hca rfl
    · exact hc d hr
  refine ⟨.inr ⟨e, hra, rfl⟩, ?_, ?_, ?_, ?_, ?_⟩
  · intro c d hc
    have hca : c ≠ a := by
      rintro rfl
      exact absurd (Climb.Reaches.rank_lt T.rank_lt hc) (lt_irrefl _)
    rw [Function.update_of_ne hca]
    exact h.todo c d (.there hx hc)
  · intro c hc
    by_cases hca : c = a
    · subst hca
      rwa [Function.update_self]
    · rw [Function.update_of_ne hca]
      exact h.recorded c (hdone c hca hc)
  · intro c hc
    have hca : c ≠ a := by
      rintro rfl
      exact hc _ hra
    rw [Function.update_of_ne hca]
    exact h.away c hc
  · intro c hc hl
    by_cases hca : c = a
    · subst hca
      rw [Function.update_self]
      exact hv2 hl
    · rw [Function.update_of_ne hca]
      exact h.direct c (hdone c hca hc) hl
  · intro c hc b d hb hbc
    by_cases hca : c = a
    · subst hca
      rw [Function.update_self, Function.update_of_ne (hne b d hb hbc)]
      exact hv3 b d hb hbc
    · have hba : b ≠ a := by
        rintro rfl
        exact hc _ (.here hbc)
      rw [Function.update_of_ne hca, Function.update_of_ne hba]
      exact h.through c (hdone c hca hc) b d hb hbc

end Climbed

/-- One turn of the loop keeps the invariant of the climb. -/
theorem propagateStep_climbed (hk : T.KeysCohere hv) {vs : List Nat} {l x a : Nat} {m s : Maps}
    {e : HCLC} (hvs : ∀ y ∈ vs ++ [l], y ∈ T.tree.leaves) (hm : ∀ a, Recorded T hv vs a (m a))
    (hx : (T.node x).HA = some a) (h : Climbed T hv vs l m x e s) :
    ∃ s', propagateStep hv T.node x a s = some s' ∧
      Climbed T hv vs l m a ((T.node a).conj e) s' := by
  have hsa : s a = m a := h.todo a e (.here hx)
  rcases h.here with ⟨rfl, rfl⟩ | ⟨d, hd, rfl⟩
  · have hleaf := T.leaf x (hvs x (by simp))
    refine ⟨_, by rw [propagateStep, hleaf]; rfl, ?_⟩
    rw [hsa]
    refine h.move hx ((hm a).record hx) (fun _ => rfl) ?_
    intro b d hb hba
    exact absurd hx (hb.not_direct hba)
  · have hrec := h.recorded x Climbed.self_done
    obtain ⟨v, hv1, hv2⟩ := @mergeBranch_spec hv (T.node x) (s x) (m a)
      (fun k hkm => (hrec.mem_HE k).mpr ((hrec.mem_Ru k).mp hkm))
      (fun k hkm => (hrec.mem_bbm k).mpr ((hrec.mem_Ru k).mp hkm))
    refine ⟨Function.update s a v, by rw [propagateStep, hd.isHBr, hsa, hv1]; rfl, ?_⟩
    refine h.move hx ((hm a).merge hrec hk hvs hd hx hv2) ?_ ?_
    · intro hl
      exact absurd hl (hd.not_direct hx)
    · intro b c hb hba
      obtain rfl := hb.through_unique hd hba hx
      exact hv2

/-- The climb of a leaf never fails an assertion. -/
theorem climbHA_spec (hk : T.KeysCohere hv) {vs : List Nat} {l : Nat} {m : Maps}
    (hvs : ∀ y ∈ vs ++ [l], y ∈ T.tree.leaves) (hm : ∀ a, Recorded T hv vs a (m a)) :
    ∃ m', climbHA hv T.node T.tree.labels.length l m = some m' ∧ Visits T hv l m m' ∧
      ∀ a, Recorded T hv (vs ++ [l]) a (m' a) := by
  obtain ⟨y, d, m', hc, hy, hp⟩ := Climb.climb_rule (fun b => (T.node b).conj) T.rank_lt
    (Climbed T hv vs l m) (fun x a e s hx h => propagateStep_climbed hk hvs hm hx h)
    (T.rank_le l) (Climbed.start hm)
  have hnone : ∀ a d', ¬ T.Onward y d a d' := by
    intro a d' hr
    cases hr with
    | here h => simp [hy] at h
    | there h _ => simp [hy] at h
  exact ⟨m', hc, ⟨hp.away, fun a => hp.direct a (hnone a),
    fun b c a hb hba => hp.through a (hnone a) b c hb hba⟩, fun a => hp.recorded a (hnone a)⟩

/-- The rule of the whole walk: an invariant of the leaves visited so far. -/
theorem ResourceTree.propagate_rule (hk : T.KeysCohere hv) (I : List Nat → Maps → Prop)
    (h0 : I [] fun _ => {})
    (hstep : ∀ vs l post m m', T.tree.leaves = vs ++ l :: post →
      (∀ a, Recorded T hv vs a (m a)) → (∀ a, Recorded T hv (vs ++ [l]) a (m' a)) →
      Visits T hv l m m' → I vs m → I (vs ++ [l]) m') :
    ∃ m, T.propagate hv = some m ∧ (∀ a, Recorded T hv T.tree.leaves a (m a)) ∧
      I T.tree.leaves m := by
  rw [ResourceTree.propagate, propagate_eq_visit]
  refine List.foldlM_rule (fun vs m => (∀ a, Recorded T hv vs a (m a)) ∧ I vs m)
    ⟨Recorded.empty, h0⟩ ?_
  rintro vs l post m hl ⟨hr, hi⟩
  have hvs : ∀ y ∈ vs ++ [l], y ∈ T.tree.leaves := by
    intro y hy
    rw [hl]
    simp only [List.mem_append, List.mem_cons] at hy ⊢
    tauto
  obtain ⟨m', hc, hv', hr'⟩ := climbHA_spec hk hvs hr
  exact ⟨m', hc, hr', hstep vs l post m m' hl hr hr' hv' hi⟩

end Encider
