import Encider.Resource.Propagate

namespace Encider

open Std

/-- `m` is `m0` with entries for further keys; nothing is overwritten. -/
structure Grows {α : Type} (m0 m : ExMap α) (keys : ExHash → Prop) (fresh : ExHash → α → Prop) :
    Prop where
  mem : ∀ k : ExHash, k ∈ m ↔ k ∈ m0 ∨ keys k
  keep : ∀ (k : ExHash) (v : α), m0[k]? = some v → m[k]? = some v
  only : ∀ (k : ExHash) (v : α), m[k]? = some v → m0[k]? = some v ∨ fresh k v

theorem Grows.refl {α : Type} (m : ExMap α) : Grows m m (fun _ => False) (fun _ _ => False) :=
  ⟨fun _ => by simp, fun _ _ h => h, fun _ _ h => .inl h⟩

theorem Grows.insertIfNew {α : Type} {m0 m : ExMap α} {keys keys' : ExHash → Prop}
    {fresh fresh' : ExHash → α → Prop} (h : Grows m0 m keys fresh) (k : ExHash) (v : α)
    (hk : ∀ q, keys' q ↔ keys q ∨ q = k) (hf : ∀ q u, fresh q u → fresh' q u) (hv : fresh' k v) :
    Grows m0 (TreeMap.insertIfNew m k v) keys' fresh' := by
  refine ⟨?_, ?_, ?_⟩
  · intro q
    rw [ExMap.mem_insertIfNew, h.mem, hk]
    grind
  · intro q u hq
    have hm := h.keep q u hq
    have hn : ¬ (k = q ∧ k ∉ m) := by
      rintro ⟨rfl, hn⟩
      exact hn ((ExMap.mem_iff m k).mpr ⟨u, hm⟩)
    rw [ExMap.getElem?_insertIfNew, if_neg hn, hm]
  · intro q u hq
    rw [ExMap.getElem?_insertIfNew] at hq
    split at hq
    · rename_i hc
      cases hq
      exact .inr (hc.1 ▸ hv)
    · exact (h.only q u hq).imp_right (hf q u)

/-- The key under which the entry `k` of the H-branch `rd` arrives. -/
def landing (hv : HashValue) (rd : RD) (b : RDMaps) (k : ExHash) : Option ExHash :=
  (b.HE[k]?).map fun e => getHash hv (rd.conj e)

section

variable (hv : HashValue) (rd : RD) (b a : RDMaps)

/-- The range that starts every entry merged into `a`. -/
def startRange : Range := a.Ru.getD (getHash hv rd.own) emptyRange

/-- The blocks that start the entries merged into `a`. -/
def startBlocks : Finset Nat := a.bbm.getD (getHash hv rd.own) ∅

/-- The maps of `a` once the entries in `done` are merged. -/
structure MergedOver (done : List (ExHash × Range)) (a' : RDMaps) : Prop where
  Ru : Grows a.Ru a'.Ru (fun k => ∃ kr ∈ done, landing hv rd b kr.1 = some k) fun k r =>
    ∃ kr ∈ done, landing hv rd b kr.1 = some k ∧ r = combineRange (startRange hv rd a) kr.2
  HE : Grows a.HE a'.HE (fun k => ∃ kr ∈ done, landing hv rd b kr.1 = some k) fun k e =>
    ∃ kr ∈ done, ∃ d, b.HE[kr.1]? = some d ∧ e = rd.conj d ∧ getHash hv e = k
  bbm : Grows a.bbm a'.bbm (fun k => ∃ kr ∈ done, landing hv rd b kr.1 = some k) fun k bs =>
    ∃ kr ∈ done, landing hv rd b kr.1 = some k ∧
      ∀ i, i ∈ bs ↔ i ∈ startBlocks hv rd a ∨
        ∃ kr' ∈ done, ExHash.cmp kr'.1 kr.1 ≠ .gt ∧ i ∈ b.bbm.getD kr'.1 ∅
  RDSet : ∀ k l, l ∈ a'.RDSet.getD k ∅ ↔ l ∈ a.RDSet.getD k ∅ ∨
    ∃ kr ∈ done, landing hv rd b kr.1 = some k ∧ l ∈ b.RDSet.getD kr.1 ∅
  terminated : ∀ k, a'.terminated.getD k 0 = a.terminated.getD k 0 +
    (done.map fun kr => if landing hv rd b kr.1 = some k then b.terminated.getD kr.1 0 else 0).sum

end

variable {hv : HashValue} {rd : RD} {b a : RDMaps}

theorem MergedOver.nil : MergedOver hv rd b a [] a where
  Ru := by simpa using Grows.refl a.Ru
  HE := by simpa using Grows.refl a.HE
  bbm := by simpa using Grows.refl a.bbm
  RDSet := by simp
  terminated := by simp

/-- One more entry, with a key above those before. -/
theorem MergedOver.entry {done : List (ExHash × Range)} {a' : RDMaps} {bbs : Finset Nat}
    (h : MergedOver hv rd b a done a')
    (hbbs : ∀ i, i ∈ bbs ↔ i ∈ startBlocks hv rd a ∨ ∃ kr ∈ done, i ∈ b.bbm.getD kr.1 ∅)
    (x : ExHash × Range) (hx : ∀ kr ∈ done, ExHash.cmp kr.1 x.1 = .lt)
    {e : HCLC} {bs : Finset Nat} (he : b.HE[x.1]? = some e) (hbs : b.bbm[x.1]? = some bs) :
    ∃ s, mergeEntry hv rd b (startRange hv rd a) (a', bbs) x = some s ∧
      MergedOver hv rd b a (done ++ [x]) s.1 ∧
      ∀ i, i ∈ s.2 ↔ i ∈ startBlocks hv rd a ∨ ∃ kr ∈ done ++ [x], i ∈ b.bbm.getD kr.1 ∅ := by
  have hland : landing hv rd b x.1 = some (getHash hv (rd.conj e)) := by simp [landing, he]
  have hget : b.bbm.getD x.1 ∅ = bs := ExMap.getD_of_getElem? hbs ∅
  have hunion : ∀ i, i ∈ bbs ∪ bs ↔
      i ∈ startBlocks hv rd a ∨ ∃ kr ∈ done ++ [x], i ∈ b.bbm.getD kr.1 ∅ := by
    intro i
    simp only [Finset.mem_union, hbbs, List.mem_append, List.mem_singleton]
    constructor
    · rintro ((h | ⟨kr, hk, hi⟩) | h)
      · exact .inl h
      · exact .inr ⟨kr, .inl hk, hi⟩
      · exact .inr ⟨x, .inr rfl, hget ▸ h⟩
    · rintro (h | ⟨kr, hk | rfl, hi⟩)
      · exact .inl (.inl h)
      · exact .inl (.inr ⟨kr, hk, hi⟩)
      · exact .inr (hget ▸ hi)
  have hkeys : ∀ q, (∃ kr ∈ done ++ [x], landing hv rd b kr.1 = some q) ↔
      (∃ kr ∈ done, landing hv rd b kr.1 = some q) ∨ q = getHash hv (rd.conj e) := by
    intro q
    simp only [List.mem_append, List.mem_singleton]
    constructor
    · rintro ⟨kr, hk | rfl, hl⟩
      · exact .inl ⟨kr, hk, hl⟩
      · rw [hland] at hl
        exact .inr (Option.some.inj hl).symm
    · rintro (⟨kr, hk, hl⟩ | rfl)
      · exact ⟨kr, .inl hk, hl⟩
      · exact ⟨x, .inr rfl, hland⟩
  have hxm : x ∈ done ++ [x] := by simp
  have hmono : ∀ kr ∈ done, kr ∈ done ++ [x] := fun kr hk => List.mem_append_left _ hk
  simp only [mergeEntry, he, hbs]
  refine ⟨_, rfl, ⟨?_, ?_, ?_, ?_, ?_⟩, hunion⟩
  · exact h.Ru.insertIfNew _ _ hkeys
      (fun q r => .imp fun kr => .imp_left (hmono kr)) ⟨x, hxm, hland, rfl⟩
  · exact h.HE.insertIfNew _ _ hkeys
      (fun q d => .imp fun kr => .imp_left (hmono kr)) ⟨x, hxm, e, he, rfl, rfl⟩
  · refine h.bbm.insertIfNew _ _ hkeys ?_ ⟨x, hxm, hland, ?_⟩
    · rintro q cs ⟨kr, hk, hl, hi⟩
      refine ⟨kr, hmono kr hk, hl, fun i => (hi i).trans (or_congr_right ?_)⟩
      constructor
      · rintro ⟨kr', hk', hle⟩
        exact ⟨kr', hmono kr' hk', hle⟩
      · rintro ⟨kr', hk', hle, hi'⟩
        rcases List.mem_append.mp hk' with hk' | hk'
        · exact ⟨kr', hk', hle, hi'⟩
        · rw [List.mem_singleton] at hk'
          subst hk'
          exact absurd (OrientedCmp.gt_iff_lt.mpr (hx kr hk)) hle
    · intro i
      refine (hunion i).trans (or_congr_right ?_)
      constructor
      · rintro ⟨kr, hk, hi⟩
        refine ⟨kr, hk, ?_, hi⟩
        rcases List.mem_append.mp hk with hk | hk
        · rw [hx kr hk]
          simp
        · rw [List.mem_singleton] at hk
          subst hk
          simp
      · rintro ⟨kr, hk, _, hi⟩
        exact ⟨kr, hk, hi⟩
  · intro k l
    simp only [ExMap.getD_insert, List.mem_append, List.mem_singleton]
    split
    · rename_i hk
      subst hk
      rw [Finset.mem_union, h.RDSet]
      constructor
      · rintro ((h | ⟨kr, hk, hl⟩) | h)
        · exact .inl h
        · exact .inr ⟨kr, .inl hk, hl⟩
        · exact .inr ⟨x, .inr rfl, hland, h⟩
      · rintro (h | ⟨kr, hk | rfl, hl, hi⟩)
        · exact .inl (.inl h)
        · exact .inl (.inr ⟨kr, hk, hl, hi⟩)
        · exact .inr hi
    · rename_i hne
      rw [h.RDSet]
      refine or_congr_right ⟨.imp fun kr => .imp_left .inl, ?_⟩
      rintro ⟨kr, hk | rfl, hl, hi⟩
      · exact ⟨kr, hk, hl, hi⟩
      · rw [hland] at hl
        exact absurd (Option.some.inj hl) hne
  · intro k
    simp only [ExMap.getD_insert, List.map_append, List.sum_append, List.map_singleton,
      List.sum_singleton, hland, Option.some.injEq]
    split
    · rename_i hk
      subst hk
      rw [h.terminated]
      omega
    · rw [h.terminated]
      omega

/-- Merging succeeds when every key of the branch has its constraints and its blocks. -/
theorem mergeBranch_spec (hHE : ∀ k ∈ b.Ru, k ∈ b.HE) (hbbm : ∀ k ∈ b.Ru, k ∈ b.bbm) :
    ∃ a', mergeBranch hv rd b a = some a' ∧ MergedOver hv rd b a b.Ru.toList a' := by
  obtain ⟨s, hs, hm, -⟩ := List.foldlM_rule (f := mergeEntry hv rd b (startRange hv rd a))
    (l := b.Ru.toList) (s := (a, startBlocks hv rd a))
    (fun done s => MergedOver hv rd b a done s.1 ∧
      ∀ i, i ∈ s.2 ↔ i ∈ startBlocks hv rd a ∨ ∃ kr ∈ done, i ∈ b.bbm.getD kr.1 ∅)
    ⟨MergedOver.nil, by simp⟩ (by
      rintro pre x post ⟨a1, bbs⟩ hl ⟨hm, hbs⟩
      have hx : x ∈ b.Ru.toList := by simp [hl]
      have hxr : x.1 ∈ b.Ru :=
        (ExMap.mem_iff _ _).mpr ⟨x.2, TreeMap.mem_toList_iff_getElem?_eq_some.mp hx⟩
      obtain ⟨e, he⟩ := (ExMap.mem_iff _ _).mp (hHE _ hxr)
      obtain ⟨bs, hb⟩ := (ExMap.mem_iff _ _).mp (hbbm _ hxr)
      have hlt : ∀ kr ∈ pre, ExHash.cmp kr.1 x.1 = .lt := by
        have hp := TreeMap.ordered_keys_toList (t := b.Ru)
        rw [hl, List.pairwise_append] at hp
        exact fun kr hk => hp.2.2 kr hk x List.mem_cons_self
      exact hm.entry hbs x hlt he hb)
  exact ⟨s.1, by simp only [mergeBranch, startRange, startBlocks] at hs ⊢; rw [hs]; rfl, hm⟩

end Encider
