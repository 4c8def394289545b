import Mathlib
import Encider.Adt.TreeIterator

/-! Versions of an `ImmutableTree` and the finite maps they stand for. -/

namespace Encider

namespace ImmutableTree

variable {K V : Type} [LinearOrder K] (key : V → K)

inductive Op (K V : Type) where
  | insert (v : V)
  | replace (v : V)
  | remove (k : K)
  | popMin
  | popMax

def keys (m : K → Option V) : Set K := {k | (m k).isSome}

/-- The tree is balanced and ordered, and its values are those of the map. -/
structure Represents (t : ImmutableTree V) (m : K → Option V) : Prop where
  balanced : t.Balanced
  ordered : t.Ordered key
  contents : ∀ k v, m k = some v ↔ v ∈ t.toList ∧ key v = k

variable {key} {t : ImmutableTree V} {m : K → Option V}

/-- What changes at a key changes in the list of the values. -/
theorem Represents.update {t' : ImmutableTree V} {k : K} {pre post : List V} {old new : Option V}
    (h : Represents key t m) (hb : t'.Balanced) (hold : t.toList = pre ++ old.toList ++ post)
    (hnew : t'.toList = pre ++ new.toList ++ post) (hpre : ∀ w ∈ pre, key w < k)
    (hat : ∀ w ∈ old, key w = k) (hat' : ∀ w ∈ new, key w = k) (hpost : ∀ w ∈ post, k < key w) :
    Represents key t' (Function.update m k new) := by
  refine ⟨hb, ?_, ?_⟩
  · have hsorted := h.ordered
    rw [Ordered, hold, List.pairwise_append, List.pairwise_append] at hsorted
    obtain ⟨⟨hpre', _, _⟩, hpost', hlt⟩ := hsorted
    rw [Ordered, hnew, List.pairwise_append, List.pairwise_append]
    refine ⟨⟨hpre', ?_, ?_⟩, hpost', ?_⟩
    · cases new with
      | none => exact List.Pairwise.nil
      | some x => exact List.pairwise_singleton _ _
    · intro w hw x hx
      rw [hat' x (Option.mem_toList.mp hx)]
      exact hpre w hw
    · intro w hw x hx
      rcases List.mem_append.mp hw with hw | hw
      · exact (hpre w hw).trans (hpost x hx)
      · rw [hat' w (Option.mem_toList.mp hw)]
        exact hpost x hx
  · intro k' v
    have hold' := h.contents k' v
    rw [hold] at hold'
    rw [hnew]
    simp only [List.mem_append, Option.mem_toList] at hold' ⊢
    by_cases hk : k' = k
    · subst hk
      rw [Function.update_self]
      constructor
      · intro hv
        exact ⟨Or.inl (Or.inr hv), hat' v hv⟩
      · rintro ⟨(hv | hv) | hv, hkey⟩
        · exact absurd hkey (hpre v hv).ne
        · exact hv
        · exact absurd hkey (hpost v hv).ne'
    · rw [Function.update_of_ne hk, hold']
      constructor
      · rintro ⟨(hv | hv) | hv, hkey⟩
        · exact ⟨Or.inl (Or.inl hv), hkey⟩
        · exact absurd (hkey.symm.trans (hat v hv)) hk
        · exact ⟨Or.inr hv, hkey⟩
      · rintro ⟨(hv | hv) | hv, hkey⟩
        · exact ⟨Or.inl (Or.inl hv), hkey⟩
        · exact absurd (hkey.symm.trans (hat' v hv)) hk
        · exact ⟨Or.inr hv, hkey⟩

theorem Represents.mem_keys {k : K} (h : Represents key t m) :
    k ∈ keys m ↔ ∃ v ∈ t.toList, key v = k := by
  rw [keys, Set.mem_ofPred_eq, Option.isSome_iff_exists]
  exact exists_congr fun v => h.contents k v

/-- The values of an empty map. -/
theorem Represents.eq_terminator_iff (h : Represents key t m) :
    t = terminator ↔ ∀ k, k ∉ keys m := by
  constructor
  · rintro rfl k hk
    obtain ⟨v, hv, _⟩ := h.mem_keys.mp hk
    exact absurd hv List.not_mem_nil
  · intro hkeys
    cases t with
    | terminator => rfl
    | node l r v n =>
      exact absurd (h.mem_keys.mpr ⟨v, List.mem_append_right _ List.mem_cons_self, rfl⟩)
        (hkeys (key v))

/-- The first value has the least key. -/
theorem Represents.isLeast {v : V} {vs : List V} (h : Represents key t m)
    (hlist : t.toList = v :: vs) : IsLeast (keys m) (key v) := by
  have hsorted := h.ordered
  rw [Ordered, hlist, List.pairwise_cons] at hsorted
  refine ⟨h.mem_keys.mpr ⟨v, hlist ▸ List.mem_cons_self, rfl⟩, ?_⟩
  intro k hk
  obtain ⟨w, hw, rfl⟩ := h.mem_keys.mp hk
  rw [hlist] at hw
  rcases List.mem_cons.mp hw with rfl | hw
  · exact le_refl _
  · exact (hsorted.1 w hw).le

theorem Represents.isGreatest {v : V} {vs : List V} (h : Represents key t m)
    (hlist : t.toList = vs ++ [v]) : IsGreatest (keys m) (key v) := by
  have hsorted := h.ordered
  rw [Ordered, hlist, List.pairwise_append] at hsorted
  refine ⟨h.mem_keys.mpr ⟨v, hlist ▸ List.mem_append_right _ List.mem_cons_self, rfl⟩, ?_⟩
  intro k hk
  obtain ⟨w, hw, rfl⟩ := h.mem_keys.mp hk
  rw [hlist] at hw
  rcases List.mem_append.mp hw with hw | hw
  · exact (hsorted.2.2 w hw v List.mem_cons_self).le
  · rw [List.mem_singleton.mp hw]

section

variable [Inhabited V] (key)

/-- The tree an operation makes, and the value it gives out. -/
def Op.apply (t : ImmutableTree V) : Op K V → ImmutableTree V × Option V
  | .insert v => (t.insert key v, none)
  | .replace v => (t.replace key v, none)
  | .remove k => (t.remove key k, none)
  | .popMin => (t.popMin.1, some t.popMin.2)
  | .popMax => (t.popMax.1, some t.popMax.2)

/-- The versions so far, each with the value given out when it was made. An operation is on one of
them, or on a tree without values, and the version it makes is kept beside them. -/
def run (ops : List (Nat × Op K V)) : List (ImmutableTree V × Option V) :=
  ops.foldl (fun made op => made ++ [op.2.apply key ((made.map Prod.fst).getD op.1 terminator)]) []

/-! The same on finite maps -/

open Classical in
/-- The map without its extreme key, and the value that was there. -/
noncomputable def popAt (Extreme : Set K → K → Prop) (m : K → Option V) :
    (K → Option V) × Option V :=
  if h : ∃ k, Extreme (keys m) k then (Function.update m h.choose none, m h.choose)
  else (m, some default)

noncomputable def Op.applyMap (m : K → Option V) : Op K V → (K → Option V) × Option V
  | .insert v => (Function.update m (key v) ((m (key v)).or (some v)), none)
  | .replace v => (Function.update m (key v) (some v), none)
  | .remove k => (Function.update m k none, none)
  | .popMin => popAt IsLeast m
  | .popMax => popAt IsGreatest m

noncomputable def runMaps (ops : List (Nat × Op K V)) : List ((K → Option V) × Option V) :=
  ops.foldl (fun made op => made ++ [op.2.applyMap key ((made.map Prod.fst).getD op.1 fun _ => none)])
    []

variable {key}

theorem popAt_of_extreme (Extreme : Set K → K → Prop) {k : K}
    (hunique : ∀ s a b, Extreme s a → Extreme s b → a = b) (h : Extreme (keys m) k) :
    popAt Extreme m = (Function.update m k none, m k) := by
  have hex : ∃ k, Extreme (keys m) k := ⟨k, h⟩
  rw [popAt, dif_pos hex, hunique _ _ _ hex.choose_spec h]

theorem Represents.popMin (h : Represents key t m) :
    Represents key t.popMin.1 (popAt IsLeast m).1 ∧ some t.popMin.2 = (popAt IsLeast m).2 := by
  by_cases ht : t = terminator
  · have hnone : ¬ ∃ k, IsLeast (keys m) k := by
      rintro ⟨k, hk⟩
      exact h.eq_terminator_iff.mp ht k hk.1
    rw [popAt, dif_neg hnone]
    subst ht
    exact ⟨h, rfl⟩
  · have hlist := toList_popMin ht
    have hleast := h.isLeast hlist
    rw [popAt_of_extreme IsLeast (fun _ _ _ => IsLeast.unique) hleast]
    have hsorted := h.ordered
    rw [Ordered, hlist, List.pairwise_cons] at hsorted
    have hold : t.toList = [] ++ (some t.popMin.2).toList ++ t.popMin.1.toList := hlist
    refine ⟨h.update h.balanced.popMin.1 hold rfl (by simp) ?_ (by simp) hsorted.1, ?_⟩
    · simp
    · exact ((h.contents _ _).mpr ⟨hlist ▸ List.mem_cons_self, rfl⟩).symm

theorem Represents.popMax (h : Represents key t m) :
    Represents key t.popMax.1 (popAt IsGreatest m).1 ∧
      some t.popMax.2 = (popAt IsGreatest m).2 := by
  by_cases ht : t = terminator
  · have hnone : ¬ ∃ k, IsGreatest (keys m) k := by
      rintro ⟨k, hk⟩
      exact h.eq_terminator_iff.mp ht k hk.1
    rw [popAt, dif_neg hnone]
    subst ht
    exact ⟨h, rfl⟩
  · have hlist := toList_popMax ht
    have hgreatest := h.isGreatest hlist
    rw [popAt_of_extreme IsGreatest (fun _ _ _ => IsGreatest.unique) hgreatest]
    have hsorted := h.ordered
    rw [Ordered, hlist, List.pairwise_append] at hsorted
    have hold : t.toList = t.popMax.1.toList ++ (some t.popMax.2).toList ++ [] := by
      rw [hlist, List.append_nil]
      rfl
    refine ⟨h.update h.balanced.popMax.1 hold ?_ ?_ ?_ (by simp) (by simp), ?_⟩
    · simp
    · intro w hw
      exact hsorted.2.2 w hw _ List.mem_cons_self
    · simp
    · exact ((h.contents _ _).mpr ⟨hlist ▸ List.mem_append_right _ List.mem_cons_self, rfl⟩).symm

theorem Represents.hit_eq {k : K} {pre post : List V} {hit : Option V} (h : Represents key t m)
    (c : Cut key k t pre hit post) : m k = hit := by
  ext w
  rw [h.contents, c.toList]
  simp only [List.mem_append, Option.mem_toList]
  constructor
  · rintro ⟨(hw | hw) | hw, hk⟩
    · exact absurd hk (c.below w hw).ne
    · exact hw
    · exact absurd hk (c.above w hw).ne'
  · intro hw
    exact ⟨Or.inl (Or.inr hw), c.at_key w hw⟩

/-- An operation on a tree does to the finite map what it does there. -/
theorem Represents.apply (h : Represents key t m) (op : Op K V) :
    Represents key (op.apply key t).1 (op.applyMap key m).1 ∧
      (op.apply key t).2 = (op.applyMap key m).2 := by
  cases op with
  | insert v =>
    obtain ⟨pre, hit, post, c⟩ := h.ordered.cut (key v)
    refine ⟨h.update (h.balanced.insert key v).1 c.toList ?_ c.below c.at_key ?_ c.above, rfl⟩
    · rw [Op.apply, c.insert v rfl, h.hit_eq c]
      cases hit <;> simp
    · rw [h.hit_eq c]
      intro w hw
      cases hit with
      | none => rw [← Option.some.inj hw]
      | some x => exact c.at_key w hw
  | replace v =>
    obtain ⟨pre, hit, post, c⟩ := h.ordered.cut (key v)
    refine ⟨h.update (h.balanced.replace key v).1 c.toList ?_ c.below c.at_key ?_ c.above, rfl⟩
    · rw [Op.apply, c.replace v rfl]
      simp
    · simp
  | remove k =>
    obtain ⟨pre, hit, post, c⟩ := h.ordered.cut k
    refine ⟨h.update (h.balanced.remove key k).1 c.toList ?_ c.below c.at_key nofun c.above, rfl⟩
    rw [Op.apply, c.remove]
    simp
  | popMin => exact h.popMin
  | popMax => exact h.popMax

end

/-! Moves of an iterator -/

inductive Move where
  | next
  | prev

/-- Where the searches start. -/
inductive Start (K : Type) where
  | begin_
  | end_
  | find (k : K)
  | lowerBound (k : K)
  | upperBound (k : K)

/-- The place of the first element with a property, in a list that splits there. -/
theorem findIdx_append {V : Type} {p : V → Bool} {pre post : List V} (hpre : ∀ w ∈ pre, ¬ p w)
    (hpost : ∀ w ∈ post.head?, p w) : (pre ++ post).findIdx p = pre.length := by
  induction pre with
  | nil =>
    cases post with
    | nil => rfl
    | cons v post => exact List.findIdx_cons.trans (by simp [hpost v rfl])
  | cons v pre ih =>
    have hrest := ih fun w hw => hpre w (List.mem_cons_of_mem v hw)
    rw [List.cons_append, List.findIdx_cons, hrest]
    simp [hpre v List.mem_cons_self]

section

variable [DecidableEq V]

def Iterator.move (it : Iterator V) : Move → Option (Iterator V)
  | .next => it.next
  | .prev => it.prev

/-- A move between the places of a list with its end; `++` needs a value to leave, and `--` goes
from the first to the end. -/
def moveIndex (length : Nat) (i : Nat) : Move → Option Nat
  | .next => if i < length then some (i + 1) else none
  | .prev => some (if i = 0 then length else i - 1)

variable [Inhabited V] (key)

def Start.iterator (t : ImmutableTree V) : Start K → Option (Iterator V)
  | .begin_ => Iterator.begin_ t
  | .end_ => some (Iterator.end_ t)
  | .find k => Iterator.find key k t
  | .lowerBound k => Iterator.lowerBound key k t
  | .upperBound k => Iterator.upperBound key k t

/-- The place in the values in order. -/
def Start.index (vs : List V) : Start K → Nat
  | .begin_ => 0
  | .end_ => vs.length
  | .find k => vs.findIdx (key · = k)
  | .lowerBound k => vs.findIdx (k ≤ key ·)
  | .upperBound k => vs.findIdx (k < key ·)

variable {key}

theorem start_stands (hb : t.Balanced) (ho : t.Ordered key) (s : Start K) :
    ∃ stack pre post, s.iterator key t = some ⟨t, stack⟩ ∧ Stands ⟨t, stack⟩ pre post ∧
      s.index key t.toList = pre.length := by
  cases s with
  | begin_ =>
    obtain ⟨stack, hbegin, hstands⟩ := begin_stands hb
    exact ⟨stack, _, _, hbegin, hstands, rfl⟩
  | end_ => exact ⟨[], _, _, rfl, Stands.end_ t, rfl⟩
  | find k =>
    obtain ⟨stack, pre, post, hfind, hstands, hpre, hhead⟩ := find_stands k hb ho
    refine ⟨stack, pre, post, hfind, hstands, ?_⟩
    rw [Start.index, ← hstands.values]
    refine findIdx_append ?_ ?_
    · intro w hw
      simpa using hpre w hw
    · intro w hw
      simpa using hhead w hw
  | lowerBound k =>
    obtain ⟨stack, pre, post, hlower, hstands, hpre, hpost⟩ := lowerBound_stands k hb ho
    refine ⟨stack, pre, post, hlower, hstands, ?_⟩
    rw [Start.index, ← hstands.values]
    refine findIdx_append ?_ ?_
    · intro w hw
      simpa using hpre w hw
    · intro w hw
      simpa using hpost w (List.mem_of_head? hw)
  | upperBound k =>
    obtain ⟨stack, pre, post, hupper, hstands, hpre, hpost⟩ := upperBound_stands k hb ho
    refine ⟨stack, pre, post, hupper, hstands, ?_⟩
    rw [Start.index, ← hstands.values]
    refine findIdx_append ?_ ?_
    · intro w hw
      simpa using hpre w hw
    · intro w hw
      simpa using hpost w (List.mem_of_head? hw)

/-- An iterator and its place in the values move together. -/
theorem Stands.moves {stack : List (ImmutableTree V)} {pre post : List V}
    (h : Stands ⟨t, stack⟩ pre post) (hb : t.Balanced) (ho : t.Ordered key) (moves : List Move) :
    (moves.foldlM Iterator.move ⟨t, stack⟩).map Iterator.deref =
      (moves.foldlM (moveIndex t.toList.length) pre.length).map (t.toList[·]?) := by
  induction moves generalizing stack pre post with
  | nil =>
    have hvalues := h.values
    simp only [List.foldlM_nil, pure, Option.map_some]
    rw [h.deref, ← hvalues, List.getElem?_append_right (Nat.le_refl _), Nat.sub_self,
      List.head?_eq_getElem?]
  | cons move moves ih =>
    have hlength : pre.length + post.length = t.toList.length := by
      rw [← List.length_append, h.values]
    simp only [List.foldlM_cons]
    cases move with
    | next =>
      cases post with
      | nil =>
        have hstack : Iterator.move ⟨t, stack⟩ .next = none := by
          cases h
          rfl
        rw [hstack, moveIndex, if_neg (by simp at hlength; omega)]
        rfl
      | cons v post =>
        obtain ⟨stack', hnext, hstands⟩ := h.next hb ho
        have hmove : Iterator.move ⟨t, stack⟩ .next = some ⟨t, stack'⟩ := hnext
        rw [hmove, moveIndex, if_pos (by simp at hlength; omega)]
        simpa using ih hstands
    | prev =>
      rcases List.eq_nil_or_concat' pre with rfl | ⟨pre, v, rfl⟩
      · have hmove : Iterator.move ⟨t, stack⟩ .prev = some ⟨t, []⟩ := h.prev_first ho
        rw [hmove]
        exact ih (Stands.end_ t)
      · obtain ⟨stack', hprev, hstands⟩ := h.prev hb ho
        have hmove : Iterator.move ⟨t, stack⟩ .prev = some ⟨t, stack'⟩ := hprev
        rw [hmove]
        simpa [moveIndex] using ih hstands

end

/-! What a tree answers -/

/-- The answers of a tree are those of the map; an iterator that starts anywhere and moves in any
way gives what stands at its place in the values in order. -/
structure Answers [Inhabited V] [DecidableEq V] (key : V → K) (t : ImmutableTree V)
    (m : K → Option V) : Prop where
  lookup : ∀ k, t.lookup key k = m k
  count : ∀ k, t.count key k = if (m k).isSome then 1 else 0
  size : t.size = (keys m).ncard
  previous : ∀ k v, t.lookupPrevious key k = some v ↔
    m (key v) = some v ∧ IsGreatest {k' | k' ∈ keys m ∧ k' ≤ k} (key v)
  min : ∀ v, t.min = some v ↔ m (key v) = some v ∧ IsLeast (keys m) (key v)
  max : ∀ v, t.max = some v ↔ m (key v) = some v ∧ IsGreatest (keys m) (key v)
  iterate : ∀ (s : Start K) (moves : List Move),
    ((s.iterator key t).bind (moves.foldlM Iterator.move)).map Iterator.deref =
      (moves.foldlM (moveIndex t.toList.length) (s.index key t.toList)).map (t.toList[·]?)

/-- Two values of a tree with one key are the same. -/
theorem Represents.eq_of_extreme {v w : V} (h : Represents key t m) (hv : v ∈ t.toList)
    (hw : m (key w) = some w) (hk : key v = key w) : v = w := by
  have hv' := (h.contents (key v) v).mpr ⟨hv, rfl⟩
  rw [hk, hw] at hv'
  exact (Option.some.inj hv').symm

theorem Represents.min_iff (h : Represents key t m) (v : V) :
    t.min = some v ↔ m (key v) = some v ∧ IsLeast (keys m) (key v) := by
  rw [min_eq_head]
  constructor
  · intro hhead
    obtain ⟨vs, hlist⟩ := List.head?_eq_some_iff.mp hhead
    exact ⟨(h.contents _ _).mpr ⟨hlist ▸ List.mem_cons_self, rfl⟩, h.isLeast hlist⟩
  · intro ⟨hv, hleast⟩
    cases hlist : t.toList with
    | nil =>
      have hmem := ((h.contents _ _).mp hv).1
      rw [hlist] at hmem
      exact absurd hmem List.not_mem_nil
    | cons w vs =>
      have heq := (h.isLeast hlist).unique hleast
      exact congrArg some (h.eq_of_extreme (hlist ▸ List.mem_cons_self) hv heq)

theorem Represents.max_iff (h : Represents key t m) (v : V) :
    t.max = some v ↔ m (key v) = some v ∧ IsGreatest (keys m) (key v) := by
  rw [max_eq_last]
  constructor
  · intro hlast
    obtain ⟨vs, hlist⟩ := List.getLast?_eq_some_iff.mp hlast
    exact ⟨(h.contents _ _).mpr ⟨hlist ▸ List.mem_append_right _ List.mem_cons_self, rfl⟩,
      h.isGreatest hlist⟩
  · intro ⟨hv, hgreatest⟩
    rcases List.eq_nil_or_concat' t.toList with hlist | ⟨vs, w, hlist⟩
    · have hmem := ((h.contents _ _).mp hv).1
      rw [hlist] at hmem
      exact absurd hmem List.not_mem_nil
    · have heq := (h.isGreatest hlist).unique hgreatest
      rw [hlist, List.getLast?_append_of_ne_nil _ (List.cons_ne_nil _ _)]
      exact congrArg some
        (h.eq_of_extreme (hlist ▸ List.mem_append_right _ List.mem_cons_self) hv heq)

theorem Represents.size_eq (h : Represents key t m) : t.size = (keys m).ncard := by
  classical
  have hkeys : keys m = ((t.toList.map key).toFinset : Set K) := by
    ext k
    rw [h.mem_keys]
    simp
  have hnodup : (t.toList.map key).Nodup := by
    rw [List.Nodup, List.pairwise_map]
    exact h.ordered.imp ne_of_lt
  rw [hkeys, Set.ncard_coe_finset, List.toFinset_card_of_nodup hnodup, List.length_map,
    size_eq_length]

/-- The last value in order is the one with the greatest key. -/
theorem getLast_eq_some_iff {vs : List V} (h : vs.Pairwise (key · < key ·)) {v : V} :
    vs.getLast? = some v ↔ v ∈ vs ∧ ∀ w ∈ vs, key w ≤ key v := by
  rcases List.eq_nil_or_concat' vs with rfl | ⟨vs, x, rfl⟩
  · simp
  have hbelow := (List.pairwise_append.mp h).2.2
  rw [List.getLast?_append_of_ne_nil _ (List.cons_ne_nil _ _), List.getLast?_singleton,
    Option.some.injEq]
  constructor
  · rintro rfl
    refine ⟨List.mem_append_right _ List.mem_cons_self, ?_⟩
    intro w hw
    rcases List.mem_append.mp hw with hw | hw
    · exact (hbelow w hw x List.mem_cons_self).le
    · rw [List.mem_singleton.mp hw]
  · intro ⟨hv, hgreatest⟩
    rcases List.mem_append.mp hv with hv | hv
    · have hx := hgreatest x (List.mem_append_right _ List.mem_cons_self)
      exact absurd hx (hbelow v hv x List.mem_cons_self).not_ge
    · exact (List.mem_singleton.mp hv).symm

/-- `lookup_previous` gives the value of the greatest key up to the given one. -/
theorem Represents.previous_iff [Inhabited V] (h : Represents key t m) (k : K) (v : V) :
    t.lookupPrevious key k = some v ↔
      m (key v) = some v ∧ IsGreatest {k' | k' ∈ keys m ∧ k' ≤ k} (key v) := by
  obtain ⟨pre, hit, post, c⟩ := h.ordered.cut k
  have hprevious : t.lookupPrevious key k = (pre ++ hit.toList).getLast? := by
    rw [lookupPrevious, c.previous, Option.or_none]
    cases hit <;> simp
  -- the values up to the key, of which the last is wanted
  have hupto : ∀ w, w ∈ pre ++ hit.toList ↔ w ∈ t.toList ∧ key w ≤ k := by
    intro w
    rw [c.toList, List.mem_append (t := post)]
    constructor
    · intro hw
      refine ⟨Or.inl hw, ?_⟩
      rcases List.mem_append.mp hw with hw | hw
      · exact (c.below w hw).le
      · exact (c.at_key w (Option.mem_toList.mp hw)).le
    · rintro ⟨hw | hw, hk⟩
      · exact hw
      · exact absurd hk (c.above w hw).not_ge
  have hsorted : (pre ++ hit.toList).Pairwise (key · < key ·) := by
    have ho := h.ordered
    rw [Ordered, c.toList] at ho
    exact (List.pairwise_append.mp ho).1
  rw [hprevious, getLast_eq_some_iff hsorted, hupto]
  constructor
  · rintro ⟨⟨hv, hk⟩, hlast⟩
    refine ⟨(h.contents _ _).mpr ⟨hv, rfl⟩, ⟨h.mem_keys.mpr ⟨v, hv, rfl⟩, hk⟩, ?_⟩
    rintro k' ⟨hk', hle⟩
    obtain ⟨w, hw, rfl⟩ := h.mem_keys.mp hk'
    exact hlast w ((hupto w).mpr ⟨hw, hle⟩)
  · rintro ⟨hv, hk, hgreatest⟩
    refine ⟨⟨((h.contents _ _).mp hv).1, hk.2⟩, ?_⟩
    intro w hw
    obtain ⟨hw, hle⟩ := (hupto w).mp hw
    exact hgreatest ⟨h.mem_keys.mpr ⟨w, hw, rfl⟩, hle⟩

theorem Represents.answers [Inhabited V] [DecidableEq V] (h : Represents key t m) :
    Answers key t m := by
  constructor
  · intro k
    obtain ⟨pre, hit, post, c⟩ := h.ordered.cut k
    exact c.lookup.trans (h.hit_eq c).symm
  · intro k
    obtain ⟨pre, hit, post, c⟩ := h.ordered.cut k
    rw [c.count, h.hit_eq c]
    cases hit <;> rfl
  · exact h.size_eq
  · exact h.previous_iff
  · exact h.min_iff
  · exact h.max_iff
  · intro s moves
    obtain ⟨stack, pre, post, hstart, hstands, hindex⟩ := start_stands h.balanced h.ordered s
    rw [hstart, Option.bind_some, hindex]
    exact hstands.moves h.balanced h.ordered moves

/-! Any operations on any versions -/

theorem represents_terminator : Represents key terminator fun _ => none :=
  ⟨trivial, List.Pairwise.nil, fun _ _ => iff_of_false nofun nofun⟩

/-- The trees an operation can be on. -/
theorem represents_getD {made : List (ImmutableTree V × Option V)}
    {spec : List ((K → Option V) × Option V)}
    (h : List.Forall₂ (fun a b => Represents key a.1 b.1 ∧ a.2 = b.2) made spec) (i : Nat) :
    Represents key ((made.map Prod.fst).getD i terminator)
      ((spec.map Prod.fst).getD i fun _ => none) := by
  induction h generalizing i with
  | nil => exact represents_terminator
  | cons h _ ih =>
    cases i with
    | zero => exact h.1
    | succ i => exact ih i

variable [Inhabited V]

theorem run_append_singleton (ops : List (Nat × Op K V)) (op : Nat × Op K V) :
    run key (ops ++ [op]) = run key ops ++
      [op.2.apply key (((run key ops).map Prod.fst).getD op.1 terminator)] := by
  rw [run, List.foldl_append]
  rfl

/-- Every version a run of operations makes is balanced and ordered, has the contents of the finite
map made by the same operations and answers as it does, and gave out the same values; and further
operations leave every version as it is. -/
theorem versions_represent [DecidableEq V] (ops : List (Nat × Op K V)) :
    List.Forall₂ (fun a b => (Represents key a.1 b.1 ∧ a.2 = b.2) ∧ Answers key a.1 b.1)
        (run key ops) (runMaps key ops) ∧
      ∀ more, run key ops <+: run key (ops ++ more) := by
  constructor
  · have hrun : List.Forall₂ (fun a b => Represents key a.1 b.1 ∧ a.2 = b.2)
        (run key ops) (runMaps key ops) := by
      induction ops using List.reverseRecOn with
      | nil => exact List.Forall₂.nil
      | append_singleton ops op ih =>
        rw [run, runMaps, List.foldl_append, List.foldl_append]
        exact List.rel_append ih (List.Forall₂.cons ((represents_getD ih op.1).apply op.2)
          List.Forall₂.nil)
    exact hrun.imp fun a b h => ⟨h, h.1.answers⟩
  · intro more
    induction more using List.reverseRecOn with
    | nil => rw [List.append_nil]
    | append_singleton more op ih =>
      rw [← List.append_assoc, run_append_singleton]
      exact ih.trans (List.prefix_append _ _)

end ImmutableTree

end Encider
