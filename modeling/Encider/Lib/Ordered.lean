import Mathlib

/-!
Maps and sets kept in the order of a comparison, which need not be an order on all keys. Two keys
neither of which comes before the other are taken for one.
-/

namespace Ordered

variable {α β : Type}

def Equivalent (lt : α → α → Bool) (a b : α) : Prop := lt a b = false ∧ lt b a = false

/-- A strict weak ordering of the keys in `S`. -/
structure StrictWeakOn (lt : α → α → Bool) (S : Set α) : Prop where
  irrefl : ∀ a ∈ S, lt a a = false
  asymm : ∀ a ∈ S, ∀ b ∈ S, lt a b = true → lt b a = false
  trans : ∀ a ∈ S, ∀ b ∈ S, ∀ c ∈ S, lt a b = true → lt b c = true → lt a c = true
  equiv_trans : ∀ a ∈ S, ∀ b ∈ S, ∀ c ∈ S, Equivalent lt a b → Equivalent lt b c → Equivalent lt a c

/-- Only equal keys are taken for one. -/
structure LinearOn (lt : α → α → Bool) (S : Set α) : Prop extends StrictWeakOn lt S where
  eq : ∀ a ∈ S, ∀ b ∈ S, Equivalent lt a b → a = b

/-- The entries of a map come in the order of their keys, which are in `S`. -/
structure SortedIn (lt : α → α → Bool) (S : Set α) (m : List (α × β)) : Prop where
  keys : ∀ p ∈ m, p.1 ∈ S
  sorted : m.Pairwise fun p q => lt p.1 q.1 = true

variable (lt : α → α → Bool)

def insert (k : α) (v : β) : List (α × β) → List (α × β)
  | [] => [(k, v)]
  | (k', v') :: m =>
    if lt k' k then (k', v') :: insert k v m
    else if lt k k' then (k, v) :: (k', v') :: m
    else (k', v) :: m

def erase (k : α) : List (α × β) → List (α × β)
  | [] => []
  | (k', v') :: m =>
    if lt k' k then (k', v') :: erase k m
    else if lt k k' then (k', v') :: m
    else m

def find? (k : α) : List (α × β) → Option β
  | [] => none
  | (k', v') :: m => if lt k' k then find? k m else if lt k k' then none else some v'

/-- Insertion into a set. -/
def add (a : α) : List α → List α
  | [] => [a]
  | b :: s => if lt b a then b :: add a s else if lt a b then a :: b :: s else b :: s

/-- The list under a key, which is empty for a key that is not there. -/
def get {γ : Type} (k : α) (m : List (α × List γ)) : List γ := (find? lt k m).getD []

variable {lt} {S : Set α} {k : α} {v : β} {m : List (α × β)}

theorem linearOn_lt {α : Type} [LinearOrder α] (S : Set α) :
    LinearOn (fun a b : α => decide (a < b)) S := by
  refine ⟨⟨?_, ?_, ?_, ?_⟩, ?_⟩
  · intro a _
    simp
  · intro a _ b _ h
    simpa using (of_decide_eq_true h).le
  · intro a _ b _ c _ h h'
    simpa using (of_decide_eq_true h).trans (of_decide_eq_true h')
  · intro a _ b _ c _ h h'
    simp only [Equivalent, decide_eq_false_iff_not, not_lt] at h h' ⊢
    exact ⟨h'.1.trans h.1, h.2.trans h'.2⟩
  · intro a _ b _ h
    simp only [Equivalent, decide_eq_false_iff_not, not_lt] at h
    exact le_antisymm h.2 h.1

theorem SortedIn.nil : SortedIn lt S ([] : List (α × β)) := ⟨by simp, List.Pairwise.nil⟩

theorem SortedIn.tail {p : α × β} (h : SortedIn lt S (p :: m)) : SortedIn lt S m :=
  ⟨fun q hq => h.keys q (List.mem_cons_of_mem p hq), h.sorted.of_cons⟩

theorem SortedIn.head {p : α × β} (h : SortedIn lt S (p :: m)) : p.1 ∈ S :=
  h.keys p List.mem_cons_self

/-- Every key behind the head comes after it. -/
theorem SortedIn.lt_of_mem {p q : α × β} (h : SortedIn lt S (p :: m)) (hq : q ∈ m) :
    lt p.1 q.1 = true :=
  List.rel_of_pairwise_cons h.sorted hq

/-- A key that comes before the head is not in the map. -/
theorem SortedIn.ne_of_lt (h : LinearOn lt S) {p q : α × β} (hm : SortedIn lt S (p :: m))
    (hk : k ∈ S) (hlt : lt k p.1 = true) (hq : q ∈ p :: m) : q.1 ≠ k := by
  intro heq
  have hirrefl := h.irrefl k hk
  rcases List.mem_cons.mp hq with rfl | hq
  · rw [heq, hirrefl] at hlt
    contradiction
  · have htrans := h.trans k hk _ hm.head _ (hm.keys q (List.mem_cons_of_mem p hq)) hlt
      (hm.lt_of_mem hq)
    rw [heq, hirrefl] at htrans
    contradiction

theorem mem_insert (h : LinearOn lt S) (hm : SortedIn lt S m) (hk : k ∈ S) (p : α × β) :
    p ∈ insert lt k v m ↔ p = (k, v) ∨ p ∈ m ∧ p.1 ≠ k := by
  induction m with
  | nil => simp [insert]
  | cons q m ih =>
    obtain ⟨k', v'⟩ := q
    have ih := ih hm.tail
    rw [insert]
    split
    · rename_i hlt
      have hne : k' ≠ k := by
        intro heq
        rw [heq, h.irrefl k hk] at hlt
        contradiction
      rw [List.mem_cons, ih, List.mem_cons]
      constructor
      · intro hp
        rcases hp with rfl | rfl | hp
        · exact .inr ⟨.inl rfl, hne⟩
        · exact .inl rfl
        · exact .inr ⟨.inr hp.1, hp.2⟩
      · intro hp
        rcases hp with rfl | ⟨rfl | hp, hpk⟩
        · exact .inr (.inl rfl)
        · exact .inl rfl
        · exact .inr (.inr ⟨hp, hpk⟩)
    · split
      · rename_i hlt
        have hne := fun q hq => hm.ne_of_lt (q := q) h hk hlt hq
        rw [List.mem_cons]
        exact or_congr_right ⟨fun hp => ⟨hp, hne p hp⟩, fun hp => hp.1⟩
      · rename_i hlt hlt'
        have heq : k' = k := h.eq _ hm.head _ hk ⟨by simpa using hlt, by simpa using hlt'⟩
        subst heq
        rw [List.mem_cons, List.mem_cons]
        constructor
        · intro hp
          rcases hp with hp | hp
          · exact .inl hp
          · refine .inr ⟨.inr hp, ?_⟩
            intro hpk
            have := hm.lt_of_mem hp
            rw [hpk, h.irrefl _ hk] at this
            contradiction
        · intro hp
          rcases hp with hp | ⟨rfl | hp, hpk⟩
          · exact .inl hp
          · exact absurd rfl hpk
          · exact .inr hp

theorem mem_erase (h : LinearOn lt S) (hm : SortedIn lt S m) (hk : k ∈ S) (p : α × β) :
    p ∈ erase lt k m ↔ p ∈ m ∧ p.1 ≠ k := by
  induction m with
  | nil => simp [erase]
  | cons q m ih =>
    obtain ⟨k', v'⟩ := q
    have ih := ih hm.tail
    rw [erase]
    split
    · rename_i hlt
      have hne : k' ≠ k := by
        intro heq
        rw [heq, h.irrefl k hk] at hlt
        contradiction
      rw [List.mem_cons, ih, List.mem_cons]
      constructor
      · intro hp
        rcases hp with rfl | hp
        · exact ⟨.inl rfl, hne⟩
        · exact ⟨.inr hp.1, hp.2⟩
      · intro hp
        rcases hp with ⟨rfl | hp, hpk⟩
        · exact .inl rfl
        · exact .inr ⟨hp, hpk⟩
    · split
      · rename_i hlt
        have hne := fun q hq => hm.ne_of_lt (q := q) h hk hlt hq
        exact ⟨fun hp => ⟨hp, hne p hp⟩, fun hp => hp.1⟩
      · rename_i hlt hlt'
        have heq : k' = k := h.eq _ hm.head _ hk ⟨by simpa using hlt, by simpa using hlt'⟩
        subst heq
        rw [List.mem_cons]
        constructor
        · intro hp
          refine ⟨.inr hp, ?_⟩
          intro hpk
          have := hm.lt_of_mem hp
          rw [hpk, h.irrefl _ hk] at this
          contradiction
        · intro hp
          rcases hp with ⟨rfl | hp, hpk⟩
          · exact absurd rfl hpk
          · exact hp

theorem find?_eq_some_iff (h : LinearOn lt S) (hm : SortedIn lt S m) (hk : k ∈ S) :
    find? lt k m = some v ↔ (k, v) ∈ m := by
  induction m with
  | nil => simp [find?]
  | cons q m ih =>
    obtain ⟨k', v'⟩ := q
    have ih := ih hm.tail
    rw [find?]
    split
    · rename_i hlt
      rw [ih, List.mem_cons]
      constructor
      · exact .inr
      · intro hp
        rcases hp with hp | hp
        · cases hp
          rw [h.irrefl k hk] at hlt
          contradiction
        · exact hp
    · split
      · rename_i hlt
        refine iff_of_false (by simp) ?_
        intro hp
        exact hm.ne_of_lt h hk hlt hp rfl
      · rename_i hlt hlt'
        have heq : k' = k := h.eq _ hm.head _ hk ⟨by simpa using hlt, by simpa using hlt'⟩
        subst heq
        rw [List.mem_cons, Option.some_inj, Prod.mk.injEq]
        constructor
        · intro hv
          exact .inl ⟨rfl, hv.symm⟩
        · intro hp
          rcases hp with hp | hp
          · exact hp.2.symm
          · have := hm.lt_of_mem hp
            rw [h.irrefl _ hk] at this
            contradiction

theorem SortedIn.insert (h : LinearOn lt S) (hm : SortedIn lt S m) (hk : k ∈ S) :
    SortedIn lt S (insert lt k v m) := by
  constructor
  · intro p hp
    rcases (mem_insert h hm hk p).mp hp with rfl | hp
    · exact hk
    · exact hm.keys p hp.1
  · induction m with
    | nil => exact List.pairwise_singleton _ _
    | cons q m ih =>
      obtain ⟨k', v'⟩ := q
      rw [Ordered.insert]
      split
      · rename_i hlt
        refine List.pairwise_cons.mpr ⟨?_, ih hm.tail⟩
        intro p hp
        rcases (mem_insert h hm.tail hk p).mp hp with rfl | hp
        · exact hlt
        · exact hm.lt_of_mem hp.1
      · split
        · rename_i hlt
          refine List.pairwise_cons.mpr ⟨?_, hm.sorted⟩
          intro p hp
          rcases List.mem_cons.mp hp with rfl | hp'
          · exact hlt
          · exact h.trans k hk _ hm.head _ (hm.keys p hp) hlt (hm.lt_of_mem hp')
        · exact List.pairwise_cons.mpr ⟨fun p hp => hm.lt_of_mem hp, hm.tail.sorted⟩

theorem SortedIn.erase (h : LinearOn lt S) (hm : SortedIn lt S m) (hk : k ∈ S) :
    SortedIn lt S (erase lt k m) := by
  constructor
  · intro p hp
    exact hm.keys p ((mem_erase h hm hk p).mp hp).1
  · induction m with
    | nil => exact List.Pairwise.nil
    | cons q m ih =>
      obtain ⟨k', v'⟩ := q
      rw [Ordered.erase]
      split
      · refine List.pairwise_cons.mpr ⟨?_, ih hm.tail⟩
        intro p hp
        exact hm.lt_of_mem ((mem_erase h hm.tail hk p).mp hp).1
      · split
        · exact hm.sorted
        · exact hm.tail.sorted

/-- No key has two entries. -/
theorem SortedIn.unique (h : LinearOn lt S) (hm : SortedIn lt S m) {w : β} (hv : (k, v) ∈ m)
    (hw : (k, w) ∈ m) : v = w := by
  have hk : k ∈ S := hm.keys _ hv
  have hfind := (find?_eq_some_iff h hm hk).mpr hv
  rw [(find?_eq_some_iff h hm hk).mpr hw] at hfind
  exact (Option.some.inj hfind).symm

theorem SortedIn.eq_of_key (h : LinearOn lt S) (hm : SortedIn lt S m) {p q : α × β} (hp : p ∈ m)
    (hq : q ∈ m) (heq : p.1 = q.1) : p = q := by
  obtain ⟨k, v⟩ := p
  obtain ⟨k', w⟩ := q
  cases heq
  rw [hm.unique h hp hq]

theorem find?_insert [DecidableEq α] (h : LinearOn lt S) (hm : SortedIn lt S m) (hk : k ∈ S) {l : α}
    (hl : l ∈ S) :
    find? lt l (Ordered.insert lt k v m) = if l = k then some v else find? lt l m := by
  ext w
  rw [find?_eq_some_iff h (hm.insert h hk) hl, mem_insert h hm hk]
  split
  · rename_i heq
    simp [heq, eq_comm]
  · rename_i hne
    rw [find?_eq_some_iff h hm hl]
    simp [hne]

theorem find?_erase [DecidableEq α] (h : LinearOn lt S) (hm : SortedIn lt S m) (hk : k ∈ S) {l : α}
    (hl : l ∈ S) :
    find? lt l (Ordered.erase lt k m) = if l = k then none else find? lt l m := by
  ext w
  rw [find?_eq_some_iff h (hm.erase h hk) hl, mem_erase h hm hk]
  split
  · rename_i heq
    simp [heq]
  · rename_i hne
    rw [find?_eq_some_iff h hm hl]
    simp [hne]

section

variable {γ : Type} {n : List (α × List γ)}

theorem get_insert [DecidableEq α] (h : LinearOn lt S) (hn : SortedIn lt S n) (hk : k ∈ S)
    {l : α} (hl : l ∈ S)
    (w : List γ) : get lt l (Ordered.insert lt k w n) = if l = k then w else get lt l n := by
  unfold get
  rw [find?_insert h hn hk hl]
  split
  · rfl
  · rfl

theorem get_erase [DecidableEq α] (h : LinearOn lt S) (hn : SortedIn lt S n) (hk : k ∈ S)
    {l : α} (hl : l ∈ S) :
    get lt l (Ordered.erase lt k n) = if l = k then [] else get lt l n := by
  unfold get
  rw [find?_erase h hn hk hl]
  split
  · rfl
  · rfl

theorem mem_get (h : LinearOn lt S) (hn : SortedIn lt S n) (hk : k ∈ S) (x : γ) :
    x ∈ get lt k n ↔ ∃ w, (k, w) ∈ n ∧ x ∈ w := by
  simp only [← find?_eq_some_iff h hn hk, get]
  cases hfind : find? lt k n with
  | none => simp
  | some w => simp

/-- The list under a key is an entry of the map, or empty. -/
theorem get_cases (h : LinearOn lt S) (hn : SortedIn lt S n) (hk : k ∈ S) :
    (k, get lt k n) ∈ n ∨ get lt k n = [] := by
  rw [← find?_eq_some_iff h hn hk, get]
  cases find? lt k n with
  | none => exact .inr rfl
  | some w => exact .inl rfl

end

/-- Entries with different keys, inserted one after the other: what the map has under one of the
keys is lost. -/
theorem insertAll_over (h : LinearOn lt S) {l : List (α × β)} (hm : SortedIn lt S m)
    (hl : ∀ p ∈ l, p.1 ∈ S) (hkeys : (l.map Prod.fst).Nodup) :
    SortedIn lt S (l.foldl (fun m p => Ordered.insert lt p.1 p.2 m) m) ∧
      ∀ q, q ∈ l.foldl (fun m p => Ordered.insert lt p.1 p.2 m) m ↔
        q ∈ l ∨ q ∈ m ∧ ∀ p ∈ l, p.1 ≠ q.1 := by
  induction l generalizing m with
  | nil => exact ⟨hm, fun q => by simp⟩
  | cons p l ih =>
    rw [List.map_cons, List.nodup_cons] at hkeys
    have hp := hl p List.mem_cons_self
    have hmem := mem_insert (v := p.2) h hm hp
    obtain ⟨hsorted, hall⟩ := ih (hm.insert (v := p.2) h hp)
      (fun q hq => hl q (List.mem_cons_of_mem p hq)) hkeys.2
    refine ⟨hsorted, ?_⟩
    intro q
    rw [List.foldl_cons, hall, hmem, List.mem_cons, List.forall_mem_cons]
    constructor
    · intro hq
      rcases hq with hq | ⟨rfl | ⟨hq, hne⟩, hnew⟩
      · exact .inl (.inr hq)
      · exact .inl (.inl rfl)
      · exact .inr ⟨hq, hne.symm, hnew⟩
    · intro hq
      rcases hq with (rfl | hq) | ⟨hq, hne, hnew⟩
      · refine .inr ⟨.inl rfl, ?_⟩
        intro q' hq' heq
        exact hkeys.1 (heq ▸ List.mem_map_of_mem hq')
      · exact .inl hq
      · exact .inr ⟨.inr ⟨hq, hne.symm⟩, hnew⟩

/-- Entries with keys of their own, inserted one after the other. -/
theorem insertAll (h : LinearOn lt S) {l : List (α × β)} (hm : SortedIn lt S m)
    (hl : ∀ p ∈ l, p.1 ∈ S) (hkeys : (l.map Prod.fst).Nodup)
    (hnew : ∀ p ∈ l, ∀ q ∈ m, p.1 ≠ q.1) :
    SortedIn lt S (l.foldl (fun m p => Ordered.insert lt p.1 p.2 m) m) ∧
      ∀ q, q ∈ l.foldl (fun m p => Ordered.insert lt p.1 p.2 m) m ↔ q ∈ l ∨ q ∈ m := by
  obtain ⟨hsorted, hall⟩ := insertAll_over h hm hl hkeys
  refine ⟨hsorted, ?_⟩
  intro q
  rw [hall]
  exact or_congr_right ⟨fun hq => hq.1, fun hq => ⟨hq, fun p hp => hnew p hp q hq⟩⟩

/-- Entries replaced one after the other, each by some entries whose keys no other entry has. -/
theorem replaceAll (h : LinearOn lt S) (pieces : α × β → List (α × β)) {l : List (α × β)}
    (hm : SortedIn lt S m) (hl : l.Nodup) (hmem : ∀ p ∈ l, p ∈ m)
    (hS : ∀ p ∈ l, ∀ q ∈ pieces p, q.1 ∈ S) (hkeys : ∀ p ∈ l, ((pieces p).map Prod.fst).Nodup)
    (hnew : ∀ p ∈ l, ∀ q ∈ pieces p, ∀ q' ∈ m, q' ≠ p → q.1 ≠ q'.1)
    (hapart : ∀ p ∈ l, ∀ p' ∈ l, p ≠ p' → ∀ q ∈ pieces p, ∀ q' ∈ pieces p', q.1 ≠ q'.1) :
    SortedIn lt S (l.foldl (fun m p =>
        (pieces p).foldl (fun m q => Ordered.insert lt q.1 q.2 m) (Ordered.erase lt p.1 m)) m) ∧
      ∀ q, q ∈ l.foldl (fun m p =>
        (pieces p).foldl (fun m q => Ordered.insert lt q.1 q.2 m) (Ordered.erase lt p.1 m)) m ↔
        q ∈ m ∧ q ∉ l ∨ ∃ p ∈ l, q ∈ pieces p := by
  induction l generalizing m with
  | nil => exact ⟨hm, fun q => by simp⟩
  | cons p l ih =>
    have hp := List.mem_cons_self (a := p) (l := l)
    have hpm := hmem p hp
    have hpS := hm.keys p hpm
    have hother : ∀ q ∈ m, q.1 = p.1 → q = p := fun q hq => hm.eq_of_key h hq hpm
    have herase := mem_erase h hm hpS
    obtain ⟨hsorted, hone⟩ := insertAll h (hm.erase h hpS) (hS p hp) (hkeys p hp) (by
      intro q hq q' hq'
      obtain ⟨hq', hne⟩ := (herase q').mp hq'
      exact hnew p hp q hq q' hq' fun heq => hne (heq ▸ rfl))
    have hnext : ∀ q, q ∈ (pieces p).foldl (fun m q => Ordered.insert lt q.1 q.2 m)
        (Ordered.erase lt p.1 m) ↔ q ∈ pieces p ∨ q ∈ m ∧ q ≠ p := by
      intro q
      rw [hone, herase]
      refine or_congr_right (and_congr_right fun hq => not_congr ?_)
      exact ⟨hother q hq, fun heq => heq ▸ rfl⟩
    obtain ⟨hpl, hl⟩ := List.nodup_cons.mp hl
    have hmore : ∀ q ∈ l, q ∈ p :: l := fun q hq => List.mem_cons_of_mem p hq
    obtain ⟨hsorted', hall⟩ := ih hsorted hl
      (fun q hq => (hnext q).mpr (.inr ⟨hmem q (hmore q hq), fun heq => hpl (heq ▸ hq)⟩))
      (fun q hq => hS q (hmore q hq)) (fun q hq => hkeys q (hmore q hq)) (by
        intro p' hp' q hq q' hq' hne
        rcases (hnext q').mp hq' with hq' | ⟨hq', _⟩
        · exact hapart p' (hmore p' hp') p hp (fun heq => hpl (heq ▸ hp')) q hq q' hq'
        · exact hnew p' (hmore p' hp') q hq q' hq' hne)
      (fun p1 h1 p2 h2 => hapart p1 (hmore p1 h1) p2 (hmore p2 h2))
    refine ⟨hsorted', ?_⟩
    intro q
    rw [List.foldl_cons, hall, hnext]
    constructor
    · intro hq
      rcases hq with ⟨hq | ⟨hq, hne⟩, hql⟩ | ⟨p', hp', hq⟩
      · exact .inr ⟨p, hp, hq⟩
      · exact .inl ⟨hq, by simp [hne, hql]⟩
      · exact .inr ⟨p', hmore p' hp', hq⟩
    · intro hq
      rcases hq with ⟨hq, hql⟩ | ⟨p', hp', hq⟩
      · rw [List.mem_cons, not_or] at hql
        obtain ⟨hne, hql⟩ := hql
        exact .inl ⟨.inr ⟨hq, hne⟩, hql⟩
      · rcases List.mem_cons.mp hp' with rfl | hp'
        · refine .inl ⟨.inl hq, fun hql => ?_⟩
          exact hnew p' hp q hq q (hmem q (hmore q hql)) (fun heq => hpl (heq ▸ hql)) rfl
        · exact .inr ⟨p', hp', hq⟩

section

variable {l : List (α × β)} {q : α × β}

theorem SortedIn.insertAll (h : LinearOn lt S) (hm : SortedIn lt S m) (hl : ∀ p ∈ l, p.1 ∈ S) :
    SortedIn lt S (l.foldl (fun m p => Ordered.insert lt p.1 p.2 m) m) := by
  induction l generalizing m with
  | nil => exact hm
  | cons p l ih =>
    exact ih (hm.insert h (hl p List.mem_cons_self)) fun q hq => hl q (List.mem_cons_of_mem p hq)

theorem mem_or_of_insertAll (h : LinearOn lt S) (hm : SortedIn lt S m) (hl : ∀ p ∈ l, p.1 ∈ S)
    (hq : q ∈ l.foldl (fun m p => Ordered.insert lt p.1 p.2 m) m) : q ∈ l ∨ q ∈ m := by
  induction l generalizing m with
  | nil => exact .inr hq
  | cons p l ih =>
    have hp := hl p List.mem_cons_self
    rcases ih (hm.insert h hp) (fun q hq => hl q (List.mem_cons_of_mem p hq)) hq with hq | hq
    · exact .inl (List.mem_cons_of_mem p hq)
    · rcases (mem_insert h hm hp q).mp hq with rfl | ⟨hq, _⟩
      · exact .inl List.mem_cons_self
      · exact .inr hq

theorem mem_insertAll_of_ne (h : LinearOn lt S) (hm : SortedIn lt S m) (hl : ∀ p ∈ l, p.1 ∈ S)
    (hne : ∀ p ∈ l, p.1 ≠ q.1) :
    q ∈ l.foldl (fun m p => Ordered.insert lt p.1 p.2 m) m ↔ q ∈ m := by
  induction l generalizing m with
  | nil => rfl
  | cons p l ih =>
    have hp := hl p List.mem_cons_self
    have hpq := hne p List.mem_cons_self
    rw [List.foldl_cons, ih (hm.insert h hp) (fun q hq => hl q (List.mem_cons_of_mem p hq))
      (fun q hq => hne q (List.mem_cons_of_mem p hq)), mem_insert h hm hp]
    constructor
    · intro hq
      rcases hq with rfl | hq
      · exact absurd rfl hpq
      · exact hq.1
    · intro hq
      exact .inr ⟨hq, hpq.symm⟩

/-- The last entry that is inserted under a key. -/
theorem mem_insertAll_last (h : LinearOn lt S) (hm : SortedIn lt S m) {l₁ l₂ : List (α × β)}
    (hl : ∀ p ∈ l₁ ++ q :: l₂, p.1 ∈ S) (hne : ∀ p ∈ l₂, p.1 ≠ q.1) :
    q ∈ (l₁ ++ q :: l₂).foldl (fun m p => Ordered.insert lt p.1 p.2 m) m := by
  have hq := hl q (List.mem_append_right l₁ List.mem_cons_self)
  have hbefore := hm.insertAll h fun p hp => hl p (List.mem_append_left (q :: l₂) hp)
  rw [List.foldl_append, List.foldl_cons, mem_insertAll_of_ne h (hbefore.insert h hq)
    (fun p hp => hl p (List.mem_append_right l₁ (List.mem_cons_of_mem q hp))) hne,
    mem_insert h hbefore hq]
  exact .inl rfl

/-- No key is lost. -/
theorem key_insertAll (h : LinearOn lt S) (hm : SortedIn lt S m) (hl : ∀ p ∈ l, p.1 ∈ S)
    (hk : (∃ p ∈ l, p.1 = k) ∨ ∃ p ∈ m, p.1 = k) :
    ∃ p ∈ l.foldl (fun m p => Ordered.insert lt p.1 p.2 m) m, p.1 = k := by
  induction l generalizing m with
  | nil => exact hk.resolve_left (by simp)
  | cons q l ih =>
    have hq := hl q List.mem_cons_self
    refine ih (hm.insert h hq) (fun p hp => hl p (List.mem_cons_of_mem q hp)) ?_
    have hmem := mem_insert (v := q.2) h hm hq
    rcases hk with ⟨p, hp, hpk⟩ | ⟨p, hp, hpk⟩
    · rcases List.mem_cons.mp hp with rfl | hp
      · exact .inr ⟨p, (hmem p).mpr (.inl rfl), hpk⟩
      · exact .inl ⟨p, hp, hpk⟩
    · by_cases heq : p.1 = q.1
      · exact .inr ⟨q, (hmem q).mpr (.inl rfl), heq.symm.trans hpk⟩
      · exact .inr ⟨p, (hmem p).mpr (.inr ⟨hp, heq⟩), hpk⟩

variable {pieces : α × β → List (α × β)}

theorem SortedIn.replaceAll (h : LinearOn lt S) (hm : SortedIn lt S m) (hl : ∀ p ∈ l, p.1 ∈ S)
    (hS : ∀ p ∈ l, ∀ q ∈ pieces p, q.1 ∈ S) : SortedIn lt S (l.foldl (fun m p =>
      (pieces p).foldl (fun m q => Ordered.insert lt q.1 q.2 m) (Ordered.erase lt p.1 m)) m) := by
  induction l generalizing m with
  | nil => exact hm
  | cons p l ih =>
    exact ih ((hm.erase h (hl p List.mem_cons_self)).insertAll h (hS p List.mem_cons_self))
      (fun q hq => hl q (List.mem_cons_of_mem p hq)) fun q hq => hS q (List.mem_cons_of_mem p hq)

/-- An entry of the result is an old one that was not erased, or was put in for an entry and not
erased later on. -/
theorem mem_or_of_replaceAll (h : LinearOn lt S) (hm : SortedIn lt S m) (hl : ∀ p ∈ l, p.1 ∈ S)
    (hS : ∀ p ∈ l, ∀ q ∈ pieces p, q.1 ∈ S) (hq : q ∈ l.foldl (fun m p =>
      (pieces p).foldl (fun m q => Ordered.insert lt q.1 q.2 m) (Ordered.erase lt p.1 m)) m) :
    (q ∈ m ∧ ∀ p ∈ l, p.1 ≠ q.1) ∨
      ∃ l₁ p l₂, l = l₁ ++ p :: l₂ ∧ q ∈ pieces p ∧ ∀ p' ∈ l₂, p'.1 ≠ q.1 := by
  induction l generalizing m with
  | nil => exact .inl ⟨hq, by simp⟩
  | cons p l ih =>
    have hp := hl p List.mem_cons_self
    have hpieces := hS p List.mem_cons_self
    have herase := hm.erase h hp
    rcases ih (herase.insertAll h hpieces) (fun q hq => hl q (List.mem_cons_of_mem p hq))
      (fun q hq => hS q (List.mem_cons_of_mem p hq)) hq with
      ⟨hq, hnot⟩ | ⟨l₁, p', l₂, rfl, hq, hnot⟩
    · rcases mem_or_of_insertAll h herase hpieces hq with hq | hq
      · exact .inr ⟨[], p, l, rfl, hq, hnot⟩
      · obtain ⟨hq, hne⟩ := (mem_erase h hm hp q).mp hq
        exact .inl ⟨hq, List.forall_mem_cons.mpr ⟨hne.symm, hnot⟩⟩
    · exact .inr ⟨p :: l₁, p', l₂, rfl, hq, hnot⟩

theorem mem_replaceAll_of_ne (h : LinearOn lt S) (hm : SortedIn lt S m) (hl : ∀ p ∈ l, p.1 ∈ S)
    (hS : ∀ p ∈ l, ∀ q ∈ pieces p, q.1 ∈ S) (hq : q ∈ m)
    (hne : ∀ p ∈ l, p.1 ≠ q.1 ∧ ∀ r ∈ pieces p, r.1 ≠ q.1) : q ∈ l.foldl (fun m p =>
      (pieces p).foldl (fun m q => Ordered.insert lt q.1 q.2 m) (Ordered.erase lt p.1 m)) m := by
  induction l generalizing m with
  | nil => exact hq
  | cons p l ih =>
    have hp := hl p List.mem_cons_self
    have hpieces := hS p List.mem_cons_self
    have herase := hm.erase h hp
    obtain ⟨hpq, hnot⟩ := hne p List.mem_cons_self
    refine ih (herase.insertAll h hpieces) (fun q hq => hl q (List.mem_cons_of_mem p hq))
      (fun q hq => hS q (List.mem_cons_of_mem p hq)) ?_
      fun q hq => hne q (List.mem_cons_of_mem p hq)
    exact (mem_insertAll_of_ne h herase hpieces hnot).mpr
      ((mem_erase h hm hp q).mpr ⟨hq, hpq.symm⟩)

/-- A key that is not erased stays. -/
theorem key_replaceAll (h : LinearOn lt S) (hm : SortedIn lt S m) (hl : ∀ p ∈ l, p.1 ∈ S)
    (hS : ∀ p ∈ l, ∀ q ∈ pieces p, q.1 ∈ S) (hk : ∃ q ∈ m, q.1 = k) (hne : ∀ p ∈ l, p.1 ≠ k) :
    ∃ q ∈ l.foldl (fun m p => (pieces p).foldl (fun m q => Ordered.insert lt q.1 q.2 m)
      (Ordered.erase lt p.1 m)) m, q.1 = k := by
  induction l generalizing m with
  | nil => exact hk
  | cons p l ih =>
    have hp := hl p List.mem_cons_self
    have hpieces := hS p List.mem_cons_self
    have herase := hm.erase h hp
    refine ih (herase.insertAll h hpieces) (fun q hq => hl q (List.mem_cons_of_mem p hq))
      (fun q hq => hS q (List.mem_cons_of_mem p hq)) ?_
      fun q hq => hne q (List.mem_cons_of_mem p hq)
    obtain ⟨q, hq, rfl⟩ := hk
    exact key_insertAll h herase hpieces
      (.inr ⟨q, (mem_erase h hm hp q).mpr ⟨hq, (hne p List.mem_cons_self).symm⟩, rfl⟩)

end

/-- A set gains nothing but the new element, and loses none. -/
theorem mem_add {a : α} {s : List α} (hs : ∀ b ∈ s, Equivalent lt b a → b = a) (b : α) :
    b ∈ add lt a s ↔ b = a ∨ b ∈ s := by
  induction s with
  | nil => simp [add]
  | cons c s ih =>
    have ih := ih fun b hb => hs b (List.mem_cons_of_mem c hb)
    rw [add]
    split
    · rw [List.mem_cons, ih, List.mem_cons]
      exact or_left_comm
    · split
      · exact List.mem_cons
      · rename_i hlt hlt'
        have heq : c = a := hs c List.mem_cons_self ⟨by simpa using hlt, by simpa using hlt'⟩
        subst heq
        rw [List.mem_cons]
        exact ⟨.inr, fun hb => hb.elim .inl id⟩

/-- The elements of a list, added one after the other. -/
theorem mem_addAll (h : ∀ a b, Equivalent lt a b → a = b) (xs s : List α) (x : α) :
    x ∈ xs.foldl (fun s y => add lt y s) s ↔ x ∈ xs ∨ x ∈ s := by
  induction xs generalizing s with
  | nil => simp
  | cons y xs ih =>
    rw [List.foldl_cons, ih, mem_add (fun b _ => h b y), List.mem_cons]
    tauto

end Ordered
