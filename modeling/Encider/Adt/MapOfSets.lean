import Mathlib

/-! `MapOfSets`: a map from sets to values, in a tree whose paths are the sorted elements of the
sets. -/

namespace Encider

mutual
/-- A node with the value of the set that ends there. -/
inductive MapOfSets (K V : Type) where
  | node (value : Option V) (children : Children K V)

/-- The children of a node, by their labels in order. -/
inductive Children (K V : Type) where
  | nil
  | cons (label : K) (child : MapOfSets K V) (rest : Children K V)
end

variable {K V : Type} [LinearOrder K]

namespace Children

def labels : Children K V → List K
  | nil => []
  | cons k _ rest => k :: rest.labels

def find (q : K) : Children K V → Option (MapOfSets K V)
  | nil => none
  | cons k n rest => if k = q then some n else rest.find q

/-- `insert(q, Node())` and a change of the child that is then at `q`. -/
def alter (q : K) (f : MapOfSets K V → MapOfSets K V) : Children K V → Children K V
  | nil => cons q (f (.node none nil)) nil
  | cons k n rest =>
    if q < k then cons q (f (.node none nil)) (cons k n rest)
    else if k < q then cons k n (rest.alter q f)
    else cons k (f n) rest

end Children

namespace MapOfSets

def empty : MapOfSets K V := node none .nil

/-- `insert`, of the elements of a set in order. -/
def insertPath (v : V) : List K → MapOfSets K V → MapOfSets K V
  | [], node _ children => node (some v) children
  | k :: ks, node value children => node value (children.alter k (insertPath v ks))

def lookupPath : List K → MapOfSets K V → Option V
  | [], node value _ => value
  | k :: ks, node _ children => (children.find k).bind (lookupPath ks)

end MapOfSets

mutual
/-- `findSubset` of the elements of a set in order. -/
def MapOfSets.findSubsetPath (p : V → Bool) : MapOfSets K V → List K → Option V
  | .node value children, qs => (value.filter p).or (children.findSubset p qs)

/-- The loop over the children, from the first that is not below the first element: elements
below the label of a child are passed over, and children below the first element. -/
def Children.findSubset (p : V → Bool) : Children K V → List K → Option V
  | .nil, _ => none
  | .cons k n rest, qs =>
    match qs.dropWhile (· < k) with
    | [] => none
    | q :: qs =>
      if q = k then
        (n.findSubsetPath p qs).or (if qs = [] then none else rest.findSubset p qs)
      else rest.findSubset p (q :: qs)
end

mutual
/-- `findSuperset` of the elements of a set in order. -/
def MapOfSets.findSupersetPath (p : V → Bool) : MapOfSets K V → List K → Option V
  | .node value children, [] => (value.filter p).or (children.findSuperset p [])
  | .node _ children, q :: qs =>
    (children.findSuperset p (q :: qs)).or (children.findSupersetAt p q qs)

/-- The first that the search of the children, one after another, finds. -/
def Children.findSuperset (p : V → Bool) : Children K V → List K → Option V
  | .nil, _ => none
  | .cons _ n rest, qs => (n.findSupersetPath p qs).or (rest.findSuperset p qs)

/-- The search of the child at `q`, which is the first that is not below `q`. -/
def Children.findSupersetAt (p : V → Bool) (q : K) : Children K V → List K → Option V
  | .nil, _ => none
  | .cons k n rest, qs =>
    if k < q then rest.findSupersetAt p q qs
    else if q = k then n.findSupersetPath p qs
    else none
end

namespace MapOfSets

def insert (m : MapOfSets K V) (s : Finset K) (v : V) : MapOfSets K V :=
  m.insertPath v (s.sort (· ≤ ·))

def lookup (m : MapOfSets K V) (s : Finset K) : Option V := m.lookupPath (s.sort (· ≤ ·))

def findSubset (m : MapOfSets K V) (s : Finset K) (p : V → Bool) : Option V :=
  m.findSubsetPath p (s.sort (· ≤ ·))

def findSuperset (m : MapOfSets K V) (s : Finset K) (p : V → Bool) : Option V :=
  m.findSupersetPath p (s.sort (· ≤ ·))

end MapOfSets

mutual
/-- The labels of the children of every node are in order. -/
def MapOfSets.Ordered : MapOfSets K V → Prop
  | .node _ children => children.Ordered

def Children.Ordered : Children K V → Prop
  | .nil => True
  | .cons k n rest => n.Ordered ∧ (∀ l ∈ rest.labels, k < l) ∧ rest.Ordered
end

/-- What a search may give: a value with the property, and nothing only if there is none. -/
def Picks (r : Option V) (P : V → Prop) : Prop := (∀ v, r = some v → P v) ∧ (r = none → ∀ v, ¬ P v)

section
variable {ch : Children K V} {k q : K}

namespace Children

theorem mem_labels_of_find {n : MapOfSets K V} (h : ch.find q = some n) : q ∈ ch.labels := by
  induction ch using Children.rec (motive_1 := fun _ => True) with
  | nil => cases h
  | cons k n rest _ ih =>
    rw [find] at h
    split at h
    · rename_i hk
      exact hk ▸ List.mem_cons_self
    · exact List.mem_cons_of_mem k (ih h)
  | node => trivial

theorem find_none (h : q ∉ ch.labels) : ch.find q = none := by
  cases hf : ch.find q with
  | none => rfl
  | some n => exact absurd (mem_labels_of_find hf) h

theorem mem_labels_alter {f : MapOfSets K V → MapOfSets K V} {l : K} :
    l ∈ (ch.alter q f).labels ↔ l = q ∨ l ∈ ch.labels := by
  induction ch using Children.rec (motive_1 := fun _ => True) with
  | nil => simp [alter, labels]
  | cons k n rest _ ih =>
    rw [alter]
    split
    · simp [labels]
    · split
      · simp only [labels, List.mem_cons, ih]
        exact or_left_comm
      · have hk : k = q := by order
        simp [labels, hk]
  | node => trivial

theorem Ordered.alter (h : ch.Ordered) {f : MapOfSets K V → MapOfSets K V}
    (hf : ∀ n, n.Ordered → (f n).Ordered) : (ch.alter q f).Ordered := by
  have hnew : (f (.node none .nil)).Ordered := hf _ trivial
  induction ch using Children.rec (motive_1 := fun _ => True) with
  | nil => exact ⟨hnew, nofun, trivial⟩
  | cons k n rest _ ih =>
    have ⟨hn, hlt, hrest⟩ := h
    rw [Children.alter]
    split
    · rename_i hq
      refine ⟨hnew, ?_, h⟩
      intro l hl
      rcases List.mem_cons.mp hl with rfl | hl
      · exact hq
      · exact hq.trans (hlt l hl)
    · split
      · rename_i hk
        refine ⟨hn, ?_, ih hrest⟩
        intro l hl
        rcases mem_labels_alter.mp hl with rfl | hl
        · exact hk
        · exact hlt l hl
      · exact ⟨hf n hn, hlt, hrest⟩
  | node => trivial

theorem ordered_getD (h : ch.Ordered) (l : K) : ((ch.find l).getD (.node none .nil)).Ordered := by
  induction ch using Children.rec (motive_1 := fun _ => True) with
  | nil => trivial
  | cons k n rest _ ih =>
    rw [find]
    split
    · exact h.1
    · exact ih h.2.2
  | node => trivial

/-- The changed child is the one that was there, or else a new one. -/
theorem find_alter (h : ch.Ordered) (f : MapOfSets K V → MapOfSets K V) (l : K) :
    (ch.alter q f).find l =
      if l = q then some (f ((ch.find q).getD (.node none .nil))) else ch.find l := by
  induction ch using Children.rec (motive_1 := fun _ => True) with
  | nil =>
    rw [alter, find]
    by_cases hl : l = q
    · simp [hl, find]
    · simp [hl, Ne.symm hl, find]
  | cons k n rest _ ih =>
    obtain ⟨-, hlt, hrest⟩ := h
    rw [alter]
    split
    · rename_i hq
      have hnone : (cons k n rest).find q = none := by
        apply find_none
        intro hmem
        rcases List.mem_cons.mp hmem with rfl | hmem
        · exact lt_irrefl _ hq
        · exact lt_asymm hq (hlt q hmem)
      rw [hnone, find]
      by_cases hl : l = q
      · simp [hl]
      · simp [hl, Ne.symm hl]
    · split
      · rename_i hk
        rw [find, ih hrest, find, find, if_neg hk.ne]
        by_cases hl : k = l
        · rw [if_pos hl, if_pos hl, if_neg (hl ▸ hk.ne)]
        · rw [if_neg hl, if_neg hl]
      · have hk : k = q := by order
        subst hk
        rw [find, find, find, if_pos rfl]
        by_cases hl : k = l
        · simp [hl]
        · simp [hl, Ne.symm hl]
  | node => trivial

end Children

namespace MapOfSets

theorem Ordered.insertPath {m : MapOfSets K V} (h : m.Ordered) (v : V) (s : List K) :
    (m.insertPath v s).Ordered := by
  induction s generalizing m with
  | nil =>
    cases m
    exact h
  | cons k s ih =>
    cases m
    exact Children.Ordered.alter h fun n hn => ih hn

theorem lookup_empty (s : List K) : (empty : MapOfSets K V).lookupPath s = none := by
  cases s <;> rfl

/-- After an insertion a path has the value, and every other path what it had. -/
theorem lookup_insertPath {m : MapOfSets K V} (h : m.Ordered) (v : V) (s t : List K) :
    (m.insertPath v s).lookupPath t = if t = s then some v else m.lookupPath t := by
  induction s generalizing m t with
  | nil =>
    cases m
    cases t with
    | nil => rfl
    | cons l t => rfl
  | cons k s ih =>
    cases m with
    | node value ch =>
      cases t with
      | nil => rfl
      | cons l t =>
        rw [insertPath, lookupPath, Children.find_alter h, lookupPath]
        by_cases hl : l = k
        · subst hl
          have hchild : ((ch.find l).getD (.node none .nil)).Ordered :=
            Children.ordered_getD h l
          rw [if_pos rfl, Option.bind_some, ih hchild]
          by_cases ht : t = s
          · simp [ht]
          · rw [if_neg ht, if_neg (by simp [ht])]
            cases hf : ch.find l with
            | none => exact lookup_empty t
            | some n => rfl
        · rw [if_neg hl, if_neg (by simp [hl])]

end MapOfSets

end

section
variable {P Q R : V → Prop} {r r' : Option V} {p : V → Bool}

theorem Picks.congr (h : Picks r P) (hPQ : ∀ v, P v ↔ Q v) : Picks r Q :=
  ⟨fun v hv => (hPQ v).mp (h.1 v hv), fun hn v hv => h.2 hn v ((hPQ v).mpr hv)⟩

theorem Picks.none (h : ∀ v, ¬ P v) : Picks none P := ⟨nofun, fun _ => h⟩

theorem Picks.or (h : Picks r P) (h' : Picks r' Q) (hR : ∀ v, R v ↔ P v ∨ Q v) :
    Picks (r.or r') R := by
  cases r with
  | none => exact h'.congr fun v => (iff_or_self.mpr fun hP => (h.2 rfl v hP).elim).trans (hR v).symm
  | some v => exact ⟨fun w hw => (hR w).mpr (.inl (h.1 w hw)), nofun⟩

theorem Picks.filter (value : Option V) : Picks (value.filter p) fun v => p v ∧ value = some v := by
  cases value with
  | none => exact .none (by simp)
  | some w =>
    rw [Option.filter_some]
    split
    · exact ⟨by grind, nofun⟩
    · exact .none (by grind)

theorem Picks.isSome_iff (h : Picks r P) : r.isSome ↔ ∃ v, P v := by
  cases r with
  | none => simpa using h.2 rfl
  | some v => simpa using ⟨v, h.1 v rfl⟩

theorem List.cons_sublist_dropWhile {α : Type} {f : α → Bool} {x : α} (hx : f x = false)
    {s qs : List α} (h : (x :: s).Sublist qs) : (x :: s).Sublist (qs.dropWhile f) := by
  induction qs with
  | nil => exact h
  | cons q qs ih =>
    rw [List.dropWhile_cons]
    split
    · rename_i hq
      apply ih
      rcases List.cons_sublist_cons'.mp h with h | ⟨rfl, -⟩
      · exact h
      · rw [hx] at hq
        cases hq
    · exact h

end

/-- Below the child at a label a path has a value. -/
def Children.Holds (ch : Children K V) (l : K) (s : List K) (v : V) : Prop :=
  ∃ n, ch.find l = some n ∧ n.lookupPath s = some v

section
variable {p : V → Bool} {qs : List K} {ch : Children K V} {n : MapOfSets K V} {k l : K} {s : List K}
  {v : V}

theorem Children.holds_cons (hlt : ∀ l ∈ ch.labels, k < l) : (Children.cons k n ch).Holds l s v ↔
    (l = k ∧ n.lookupPath s = some v) ∨ (k < l ∧ ch.Holds l s v) := by
  unfold Children.Holds
  rw [Children.find]
  by_cases hl : k = l
  · subst hl
    simp
  · rw [if_neg hl]
    constructor
    · intro ⟨m, hm, hs⟩
      exact .inr ⟨hlt l (Children.mem_labels_of_find hm), m, hm, hs⟩
    · intro h
      rcases h with ⟨rfl, -⟩ | ⟨-, h⟩
      · exact absurd rfl hl
      · exact h

theorem MapOfSets.lookup_cons (value : Option V) :
    (MapOfSets.node value ch).lookupPath (l :: s) = some v ↔ ch.Holds l s v := by
  rw [lookupPath, Option.bind_eq_some_iff, Children.Holds]

/-- The elements that are passed over are not in the paths from a label on. -/
theorem sublist_passed (h : ¬ l < k) :
    (l :: s).Sublist qs ↔ (l :: s).Sublist (qs.dropWhile (· < k)) :=
  ⟨fun hs => List.cons_sublist_dropWhile (f := fun x => decide (x < k)) (decide_eq_false h) hs,
    fun hs => hs.trans (List.dropWhile_sublist _)⟩

theorem Children.findSubset_step
    (hn : ∀ qs, qs.Pairwise (· < ·) → Picks (n.findSubsetPath p qs) fun v =>
      p v ∧ ∃ s, s.Sublist qs ∧ n.lookupPath s = some v)
    (hlt : ∀ l ∈ ch.labels, k < l)
    (hch : ∀ qs, qs.Pairwise (· < ·) → Picks (ch.findSubset p qs) fun v =>
      p v ∧ ∃ l s, (l :: s).Sublist qs ∧ ch.Holds l s v)
    (hqs : qs.Pairwise (· < ·)) : Picks ((Children.cons k n ch).findSubset p qs) fun v =>
      p v ∧ ∃ l s, (l :: s).Sublist qs ∧ (Children.cons k n ch).Holds l s v := by
  have hpassed : ∀ v, (p v ∧ ∃ l s, (l :: s).Sublist qs ∧ (Children.cons k n ch).Holds l s v) ↔
      p v ∧ ((∃ s, (k :: s).Sublist (qs.dropWhile (· < k)) ∧ n.lookupPath s = some v) ∨
        ∃ l s, k < l ∧ (l :: s).Sublist (qs.dropWhile (· < k)) ∧ ch.Holds l s v) := by
    intro v
    refine and_congr_right fun _ => ⟨?_, ?_⟩
    · intro ⟨l, s, hsub, hh⟩
      rcases (holds_cons hlt).mp hh with ⟨rfl, hs⟩ | ⟨hl, hh⟩
      · exact .inl ⟨s, (sublist_passed (lt_irrefl l)).mp hsub, hs⟩
      · exact .inr ⟨l, s, hl, (sublist_passed hl.not_gt).mp hsub, hh⟩
    · intro h
      rcases h with ⟨s, hsub, hs⟩ | ⟨l, s, hl, hsub, hh⟩
      · exact ⟨k, s, (sublist_passed (lt_irrefl k)).mpr hsub, (holds_cons hlt).mpr (.inl ⟨rfl, hs⟩)⟩
      · exact ⟨l, s, (sublist_passed hl.not_gt).mpr hsub, (holds_cons hlt).mpr (.inr ⟨hl, hh⟩)⟩
  refine Picks.congr ?_ fun v => (hpassed v).symm
  have hsorted : (qs.dropWhile (· < k)).Pairwise (· < ·) :=
    hqs.sublist (List.dropWhile_sublist _)
  unfold Children.findSubset
  have hhead := List.head?_dropWhile_not (fun x => decide (x < k)) qs
  generalize qs.dropWhile (· < k) = ds at hsorted hhead ⊢
  cases ds with
  | nil => exact .none (by simp)
  | cons q ds =>
    have hq : ¬ q < k := by simpa using hhead
    obtain ⟨hall, hds⟩ := List.pairwise_cons.mp hsorted
    dsimp only
    split
    · rename_i heq
      subst heq
      refine Picks.or (hn ds hds) (Q := fun v => p v ∧ ∃ l s, (l :: s).Sublist ds ∧ ch.Holds l s v)
        ?_ ?_
      · split
        · rename_i hnil
          subst hnil
          exact .none (by simp)
        · exact hch ds hds
      · intro v
        rw [← and_or_left]
        refine and_congr_right fun _ => or_congr ?_ ?_
        · simp only [List.cons_sublist_cons]
        · constructor
          · intro ⟨l, s, hl, hsub, hh⟩
            refine ⟨l, s, ?_, hh⟩
            exact (List.cons_sublist_cons'.mp hsub).resolve_right fun h => hl.ne' h.1
          · intro ⟨l, s, hsub, hh⟩
            exact ⟨l, s, hall l (hsub.subset List.mem_cons_self), hsub.cons _, hh⟩
    · rename_i hne
      have hlt : k < q := by order
      refine (hch _ hsorted).congr fun v => and_congr_right fun _ => ⟨?_, ?_⟩
      · intro ⟨l, s, hsub, hh⟩
        refine .inr ⟨l, s, ?_, hsub, hh⟩
        rcases List.mem_cons.mp (hsub.subset List.mem_cons_self) with rfl | hl
        · exact hlt
        · exact hlt.trans (hall l hl)
      · intro h
        rcases h with ⟨s, hsub, -⟩ | ⟨l, s, -, hsub, hh⟩
        · rcases List.mem_cons.mp (hsub.subset List.mem_cons_self) with rfl | hk
          · exact absurd hlt (lt_irrefl _)
          · exact absurd (hlt.trans (hall k hk)) (lt_irrefl _)
        · exact ⟨l, s, hsub, hh⟩

/-- A search for a subset finds one with the property, if there is one. -/
theorem MapOfSets.findSubsetPath_picks (p : V → Bool) (m : MapOfSets K V) (hm : m.Ordered) :
    ∀ qs, qs.Pairwise (· < ·) → Picks (m.findSubsetPath p qs) fun v =>
      p v ∧ ∃ s, s.Sublist qs ∧ m.lookupPath s = some v := by
  induction m using MapOfSets.rec (motive_2 := fun ch => ch.Ordered → ∀ qs : List K,
    qs.Pairwise (· < ·) → Picks (ch.findSubset p qs) fun v => p v ∧ ∃ l s, (l :: s).Sublist qs ∧ ch.Holds l s v) with
  | node value ch ih =>
    intro qs hqs
    unfold findSubsetPath
    refine (Picks.filter value).or (ih hm qs hqs) fun v => ?_
    rw [← and_or_left]
    refine and_congr_right fun _ => ⟨?_, ?_⟩
    · intro ⟨s, hsub, hs⟩
      cases s with
      | nil => exact .inl hs
      | cons l s => exact .inr ⟨l, s, hsub, (lookup_cons value).mp hs⟩
    · intro h
      rcases h with hs | ⟨l, s, hsub, hh⟩
      · exact ⟨[], List.nil_sublist qs, hs⟩
      · exact ⟨l :: s, hsub, (lookup_cons value).mpr hh⟩
  | nil =>
    refine .none ?_
    intro v ⟨_, _, _, _, _, hn, _⟩
    cases hn
  | cons k n rest ihn ihrest =>
    rename_i hch qs hqs
    exact Children.findSubset_step (ihn hch.1) hch.2.1 (ihrest hch.2.2) hqs

theorem Children.findSuperset_step
    (hn : Picks (n.findSupersetPath p qs) fun v => p v ∧ ∃ s, qs.Sublist s ∧ n.lookupPath s = some v)
    (hlt : ∀ l ∈ ch.labels, k < l)
    (hch : Picks (ch.findSuperset p qs) fun v => p v ∧ ∃ l s, qs.Sublist s ∧ ch.Holds l s v) :
    Picks ((Children.cons k n ch).findSuperset p qs) fun v =>
      p v ∧ ∃ l s, qs.Sublist s ∧ (Children.cons k n ch).Holds l s v := by
  unfold Children.findSuperset
  refine hn.or hch fun v => ?_
  rw [← and_or_left]
  refine and_congr_right fun _ => ⟨?_, ?_⟩
  · intro ⟨l, s, hsub, hh⟩
    rcases (holds_cons hlt).mp hh with ⟨rfl, hs⟩ | ⟨-, hh⟩
    · exact .inl ⟨s, hsub, hs⟩
    · exact .inr ⟨l, s, hsub, hh⟩
  · intro h
    rcases h with ⟨s, hsub, hs⟩ | ⟨l, s, hsub, hh⟩
    · exact ⟨k, s, hsub, (holds_cons hlt).mpr (.inl ⟨rfl, hs⟩)⟩
    · obtain ⟨m, hm, hs⟩ := hh
      have hl := hlt l (mem_labels_of_find hm)
      exact ⟨l, s, hsub, (holds_cons hlt).mpr (.inr ⟨hl, m, hm, hs⟩)⟩

theorem Children.findSupersetAt_step {q : K}
    (hn : Picks (n.findSupersetPath p qs) fun v => p v ∧ ∃ s, qs.Sublist s ∧ n.lookupPath s = some v)
    (hlt : ∀ l ∈ ch.labels, k < l)
    (hch : Picks (ch.findSupersetAt p q qs) fun v => p v ∧ ∃ s, qs.Sublist s ∧ ch.Holds q s v) :
    Picks ((Children.cons k n ch).findSupersetAt p q qs) fun v =>
      p v ∧ ∃ s, qs.Sublist s ∧ (Children.cons k n ch).Holds q s v := by
  unfold Children.findSupersetAt
  simp only [holds_cons hlt]
  split
  · rename_i hk
    refine hch.congr fun v => and_congr_right fun _ => exists_congr fun s => and_congr_right fun _ => ?_
    simp [hk, hk.ne']
  · split
    · rename_i hq
      subst hq
      refine hn.congr fun v => and_congr_right fun _ => exists_congr fun s =>
        and_congr_right fun _ => ?_
      simp
    · rename_i hk hq
      refine .none fun v h => ?_
      obtain ⟨-, s, -, ⟨rfl, -⟩ | ⟨hlt, -⟩⟩ := h
      · exact hq rfl
      · exact hk hlt

omit [LinearOrder K] in
/-- A path with an element more than another goes through that element or past it. -/
theorem cons_sublist_cons_iff {q : K} :
    (q :: qs).Sublist (l :: s) ↔ (q :: qs).Sublist s ∨ (q = l ∧ qs.Sublist s) :=
  List.cons_sublist_cons'

/-- A search for a superset finds one with the property, if there is one. -/
theorem MapOfSets.findSupersetPath_picks (p : V → Bool) (m : MapOfSets K V) (hm : m.Ordered) :
    ∀ qs, Picks (m.findSupersetPath p qs) fun v =>
      p v ∧ ∃ s, qs.Sublist s ∧ m.lookupPath s = some v := by
  induction m using MapOfSets.rec (motive_2 := fun ch => ch.Ordered → ∀ qs : List K,
    (Picks (ch.findSuperset p qs) fun v => p v ∧ ∃ l s, qs.Sublist s ∧ ch.Holds l s v) ∧
      ∀ q, Picks (ch.findSupersetAt p q qs) fun v => p v ∧ ∃ s, qs.Sublist s ∧ ch.Holds q s v) with
  | node value ch ih =>
    intro qs
    unfold findSupersetPath
    cases qs with
    | nil =>
      refine (Picks.filter value).or (ih hm []).1 fun v => ?_
      rw [← and_or_left]
      refine and_congr_right fun _ => ⟨?_, ?_⟩
      · intro ⟨s, hsub, hs⟩
        cases s with
        | nil => exact .inl hs
        | cons l s => exact .inr ⟨l, s, List.nil_sublist s, (lookup_cons value).mp hs⟩
      · intro h
        rcases h with hs | ⟨l, s, -, hh⟩
        · exact ⟨[], List.nil_sublist [], hs⟩
        · exact ⟨l :: s, List.nil_sublist _, (lookup_cons value).mpr hh⟩
    | cons q qs =>
      refine (ih hm (q :: qs)).1.or ((ih hm qs).2 q) fun v => ?_
      rw [← and_or_left]
      refine and_congr_right fun _ => ⟨?_, ?_⟩
      · intro ⟨s, hsub, hs⟩
        cases s with
        | nil => cases hsub
        | cons l s =>
          have hh := (lookup_cons value).mp hs
          rcases cons_sublist_cons_iff.mp hsub with hpast | ⟨rfl, hthrough⟩
          · exact .inl ⟨l, s, hpast, hh⟩
          · exact .inr ⟨s, hthrough, hh⟩
      · intro h
        rcases h with ⟨l, s, hsub, hh⟩ | ⟨s, hsub, hh⟩
        · exact ⟨l :: s, hsub.cons l, (lookup_cons value).mpr hh⟩
        · exact ⟨q :: s, hsub.cons_cons q, (lookup_cons value).mpr hh⟩
  | nil =>
    refine ⟨.none ?_, fun q => .none ?_⟩
    · intro v ⟨_, _, _, _, _, hn, _⟩
      cases hn
    · intro v ⟨_, _, _, _, hn, _⟩
      cases hn
  | cons k n rest ihn ihrest =>
    rename_i hch qs
    have hrest := ihrest hch.2.2 qs
    exact ⟨Children.findSuperset_step (ihn hch.1 qs) hch.2.1 hrest.1,
      fun q => Children.findSupersetAt_step (ihn hch.1 qs) hch.2.1 (hrest.2 q)⟩

end

namespace MapOfSets

/-- The map after the sets are inserted one after another. -/
def inserted (l : List (Finset K × V)) : MapOfSets K V := l.foldl (fun m i => m.insert i.1 i.2) empty

/-- The value last inserted for a set. -/
def lastInserted (l : List (Finset K × V)) (s : Finset K) : Option V :=
  (l.reverse.find? fun i => i.1 = s).map Prod.snd

theorem sort_injective {s t : Finset K} (h : s.sort (· ≤ ·) = t.sort (· ≤ ·)) : s = t := by
  rw [← Finset.sort_toFinset s (· ≤ ·), h, Finset.sort_toFinset]

theorem inserted_ordered (l : List (Finset K × V)) : (inserted l).Ordered := by
  induction l using List.reverseRecOn with
  | nil => trivial
  | append_singleton l i ih =>
    rw [inserted, List.foldl_append]
    exact ih.insertPath i.2 _

theorem lookup_inserted (l : List (Finset K × V)) (s : Finset K) :
    (inserted l).lookup s = lastInserted l s := by
  induction l using List.reverseRecOn with
  | nil => exact lookup_empty _
  | append_singleton l i ih =>
    have hstep : inserted (l ++ [i]) = (inserted l).insert i.1 i.2 := by
      rw [inserted, List.foldl_append]
      rfl
    rw [hstep, lookup, insert, lookup_insertPath (inserted_ordered l), lastInserted,
      List.reverse_append]
    by_cases hs : i.1 = s
    · subst hs
      simp
    · rw [if_neg fun h => hs (sort_injective h).symm]
      refine ih.trans ?_
      simp [lastInserted, hs]

/-- The paths of a tree that sets were inserted into are the elements of sets. -/
theorem path_inserted {l : List (Finset K × V)} {path : List K} {v : V}
    (h : (inserted l).lookupPath path = some v) : ∃ s : Finset K, s.sort (· ≤ ·) = path := by
  induction l using List.reverseRecOn with
  | nil =>
    rw [inserted, List.foldl_nil, lookup_empty] at h
    cases h
  | append_singleton l i ih =>
    rw [inserted, List.foldl_append] at h
    have hstep := lookup_insertPath (inserted_ordered l) i.2 (i.1.sort (· ≤ ·)) path
    by_cases hp : path = i.1.sort (· ≤ ·)
    · exact ⟨i.1, hp.symm⟩
    · rw [if_neg hp] at hstep
      exact ih (hstep.symm.trans h)

theorem sort_sublist_iff {s t : Finset K} :
    (s.sort (· ≤ ·)).Sublist (t.sort (· ≤ ·)) ↔ s ⊆ t := by
  constructor
  · intro h x hx
    exact (Finset.mem_sort _).mp (h.subset ((Finset.mem_sort _).mpr hx))
  · intro h
    refine List.sublist_of_subperm_of_pairwise ?_ (Finset.pairwise_sort s _) (Finset.pairwise_sort t _)
    refine (Finset.sort_nodup s _).subperm ?_
    intro x hx
    exact (Finset.mem_sort _).mpr (h ((Finset.mem_sort _).mp hx))

theorem mem_of_lastInserted {l : List (Finset K × V)} {s : Finset K} {v : V}
    (h : lastInserted l s = some v) : (s, v) ∈ l := by
  obtain ⟨⟨t, w⟩, hfind, rfl⟩ := Option.map_eq_some_iff.mp h
  have ht : t = s := by simpa using List.find?_some hfind
  subst ht
  exact List.mem_reverse.mp (List.mem_of_find?_eq_some hfind)

theorem mem_of_path {l : List (Finset K × V)} {path : List K} {v : V}
    (h : (inserted l).lookupPath path = some v) : ∃ s, s.sort (· ≤ ·) = path ∧ (s, v) ∈ l := by
  obtain ⟨s, rfl⟩ := path_inserted h
  exact ⟨s, rfl, mem_of_lastInserted ((lookup_inserted l s).symm.trans h)⟩

/-- What a search for a subset finds was inserted for one. -/
theorem mem_of_findSubset {l : List (Finset K × V)} {s : Finset K} {p : V → Bool} {v : V}
    (h : (inserted l).findSubset s p = some v) : p v = true ∧ ∃ t ⊆ s, (t, v) ∈ l := by
  obtain ⟨hp, path, hpath, hv⟩ :=
    (findSubsetPath_picks p _ (inserted_ordered l) _ (Finset.sortedLT_sort s).pairwise).1 v h
  obtain ⟨t, rfl, ht⟩ := mem_of_path hv
  exact ⟨hp, t, sort_sublist_iff.mp hpath, ht⟩

/-- What a search for a superset finds was inserted for one. -/
theorem mem_of_findSuperset {l : List (Finset K × V)} {s : Finset K} {p : V → Bool} {v : V}
    (h : (inserted l).findSuperset s p = some v) : p v = true ∧ ∃ t, s ⊆ t ∧ (t, v) ∈ l := by
  obtain ⟨hp, path, hpath, hv⟩ := (findSupersetPath_picks p _ (inserted_ordered l) _).1 v h
  obtain ⟨t, rfl, ht⟩ := mem_of_path hv
  exact ⟨hp, t, sort_sublist_iff.mp hpath, ht⟩

/-- After any insertions a lookup gives what was last inserted for the set, and the searches find
a subset or a superset whose value has the property, if there is one. -/
theorem searches_exact (l : List (Finset K × V)) (s : Finset K) (p : V → Bool) :
    (inserted l).lookup s = lastInserted l s ∧
      (((inserted l).findSubset s p).isSome ↔
        ∃ t ⊆ s, ∃ v, lastInserted l t = some v ∧ p v) ∧
      (∀ v, (inserted l).findSubset s p = some v → ∃ t ⊆ s, lastInserted l t = some v ∧ p v) ∧
      (((inserted l).findSuperset s p).isSome ↔
        ∃ t ⊇ s, ∃ v, lastInserted l t = some v ∧ p v) ∧
      ∀ v, (inserted l).findSuperset s p = some v → ∃ t ⊇ s, lastInserted l t = some v ∧ p v := by
  have hordered := inserted_ordered l
  have hsub : Picks ((inserted l).findSubset s p) fun v =>
      ∃ t ⊆ s, lastInserted l t = some v ∧ p v := by
    refine (findSubsetPath_picks p _ hordered _ (Finset.sortedLT_sort s).pairwise).congr fun v => ?_
    constructor
    · intro ⟨hp, path, hpath, hv⟩
      obtain ⟨t, rfl⟩ := path_inserted hv
      exact ⟨t, sort_sublist_iff.mp hpath, (lookup_inserted l t).symm.trans hv, hp⟩
    · intro ⟨t, ht, hv, hp⟩
      exact ⟨hp, _, sort_sublist_iff.mpr ht, (lookup_inserted l t).trans hv⟩
  have hsuper : Picks ((inserted l).findSuperset s p) fun v =>
      ∃ t ⊇ s, lastInserted l t = some v ∧ p v := by
    refine (findSupersetPath_picks p _ hordered _).congr fun v => ?_
    constructor
    · intro ⟨hp, path, hpath, hv⟩
      obtain ⟨t, rfl⟩ := path_inserted hv
      exact ⟨t, sort_sublist_iff.mp hpath, (lookup_inserted l t).symm.trans hv, hp⟩
    · intro ⟨t, ht, hv, hp⟩
      exact ⟨hp, _, sort_sublist_iff.mpr ht, (lookup_inserted l t).trans hv⟩
  refine ⟨lookup_inserted l s, ?_, hsub.1, ?_, hsuper.1⟩
  · rw [hsub.isSome_iff]
    grind
  · rw [hsuper.isSome_iff]
    grind

end MapOfSets

end Encider
