import Mathlib

/-- The rule of a fallible loop over a list: the invariant speaks about the part
already processed. -/
theorem List.foldlM_rule {α σ : Type} {f : σ → α → Option σ} (I : List α → σ → Prop)
    {l : List α} {s : σ} (h0 : I [] s)
    (hstep : ∀ pre x post s, l = pre ++ x :: post → I pre s →
      ∃ s', f s x = some s' ∧ I (pre ++ [x]) s') :
    ∃ s', l.foldlM f s = some s' ∧ I l s' := by
  suffices h : ∀ (post pre : List α) (s : σ), l = pre ++ post → I pre s →
      ∃ s', post.foldlM f s = some s' ∧ I l s' from h l [] s rfl h0
  intro post
  induction post with
  | nil =>
    intro pre s hl hi
    rw [List.append_nil] at hl
    exact ⟨s, rfl, hl ▸ hi⟩
  | cons x post ih =>
    intro pre s hl hi
    obtain ⟨s1, hs, h1⟩ := hstep pre x post s hl hi
    obtain ⟨s2, hs2, h2⟩ := ih (pre ++ [x]) s1 (by simp [hl]) h1
    exact ⟨s2, by simp [List.foldlM_cons, hs, hs2], h2⟩

/-- The rule of a fallible loop that returned. -/
theorem List.foldlM_inv {α σ : Type} {f : σ → α → Option σ} (I : List α → σ → Prop)
    {l : List α} {s s' : σ} (hrun : l.foldlM f s = some s') (h0 : I [] s)
    (hstep : ∀ pre x s s', x ∈ l → I pre s → f s x = some s' → I (pre ++ [x]) s') : I l s' := by
  induction l using List.reverseRecOn generalizing s' with
  | nil =>
    cases hrun
    exact h0
  | append_singleton l x ih =>
    rw [List.foldlM_append] at hrun
    obtain ⟨t, ht, hx⟩ := Option.bind_eq_some_iff.mp hrun
    rw [List.foldlM_cons] at hx
    obtain ⟨u, hu, hdone⟩ := Option.bind_eq_some_iff.mp hx
    cases hdone
    have hpre := ih ht fun pre y s s' hy => hstep pre y s s' (List.mem_append_left _ hy)
    exact hstep l x t s' (List.mem_append_right _ List.mem_cons_self) hpre hu

/-- A loop whose turns succeed where those of another do. -/
theorem List.foldlM_mono {α σ : Type} {f g : σ → α → Option σ}
    (hturn : ∀ {s x t}, f s x = some t → g s x = some t) {l : List α} {s t : σ}
    (h : l.foldlM f s = some t) : l.foldlM g s = some t := by
  induction l generalizing s with
  | nil => exact h
  | cons x l ih =>
    rw [List.foldlM_cons] at h ⊢
    obtain ⟨u, hu, hrest⟩ := Option.bind_eq_some_iff.mp h
    exact Option.bind_eq_some_iff.mpr ⟨u, hturn hu, ih hrest⟩

/-- A fallible loop stays within a relation that each of its turns stays within. -/
theorem List.foldlM_rel {α σ : Type} {f : σ → α → Option σ} {R : σ → σ → Prop}
    (hrefl : ∀ s, R s s) (htrans : ∀ {s t u}, R s t → R t u → R s u)
    (hstep : ∀ s x s', f s x = some s' → R s s') {l : List α} {s s' : σ}
    (h : l.foldlM f s = some s') : R s s' := by
  induction l generalizing s with
  | nil =>
    cases h
    exact hrefl _
  | cons x l ih =>
    rw [List.foldlM_cons] at h
    obtain ⟨t, ht, h⟩ := Option.bind_eq_some_iff.mp h
    exact htrans (hstep _ x t ht) (ih h)

/-- The first element with a property. -/
theorem List.exists_first {α : Type} {p : α → Prop} {l : List α} (h : ∃ x ∈ l, p x) :
    ∃ pre x post, l = pre ++ x :: post ∧ p x ∧ ∀ y ∈ pre, ¬ p y := by
  induction l with
  | nil => simp at h
  | cons a l ih =>
    by_cases ha : p a
    · exact ⟨[], a, l, rfl, ha, by simp⟩
    · obtain ⟨x, hx, hp⟩ := h
      have hxl : x ∈ l := by
        rcases List.mem_cons.mp hx with rfl | hx
        · contradiction
        · exact hx
      obtain ⟨pre, y, post, rfl, hy, hpre⟩ := ih ⟨x, hxl, hp⟩
      exact ⟨a :: pre, y, post, rfl, hy, by simpa using ⟨ha, hpre⟩⟩

/-- The head of the elements of a list that have a property is the first that has it. -/
theorem List.Sublist.head_iff_first {α : Type} {p : α → Prop} {l l' : List α} (h : l'.Sublist l)
    (hl : l.Nodup) (hmem : ∀ x, x ∈ l' ↔ x ∈ l ∧ p x) {x : α} :
    l'.head? = some x ↔ ∃ pre post, l = pre ++ x :: post ∧ p x ∧ ∀ y ∈ pre, ¬ p y := by
  have hfirst : ∀ pre x post, l = pre ++ x :: post → p x → (∀ y ∈ pre, ¬ p y) →
      l'.head? = some x := by
    intro pre x post hsplit hx hpre
    induction pre generalizing l with
    | nil =>
      obtain rfl := hsplit
      have hin : x ∈ l' := (hmem x).mpr ⟨List.mem_cons_self, hx⟩
      cases h with
      | cons _ h => exact absurd (h.subset hin) (List.nodup_cons.mp hl).1
      | cons_cons _ h => rfl
    | cons y pre ih =>
      obtain rfl := hsplit
      have hy : ¬ p y := hpre y List.mem_cons_self
      have hnot : y ∉ l' := fun hin => hy ((hmem y).mp hin).2
      cases h with
      | cons _ h =>
        apply ih h (List.nodup_cons.mp hl).2 ?_ rfl fun z hz => hpre z (List.mem_cons_of_mem y hz)
        intro z
        rw [hmem, List.cons_append, List.mem_cons, or_and_right]
        refine or_iff_right ?_
        intro ⟨hz, hpz⟩
        exact hy (hz ▸ hpz)
      | cons_cons _ h => exact absurd List.mem_cons_self hnot
  constructor
  · intro hhead
    have hin : x ∈ l' := List.mem_of_head? hhead
    obtain ⟨pre, z, post, hsplit, hz, hpre⟩ := List.exists_first (p := p) ⟨x, (hmem x).mp hin⟩
    have hzhead := hfirst pre z post hsplit hz hpre
    obtain rfl : x = z := Option.some.inj (hhead.symm.trans hzhead)
    exact ⟨pre, post, hsplit, hz, hpre⟩
  · intro ⟨pre, post, hsplit, hx, hpre⟩
    exact hfirst pre x post hsplit hx hpre


/-- A place in a list with one more element is the new end or an old place. -/
theorem List.snoc_split {α : Type} {l pre post : List α} {x y : α}
    (h : l ++ [x] = pre ++ y :: post) :
    (post = [] ∧ l = pre ∧ x = y) ∨ ∃ post', post = post' ++ [x] ∧ l = pre ++ y :: post' := by
  rcases List.eq_nil_or_concat post with rfl | ⟨post', z, rfl⟩
  · obtain ⟨h1, h2⟩ := List.append_inj' h (by simp)
    exact .inl ⟨rfl, h1, List.singleton_inj.mp h2⟩
  · have h' : l ++ [x] = (pre ++ y :: post') ++ [z] := by simpa using h
    obtain ⟨h1, h2⟩ := List.append_inj' h' (by simp)
    rw [List.singleton_inj.mp h2]
    exact .inr ⟨post', by simp, h1⟩

/-- A sum over an association list in which only one key counts. -/
theorem List.sum_map_key {α β : Type} {l : List (α × β)} (hd : l.Pairwise fun a b => a.1 ≠ b.1)
    {k : α} (hk : ∃ kr ∈ l, kr.1 = k) (f : α → Nat) (hf : ∀ q, q ≠ k → f q = 0) :
    (l.map fun kr => f kr.1).sum = f k := by
  induction l with
  | nil => simp at hk
  | cons a l ih =>
    rw [List.pairwise_cons] at hd
    rw [List.map_cons, List.sum_cons]
    by_cases ha : a.1 = k
    · have hz : ∀ x ∈ l.map fun kr => f kr.1, x = 0 := by
        intro x hx
        obtain ⟨b, hb, rfl⟩ := List.mem_map.mp hx
        exact hf _ fun he => hd.1 b hb (ha.trans he.symm)
      rw [List.sum_eq_zero hz, ha, Nat.add_zero]
    · have htail : ∃ kr ∈ l, kr.1 = k := by
        obtain ⟨b, hb, hbk⟩ := hk
        rcases List.mem_cons.mp hb with rfl | hb
        · exact absurd hbk ha
        · exact ⟨b, hb, hbk⟩
      rw [hf _ ha, ih hd.2 htail, Nat.zero_add]

/-- An element of a list with one changed place is an old one or the changed one. -/
theorem List.of_mem_modify {α : Type} {f : α → α} {i : Nat} {l : List α} {y : α}
    (h : y ∈ l.modify i f) : ∃ x ∈ l, y = x ∨ y = f x := by
  obtain ⟨j, hj⟩ := List.mem_iff_getElem?.mp h
  rw [List.getElem?_modify] at hj
  obtain ⟨x, hx, hy⟩ := Option.map_eq_some_iff.mp hj
  refine ⟨x, List.mem_of_getElem? hx, ?_⟩
  split at hy
  · exact .inr hy.symm
  · exact .inl hy.symm
