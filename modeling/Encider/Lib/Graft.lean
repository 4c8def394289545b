import Encider.Lib.Rose

/-! Rose trees that grow by one leaf at a time. -/

namespace Rose

variable {α : Type}

def label : Rose α → α
  | node a _ => a

variable [DecidableEq α]

/-- `x` becomes a child of the node `b`, at the place `p`, if that is what is looked for. -/
def plant (a : α) (p : Nat) (x b : α) (ts : List (Rose α)) : List (Rose α) :=
  if b = a then ts.take p ++ node x [] :: ts.drop p else ts

mutual
/-- `x` becomes a child of the nodes labelled `a`, at the place `p`. -/
def graft (a : α) (p : Nat) (x : α) : Rose α → Rose α
  | node b ts => node b (plant a p x b (graftAll a p x ts))

def graftAll (a : α) (p : Nat) (x : α) : List (Rose α) → List (Rose α)
  | [] => []
  | t :: ts => t.graft a p x :: graftAll a p x ts
end

mutual
/-- The first subtree with a label. -/
def find (r : α) : Rose α → Option (Rose α)
  | node b ts => if b = r then some (node b ts) else findAll r ts

def findAll (r : α) : List (Rose α) → Option (Rose α)
  | [] => none
  | t :: ts => (t.find r).or (findAll r ts)
end

variable {a x : α} {p : Nat}

@[simp] theorem label_graft (t : Rose α) : (t.graft a p x).label = t.label := by
  cases t
  rfl

theorem labelsAll_plant (b : α) (ts : List (Rose α)) :
    (labelsAll (plant a p x b ts)).Perm (labelsAll ts ++ if b = a then [x] else []) := by
  unfold plant
  split
  · have hp : (ts.take p ++ node x [] :: ts.drop p).Perm (node x [] :: ts) := by
      refine List.perm_middle.trans ?_
      rw [List.take_append_drop]
    refine (labelsAll_perm hp).trans ?_
    simp only [labelsAll, labels]
    exact List.perm_append_comm
  · rw [List.append_nil]

mutual
/-- The labels are those of before, and `x` once for each `a`. -/
theorem labels_graft : ∀ t : Rose α,
    (t.graft a p x).labels.Perm (t.labels ++ List.replicate (t.labels.count a) x)
  | node b ts => by
    simp only [graft, labels, List.count_cons]
    refine List.Perm.trans ((labelsAll_plant b _).cons b) ?_
    refine List.Perm.trans (((labelsAll_graft ts).append_right _).cons b) ?_
    rw [List.replicate_add, List.cons_append, List.append_assoc]
    by_cases h : b = a <;> simp [h]

theorem labelsAll_graft : ∀ ts : List (Rose α),
    (labelsAll (graftAll a p x ts)).Perm
      (labelsAll ts ++ List.replicate ((labelsAll ts).count a) x)
  | [] => by simp [graftAll, labelsAll]
  | t :: ts => by
    simp only [graftAll, labelsAll, List.count_append, List.replicate_add]
    refine ((labels_graft t).append (labelsAll_graft ts)).trans ?_
    rw [List.append_assoc, List.append_assoc]
    refine List.Perm.append_left _ ?_
    rw [← List.append_assoc, ← List.append_assoc]
    exact List.perm_append_comm.append_right _
end

theorem mem_labels_graft {y : α} {t : Rose α} :
    y ∈ (t.graft a p x).labels ↔ y ∈ t.labels ∨ (y = x ∧ a ∈ t.labels) := by
  rw [(labels_graft t).mem_iff, List.mem_append, List.mem_replicate,
    ← Nat.pos_iff_ne_zero, List.count_pos_iff]
  refine or_congr_right and_comm

theorem nodup_graft {t : Rose α} (hn : t.labels.Nodup) (hx : x ∉ t.labels) :
    (t.graft a p x).labels.Nodup := by
  rw [(labels_graft t).nodup_iff]
  have hle := List.nodup_iff_count_le_one.mp hn a
  refine List.Nodup.append hn ?_ ?_
  · exact List.nodup_replicate.mpr hle
  · intro y hy hr
    rw [List.eq_of_mem_replicate hr] at hy
    exact hx hy

theorem mem_leavesAll_plant {b y : α} {ts : List (Rose α)} :
    y ∈ leavesAll (plant a p x b ts) ↔ y ∈ leavesAll ts ∨ (y = x ∧ b = a) := by
  unfold plant
  split
  · rename_i h
    have hp : (ts.take p ++ node x [] :: ts.drop p).Perm (node x [] :: ts) := by
      refine List.perm_middle.trans ?_
      rw [List.take_append_drop]
    rw [(leavesAll_perm hp).mem_iff]
    simp [leavesAll, leaves, h, or_comm]
  · rename_i h
    simp [h]

mutual
/-- A grafted node stops being a leaf, and `x` is one. -/
theorem mem_leaves_graft {y : α} : ∀ {t : Rose α}, y ∈ (t.graft a p x).leaves ↔
    (y ∈ t.leaves ∧ y ≠ a) ∨ (y = x ∧ a ∈ t.labels)
  | node b [] => by
    by_cases h : b = a
    · subst h
      simp only [graft, graftAll, plant, ↓reduceIte, List.take_nil, List.drop_nil, List.nil_append,
        leaves, leavesAll, labels, labelsAll, List.append_nil, List.mem_singleton, and_true]
      tauto
    · simp only [graft, graftAll, plant, if_neg h, leaves, labels, labelsAll,
        List.mem_singleton]
      constructor
      · intro hy
        exact .inl ⟨hy, fun he => h (hy ▸ he)⟩
      · intro hy
        rcases hy with hy | hy
        · exact hy.1
        · exact absurd hy.2.symm h
  | node b (t :: ts) => by
    have hne : plant a p x b (graftAll a p x (t :: ts)) ≠ [] := by
      unfold plant
      split
      · simp
      · simp [graftAll]
    rw [graft, leaves_node hne, mem_leavesAll_plant, mem_leavesAll_graft, leaves_node (by simp),
      labels, List.mem_cons]
    tauto

theorem mem_leavesAll_graft {y : α} : ∀ {ts : List (Rose α)},
    y ∈ leavesAll (graftAll a p x ts) ↔
      (y ∈ leavesAll ts ∧ y ≠ a) ∨ (y = x ∧ a ∈ labelsAll ts)
  | [] => by simp [graftAll, leavesAll, labelsAll]
  | t :: ts => by
    simp only [graftAll, leavesAll, labelsAll, List.mem_append, mem_leaves_graft,
      mem_leavesAll_graft]
    tauto
end

theorem underAll_plant {b c y : α} {ts : List (Rose α)} :
    UnderAll c y (plant a p x b ts) ↔ UnderAll c y ts := by
  unfold plant
  split
  · have hp : (ts.take p ++ node x [] :: ts.drop p).Perm (node x [] :: ts) := by
      refine List.perm_middle.trans ?_
      rw [List.take_append_drop]
    simp only [underAll_iff, hp.mem_iff, List.mem_cons, exists_eq_or_imp, Under, labelsAll,
      List.not_mem_nil, and_false, UnderAll, or_self, false_or]
  · rfl

mutual
/-- Only the new node has come to lie below something. -/
theorem under_graft {c y : α} : ∀ {t : Rose α}, (t.graft a p x).Under c y ↔
    t.Under c y ∨ (y = x ∧ ((c = a ∧ a ∈ t.labels) ∨ t.Under c a))
  | node b ts => by
    have hlabels : y ∈ labelsAll (plant a p x b (graftAll a p x ts)) ↔
        y ∈ labelsAll ts ∨ (y = x ∧ (a ∈ labelsAll ts ∨ b = a)) := by
      rw [(labelsAll_plant b _).mem_iff, List.mem_append, (labelsAll_graft ts).mem_iff,
        List.mem_append, List.mem_replicate,
    ← Nat.pos_iff_ne_zero, List.count_pos_iff]
      split <;> simp [*] <;> tauto
    simp only [graft, Under, underAll_plant, underAll_graft, hlabels, labels, List.mem_cons]
    constructor
    · intro h
      rcases h with ⟨hc, hy | ⟨hy, ha | hb⟩⟩ | hy | ⟨hy, ha | hu⟩
      · exact .inl (.inl ⟨hc, hy⟩)
      · exact .inr ⟨hy, .inr (.inl ⟨hc, ha⟩)⟩
      · exact .inr ⟨hy, .inl ⟨hc.trans hb, .inl hb.symm⟩⟩
      · exact .inl (.inr hy)
      · exact .inr ⟨hy, .inl ⟨ha.1, .inr ha.2⟩⟩
      · exact .inr ⟨hy, .inr (.inr hu)⟩
    · intro h
      rcases h with (⟨hc, hy⟩ | hy) | ⟨hy, ⟨hc, hb | ha⟩ | ⟨hc, ha⟩ | hu⟩
      · exact .inl ⟨hc, .inl hy⟩
      · exact .inr (.inl hy)
      · exact .inl ⟨hc.trans hb, .inr ⟨hy, .inr hb.symm⟩⟩
      · exact .inr (.inr ⟨hy, .inl ⟨hc, ha⟩⟩)
      · exact .inl ⟨hc, .inr ⟨hy, .inl ha⟩⟩
      · exact .inr (.inr ⟨hy, .inr hu⟩)

theorem underAll_graft {c y : α} : ∀ {ts : List (Rose α)},
    UnderAll c y (graftAll a p x ts) ↔
      UnderAll c y ts ∨ (y = x ∧ ((c = a ∧ a ∈ labelsAll ts) ∨ UnderAll c a ts))
  | [] => by simp [graftAll, UnderAll, labelsAll]
  | t :: ts => by
    simp only [graftAll, UnderAll, labelsAll, under_graft, underAll_graft, List.mem_append]
    tauto
end

theorem find_label (t : Rose α) : t.find t.label = some t := by
  cases t with
  | node b ts => rw [label, find, if_pos rfl]

mutual
theorem find_of_mem {r : α} : ∀ {t : Rose α}, r ∈ t.labels → ∃ u, t.find r = some u
  | node b ts, h => by
    unfold find
    split
    · exact ⟨_, rfl⟩
    · rename_i hb
      rw [labels, List.mem_cons] at h
      exact findAll_of_mem (h.resolve_left fun he => hb he.symm)

theorem findAll_of_mem {r : α} : ∀ {ts : List (Rose α)}, r ∈ labelsAll ts →
    ∃ u, findAll r ts = some u
  | [], h => by simp [labelsAll] at h
  | t :: ts, h => by
    rw [labelsAll, List.mem_append] at h
    cases ht : t.find r with
    | some u => exact ⟨u, by simp [findAll, ht]⟩
    | none =>
      rcases h with h | h
      · obtain ⟨u, hu⟩ := find_of_mem h
        rw [ht] at hu
        cases hu
      · obtain ⟨u, hu⟩ := findAll_of_mem h
        exact ⟨u, by simp [findAll, ht, hu]⟩
end

mutual
/-- The labels found are the one looked for and those below it. -/
theorem under_of_find {r y : α} {u : Rose α} : ∀ {t : Rose α}, t.find r = some u →
    y ∈ u.labels → y = r ∨ t.Under r y
  | node b ts, h, hy => by
    unfold find at h
    split at h
    · rename_i hb
      cases h
      rw [labels, List.mem_cons] at hy
      rcases hy with hy | hy
      · exact .inl (hy.trans hb)
      · exact .inr (.inl ⟨hb.symm, hy⟩)
    · rcases under_of_findAll h hy with hy | hy
      · exact .inl hy
      · exact .inr (.inr hy)

theorem under_of_findAll {r y : α} {u : Rose α} : ∀ {ts : List (Rose α)},
    findAll r ts = some u → y ∈ u.labels → y = r ∨ UnderAll r y ts
  | [], h, _ => by cases h
  | t :: ts, h, hy => by
    cases ht : t.find r with
    | some v =>
      rw [findAll, ht, Option.some_or, Option.some.injEq] at h
      subst h
      exact (under_of_find ht hy).imp_right Or.inl
    | none =>
      rw [findAll, ht, Option.none_or] at h
      exact (under_of_findAll h hy).imp_right Or.inr
end

end Rose
