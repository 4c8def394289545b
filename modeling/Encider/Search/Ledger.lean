import Encider.Search.Searcher

/-!
What a searcher is for: it holds a set of live states, takes additions and removals, and offers
one of the states it holds. `Ledger` names, for an object, the set it holds and the updates it can
take; `Ledger.Sound` is what the interface promises in these terms, and each searcher keeps the
promise when the searchers below it do.
-/

namespace Encider.Search

variable {σ : Type}

/-- `Tracks L o`: the object holds each state of `L` once and no other, in every container.
`Ready L r current added removed o`: no searcher has to move or pause a `current` that it does
not hold. -/
structure Ledger (s : Searcher σ) where
  Tracks : Finset σ → s.Obj → Prop
  Ready : Finset σ → Readings → Option σ → List σ → List σ → s.Obj → Prop

/-- Added states are new and removed states are live, each named once. -/
structure Legal (L : Finset σ) (added removed : List σ) : Prop where
  added_nodup : added.Nodup
  added_new : ∀ x ∈ added, x ∉ L
  removed_nodup : removed.Nodup
  removed_live : ∀ x ∈ removed, x ∈ L

theorem Legal.remove {L : Finset σ} {x : σ} (hx : x ∈ L) : Legal L [] [x] := by
  constructor <;> simp [hx]

/-- A container that holds each state of `L` once. -/
def Holds (L : Finset σ) (states : List σ) : Prop := states.Nodup ∧ ∀ x, x ∈ states ↔ x ∈ L

theorem Holds.empty : Holds (∅ : Finset σ) [] := by simp [Holds]

theorem Holds.isEmpty_iff {L : Finset σ} {states : List σ} (h : Holds L states) :
    states.isEmpty = true ↔ L = ∅ := by
  rw [List.isEmpty_iff, List.eq_nil_iff_forall_not_mem, Finset.eq_empty_iff_forall_notMem]
  simp only [h.2]

theorem Holds.ne_nil {L : Finset σ} {states : List σ} (h : Holds L states) (hL : L.Nonempty) :
    states ≠ [] := by
  rintro rfl
  obtain ⟨x, hx⟩ := hL
  simpa using (h.2 x).mpr hx

variable [LinearOrder σ]

/-- The states held after an update. -/
def after (L : Finset σ) (added removed : List σ) : Finset σ :=
  (L ∪ added.toFinset) \ removed.toFinset

structure Ledger.Sound {s : Searcher σ} (l : Ledger s) : Prop where
  init : l.Tracks ∅ s.init
  empty_iff : ∀ {L o}, l.Tracks L o → (s.empty o = true ↔ L = ∅)
  select : ∀ {L o} (r : Readings), l.Tracks L o → L.Nonempty →
    ∃ x ∈ L, ∃ o', s.selectState r o = some (x, o') ∧ l.Tracks L o'
  update : ∀ {L r current added removed o}, l.Tracks L o → Legal L added removed →
    l.Ready L r current added removed o →
      ∃ o', s.update r current added removed o = some o' ∧
        l.Tracks (after L added removed) o'
  stuck : ∀ {L r current added removed o}, l.Tracks L o → Legal L added removed →
    ¬ l.Ready L r current added removed o → s.update r current added removed o = none
  ready_none : ∀ {L r added removed o}, l.Tracks L o → l.Ready L r none added removed o
  missing : ∀ {L r x o}, l.Tracks L o → x ∉ L → s.removeState r x o = none

/-! ### Sets of states -/

instance (L : Finset σ) (added removed : List σ) : Decidable (Legal L added removed) :=
  decidable_of_iff
    ((added.Nodup ∧ ∀ x ∈ added, x ∉ L) ∧ (removed.Nodup ∧ ∀ x ∈ removed, x ∈ L))
    ⟨fun h => ⟨h.1.1, h.1.2, h.2.1, h.2.2⟩,
      fun h => ⟨⟨h.added_nodup, h.added_new⟩, h.removed_nodup, h.removed_live⟩⟩

@[simp] theorem mem_after {L : Finset σ} {added removed : List σ} {x : σ} :
    x ∈ after L added removed ↔ (x ∈ L ∨ x ∈ added) ∧ x ∉ removed := by
  simp [after]

/-! ### The searchers with one container -/

theorem Holds.append {L : Finset σ} {states added removed : List σ} (h : Holds L states)
    (hl : Legal L added removed) : Holds (L ∪ added.toFinset) (states ++ added) := by
  obtain ⟨hnodup, hmem⟩ := h
  constructor
  · apply hnodup.append hl.added_nodup
    intro x hx hxa
    exact hl.added_new x hxa ((hmem x).mp hx)
  · intro x
    simp [hmem]

/-- A way to take one state out of a container: it succeeds exactly when the state is there. -/
structure Remover (remove : List σ → σ → Option (List σ)) : Prop where
  found : ∀ {L states es}, Holds L states → es ∈ L →
    ∃ states', remove states es = some states' ∧ Holds (L.erase es) states'
  missing : ∀ {L states es}, Holds L states → es ∉ L → remove states es = none

theorem Holds.erase {L : Finset σ} {states : List σ} {es : σ} (h : Holds L states) :
    Holds (L.erase es) (states.erase es) := by
  obtain ⟨hnodup, hmem⟩ := h
  refine ⟨hnodup.erase es, ?_⟩
  intro x
  rw [hnodup.mem_erase_iff, Finset.mem_erase, hmem]

theorem eraseState_remover : Remover (σ := σ) eraseState where
  found := by
    intro L states es h hes
    refine ⟨states.erase es, ?_, h.erase⟩
    rw [eraseState, if_pos ((h.2 es).mpr hes)]
  missing := by
    intro L states es h hes
    rw [eraseState, if_neg (mt (h.2 es).mp hes)]

/-- Popping the back takes out the state that is there. -/
theorem dfs_remover : Remover (σ := σ) DFSSearcher.remove where
  found := by
    intro L states es h hes
    unfold DFSSearcher.remove
    have hne : states ≠ [] := h.ne_nil ⟨es, hes⟩
    rw [List.getLast?_eq_some_getLast hne]
    by_cases hback : es = states.getLast hne
    · have hsplit : states = states.dropLast ++ [es] := by
        rw [hback, List.dropLast_append_getLast]
      have hnodup : (states.dropLast ++ [es]).Nodup := hsplit ▸ h.1
      have hout : es ∉ states.dropLast := by
        intro hin
        exact (List.nodup_append.mp hnodup).2.2 es hin es (List.mem_singleton_self es) rfl
      have herase : states.erase es = states.dropLast := by
        conv_lhs => rw [hsplit]
        rw [List.erase_append_right _ hout]
        simp
      refine ⟨states.dropLast, by simp [hback], ?_⟩
      rw [← herase]
      exact h.erase
    · simp only [if_neg hback]
      exact eraseState_remover.found h hes
  missing := by
    intro L states es h hes
    unfold DFSSearcher.remove
    cases hlast : states.getLast? with
    | none => rfl
    | some back =>
      have hback : es ≠ back := by
        rintro rfl
        exact hes ((h.2 es).mp (List.mem_of_getLast? hlast))
      simp only [if_neg hback]
      exact eraseState_remover.missing h hes

theorem bfs_remover : Remover (σ := σ) BFSSearcher.remove where
  found := by
    intro L states es h hes
    cases states with
    | nil => exact absurd rfl (h.ne_nil ⟨es, hes⟩)
    | cons front states =>
      unfold BFSSearcher.remove
      by_cases hfront : es = front
      · refine ⟨states, if_pos hfront, ?_⟩
        have herase : (front :: states).erase es = states := by
          rw [hfront, List.erase_cons_head]
        rw [← herase]
        exact h.erase
      · simp only [if_neg hfront]
        exact eraseState_remover.found h hes
  missing := by
    intro L states es h hes
    cases states with
    | nil => rfl
    | cons front states =>
      have hfront : es ≠ front := by
        rintro rfl
        exact hes ((h.2 es).mp List.mem_cons_self)
      unfold BFSSearcher.remove
      simp only [if_neg hfront]
      exact eraseState_remover.missing h hes

/-- Several removals in one call, by induction on the states still to be removed. -/
theorem Remover.foldlM {remove : List σ → σ → Option (List σ)} (hremove : Remover remove)
    {L : Finset σ} {states removed : List σ} (h : Holds L states) (hnodup : removed.Nodup)
    (hlive : ∀ x ∈ removed, x ∈ L) :
    ∃ states', removed.foldlM remove states = some states' ∧
      Holds (L \ removed.toFinset) states' := by
  induction removed generalizing L states with
  | nil => exact ⟨states, rfl, by simpa using h⟩
  | cons es removed ih =>
    obtain ⟨hes, hrest⟩ := List.nodup_cons.mp hnodup
    obtain ⟨states₁, hfirst, h₁⟩ := hremove.found h (hlive es List.mem_cons_self)
    have hlive₁ : ∀ x ∈ removed, x ∈ L.erase es := by
      intro x hx
      refine Finset.mem_erase.mpr ⟨?_, hlive x (List.mem_cons_of_mem _ hx)⟩
      rintro rfl
      exact hes hx
    obtain ⟨states', hrun, h'⟩ := ih h₁ hrest hlive₁
    refine ⟨states', by simp [List.foldlM_cons, hfirst, hrun], ?_⟩
    have hset : L \ (es :: removed).toFinset = L.erase es \ removed.toFinset := by
      ext x
      simp
      tauto
    rw [hset]
    exact h'

theorem Remover.update {remove : List σ → σ → Option (List σ)} (hremove : Remover remove)
    {L : Finset σ} {states added removed : List σ} (h : Holds L states)
    (hl : Legal L added removed) :
    ∃ states', removed.foldlM remove (states ++ added) = some states' ∧
      Holds (after L added removed) states' :=
  hremove.foldlM (h.append hl) hl.removed_nodup
    fun x hx => Finset.mem_union_left _ (hl.removed_live x hx)

theorem Remover.update_missing {remove : List σ → σ → Option (List σ)}
    (hremove : Remover remove) {L : Finset σ} {states : List σ} {x : σ} (h : Holds L states)
    (hx : x ∉ L) : [x].foldlM remove (states ++ []) = none := by
  have hfirst : remove states x = none := hremove.missing h hx
  simp [hfirst]

/-- The depth-first searcher takes any update. -/
def DFSSearcher.ledger : Ledger (DFSSearcher (σ := σ)) where
  Tracks := Holds
  Ready _ _ _ _ _ _ := True

def RandomSearcher.ledger : Ledger (RandomSearcher (σ := σ)) where
  Tracks := Holds
  Ready _ _ _ _ _ _ := True

/-- The breadth-first searcher moves a current state that forked, so it has to hold it. -/
def BFSSearcher.ledger : Ledger (BFSSearcher (σ := σ)) where
  Tracks := Holds
  Ready L _ current added removed _ := ∀ c ∈ current, added ≠ [] → c ∉ removed → c ∈ L

theorem DFSSearcher.ledger_sound : (DFSSearcher.ledger (σ := σ)).Sound where
  init := Holds.empty
  empty_iff h := Holds.isEmpty_iff h
  select := by
    intro L states r h hL
    have hne : states ≠ [] := Holds.ne_nil h hL
    refine ⟨states.getLast hne, (h.2 _).mp (List.getLast_mem hne), states, ?_, h⟩
    simp [DFSSearcher, List.getLast?_eq_some_getLast hne]
  update h hl _ := dfs_remover.update h hl
  stuck _ _ hready := absurd trivial hready
  ready_none _ := trivial
  missing h hx := dfs_remover.update_missing h hx

theorem RandomSearcher.ledger_sound : (RandomSearcher.ledger (σ := σ)).Sound where
  init := Holds.empty
  empty_iff h := Holds.isEmpty_iff h
  select := by
    intro L (states : List σ) r h hL
    have hpos : 0 < states.length := List.length_pos_iff.mpr (Holds.ne_nil h hL)
    have hlt : r.here.getInt32.toNat % states.length < states.length := Nat.mod_lt _ hpos
    refine ⟨states[r.here.getInt32.toNat % states.length],
      (h.2 _).mp (List.getElem_mem hlt), states, ?_, h⟩
    simp [RandomSearcher, List.getElem?_eq_getElem hlt]
  update h hl _ := eraseState_remover.update h hl
  stuck _ _ hready := absurd trivial hready
  ready_none _ := trivial
  missing h hx := eraseState_remover.update_missing h hx

/-- Moving a held state to the back keeps the set. -/
theorem Holds.toBack {L : Finset σ} {states : List σ} {c : σ} (h : Holds L states) (hc : c ∈ L) :
    Holds L (states.erase c ++ [c]) := by
  have herase : Holds (L.erase c) (states.erase c) := h.erase
  constructor
  · apply herase.1.append (List.nodup_singleton c)
    intro x hx hxc
    rw [herase.2] at hx
    exact Finset.ne_of_mem_erase hx (List.mem_singleton.mp hxc)
  · intro x
    rw [List.mem_append, herase.2, Finset.mem_erase, List.mem_singleton]
    constructor
    · rintro (⟨_, hx⟩ | rfl)
      · exact hx
      · exact hc
    · intro hx
      by_cases hxc : x = c
      · exact Or.inr hxc
      · exact Or.inl ⟨hxc, hx⟩

theorem BFSSearcher.reorder_ready {L : Finset σ} {current : Option σ}
    {added removed states : List σ} (h : Holds L states)
    (hready : ∀ c ∈ current, added ≠ [] → c ∉ removed → c ∈ L) :
    ∃ states', reorder current added removed states = some states' ∧ Holds L states' := by
  cases current with
  | none => exact ⟨states, rfl, h⟩
  | some c =>
    by_cases hmove : added ≠ [] ∧ c ∉ removed
    · have hc : c ∈ L := hready c rfl hmove.1 hmove.2
      refine ⟨states.erase c ++ [c], ?_, h.toBack hc⟩
      simp only [reorder, if_pos hmove, eraseState, if_pos ((h.2 c).mpr hc), Option.map_some]
    · exact ⟨states, if_neg hmove, h⟩

theorem BFSSearcher.ledger_sound : (BFSSearcher.ledger (σ := σ)).Sound where
  init := Holds.empty
  empty_iff h := Holds.isEmpty_iff h
  select := by
    intro L states r h hL
    cases states with
    | nil => exact absurd rfl (Holds.ne_nil h hL)
    | cons front states =>
      exact ⟨front, (h.2 _).mp List.mem_cons_self, front :: states, rfl, h⟩
  update := by
    intro L r current added removed states h hl hready
    obtain ⟨states₁, hmove, h₁⟩ := BFSSearcher.reorder_ready h hready
    obtain ⟨states', hrun, h'⟩ := bfs_remover.update h₁ hl
    exact ⟨states', by simp [BFSSearcher, hmove, hrun], h'⟩
  stuck := by
    intro L r current added removed states h hl hready
    simp only [BFSSearcher.ledger, not_forall, exists_prop] at hready
    obtain ⟨c, rfl, hadded, hremoved, hc⟩ := hready
    have hfind : eraseState states c = none := eraseState_remover.missing h hc
    simp [BFSSearcher, BFSSearcher.reorder, hadded, hremoved, hfind]
  ready_none _ := by simp [BFSSearcher.ledger]
  missing h hx := bfs_remover.update_missing h hx

end Encider.Search
