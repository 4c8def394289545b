import Encider.Adt.PdfChoose

/-!
`WeightedRandomSearcher`: the live states in a `DiscretePDF`. Weights are exact numbers; the ones
that `getWeight` works out during a call come with the call.
-/

namespace Encider.WeightedRandomSearcher

open Zipper MeasureTheory

inductive WeightType where
  | depth
  | queryCost
  | instCount
  | cpInstCount
  | minDistToUncovered
  | coveringNew
  | sensitiveCov

/-- As the constructor sets it. -/
def WeightType.updateWeights : WeightType → Bool
  | .depth => false
  | _ => true

/-- The arguments of `update`, with what `getWeight` gives. -/
structure Update (σ W : Type) where
  getWeight : σ → W
  current : Option σ
  addedStates : List σ
  removedStates : List σ

variable {σ W : Type} [LinearOrder σ]

section model

variable [AddCommMonoid W]

def updateCurrent (type : WeightType) (states : DiscretePDF σ W) (c : Update σ W) :
    Option (DiscretePDF σ W) :=
  match c.current with
  | none => some states
  | some current =>
    if type.updateWeights && !c.removedStates.contains current then
      if DiscretePDF.inTree current states then
        DiscretePDF.update current (c.getWeight current) states
      else some states
    else some states

def removeState (states : DiscretePDF σ W) (es : σ) : Option (DiscretePDF σ W) :=
  if DiscretePDF.inTree es states then DiscretePDF.remove es states else some states

def update (type : WeightType) (states : DiscretePDF σ W) (c : Update σ W) :
    Option (DiscretePDF σ W) := do
  let states ← updateCurrent type states c
  let states ← c.addedStates.foldlM
    (fun states es => DiscretePDF.insert es (c.getWeight es) states) states
  c.removedStates.foldlM removeState states

end model

/-- The random number comes from `theRNG.getDoubleL`. -/
def selectState [Field W] [LinearOrder W] (u : W) (states : DiscretePDF σ W) : Option σ :=
  DiscretePDF.choose u states

def empty (states : DiscretePDF σ W) : Bool := DiscretePDF.missing states

/-- What the searcher is to hold after an update: each live state with the weight it had when it was
added, or when it was last the current state if weights are kept up to date. -/
def Update.held (type : WeightType) (m : σ → Option W) (c : Update σ W) : σ → Option W := fun es =>
  if c.removedStates.contains es then none
  else if c.addedStates.contains es then some (c.getWeight es)
  else if type.updateWeights ∧ c.current = some es ∧ (m es).isSome then some (c.getWeight es)
  else m es

section update

open DiscretePDF

variable [AddCommMonoid W] {t : DiscretePDF σ W} {m : σ → Option W}

theorem inTree_iff (h : Represents t m) (es : σ) : inTree es t = (m es).isSome := by
  rw [inTree_eq, h.getWeight_eq]

theorem insert_represents (h : Represents t m) {es : σ} (hm : m es = none) (w : W) :
    ∃ t', insert es w t = some t' ∧ Represents t' (Function.update m es (some w)) := by
  have hcall := h.call (.insert es w)
  rw [Call.model, hm] at hcall
  exact Refines.of_model hcall

theorem update_represents (h : Represents t m) {es : σ} (hm : (m es).isSome = true) (w : W) :
    ∃ t', DiscretePDF.update es w t = some t' ∧ Represents t' (Function.update m es (some w)) := by
  have hcall := h.call (.update es w)
  rw [Call.model, hm] at hcall
  exact Refines.of_model hcall

theorem removeState_represents (h : Represents t m) (es : σ) :
    ∃ t', removeState t es = some t' ∧ Represents t' (Function.update m es none) := by
  unfold removeState
  rw [inTree_iff h]
  split_ifs with hm
  · have hcall := h.call (.remove es)
    rw [Call.model, hm] at hcall
    exact Refines.of_model hcall
  · have hsame : Function.update m es none = m :=
      Function.update_eq_self_iff.mpr (by simpa using Eq.symm (Option.not_isSome_iff_eq_none.mp hm))
    exact ⟨t, rfl, hsame.symm ▸ h⟩

/-- The loop over the added states. -/
theorem added_represents (h : Represents t m) (g : σ → W) {added : List σ} (hnodup : added.Nodup)
    (hnew : ∀ es ∈ added, m es = none) :
    ∃ t', added.foldlM (fun t es => insert es (g es) t) t = some t' ∧
      Represents t' fun es => if es ∈ added then some (g es) else m es := by
  induction added generalizing t m with
  | nil => exact ⟨t, rfl, by simpa using h⟩
  | cons es added ih =>
    obtain ⟨hes, hrest⟩ := List.nodup_cons.mp hnodup
    obtain ⟨t₁, hrun, h₁⟩ := insert_represents h (hnew es List.mem_cons_self) (g es)
    have hnew₁ : ∀ x ∈ added, Function.update m es (some (g es)) x = none := by
      intro x hx
      rw [Function.update_of_ne (ne_of_mem_of_not_mem hx hes)]
      exact hnew x (List.mem_cons_of_mem _ hx)
    obtain ⟨t', hrun', h'⟩ := ih h₁ hrest hnew₁
    refine ⟨t', by simp [List.foldlM_cons, hrun, hrun'], ?_⟩
    convert h' using 2 with x
    by_cases hx : x = es
    · subst hx
      simp [hes]
    · simp [hx]

/-- The loop over the removed states. -/
theorem removed_represents (h : Represents t m) (removed : List σ) :
    ∃ t', removed.foldlM removeState t = some t' ∧
      Represents t' fun es => if es ∈ removed then none else m es := by
  induction removed generalizing t m with
  | nil => exact ⟨t, rfl, by simpa using h⟩
  | cons es removed ih =>
    obtain ⟨t₁, hrun, h₁⟩ := removeState_represents h es
    obtain ⟨t', hrun', h'⟩ := ih h₁
    refine ⟨t', by simp [List.foldlM_cons, hrun, hrun'], ?_⟩
    convert h' using 2 with x
    by_cases hx : x = es
    · subst hx
      simp
    · simp [hx]

theorem updateCurrent_represents (type : WeightType) (c : Update σ W) (h : Represents t m) :
    ∃ t', updateCurrent type t c = some t' ∧ Represents t' fun es =>
      if type.updateWeights ∧ c.current = some es ∧ es ∉ c.removedStates ∧ (m es).isSome then
        some (c.getWeight es) else m es := by
  unfold updateCurrent
  cases hc : c.current with
  | none => exact ⟨t, rfl, by simpa using h⟩
  | some current =>
    simp only [inTree_iff h, Bool.and_eq_true, Bool.not_eq_true', List.contains_eq_mem,
      decide_eq_false_iff_not]
    split_ifs with hup hm
    · obtain ⟨t', hrun, h'⟩ := update_represents h hm (c.getWeight current)
      refine ⟨t', hrun, ?_⟩
      convert h' using 2 with x
      by_cases hx : x = current
      · subst hx
        simp [hup, hm]
      · simp [hx, Ne.symm hx]
    · refine ⟨t, rfl, ?_⟩
      convert h using 2 with x
      by_cases hx : current = x
      · subst hx
        simp [hm]
      · simp [hx]
    · refine ⟨t, rfl, ?_⟩
      convert h using 2 with x
      by_cases hx : current = x
      · subst hx
        exact if_neg fun hx => hup ⟨hx.1, hx.2.2.1⟩
      · simp [hx]

variable {type : WeightType} {c : Update σ W}

/-- One update. -/
theorem update_held (h : Represents t m) (hnodup : c.addedStates.Nodup)
    (hnew : ∀ es ∈ c.addedStates, m es = none) :
    ∃ t', update type t c = some t' ∧ Represents t' (c.held type m) := by
  obtain ⟨t₁, hrun₁, h₁⟩ := updateCurrent_represents type c h
  have hnew₁ : ∀ es ∈ c.addedStates, (if type.updateWeights ∧ c.current = some es ∧
      es ∉ c.removedStates ∧ (m es).isSome then some (c.getWeight es) else m es) = none := by
    intro es hes
    simp [hnew es hes]
  obtain ⟨t₂, hrun₂, h₂⟩ := added_represents h₁ c.getWeight hnodup hnew₁
  obtain ⟨t', hrun, h'⟩ := removed_represents h₂ c.removedStates
  refine ⟨t', ?_, ?_⟩
  · simp [update, hrun₁, hrun₂, hrun]
  · convert h' using 2 with es
    by_cases hr : es ∈ c.removedStates
    · simp [Update.held, hr]
    · simp [Update.held, hr]

/-- What the searcher is to hold after a run. -/
def heldAfter (type : WeightType) (calls : List (Update σ W)) : σ → Option W :=
  calls.foldl (Update.held type) fun _ => none

/-- Each update adds states that are not held, each once. -/
def Legal (type : WeightType) : (σ → Option W) → List (Update σ W) → Prop
  | _, [] => True
  | m, c :: calls => (c.addedStates.Nodup ∧ ∀ es ∈ c.addedStates, m es = none) ∧
      Legal type (c.held type m) calls

theorem run_held {calls : List (Update σ W)} (h : Represents t m) (hlegal : Legal type m calls) :
    ∃ t', calls.foldlM (update type) t = some t' ∧
      Represents t' (calls.foldl (Update.held type) m) := by
  induction calls generalizing t m with
  | nil => exact ⟨t, rfl, h⟩
  | cons c calls ih =>
    obtain ⟨⟨hnodup, hnew⟩, hrest⟩ := hlegal
    obtain ⟨t₁, hrun, h₁⟩ := update_held h hnodup hnew
    obtain ⟨t', hrun', h'⟩ := ih h₁ hrest
    exact ⟨t', by simp [List.foldlM_cons, hrun, hrun'], h'⟩

end update

section select

open DiscretePDF

variable {type : WeightType} {calls : List (Update σ ℝ)}

theorem heldAfter_notNegative (hweights : ∀ c ∈ calls, ∀ es, 0 ≤ c.getWeight es) {es : σ} {w : ℝ}
    (h : heldAfter type calls es = some w) : 0 ≤ w := by
  induction calls using List.reverseRecOn generalizing w with
  | nil => cases h
  | append_singleton calls c ih =>
    rw [List.forall_mem_append] at hweights
    have hc := hweights.2 c (List.mem_singleton_self c) es
    rw [heldAfter, List.foldl_append, List.foldl_cons, List.foldl_nil, Update.held] at h
    split_ifs at h
    · cases h
      exact hc
    · cases h
      exact hc
    · exact ih hweights.1 h

theorem empty_eq_false {t : DiscretePDF σ ℝ} {m : σ → Option ℝ} (h : Represents t m) :
    empty t = false ↔ ∃ es, (m es).isSome = true := by
  cases t with
  | nil =>
    refine iff_of_false (by simp [empty, missing]) ?_
    rintro ⟨es, hes⟩
    obtain ⟨w, hw⟩ := Option.isSome_iff_exists.mp hes
    exact absurd ((h.lists.entries es w).mpr hw) List.not_mem_nil
  | node n l r =>
    have hm : m n.key = some n.weight :=
      (h.lists.entries n.key n.weight).mp (by simp [PdfNode.item])
    exact iff_of_true rfl ⟨n.key, by simp [hm]⟩

/-- Two states are added; one of them goes on and forks, the other one ends. -/
def forked : List (Update ℕ ℝ) :=
  [⟨fun _ => 1, none, [1, 2], []⟩, ⟨fun es => es, some 1, [3], [2]⟩]

end select

end Encider.WeightedRandomSearcher
