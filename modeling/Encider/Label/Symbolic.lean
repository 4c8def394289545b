import Encider.Label.Region
import Encider.State.ProgModel

namespace Encider

/-- `highSymRegions` and `lowSymRegions`. -/
structure SymRegions where
  highSymRegions : StdMap String (List Region)
  lowSymRegions : StdMap String (List Region)

namespace SymRegions

def empty : SymRegions := ⟨.empty, .empty⟩

/-- The map that holds a label. -/
def regions (σ : SymRegions) (high : Bool) : StdMap String (List Region) :=
  if high then σ.highSymRegions else σ.lowSymRegions

def withRegions (σ : SymRegions) (high : Bool) (m : StdMap String (List Region)) : SymRegions :=
  if high then { σ with highSymRegions := m } else { σ with lowSymRegions := m }

def clearSymRegion (σ : SymRegions) (name : String) (rs : List Region) (high : Bool) :
    SymRegions :=
  match σ.regions high name with
  | some cur =>
    let temp := clearRegions rs cur
    -- the erased entry comes back, without regions
    let m := if temp.length = 0 then Function.update (σ.regions high) name none
      else σ.regions high
    σ.withRegions high (Function.update m name (some temp))
  | none => σ

/-- The two setters, which differ in the label. -/
def setSymRegion (σ : SymRegions) (high : Bool) (name : String) (rs : List Region) : SymRegions :=
  (σ.withRegions high (Function.update (σ.regions high) name (some rs))).clearSymRegion
    name rs (!high)

def setHighSymRegion (σ : SymRegions) (name : String) (rs : List Region) : SymRegions :=
  σ.setSymRegion true name rs

def setLowSymRegion (σ : SymRegions) (name : String) (rs : List Region) : SymRegions :=
  σ.setSymRegion false name rs

def isASymRegion (σ : SymRegions) (symname : String) (high : Bool) : Bool :=
  (σ.regions high symname).isSome

/-- The bits of a symbol that carry a label. -/
def labelled (σ : SymRegions) (high : Bool) (name : String) : Set Nat :=
  {b | ∃ rs, σ.regions high name = some rs ∧ b ∈ covers rs}

@[simp] theorem regions_withRegions (σ : SymRegions) (high : Bool)
    (m : StdMap String (List Region)) : (σ.withRegions high m).regions high = m := by
  cases high <;> rfl

@[simp] theorem regions_withRegions_not (σ : SymRegions) (high : Bool)
    (m : StdMap String (List Region)) :
    (σ.withRegions high m).regions (!high) = σ.regions (!high) := by
  cases high <;> rfl

@[simp] theorem regions_not_withRegions (σ : SymRegions) (high : Bool)
    (m : StdMap String (List Region)) :
    (σ.withRegions (!high) m).regions high = σ.regions high := by
  cases high <;> rfl

variable {σ : SymRegions} {high : Bool} {name : String} {rs : List Region}

theorem setSymRegion_same : (σ.setSymRegion high name rs).regions high =
    Function.update (σ.regions high) name (some rs) := by
  unfold setSymRegion clearSymRegion
  split <;> simp

theorem setSymRegion_opposite : (σ.setSymRegion high name rs).regions (!high) =
    Function.update (σ.regions (!high)) name
      ((σ.regions (!high) name).map (clearRegions rs)) := by
  unfold setSymRegion clearSymRegion
  rw [regions_withRegions_not]
  split
  · rename_i cur hcur
    rw [hcur, regions_withRegions]
    split
    · rw [Function.update_idem]
      rfl
    · rfl
  · rename_i hnone
    rw [hnone, regions_withRegions_not, Option.map_none, ← hnone, Function.update_eq_self]

end SymRegions

/-- A call of `setHighSymRegion` or `setLowSymRegion`. -/
structure SymCall where
  high : Bool
  name : String
  rs : List Region

def SymCall.run (c : SymCall) (σ : SymRegions) : SymRegions :=
  if c.high then σ.setHighSymRegion c.name c.rs else σ.setLowSymRegion c.name c.rs

theorem SymCall.run_eq (c : SymCall) (σ : SymRegions) :
    c.run σ = σ.setSymRegion c.high c.name c.rs := by
  obtain ⟨high, name, rs⟩ := c
  cases high <;> rfl

/-- The maps that runs reach whose calls all meet a condition. -/
inductive SymRun (P : SymRegions → SymCall → Prop) : SymRegions → Prop
  | start : SymRun P .empty
  | call {σ : SymRegions} {c : SymCall} (h : SymRun P σ) (hP : P σ c) : SymRun P (c.run σ)

/-- What a call has to do to the labels. -/
structure Relabelled (σ : SymRegions) (c : SymCall) (σ' : SymRegions) : Prop where
  apart : ∀ name, Disjoint (σ'.labelled true name) (σ'.labelled false name)
  set : covers c.rs ⊆ σ'.labelled c.high c.name
  kept : ∀ b ∉ covers c.rs, b ∈ σ'.labelled (!c.high) c.name ↔ b ∈ σ.labelled (!c.high) c.name
  others : ∀ name, name ≠ c.name → ∀ h, σ'.labelled h name = σ.labelled h name
  real : ∀ name h, σ'.isASymRegion name h = true → ∃ b, b ∈ σ'.labelled h name

/-- The call labels some bits, it takes them out of the regions with the opposite label
cleanly, and leaves some bit to that label where it was set. -/
structure RelabelsCleanly (σ : SymRegions) (c : SymCall) : Prop where
  labels : c.rs ≠ []
  proper : ∀ r ∈ c.rs, r.Proper
  clean : ∀ opposite, σ.regions (!c.high) c.name = some opposite → ClearsCleanly c.rs opposite
  leaves : ∀ opposite, σ.regions (!c.high) c.name = some opposite →
    ∃ b ∈ covers opposite, b ∉ covers c.rs

/-- The labels are apart, and every entry holds bits. -/
structure LabelsApart (σ : SymRegions) : Prop where
  apart : ∀ name h, Disjoint (σ.labelled h name) (σ.labelled (!h) name)
  proper : ∀ h name rs, σ.regions h name = some rs → ∀ r ∈ rs, r.Proper
  real : ∀ h name rs, σ.regions h name = some rs → ∃ b, b ∈ covers rs

namespace SymRegions

variable {σ : SymRegions} {c : SymCall}

theorem labelled_set (σ : SymRegions) (c : SymCall) :
    (c.run σ).labelled c.high c.name = covers c.rs := by
  rw [c.run_eq]
  ext b
  simp [labelled, setSymRegion_same]

theorem labelled_others (σ : SymRegions) (c : SymCall) {name : String} (hne : name ≠ c.name)
    (h : Bool) : (c.run σ).labelled h name = σ.labelled h name := by
  rw [c.run_eq]
  rcases Bool.eq_or_eq_not h c.high with hh | hh
  · rw [hh]
    simp [labelled, setSymRegion_same, hne]
  · rw [hh]
    simp [labelled, setSymRegion_opposite, hne]

/-- Where the entries of the maps come from. -/
theorem run_regions {h : Bool} {name : String} {rs : List Region}
    (hrs : (c.run σ).regions h name = some rs) :
    rs = c.rs ∨ σ.regions h name = some rs ∨
      ∃ cur, σ.regions (!c.high) c.name = some cur ∧ rs = clearRegions c.rs cur := by
  rw [c.run_eq] at hrs
  rcases Bool.eq_or_eq_not h c.high with hh | hh
  · subst hh
    rw [setSymRegion_same, Function.update_apply] at hrs
    split at hrs
    · cases hrs
      exact .inl rfl
    · exact .inr (.inl hrs)
  · subst hh
    rw [setSymRegion_opposite, Function.update_apply] at hrs
    split at hrs
    · obtain ⟨cur, hcur, heq⟩ := Option.map_eq_some_iff.mp hrs
      exact .inr (.inr ⟨cur, hcur, heq.symm⟩)
    · exact .inr (.inl hrs)

/-- A clean call takes its bits away from the opposite label, and no others. -/
theorem labelled_opposite (hσ : LabelsApart σ) (hc : RelabelsCleanly σ c) :
    (c.run σ).labelled (!c.high) c.name = σ.labelled (!c.high) c.name \ covers c.rs := by
  rw [c.run_eq]
  cases hopposite : σ.regions (!c.high) c.name with
  | none => simp [labelled, setSymRegion_opposite, hopposite]
  | some opposite =>
    have h := clearRegions_covers hc.proper (hσ.proper _ _ _ hopposite) (hc.clean _ hopposite)
    simp only [labelled, setSymRegion_opposite, hopposite, Function.update_self, Option.map_some,
      Option.some.injEq, exists_eq_left']
    exact h.2

theorem run_labelsApart (hσ : LabelsApart σ) (hc : RelabelsCleanly σ c) :
    LabelsApart (c.run σ) := by
  have hset := labelled_set σ c
  have hopposite := labelled_opposite hσ hc
  have hboth : Disjoint ((c.run σ).labelled c.high c.name)
      ((c.run σ).labelled (!c.high) c.name) := by
    rw [hset, hopposite]
    exact disjoint_sdiff_self_right
  refine ⟨?_, ?_, ?_⟩
  · intro name h
    by_cases hname : name = c.name
    · subst hname
      rcases Bool.eq_or_eq_not h c.high with hh | hh
      · rw [hh]
        exact hboth
      · rw [hh, Bool.not_not]
        exact hboth.symm
    · rw [labelled_others σ c hname, labelled_others σ c hname]
      exact hσ.apart name h
  · intro h name rs hrs
    rcases run_regions hrs with heq | hold | ⟨cur, hcur, heq⟩
    · rw [heq]
      exact hc.proper
    · exact hσ.proper h name rs hold
    · rw [heq]
      exact (clearRegions_covers hc.proper (hσ.proper _ _ _ hcur) (hc.clean cur hcur)).1
  · intro h name rs hrs
    rcases run_regions hrs with heq | hold | ⟨cur, hcur, heq⟩
    · obtain ⟨r, hr⟩ := List.exists_mem_of_ne_nil _ hc.labels
      rw [heq]
      exact ⟨r.base, r, hr, Nat.le_refl _, (hc.proper r hr).nonempty⟩
    · exact hσ.real h name rs hold
    · obtain ⟨b, hb, hn⟩ := hc.leaves cur hcur
      have hcovers := (clearRegions_covers hc.proper (hσ.proper _ _ _ hcur) (hc.clean cur hcur)).2
      rw [heq, hcovers]
      exact ⟨b, hb, hn⟩

theorem empty_labelsApart : LabelsApart .empty := by
  refine ⟨?_, ?_, ?_⟩
  · intro name h
    cases h <;> simp [labelled, regions, empty, StdMap.empty]
  · intro h name rs hrs
    cases h <;> cases hrs
  · intro h name rs hrs
    cases h <;> cases hrs

theorem symRun_labelsApart (h : SymRun RelabelsCleanly σ) : LabelsApart σ := by
  induction h with
  | start => exact empty_labelsApart
  | call _ hP ih => exact run_labelsApart ih hP

/-- In a run of clean calls each call does to the labels what it has to. -/
theorem clean_calls_relabel (σ : SymRegions) (c : SymCall) (h : SymRun RelabelsCleanly σ)
    (hc : RelabelsCleanly σ c) : Relabelled σ c (c.run σ) := by
  have hσ := symRun_labelsApart h
  have hσ' := run_labelsApart hσ hc
  refine ⟨fun name => hσ'.apart name true, ?_, ?_, fun name => labelled_others σ c, ?_⟩
  · rw [labelled_set]
  · intro b hb
    rw [labelled_opposite hσ hc]
    exact ⟨fun hm => hm.1, fun hm => ⟨hm, hb⟩⟩
  · intro name h hsome
    obtain ⟨rs, hrs⟩ := Option.isSome_iff_exists.mp hsome
    obtain ⟨b, hb⟩ := hσ'.real h name rs hrs
    exact ⟨b, rs, hrs, hb⟩

def lowByte (name : String) : SymCall := ⟨false, name, [⟨0, 8⟩]⟩

def highBit (name : String) : SymCall := ⟨true, name, [⟨0, 1⟩]⟩

/-- A byte is low, then its first bit is high. -/
theorem first_bit_relabelled : Relabelled ((lowByte "key").run .empty) (highBit "key")
    ((highBit "key").run ((lowByte "key").run .empty)) := by
  have hlow : RelabelsCleanly .empty (lowByte "key") := by
    refine ⟨by simp [lowByte], ?_, ?_, ?_⟩
    · intro r hr
      rw [List.mem_singleton.mp hr]
      exact ⟨by decide, by decide⟩
    · intro opposite hopposite
      cases hopposite
    · intro opposite hopposite
      cases hopposite
  have hregions : ((lowByte "key").run .empty).regions false "key" = some [⟨0, 8⟩] := by
    rw [SymCall.run_eq]
    simp [lowByte, setSymRegion_same]
  refine clean_calls_relabel _ _ (.call .start hlow) ⟨by simp [highBit], ?_, ?_, ?_⟩
  · intro r hr
    rw [List.mem_singleton.mp hr]
    exact ⟨by decide, by decide⟩
  · intro opposite hopposite
    cases hregions.symm.trans hopposite
    intro s hs
    rw [List.mem_singleton.mp hs]
    refine ⟨.inl ?_, trivial⟩
    intro b hb
    exact ⟨hb.1, Nat.lt_of_lt_of_le hb.2 (by decide)⟩
  · intro opposite hopposite
    cases hregions.symm.trans hopposite
    refine ⟨1, ⟨_, List.mem_cons_self, by decide, by decide⟩, ?_⟩
    intro hmem
    obtain ⟨r, hr, hb⟩ := hmem
    rw [List.mem_singleton.mp hr] at hb
    exact absurd hb.2 (by decide)

/-- Two bytes become high of which the second was low. -/
def highBytes (name : String) : SymCall := ⟨true, name, [⟨0, 16⟩]⟩

/-- Then the first one becomes low as well. -/
theorem high_bytes_turn_low : ¬ ∀ σ c, SymRun (fun _ c => ∀ r ∈ c.rs, 0 < r.size.toNat) σ →
    (∀ r ∈ c.rs, 0 < r.size.toNat) → Relabelled σ c (c.run σ) := by
  intro hall
  have h := hall _ (highBytes "key")
    (.call .start (c := ⟨false, "key", [⟨8, 8⟩]⟩) (by decide)) (by decide)
  have hhigh := h.set (show 0 ∈ covers [⟨0, 16⟩] from
    ⟨_, List.mem_cons_self, by decide, by decide⟩)
  refine Set.disjoint_left.mp (h.apart "key") hhigh ?_
  exact ⟨[⟨0, 8⟩], rfl, _, List.mem_cons_self, by decide, by decide⟩

end SymRegions

end Encider
