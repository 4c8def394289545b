import Encider.Label.Region
import Encider.State.ProgModel

namespace Encider

/-- The regions of one state, by base address. -/
abbrev AddressRegions := StdMap Expr (List Region)

/-- `highMemoryRegions` and `lowMemoryRegions`. Their keys are the addresses of the
states. -/
structure MemoryRegions where
  highMemoryRegions : StdMap Nat AddressRegions
  lowMemoryRegions : StdMap Nat AddressRegions

namespace MemoryRegions

def empty : MemoryRegions := ⟨.empty, .empty⟩

/-- The map that holds a label. -/
def regions (σ : MemoryRegions) (high : Bool) : StdMap Nat AddressRegions :=
  if high then σ.highMemoryRegions else σ.lowMemoryRegions

def withRegions (σ : MemoryRegions) (high : Bool) (m : StdMap Nat AddressRegions) :
    MemoryRegions :=
  if high then { σ with highMemoryRegions := m } else { σ with lowMemoryRegions := m }

def initHighLowRegions (σ : MemoryRegions) (saddr : Nat) : MemoryRegions where
  highMemoryRegions := Function.update σ.highMemoryRegions saddr (some .empty)
  lowMemoryRegions := Function.update σ.lowMemoryRegions saddr (some .empty)

def clearMemoryRegion (σ : MemoryRegions) (saddr : Nat) (a : Expr) (rs : List Region)
    (high : Bool) : MemoryRegions :=
  match σ.regions high saddr with
  | some m =>
    match m a with
    | some cur =>
      let temp := clearRegions rs cur
      let m' := if temp.length = 0 then Function.update m a none
        else Function.update m a (some temp)
      σ.withRegions high (Function.update (σ.regions high) saddr (some m'))
    | none => σ
  | none => σ

/-- The entry `m[a] = rs` of one state. -/
def writeRegions (σ : MemoryRegions) (high : Bool) (saddr : Nat) (a : Expr) (rs : List Region) :
    MemoryRegions :=
  let m := (σ.regions high saddr).getD .empty
  σ.withRegions high
    (Function.update (σ.regions high) saddr (some (Function.update m a (some rs))))

/-- The two setters, which differ in the label. -/
def setMemoryRegion (σ : MemoryRegions) (high : Bool) (saddr : Nat) (a : Expr)
    (rs : List Region) : MemoryRegions :=
  (σ.writeRegions high saddr a rs).clearMemoryRegion saddr a rs (!high)

def setHighMemoryRegion (σ : MemoryRegions) (saddr : Nat) (a : Expr) (rs : List Region) :
    MemoryRegions :=
  σ.setMemoryRegion true saddr a rs

def setLowMemoryRegion (σ : MemoryRegions) (saddr : Nat) (a : Expr) (rs : List Region) :
    MemoryRegions :=
  σ.setMemoryRegion false saddr a rs

/-- `addHighMemoryRegion` and `addLowMemoryRegion`: the region comes behind those of the
label, and the opposite label is not looked at. -/
def addMemoryRegion (σ : MemoryRegions) (high : Bool) (saddr : Nat) (a : Expr) (r : Region) :
    MemoryRegions :=
  let m := (σ.regions high saddr).getD .empty
  σ.writeRegions high saddr a ((m a).getD [] ++ [r])

def addHighMemoryRegion (σ : MemoryRegions) (saddr : Nat) (a : Expr) (r : Region) :
    MemoryRegions :=
  σ.addMemoryRegion true saddr a r

def addLowMemoryRegion (σ : MemoryRegions) (saddr : Nat) (a : Expr) (r : Region) :
    MemoryRegions :=
  σ.addMemoryRegion false saddr a r

/-- The two clone functions; the assertion fails for a state without an entry. -/
def cloneRegions (σ : MemoryRegions) (high : Bool) (faddr taddr : Nat) : Option MemoryRegions :=
  (σ.regions high faddr).map fun m =>
    σ.withRegions high (Function.update (σ.regions high) taddr (some m))

def cloneHighMemoryRegions (σ : MemoryRegions) (faddr taddr : Nat) : Option MemoryRegions :=
  σ.cloneRegions true faddr taddr

def cloneLowMemoryRegions (σ : MemoryRegions) (faddr taddr : Nat) : Option MemoryRegions :=
  σ.cloneRegions false faddr taddr

/-- The end of `ExecutionState::branch`. -/
def fork (σ : MemoryRegions) (faddr taddr : Nat) : Option MemoryRegions :=
  (σ.cloneHighMemoryRegions faddr taddr).bind fun σ' => σ'.cloneLowMemoryRegions faddr taddr

/-- The regions of a base address in a state. -/
def entry (σ : MemoryRegions) (high : Bool) (saddr : Nat) (a : Expr) : List Region :=
  (((σ.regions high saddr).getD .empty) a).getD []

/-- The bits of a base address that carry a label in a state. -/
def labelled (σ : MemoryRegions) (high : Bool) (saddr : Nat) (a : Expr) : Set Nat :=
  covers (σ.entry high saddr a)

@[simp] theorem regions_withRegions (σ : MemoryRegions) (high : Bool)
    (m : StdMap Nat AddressRegions) : (σ.withRegions high m).regions high = m := by
  cases high <;> rfl

@[simp] theorem regions_withRegions_not (σ : MemoryRegions) (high : Bool)
    (m : StdMap Nat AddressRegions) :
    (σ.withRegions high m).regions (!high) = σ.regions (!high) := by
  cases high <;> rfl

@[simp] theorem regions_not_withRegions (σ : MemoryRegions) (high : Bool)
    (m : StdMap Nat AddressRegions) :
    (σ.withRegions (!high) m).regions high = σ.regions high := by
  cases high <;> rfl

variable (σ : MemoryRegions) (high : Bool) (saddr : Nat) (a : Expr) (rs : List Region)

theorem writeRegions_entry (s : Nat) (b : Expr) :
    (σ.writeRegions high saddr a rs).entry high s b =
      if s = saddr ∧ b = a then rs else σ.entry high s b := by
  unfold entry writeRegions
  rw [regions_withRegions]
  by_cases hs : s = saddr
  · subst hs
    by_cases hb : b = a
    · subst hb
      simp
    · simp [hb]
  · simp [hs]

@[simp] theorem writeRegions_entry_not (s : Nat) (b : Expr) :
    (σ.writeRegions high saddr a rs).entry (!high) s b = σ.entry (!high) s b := by
  unfold entry writeRegions
  rw [regions_withRegions_not]

theorem clearMemoryRegion_entry (s : Nat) (b : Expr) :
    (σ.clearMemoryRegion saddr a rs high).entry high s b =
      if s = saddr ∧ b = a then clearRegions rs (σ.entry high s b) else σ.entry high s b := by
  unfold clearMemoryRegion
  split
  · rename_i m hm
    split
    · rename_i cur hcur
      unfold entry
      rw [regions_withRegions]
      by_cases hs : s = saddr
      · subst hs
        by_cases hb : b = a
        · subst hb
          by_cases hempty : clearRegions rs cur = []
          · simp [hm, hcur, hempty]
          · simp [hm, hcur, hempty]
        · by_cases hempty : clearRegions rs cur = []
          · simp [hm, hb, hempty]
          · simp [hm, hb, hempty]
      · simp [hs]
    · rename_i hnone
      split
      · rename_i heq
        rw [heq.1, heq.2]
        simp [entry, hm, hnone, clearRegions_nil]
      · rfl
  · rename_i hnone
    split
    · rename_i heq
      rw [heq.1, heq.2]
      simp [entry, hnone, StdMap.empty, clearRegions_nil]
    · rfl

theorem clearMemoryRegion_entry_not (s : Nat) (b : Expr) :
    (σ.clearMemoryRegion saddr a rs (!high)).entry high s b = σ.entry high s b := by
  unfold clearMemoryRegion
  split
  · split
    · unfold entry
      rw [regions_not_withRegions]
    · rfl
  · rfl

theorem setMemoryRegion_entry (s : Nat) (b : Expr) :
    (σ.setMemoryRegion high saddr a rs).entry high s b =
      if s = saddr ∧ b = a then rs else σ.entry high s b := by
  unfold setMemoryRegion
  rw [clearMemoryRegion_entry_not, writeRegions_entry]

theorem setMemoryRegion_entry_not (s : Nat) (b : Expr) :
    (σ.setMemoryRegion high saddr a rs).entry (!high) s b =
      if s = saddr ∧ b = a then clearRegions rs (σ.entry (!high) s b) else σ.entry (!high) s b := by
  unfold setMemoryRegion
  rw [clearMemoryRegion_entry, writeRegions_entry_not]

theorem addMemoryRegion_entry (r : Region) (s : Nat) (b : Expr) :
    (σ.addMemoryRegion high saddr a r).entry high s b =
      if s = saddr ∧ b = a then σ.entry high s b ++ [r] else σ.entry high s b := by
  unfold addMemoryRegion
  rw [writeRegions_entry]
  split
  · rename_i heq
    rw [heq.1, heq.2]
    rfl
  · rfl

theorem addMemoryRegion_entry_not (r : Region) (s : Nat) (b : Expr) :
    (σ.addMemoryRegion high saddr a r).entry (!high) s b = σ.entry (!high) s b := by
  unfold addMemoryRegion
  rw [writeRegions_entry_not]

end MemoryRegions

/-- A call of one of the four mutators on a state. -/
inductive MemoryCall where
  | set (high : Bool) (a : Expr) (rs : List Region)
  | add (high : Bool) (a : Expr) (r : Region)

def MemoryCall.run (σ : MemoryRegions) (saddr : Nat) : MemoryCall → MemoryRegions
  | .set true a rs => σ.setHighMemoryRegion saddr a rs
  | .set false a rs => σ.setLowMemoryRegion saddr a rs
  | .add true a r => σ.addHighMemoryRegion saddr a r
  | .add false a r => σ.addLowMemoryRegion saddr a r

/-- The labels and the live states that runs reach whose calls all meet a condition. The
address of a deleted state may be that of a new one. -/
inductive MemoryRun (P : MemoryRegions → Nat → MemoryCall → Prop) :
    MemoryRegions → List Nat → Prop
  | start (s : Nat) : MemoryRun P (MemoryRegions.empty.initHighLowRegions s) [s]
  | call {σ : MemoryRegions} {live : List Nat} {s : Nat} {c : MemoryCall}
      (h : MemoryRun P σ live) (hs : s ∈ live) (hP : P σ s c) : MemoryRun P (c.run σ s) live
  | fork {σ σ' : MemoryRegions} {live : List Nat} {s t : Nat} (h : MemoryRun P σ live)
      (hs : s ∈ live) (ht : t ∉ live) (hfork : σ.fork s t = some σ') :
      MemoryRun P σ' (t :: live)
  | delete {σ : MemoryRegions} {live : List Nat} (h : MemoryRun P σ live) (s : Nat) :
      MemoryRun P σ (live.erase s)

/-- A setter takes its regions out of those with the opposite label cleanly; an added
region has no bit with the opposite label. -/
def LabelsCleanly (σ : MemoryRegions) (saddr : Nat) : MemoryCall → Prop
  | .set high a rs => (∀ r ∈ rs, r.Proper) ∧ ClearsCleanly rs (σ.entry (!high) saddr a)
  | .add high a r => r.Proper ∧ Disjoint r.bits (σ.labelled (!high) saddr a)

namespace MemoryRegions

/-- The labels of every state are apart. -/
structure MemoryApart (σ : MemoryRegions) : Prop where
  apart : ∀ high s a, Disjoint (σ.labelled high s a) (σ.labelled (!high) s a)
  proper : ∀ high s a, ∀ r ∈ σ.entry high s a, r.Proper

/-- The states have entries in both maps. -/
def Initialised (σ : MemoryRegions) (live : List Nat) : Prop :=
  ∀ s ∈ live, ∀ high, (σ.regions high s).isSome = true

variable {σ : MemoryRegions} {saddr : Nat}

/-- It is enough to look at the address that is labelled, from the side of one label. -/
theorem MemoryApart.of_label {σ' : MemoryRegions} (hσ : MemoryApart σ) (saddr : Nat) (a : Expr) (high : Bool)
    (hother : ∀ h s b, ¬ (s = saddr ∧ b = a) → σ'.entry h s b = σ.entry h s b)
    (hproper : ∀ h, ∀ r ∈ σ'.entry h saddr a, r.Proper)
    (hapart : Disjoint (σ'.labelled high saddr a) (σ'.labelled (!high) saddr a)) :
    MemoryApart σ' := by
  refine ⟨?_, ?_⟩
  · intro h s b
    by_cases hsame : s = saddr ∧ b = a
    · rw [hsame.1, hsame.2]
      rcases Bool.eq_or_eq_not h high with hh | hh
      · rw [hh]
        exact hapart
      · rw [hh, Bool.not_not]
        exact hapart.symm
    · unfold labelled
      rw [hother h s b hsame, hother (!h) s b hsame]
      exact hσ.apart h s b
  · intro h s b
    by_cases hsame : s = saddr ∧ b = a
    · rw [hsame.1, hsame.2]
      exact hproper h
    · rw [hother h s b hsame]
      exact hσ.proper h s b

theorem setMemoryRegion_apart (hσ : MemoryApart σ) {high : Bool} {a : Expr} {rs : List Region}
    (hrs : ∀ r ∈ rs, r.Proper) (hclean : ClearsCleanly rs (σ.entry (!high) saddr a)) :
    MemoryApart (σ.setMemoryRegion high saddr a rs) := by
  obtain ⟨hleft, hbits⟩ := clearRegions_covers hrs (hσ.proper (!high) saddr a) hclean
  refine hσ.of_label saddr a high ?_ ?_ ?_
  · intro h s b hne
    rcases Bool.eq_or_eq_not h high with hh | hh
    · rw [hh, setMemoryRegion_entry, if_neg hne]
    · rw [hh, setMemoryRegion_entry_not, if_neg hne]
  · intro h
    rcases Bool.eq_or_eq_not h high with hh | hh
    · rw [hh, setMemoryRegion_entry, if_pos ⟨rfl, rfl⟩]
      exact hrs
    · rw [hh, setMemoryRegion_entry_not, if_pos ⟨rfl, rfl⟩]
      exact hleft
  · unfold labelled
    rw [setMemoryRegion_entry, if_pos ⟨rfl, rfl⟩, setMemoryRegion_entry_not, if_pos ⟨rfl, rfl⟩,
      hbits]
    exact disjoint_sdiff_self_right

theorem addMemoryRegion_apart (hσ : MemoryApart σ) {high : Bool} {a : Expr} {r : Region}
    (hr : r.Proper) (hnew : Disjoint r.bits (σ.labelled (!high) saddr a)) :
    MemoryApart (σ.addMemoryRegion high saddr a r) := by
  refine hσ.of_label saddr a high ?_ ?_ ?_
  · intro h s b hne
    rcases Bool.eq_or_eq_not h high with hh | hh
    · rw [hh, addMemoryRegion_entry, if_neg hne]
    · rw [hh, addMemoryRegion_entry_not]
  · intro h
    rcases Bool.eq_or_eq_not h high with hh | hh
    · rw [hh, addMemoryRegion_entry, if_pos ⟨rfl, rfl⟩]
      intro q hq
      rcases List.mem_append.mp hq with hq | hq
      · exact hσ.proper high saddr a q hq
      · rw [List.mem_singleton.mp hq]
        exact hr
    · rw [hh, addMemoryRegion_entry_not]
      exact hσ.proper (!high) saddr a
  · unfold labelled
    rw [addMemoryRegion_entry, if_pos ⟨rfl, rfl⟩, addMemoryRegion_entry_not, covers_append,
      Set.disjoint_union_left]
    refine ⟨hσ.apart high saddr a, ?_⟩
    rw [covers_cons, covers_nil, Set.union_empty]
    exact hnew

theorem run_apart (hσ : MemoryApart σ) {c : MemoryCall} (hc : LabelsCleanly σ saddr c) :
    MemoryApart (c.run σ saddr) := by
  match c with
  | .set true a rs => exact setMemoryRegion_apart hσ hc.1 hc.2
  | .set false a rs => exact setMemoryRegion_apart hσ hc.1 hc.2
  | .add true a r => exact addMemoryRegion_apart hσ hc.1 hc.2
  | .add false a r => exact addMemoryRegion_apart hσ hc.1 hc.2

/-- A fork of a state with both entries copies them, and changes no others. -/
theorem fork_entries {s t : Nat} (hs : ∀ high, (σ.regions high s).isSome = true) :
    ∃ σ', σ.fork s t = some σ' ∧
      ∀ high, σ'.regions high = Function.update (σ.regions high) t (σ.regions high s) := by
  obtain ⟨mhigh, hhigh⟩ := Option.isSome_iff_exists.mp (hs true)
  obtain ⟨mlow, hlow⟩ := Option.isSome_iff_exists.mp (hs false)
  unfold fork cloneHighMemoryRegions cloneLowMemoryRegions cloneRegions
  rw [hhigh, Option.map_some, Option.bind_some]
  have hkept : (σ.withRegions true (Function.update (σ.regions true) t (some mhigh))).regions false =
      σ.regions false := rfl
  rw [hkept, hlow, Option.map_some]
  refine ⟨_, rfl, ?_⟩
  intro high
  cases high with
  | true => rw [hhigh]; rfl
  | false => rw [hlow]; rfl

/-- The two states of a fork have the labels that the first one had, whatever the address
of the second one was used for before. -/
theorem fork_labelled {s t : Nat} (hs : ∀ high, (σ.regions high s).isSome = true) :
    ∃ σ', σ.fork s t = some σ' ∧ ∀ high a,
      σ'.labelled high t a = σ.labelled high s a ∧ σ'.labelled high s a = σ.labelled high s a := by
  obtain ⟨σ', hfork, hregions⟩ := fork_entries hs (t := t)
  refine ⟨σ', hfork, ?_⟩
  intro high a
  unfold labelled entry
  rw [hregions high, Function.update_self]
  refine ⟨rfl, ?_⟩
  by_cases hst : s = t
  · rw [hst, Function.update_self]
  · rw [Function.update_of_ne hst]

theorem fork_apart (hσ : MemoryApart σ) {s t : Nat} {σ' : MemoryRegions}
    (hregions : ∀ high, σ'.regions high = Function.update (σ.regions high) t (σ.regions high s)) :
    MemoryApart σ' := by
  have hentry : ∀ u a, ∃ v, ∀ h, σ'.entry h u a = σ.entry h v a := by
    intro u a
    by_cases hu : u = t
    · refine ⟨s, ?_⟩
      intro h
      unfold entry
      rw [hu, hregions h, Function.update_self]
    · refine ⟨u, ?_⟩
      intro h
      unfold entry
      rw [hregions h, Function.update_of_ne hu]
  refine ⟨?_, ?_⟩
  · intro high u a
    obtain ⟨v, hv⟩ := hentry u a
    unfold labelled
    rw [hv, hv]
    exact hσ.apart high v a
  · intro high u a
    obtain ⟨v, hv⟩ := hentry u a
    rw [hv]
    exact hσ.proper high v a

theorem withRegions_isSome {high : Bool} {m : AddressRegions} {s : Nat} {h : Bool}
    (hs : (σ.regions h s).isSome = true) :
    ((σ.withRegions high (Function.update (σ.regions high) saddr (some m))).regions h s).isSome =
      true := by
  rcases Bool.eq_or_eq_not h high with hh | hh
  · rw [hh, regions_withRegions, Function.update_apply]
    split
    · rfl
    · rw [← hh]
      exact hs
  · rw [hh, regions_withRegions_not, ← hh]
    exact hs

theorem clearMemoryRegion_isSome {high : Bool} {a : Expr} {rs : List Region} {s : Nat} {h : Bool}
    (hs : (σ.regions h s).isSome = true) :
    ((σ.clearMemoryRegion saddr a rs high).regions h s).isSome = true := by
  unfold clearMemoryRegion
  split
  · split
    · exact withRegions_isSome hs
    · exact hs
  · exact hs

theorem run_initialised {live : List Nat} (h : Initialised σ live) (c : MemoryCall) :
    Initialised (c.run σ saddr) live := by
  intro s hs high
  have hsome := h s hs high
  match c with
  | .set true a rs => exact clearMemoryRegion_isSome (withRegions_isSome hsome)
  | .set false a rs => exact clearMemoryRegion_isSome (withRegions_isSome hsome)
  | .add true a r => exact withRegions_isSome hsome
  | .add false a r => exact withRegions_isSome hsome

theorem start_entry (s : Nat) (high : Bool) (t : Nat) (a : Expr) :
    (MemoryRegions.empty.initHighLowRegions s).entry high t a = [] := by
  unfold entry
  by_cases ht : t = s
  · cases high <;> simp [regions, initHighLowRegions, ht, StdMap.empty]
  · cases high <;> simp [regions, initHighLowRegions, empty, ht, StdMap.empty]

theorem memoryRun_apart {live : List Nat} (h : MemoryRun LabelsCleanly σ live) :
    MemoryApart σ ∧ Initialised σ live := by
  induction h with
  | start s =>
    refine ⟨⟨?_, ?_⟩, ?_⟩
    · intro high t a
      unfold labelled
      rw [start_entry, covers_nil]
      exact Set.empty_disjoint _
    · intro high t a
      rw [start_entry]
      simp
    · intro t ht high
      rw [List.mem_singleton.mp ht]
      cases high <;> simp [regions, initHighLowRegions]
  | call _ _ hP ih => exact ⟨run_apart ih.1 hP, run_initialised ih.2 _⟩
  | @fork σ σ' live s t _ hs _ hfork ih =>
    obtain ⟨σ'', hfork', hregions⟩ := fork_entries (ih.2 s hs) (t := t)
    cases hfork.symm.trans hfork'
    refine ⟨fork_apart ih.1 hregions, ?_⟩
    intro u hu high
    rw [hregions high, Function.update_apply]
    split
    · exact ih.2 s hs high
    · rename_i hne
      rcases List.mem_cons.mp hu with hu | hu
      · contradiction
      · exact ih.2 u hu high
  | delete _ s ih => exact ⟨ih.1, fun u hu => ih.2 u (List.mem_of_mem_erase hu)⟩

/-- In a run of clean calls no bit has both labels, and a fork gives both states the labels
of the first one. -/
theorem memory_labels_apart (σ : MemoryRegions) (live : List Nat)
    (h : MemoryRun LabelsCleanly σ live) :
    (∀ s a, Disjoint (σ.labelled true s a) (σ.labelled false s a)) ∧
    ∀ s ∈ live, ∀ t, ∃ σ', σ.fork s t = some σ' ∧ ∀ high a,
      σ'.labelled high t a = σ.labelled high s a ∧
        σ'.labelled high s a = σ.labelled high s a := by
  obtain ⟨hapart, hinitialised⟩ := memoryRun_apart h
  exact ⟨fun s a => hapart.apart true s a, fun s hs _ => fork_labelled (hinitialised s hs)⟩

def keyAddress : Expr := .const 64 4096

/-- The first state labels a byte low, and its first bit high. -/
theorem first_bit_apart : ∃ σ live, MemoryRun LabelsCleanly σ live ∧
    0 ∈ σ.labelled true 1 keyAddress ∧
    (∀ s a, Disjoint (σ.labelled true s a) (σ.labelled false s a)) ∧
    ∀ s ∈ live, ∀ t, ∃ σ', σ.fork s t = some σ' ∧ ∀ high a,
      σ'.labelled high t a = σ.labelled high s a ∧
        σ'.labelled high s a = σ.labelled high s a := by
  have hlow : LabelsCleanly (MemoryRegions.empty.initHighLowRegions 1) 1
      (.set false keyAddress [⟨0, 8⟩]) := by
    refine ⟨?_, ?_⟩
    · intro r hr
      rw [List.mem_singleton.mp hr]
      exact ⟨by decide, by decide⟩
    · rw [start_entry]
      intro s hs
      cases hs
  have hhigh : LabelsCleanly (MemoryCall.run (MemoryRegions.empty.initHighLowRegions 1) 1
      (.set false keyAddress [⟨0, 8⟩])) 1 (.set true keyAddress [⟨0, 1⟩]) := by
    refine ⟨?_, ?_⟩
    · intro r hr
      rw [List.mem_singleton.mp hr]
      exact ⟨by decide, by decide⟩
    · intro s hs
      rw [Bool.not_true, MemoryCall.run, setLowMemoryRegion, setMemoryRegion_entry,
        if_pos ⟨rfl, rfl⟩] at hs
      rw [List.mem_singleton.mp hs]
      refine ⟨.inl ?_, trivial⟩
      intro b hb
      exact ⟨hb.1, Nat.lt_of_lt_of_le hb.2 (by decide)⟩
  have hrun : MemoryRun LabelsCleanly _ [1] :=
    .call (.call (.start 1) List.mem_cons_self hlow) List.mem_cons_self hhigh
  obtain ⟨hapart, hfork⟩ := memory_labels_apart _ _ hrun
  refine ⟨_, _, hrun, ?_, hapart, hfork⟩
  unfold labelled
  rw [MemoryCall.run, setHighMemoryRegion, setMemoryRegion_entry, if_pos ⟨rfl, rfl⟩]
  exact ⟨_, List.mem_cons_self, by decide, by decide⟩

/-- The regions of a call have positive sizes. -/
def LabelsBits : MemoryCall → Prop
  | .set _ _ rs => ∀ r ∈ rs, 0 < r.size.toNat
  | .add _ _ r => 0 < r.size.toNat

/-- The second byte is low. Then the first two become high, and the first becomes low as
well. -/
theorem high_memory_turns_low : ¬ ∀ σ live, MemoryRun (fun _ _ c => LabelsBits c) σ live →
    ∀ s a, Disjoint (σ.labelled true s a) (σ.labelled false s a) := by
  intro hall
  have hlow : LabelsBits (.set false keyAddress [⟨8, 8⟩]) := by
    intro r hr
    rw [List.mem_singleton.mp hr]
    decide
  have hhigh : LabelsBits (.set true keyAddress [⟨0, 16⟩]) := by
    intro r hr
    rw [List.mem_singleton.mp hr]
    decide
  have h := hall _ _ (.call (.call (.start 1) List.mem_cons_self hlow) List.mem_cons_self hhigh)
    1 keyAddress
  have hnone := Set.disjoint_left.mp h
  refine @hnone 0 ?_ ?_
  · unfold labelled
    rw [MemoryCall.run, setHighMemoryRegion, setMemoryRegion_entry, if_pos ⟨rfl, rfl⟩]
    exact ⟨_, List.mem_cons_self, by decide, by decide⟩
  · have hleft : clearRegions [⟨0, 16⟩] [⟨8, 8⟩] = [⟨0, 8⟩] := by decide
    unfold labelled
    rw [MemoryCall.run, setHighMemoryRegion, ← Bool.not_true, setMemoryRegion_entry_not,
      if_pos ⟨rfl, rfl⟩, Bool.not_true, MemoryCall.run, setLowMemoryRegion,
      setMemoryRegion_entry, if_pos ⟨rfl, rfl⟩, hleft]
    exact ⟨_, List.mem_cons_self, by decide, by decide⟩

end MemoryRegions

end Encider
