import Encider.Flow.Order

/-! The interval functions of the information-flow maps, and what the maps say of a bit. -/

namespace Encider

open Ordered

/-- A region of a register or an object, with its sources. -/
abbrev RegionMap := List (FlowRegion × List InfoFlowRegion)

namespace FlowRegion

def stop (r : FlowRegion) : Int := r.offset + r.size

def bits (r : FlowRegion) : Set Int := {b | r.offset ≤ b ∧ b < r.stop}

def regionsIntersect (r1 r2 : FlowRegion) : Bool :=
  if r1.offset ≤ r2.offset ∧ r1.offset + r1.size - 1 ≤ r2.offset + r2.size - 1 then true
  else if r2.offset ≤ r1.offset ∧ r2.offset + r2.size - 1 ≤ r1.offset + r1.size - 1 then true
  else false

def intersection (r1 r2 : FlowRegion) : FlowRegion :=
  let r : FlowRegion := ⟨0, 0⟩
  let r := if r1.offset ≤ r2.offset ∧ r1.offset + r1.size - 1 ≤ r2.offset + r2.size - 1 then
    ⟨r2.offset, r1.offset + r1.size - r2.offset⟩ else r
  if r2.offset ≤ r1.offset ∧ r2.offset + r2.size - 1 ≤ r1.offset + r1.size - 1 then
    ⟨r1.offset, r2.offset + r2.size - r1.offset⟩ else r

def diffRegion (r1 r2 : FlowRegion) : FlowRegion :=
  if r1.offset = r2.offset then
    if r1.size ≤ r2.size then ⟨r1.offset, 0⟩
    else ⟨r1.size + r2.size, r1.size - r2.size⟩
  else if r1.offset < r2.offset ∧ r1.offset + r1.size - 1 ≤ r2.offset + r2.size - 1 then
    ⟨r1.offset, r2.offset - r1.offset⟩
  else if r2.offset < r1.offset ∧ r2.offset + r2.size - 1 ≤ r1.offset + r1.size - 1 then
    ⟨r2.offset + r2.size, r1.offset + r1.size - (r2.offset + r2.size)⟩
  else r1

def adjustment (r1 r2 : FlowRegion) : FlowRegion where
  offset := r2.offset - r1.offset
  size := r2.size - r1.size

def adjust (r adj : FlowRegion) : FlowRegion where
  offset := r.offset + adj.offset
  size := r.size + adj.size

/-- The first lies in the second and ends on neither side with it. -/
def StrictlyWithin (r1 r2 : FlowRegion) : Prop := r2.offset < r1.offset ∧ r1.stop < r2.stop

instance (r : FlowRegion) (b : Int) : Decidable (b ∈ r.bits) :=
  inferInstanceAs (Decidable (r.offset ≤ b ∧ b < r.stop))

instance (r1 r2 : FlowRegion) : Decidable (r1.StrictlyWithin r2) :=
  inferInstanceAs (Decidable (_ ∧ _))

variable {r r1 r2 : FlowRegion} {b : Int}

theorem mem_bits : b ∈ r.bits ↔ r.offset ≤ b ∧ b < r.stop := Iff.rfl

theorem mem_bits_mk {o s : Int} : b ∈ (⟨o, s⟩ : FlowRegion).bits ↔ o ≤ b ∧ b < o + s := Iff.rfl

/-- A region given by its ends. -/
theorem mem_bits_to {o e : Int} : b ∈ (⟨o, e - o⟩ : FlowRegion).bits ↔ o ≤ b ∧ b < e := by
  rw [mem_bits_mk]
  omega

theorem bits_nonempty_iff : r.bits.Nonempty ↔ 0 < r.size := by
  constructor
  · intro h
    obtain ⟨b, hb⟩ := h
    rw [mem_bits, stop] at hb
    omega
  · intro h
    exact ⟨r.offset, Int.le_refl _, by rw [stop]; omega⟩

theorem disjoint_iff (h1 : 0 < r1.size) (h2 : 0 < r2.size) :
    Disjoint r1.bits r2.bits ↔ r1.stop ≤ r2.offset ∨ r2.stop ≤ r1.offset := by
  rw [Set.disjoint_left]
  unfold stop
  constructor
  · intro h
    by_contra hmeets
    -- the later one of the two first bits is in both
    refine h (a := max r1.offset r2.offset) ?_ ?_
    · rw [mem_bits, stop]
      omega
    · rw [mem_bits, stop]
      omega
  · intro h b hb hb'
    rw [mem_bits, stop] at hb hb'
    omega

/-- Regions with the same bits are the same. -/
theorem eq_of_ends (hoffset : r1.offset = r2.offset) (hstop : r1.stop = r2.stop) : r1 = r2 := by
  have hsize : r1.size = r2.size := by
    unfold stop at hstop
    omega
  cases r1
  cases r2
  cases hoffset
  cases hsize
  rfl

/-- No difference is left where the first region lies in the second. -/
theorem diffRegion_size_eq_zero (h : 0 < r1.size) :
    (diffRegion r1 r2).size = 0 ↔
      r2.offset ≤ r1.offset ∧ r1.stop ≤ r2.stop ∧ ¬ r1.StrictlyWithin r2 := by
  unfold diffRegion StrictlyWithin stop
  split_ifs <;> (try dsimp only) <;> omega

theorem intersection_ends (h : 0 < (intersection r1 r2).size) :
    (intersection r1 r2).offset = max r1.offset r2.offset ∧
      (intersection r1 r2).stop = min r1.stop r2.stop := by
  revert h
  unfold intersection stop
  dsimp only
  split_ifs <;> (try dsimp only) <;> omega

/-- A size that is positive is that of the common bits. -/
theorem intersection_bits (h : 0 < (intersection r1 r2).size) :
    (intersection r1 r2).bits = r1.bits ∩ r2.bits := by
  obtain ⟨hoffset, hstop⟩ := intersection_ends h
  ext b
  rw [Set.mem_inter_iff, mem_bits, mem_bits, mem_bits, hoffset, hstop]
  omega

theorem intersection_size_pos : 0 < (intersection r1 r2).size ↔
    max r1.offset r2.offset < min r1.stop r2.stop ∧
      ¬ r1.StrictlyWithin r2 ∧ ¬ r2.StrictlyWithin r1 := by
  unfold intersection StrictlyWithin stop
  dsimp only
  split_ifs <;> (try dsimp only) <;> omega

end FlowRegion

namespace InfoFlowRegion

def adjust (ifr : InfoFlowRegion) (adj : FlowRegion) : InfoFlowRegion where
  index := ifr.index
  regions := ifr.regions.map fun r => r.adjust adj

/-- `adjust` for all sources of a region. -/
def adjustAll (ifrs : List InfoFlowRegion) (adj : FlowRegion) : List InfoFlowRegion :=
  ifrs.foldl (fun res ifr => add lt (ifr.adjust adj) res) []

/-- The indices of some sources. -/
def indices (ifrs : List InfoFlowRegion) : Set Int := {i | ∃ ifr ∈ ifrs, ifr.index = i}

theorem mem_addAll (xs s : List InfoFlowRegion) (x : InfoFlowRegion) :
    x ∈ xs.foldl (fun s y => add lt y s) s ↔ x ∈ xs ∨ x ∈ s :=
  Ordered.mem_addAll (fun _ _ h => not_lt_eq h.1 h.2) xs s x

theorem mem_adjustAll {ifrs : List InfoFlowRegion} {adj : FlowRegion} {x : InfoFlowRegion} :
    x ∈ adjustAll ifrs adj ↔ ∃ ifr ∈ ifrs, ifr.adjust adj = x := by
  have h := mem_addAll (ifrs.map fun ifr => ifr.adjust adj) [] x
  rw [List.foldl_map, List.mem_map] at h
  unfold adjustAll
  simpa using h

@[simp] theorem indices_adjustAll (ifrs : List InfoFlowRegion) (adj : FlowRegion) :
    indices (adjustAll ifrs adj) = indices ifrs := by
  ext i
  constructor
  · intro h
    obtain ⟨x, hx, rfl⟩ := h
    obtain ⟨ifr, hifr, rfl⟩ := mem_adjustAll.mp hx
    exact ⟨ifr, hifr, rfl⟩
  · intro h
    obtain ⟨ifr, hifr, rfl⟩ := h
    exact ⟨_, mem_adjustAll.mpr ⟨ifr, hifr, rfl⟩, rfl⟩

theorem indices_addAll (xs s : List InfoFlowRegion) :
    indices (xs.foldl (fun s y => add lt y s) s) = indices xs ∪ indices s := by
  ext i
  simp only [indices, mem_addAll, Set.mem_union, Set.mem_ofPred_eq, or_and_right, exists_or]

end InfoFlowRegion

namespace RegionMap

open FlowRegion InfoFlowRegion

/-- `ifrmap[r] = ifrs`. -/
def set (ifrmap : RegionMap) (r : FlowRegion) (ifrs : List InfoFlowRegion) : RegionMap :=
  insert FlowRegion.lt r ifrs ifrmap

/-- The bit is in a region whose sources have these indices. -/
def Maps (ifrmap : RegionMap) (b : Int) (s : Set Int) : Prop :=
  ∃ p ∈ ifrmap, b ∈ p.1.bits ∧ indices p.2 = s

/-- Regions of some bits, each bit in one of them at most. -/
structure Partition (ifrmap : RegionMap) : Prop where
  sorted : SortedIn FlowRegion.lt Set.univ ifrmap
  positive : ∀ p ∈ ifrmap, 0 < p.1.size
  disjoint : ∀ p ∈ ifrmap, ∀ q ∈ ifrmap, p.1 ≠ q.1 → Disjoint p.1.bits q.1.bits

variable {m : RegionMap} {r : FlowRegion} {p q : FlowRegion × List InfoFlowRegion} {b : Int}

theorem Partition.keys_inj (h : m.Partition) (hp : p ∈ m) (hq : q ∈ m) (heq : p.1 = q.1) :
    p = q :=
  h.sorted.eq_of_key (FlowRegion.linear _) hp hq heq

/-- A bit is in one region at most. -/
theorem Partition.eq_of_mem (h : m.Partition) (hp : p ∈ m) (hq : q ∈ m) (hbp : b ∈ p.1.bits)
    (hbq : b ∈ q.1.bits) : p = q := by
  by_contra hne
  exact Set.disjoint_left.mp (h.disjoint p hp q hq fun heq => hne (h.keys_inj hp hq heq)) hbp hbq

end RegionMap

end Encider
