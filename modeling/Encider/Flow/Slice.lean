import Encider.Flow.Interval

/-! `slice`: the part of an information-flow map within a region. -/

namespace Encider

open FlowRegion InfoFlowRegion Ordered

namespace RegionMap

/-- The first loop of `slice`: the entries that stay whole and those that are to be cut. -/
def sliceStep (rt : FlowRegion) (acc : RegionMap × RegionMap)
    (me : FlowRegion × List InfoFlowRegion) : RegionMap × RegionMap :=
  let rd := diffRegion me.1 rt
  let ri := intersection me.1 rt
  if rd.size = 0 then (acc.1.set me.1 me.2, acc.2)
  else if ri.size > 0 then (acc.1, acc.2 ++ [me])
  else acc

/-- What is cut out of an entry. -/
def cut (rt : FlowRegion) (me : FlowRegion × List InfoFlowRegion) :
    FlowRegion × List InfoFlowRegion :=
  let ri := intersection me.1 rt
  let rd1 := diffRegion me.1 rt
  (ri, adjustAll me.2 (adjustment me.1 rd1))

def slice (ifrmap : RegionMap) (rt : FlowRegion) : RegionMap :=
  if rt.size = 0 then []
  else
    let (res, tobesliced) := ifrmap.foldl (sliceStep rt) ([], [])
    tobesliced.foldl (fun res me => res.set (cut rt me).1 (cut rt me).2) res

/-- The entries that stay whole. -/
def Whole (rt : FlowRegion) (me : FlowRegion × List InfoFlowRegion) : Prop :=
  (diffRegion me.1 rt).size = 0

/-- The entries that are cut. -/
def Cut (rt : FlowRegion) (me : FlowRegion × List InfoFlowRegion) : Prop :=
  ¬ Whole rt me ∧ 0 < (intersection me.1 rt).size

instance (rt : FlowRegion) : DecidablePred (Whole rt) :=
  fun _ => inferInstanceAs (Decidable (_ = _))

instance (rt : FlowRegion) : DecidablePred (Cut rt) := fun _ => inferInstanceAs (Decidable (_ ∧ _))

theorem foldl_sliceStep (rt : FlowRegion) (l : RegionMap) (acc : RegionMap × RegionMap) :
    l.foldl (sliceStep rt) acc =
      ((l.filter (Whole rt ·)).foldl (fun res me => res.set me.1 me.2) acc.1,
        acc.2 ++ l.filter (Cut rt ·)) := by
  induction l generalizing acc with
  | nil => simp
  | cons me l ih =>
    rw [List.foldl_cons, ih, sliceStep]
    split
    · rename_i hwhole
      have hcut : ¬ Cut rt me := fun h => h.1 hwhole
      simp [show Whole rt me from hwhole, hcut]
    · rename_i hwhole
      split
      · rename_i hpos
        have hcut : Cut rt me := ⟨hwhole, hpos⟩
        simp [show ¬ Whole rt me from hwhole, hcut]
      · rename_i hpos
        have hcut : ¬ Cut rt me := fun h => hpos h.2
        simp [show ¬ Whole rt me from hwhole, hcut]

variable {m : RegionMap} {rt : FlowRegion} {me : FlowRegion × List InfoFlowRegion}

theorem Whole.subset (h : Whole rt me) (hpos : 0 < me.1.size) : me.1.bits ⊆ rt.bits := by
  obtain ⟨hlow, hhigh, _⟩ := (diffRegion_size_eq_zero hpos).mp h
  intro b hb
  rw [mem_bits] at hb ⊢
  omega

/-- The regions that come into the slice lie in the regions they are taken from. -/
theorem Cut.subset (h : Cut rt me) : (cut rt me).1.bits ⊆ me.1.bits := by
  rw [cut, intersection_bits h.2]
  exact Set.inter_subset_left

/-- Regions within regions of their own have keys of their own. -/
theorem Partition.key_ne (h : m.Partition) {p q : FlowRegion × List InfoFlowRegion} (hp : p ∈ m)
    (hq : q ∈ m) (hne : p ≠ q) {k l : FlowRegion} (hk : k.bits ⊆ p.1.bits) (hl : l.bits ⊆ q.1.bits)
    (hpos : 0 < k.size) : k ≠ l := by
  intro heq
  subst heq
  obtain ⟨b, hb⟩ := bits_nonempty_iff.mpr hpos
  exact hne (h.eq_of_mem hp hq (hk hb) (hl hb))

theorem Partition.nodup (h : m.Partition) : m.Nodup := by
  refine h.sorted.sorted.imp ?_
  intro p q hlt heq
  subst heq
  rw [(FlowRegion.linear Set.univ).irrefl _ trivial] at hlt
  contradiction

/-- The slice has the whole entries and what is cut out of others. -/
theorem Partition.mem_slice (h : m.Partition) (hsize : rt.size ≠ 0)
    (q : FlowRegion × List InfoFlowRegion) : q ∈ m.slice rt ↔
      (∃ me ∈ m, Whole rt me ∧ q = me) ∨ ∃ me ∈ m, Cut rt me ∧ q = cut rt me := by
  have hlinear := FlowRegion.linear Set.univ
  unfold slice
  rw [if_neg hsize, foldl_sliceStep, List.nil_append]
  dsimp only
  obtain ⟨hsorted, hwhole⟩ := insertAll hlinear (l := m.filter (Whole rt ·)) .nil
    (fun _ _ => trivial) (by
      refine (h.nodup.filter _).map_on ?_
      intro p hp p' hp' heq
      exact h.keys_inj (List.mem_of_mem_filter hp) (List.mem_of_mem_filter hp') heq) (by simp)
  have hcut := (insertAll hlinear (l := (m.filter (Cut rt ·)).map (cut rt)) hsorted
    (fun _ _ => trivial) (by
      rw [List.map_map]
      refine (h.nodup.filter _).map_on ?_
      intro p hp p' hp' heq
      obtain ⟨hp, hpcut⟩ := List.mem_filter.mp hp
      obtain ⟨hp', hpcut'⟩ := List.mem_filter.mp hp'
      by_contra hne
      exact h.key_ne hp hp' hne (of_decide_eq_true hpcut).subset (of_decide_eq_true hpcut').subset
        (of_decide_eq_true hpcut).2 heq) (by
      intro p hp p' hp'
      obtain ⟨me, hme, rfl⟩ := List.mem_map.mp hp
      obtain ⟨hme, hmecut⟩ := List.mem_filter.mp hme
      have hmecut := of_decide_eq_true hmecut
      rw [hwhole] at hp'
      obtain ⟨hp', hpwhole⟩ := List.mem_filter.mp (hp'.resolve_right (by simp))
      apply h.key_ne hme hp' _ hmecut.subset (subset_refl _) hmecut.2
      intro heq
      exact hmecut.1 (heq ▸ of_decide_eq_true hpwhole))).2 q
  rw [List.foldl_map] at hcut
  refine hcut.trans ?_
  rw [hwhole, or_comm]
  simp only [List.mem_filter, List.mem_map, decide_eq_true_eq, List.not_mem_nil, or_false]
  refine or_congr ?_ ?_
  · constructor
    · intro hq
      exact ⟨q, hq.1, hq.2, rfl⟩
    · intro hq
      obtain ⟨me, hme, hmewhole, rfl⟩ := hq
      exact ⟨hme, hmewhole⟩
  · constructor
    · intro hq
      obtain ⟨me, ⟨hme, hmecut⟩, rfl⟩ := hq
      exact ⟨me, hme, hmecut, rfl⟩
    · intro hq
      obtain ⟨me, hme, hmecut, rfl⟩ := hq
      exact ⟨me, ⟨hme, hmecut⟩, rfl⟩

/-- The slice has the bits of the map that are in the region, each with the indices it has in
the map. -/
def SlicesTo (m : RegionMap) (rt : FlowRegion) : Prop :=
  ∀ b s, (m.slice rt).Maps b s ↔ b ∈ rt.bits ∧ m.Maps b s

/-- Neither of the two lies strictly within the other. -/
def Aligned (r1 r2 : FlowRegion) : Prop := ¬ r1.StrictlyWithin r2 ∧ ¬ r2.StrictlyWithin r1

instance (r1 r2 : FlowRegion) : Decidable (Aligned r1 r2) := inferInstanceAs (Decidable (_ ∧ _))

theorem Partition.maps_slice (h : m.Partition) (b : Int) (s : Set Int) :
    (m.slice rt).Maps b s ↔ ∃ me ∈ m, (Whole rt me ∨ Cut rt me) ∧
      (b ∈ me.1.bits ∧ b ∈ rt.bits) ∧ indices me.2 = s := by
  by_cases hsize : rt.size = 0
  · refine iff_of_false ?_ ?_
    · unfold Maps slice
      rw [if_pos hsize]
      simp
    · intro hmaps
      obtain ⟨me, _, _, ⟨_, hb⟩, _⟩ := hmaps
      have := bits_nonempty_iff.mp ⟨b, hb⟩
      omega
  · constructor
    · intro hmaps
      obtain ⟨q, hq, hb, hs⟩ := hmaps
      rcases (h.mem_slice hsize q).mp hq with ⟨me, hme, hwhole, rfl⟩ | ⟨me, hme, hcut, rfl⟩
      · exact ⟨q, hme, .inl hwhole, ⟨hb, hwhole.subset (h.positive q hme) hb⟩, hs⟩
      · rw [cut, intersection_bits hcut.2] at hb
        rw [cut, indices_adjustAll] at hs
        exact ⟨me, hme, .inr hcut, hb, hs⟩
    · intro hmaps
      obtain ⟨me, hme, hwhole | hcut, hb, hs⟩ := hmaps
      · exact ⟨me, (h.mem_slice hsize me).mpr (.inl ⟨me, hme, hwhole, rfl⟩), hb.1, hs⟩
      · refine ⟨cut rt me, (h.mem_slice hsize _).mpr (.inr ⟨me, hme, hcut, rfl⟩), ?_, ?_⟩
        · rw [cut, intersection_bits hcut.2]
          exact hb
        · rw [cut, indices_adjustAll]
          exact hs

/-- A region that meets the other comes into the slice unless one lies strictly within the
other. -/
theorem aligned_iff (hpos : 0 < me.1.size)
    (hmeets : max me.1.offset rt.offset < min me.1.stop rt.stop) :
    Whole rt me ∨ Cut rt me ↔ Aligned me.1 rt := by
  unfold Cut Aligned
  rw [Whole, diffRegion_size_eq_zero hpos, intersection_size_pos]
  unfold StrictlyWithin stop at *
  omega

/-- Exactly where the region has no bits, or no entry lies strictly within it or it in an entry. -/
theorem slicesTo_iff (h : m.Partition) : m.SlicesTo rt ↔ rt.size ≤ 0 ∨ ∀ p ∈ m, Aligned p.1 rt := by
  unfold SlicesTo
  simp only [h.maps_slice]
  constructor
  · intro hslice
    by_contra hnot
    rw [not_or] at hnot
    push Not at hnot
    obtain ⟨hsize, p, hp, hwithin⟩ := hnot
    have hpos := h.positive p hp
    have hmeets : max p.1.offset rt.offset < min p.1.stop rt.stop := by
      unfold Aligned StrictlyWithin at hwithin
      unfold stop at *
      omega
    have hb : max p.1.offset rt.offset ∈ p.1.bits ∧ max p.1.offset rt.offset ∈ rt.bits := by
      rw [mem_bits, mem_bits]
      omega
    obtain ⟨q, hq, htaken, hbq, _⟩ :=
      (hslice _ (indices p.2)).mpr ⟨hb.2, p, hp, hb.1, rfl⟩
    obtain rfl := h.eq_of_mem hp hq hb.1 hbq.1
    exact hwithin ((aligned_iff hpos hmeets).mp htaken)
  · intro hcond b s
    constructor
    · intro hmaps
      obtain ⟨me, hme, _, hb, hs⟩ := hmaps
      exact ⟨hb.2, me, hme, hb.1, hs⟩
    · intro hmaps
      obtain ⟨hbt, me, hme, hb, hs⟩ := hmaps
      have hmeets : max me.1.offset rt.offset < min me.1.stop rt.stop := by
        rw [mem_bits] at hb hbt
        omega
      have hsize := bits_nonempty_iff.mp ⟨b, hbt⟩
      have haligned := (hcond.resolve_left (by omega)) me hme
      exact ⟨me, hme, (aligned_iff (h.positive me hme) hmeets).mpr haligned, ⟨hb, hbt⟩, hs⟩

/-- A register of two words from one argument. -/
def twoWords : RegionMap := [(⟨0, 64⟩, [⟨1, [⟨0, 64⟩]⟩])]

theorem twoWords_partition : twoWords.Partition := by
  refine ⟨⟨fun _ _ => trivial, List.pairwise_singleton _ _⟩, ?_, ?_⟩
  · decide
  · intro p hp q hq hne
    rw [List.mem_singleton.mp hp, List.mem_singleton.mp hq] at hne
    contradiction

/-- Its lower half is sliced as it should be. -/
theorem twoWords_lower : twoWords.SlicesTo ⟨0, 32⟩ :=
  (slicesTo_iff twoWords_partition).mpr (.inr (by
    intro p hp
    rw [List.mem_singleton.mp hp]
    decide))

/-- A byte in its middle is lost. -/
theorem twoWords_middle : ¬ twoWords.SlicesTo ⟨24, 8⟩ := by
  intro h
  have hmaps := (h 24 {1}).mpr ⟨by decide, _, List.mem_singleton_self _, by decide, by
    ext i
    simp [indices, eq_comm]⟩
  obtain ⟨p, hp, _⟩ := hmaps
  have hempty : twoWords.slice ⟨24, 8⟩ = [] := by decide
  rw [hempty] at hp
  contradiction

end RegionMap

end Encider
