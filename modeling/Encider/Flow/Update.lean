import Encider.Flow.Partition

/-! The entries after `partitionAndUpdateIFlow`, and regions that are updated as they should be. -/

namespace Encider

open FlowRegion InfoFlowRegion Ordered

namespace RegionMap

variable {m : RegionMap} {rt : FlowRegion} {ifrcs : List InfoFlowRegion} {replace : Bool}
  {me : FlowRegion × List InfoFlowRegion} {b : Int}

/-- What an entry keeps of its own outside the region. -/
def rest (rt : FlowRegion) (me : FlowRegion × List InfoFlowRegion) :
    FlowRegion × List InfoFlowRegion :=
  let rd1 := diffRegion me.1 rt
  (rd1, adjustAll me.2 (adjustment me.1 rd1))

/-- What an entry gets within the region. -/
def common (rt : FlowRegion) (ifrcs : List InfoFlowRegion) (replace : Bool)
    (me : FlowRegion × List InfoFlowRegion) : FlowRegion × List InfoFlowRegion :=
  let rd3 := intersection me.1 rt
  (rd3, commonSources rt ifrcs replace me rd3)

/-- The entries in place of a covered one. -/
def pieces (rt : FlowRegion) (ifrcs : List InfoFlowRegion) (replace : Bool)
    (me : FlowRegion × List InfoFlowRegion) : RegionMap :=
  (if (diffRegion me.1 rt).size > 0 then [rest rt me] else []) ++
    if (intersection me.1 rt).size > 0 then [common rt ifrcs replace me] else []

theorem mem_pieces {q : FlowRegion × List InfoFlowRegion} : q ∈ pieces rt ifrcs replace me ↔
    0 < (diffRegion me.1 rt).size ∧ q = rest rt me ∨
      0 < (intersection me.1 rt).size ∧ q = common rt ifrcs replace me := by
  unfold pieces
  rw [List.mem_append]
  refine or_congr ?_ ?_
  · split
    · rename_i hpos
      simp [hpos]
    · rename_i hpos
      simp [hpos]
  · split
    · rename_i hpos
      simp [hpos]
    · rename_i hpos
      simp [hpos]

/-- The covered entries, and the regions that they have in common with the region. -/
def covered (m : RegionMap) (rt : FlowRegion) : RegionMap :=
  m.filter fun me => regionsIntersect me.1 rt

def toberemoved (rt : FlowRegion) (l : RegionMap) : List FlowRegion :=
  (l.map fun me => intersection me.1 rt).filter fun r => r.size > 0

/-- The map with the pieces of some entries in their place. -/
def replaced (m : RegionMap) (rt : FlowRegion) (ifrcs : List InfoFlowRegion) (replace : Bool)
    (l : RegionMap) : RegionMap :=
  l.foldl (fun m me => (pieces rt ifrcs replace me).foldl
    (fun m q => Ordered.insert FlowRegion.lt q.1 q.2 m) (Ordered.erase FlowRegion.lt me.1 m)) m

theorem foldl_partitionStep (l : RegionMap) (acc : RegionMap × List FlowRegion) :
    l.foldl (partitionStep rt ifrcs replace) acc =
      (replaced acc.1 rt ifrcs replace l, acc.2 ++ toberemoved rt l) := by
  induction l generalizing acc with
  | nil => simp [toberemoved, replaced]
  | cons me l ih =>
    rw [List.foldl_cons, ih, replaced, replaced, List.foldl_cons, partitionStep, pieces,
      toberemoved, toberemoved, List.map_cons]
    by_cases hcommon : (intersection me.1 rt).size > 0
    · rw [if_pos hcommon, if_pos hcommon, List.filter_cons_of_pos (by simpa using hcommon)]
      by_cases hrest : (diffRegion me.1 rt).size > 0
      · simp [hrest, rest, common, RegionMap.set]
      · simp [hrest, common, RegionMap.set]
    · rw [if_neg hcommon, if_neg hcommon, List.filter_cons_of_neg (by simpa using hcommon)]
      by_cases hrest : (diffRegion me.1 rt).size > 0
      · simp [hrest, rest, RegionMap.set]
      · simp [hrest]

theorem indices_rest : indices (rest rt me).2 = indices me.2 := indices_adjustAll _ _

theorem indices_common : indices (common rt ifrcs replace me).2 =
    indices ifrcs ∪ if replace then ∅ else indices me.2 := by
  unfold common commonSources
  dsimp only
  cases replace with
  | true => simp
  | false =>
    have h := indices_addAll
      (me.2.map fun ifre => ifre.adjust (adjustment me.1 (intersection me.1 rt)))
      (adjustAll ifrcs (adjustment rt (intersection me.1 rt)))
    rw [List.foldl_map, indices_adjustAll] at h
    rw [if_neg (by decide), if_neg (by decide), h, Set.union_comm]
    congr 1
    ext i
    simp [indices, InfoFlowRegion.adjust]

theorem Updatable.rest_bits (h : Updatable m rt ifrcs replace) (hme : me ∈ m)
    (hcovered : regionsIntersect me.1 rt = true) (hpos : 0 < me.1.size) (b : Int) :
    0 < (diffRegion me.1 rt).size ∧ b ∈ (rest rt me).1.bits ↔ b ∈ me.1.bits ∧ b ∉ rt.bits := by
  have hcontains := h.contains me hme
  have hbefore := h.before me hme
  have hbehind := h.behind me hme
  have haligned := h.aligned me hme
  rw [regionsIntersect_iff] at hcovered
  unfold rest diffRegion
  rw [mem_bits, mem_bits, mem_bits]
  unfold StrictlyWithin stop at *
  dsimp only
  split_ifs <;> (try dsimp only) <;> omega

theorem common_bits (h : regionsIntersect me.1 rt = true) (b : Int) :
    0 < (intersection me.1 rt).size ∧ b ∈ (common rt ifrcs replace me).1.bits ↔
      b ∈ me.1.bits ∧ b ∈ rt.bits := by
  rw [regionsIntersect_iff] at h
  unfold common
  constructor
  · intro hb
    obtain ⟨hpos, hb⟩ := hb
    rw [intersection_bits hpos] at hb
    exact hb
  · intro hb
    have hpos : 0 < (intersection me.1 rt).size := by
      rw [intersection_size_pos]
      rw [mem_bits, mem_bits] at hb
      exact ⟨by omega, h⟩
    rw [intersection_bits hpos]
    exact ⟨hpos, hb⟩

/-- The regions of a map come in turn. -/
theorem Partition.in_turn (h : m.Partition) : m.Pairwise fun p q => p.1.stop ≤ q.1.offset := by
  refine h.sorted.sorted.imp_of_mem ?_
  intro p q hp hq hlt
  have hne : p.1 ≠ q.1 := by
    intro heq
    rw [heq, (FlowRegion.linear Set.univ).irrefl _ trivial] at hlt
    contradiction
  have hp' := h.positive p hp
  have hq' := h.positive q hq
  have hdisjoint := (disjoint_iff hp' hq').mp (h.disjoint p hp q hq hne)
  rw [FlowRegion.lt_iff] at hlt
  unfold stop at *
  omega

theorem mem_covered : me ∈ covered m rt ↔ me ∈ m ∧ regionsIntersect me.1 rt = true :=
  List.mem_filter

/-- The parts of the region that no covered entry has. -/
def gaps (m : RegionMap) (rt : FlowRegion) : List FlowRegion :=
  diffPartitionRegion rt (toberemoved rt (covered m rt))

theorem Partition.gaps_spec (h : m.Partition) (rt : FlowRegion) : (∀ g ∈ gaps m rt, 0 < g.size) ∧
    (gaps m rt).Pairwise (fun p q => p.stop < q.offset) ∧
    ∀ b, (∃ g ∈ gaps m rt, b ∈ g.bits) ↔ b ∈ rt.bits ∧ ∀ me ∈ covered m rt, b ∉ me.1.bits := by
  have hmem : ∀ q ∈ toberemoved rt (covered m rt), ∃ me ∈ covered m rt,
      intersection me.1 rt = q ∧ 0 < q.size := by
    intro q hq
    obtain ⟨hq, hpos⟩ := List.mem_filter.mp hq
    obtain ⟨me, hme, rfl⟩ := List.mem_map.mp hq
    exact ⟨me, hme, rfl, of_decide_eq_true hpos⟩
  have hturn : (toberemoved rt (covered m rt)).Pairwise fun p q => p.stop ≤ q.offset := by
    refine List.Pairwise.imp_of_mem (R := fun p q => 0 < p.size → 0 < q.size → p.stop ≤ q.offset)
      ?_ (List.Pairwise.filter _ (List.pairwise_map.mpr ((h.in_turn.filter _).imp ?_)))
    · intro p q hp hq hpq
      obtain ⟨_, _, _, hp⟩ := hmem p hp
      obtain ⟨_, _, _, hq⟩ := hmem q hq
      exact hpq hp hq
    · intro p q hpq hp hq
      have hends := intersection_ends hp
      have hends' := intersection_ends hq
      omega
  obtain ⟨hpos, hgaps, hbits⟩ := diffPartitionLoop_spec (u := rt) (fun q hq => by
      obtain ⟨_, _, _, hpos⟩ := hmem q hq
      exact hpos) hturn (fun q hq => by
      obtain ⟨me, _, rfl, hpos⟩ := hmem q hq
      have hends := intersection_ends hpos
      omega)
  refine ⟨fun g hg => (hpos g hg).1, hgaps, fun b => (hbits b).trans ?_⟩
  refine and_congr_right fun hb => ?_
  constructor
  · intro hmiss me hme hbme
    obtain ⟨hsize, hb'⟩ := (@common_bits rt [] true me (mem_covered.mp hme).2 b).mpr ⟨hbme, hb⟩
    exact hmiss (intersection me.1 rt)
      (List.mem_filter.mpr ⟨List.mem_map_of_mem hme, decide_eq_true hsize⟩) hb'
  · intro hmiss q hq hbq
    obtain ⟨me, hme, rfl, hpos⟩ := hmem q hq
    rw [intersection_bits hpos] at hbq
    exact hmiss me hme hbq.1

/-- What the update inserts where no entry is. -/
def gapEntry (rt : FlowRegion) (ifrcs : List InfoFlowRegion) (g : FlowRegion) :
    FlowRegion × List InfoFlowRegion := (g, adjustAll ifrcs (adjustment rt g))

theorem Updatable.pieces_subset (h : Updatable m rt ifrcs replace) (hm : m.Partition)
    (hme : me ∈ covered m rt) {q : FlowRegion × List InfoFlowRegion}
    (hq : q ∈ pieces rt ifrcs replace me) : 0 < q.1.size ∧ q.1.bits ⊆ me.1.bits := by
  obtain ⟨hmem, hcovered⟩ := mem_covered.mp hme
  rcases mem_pieces.mp hq with ⟨hpos, rfl⟩ | ⟨hpos, rfl⟩
  · refine ⟨hpos, fun b hb => ?_⟩
    exact ((h.rest_bits hmem hcovered (hm.positive me hmem) b).mp ⟨hpos, hb⟩).1
  · exact ⟨hpos, fun b hb => ((common_bits hcovered b).mp ⟨hpos, hb⟩).1⟩

theorem Updatable.pieces_keys (h : Updatable m rt ifrcs replace) (hm : m.Partition)
    (hme : me ∈ covered m rt) : ((pieces rt ifrcs replace me).map Prod.fst).Nodup := by
  obtain ⟨hmem, hcovered⟩ := mem_covered.mp hme
  have hne : 0 < (diffRegion me.1 rt).size →
      (rest rt me).1 ≠ (common rt ifrcs replace me).1 := by
    intro hpos heq
    obtain ⟨b, hb⟩ := bits_nonempty_iff (r := (rest rt me).1).mpr hpos
    refine ((h.rest_bits hmem hcovered (hm.positive me hmem) b).mp ⟨hpos, hb⟩).2 ?_
    rw [heq] at hb
    refine ((common_bits hcovered b).mp ⟨?_, hb⟩).2
    exact bits_nonempty_iff.mp ⟨b, hb⟩
  unfold pieces
  split
  · rename_i hpos
    split
    · simpa using hne hpos
    · simp
  · split
    · simp
    · simp

theorem Partition.gaps_keys (h : m.Partition) :
    (((gaps m rt).map (gapEntry rt ifrcs)).map Prod.fst).Nodup := by
  obtain ⟨hpos, hturn, _⟩ := h.gaps_spec rt
  rw [List.map_map, List.Nodup, List.pairwise_map]
  refine hturn.imp_of_mem ?_
  intro g g' hg _ hlt heq
  have hg := hpos g hg
  change g = g' at heq
  rw [← heq] at hlt
  unfold stop at hlt
  omega

theorem find?_region (hnone : ∀ p ∈ m, p.1 ≠ rt) :
    m.find? (fun me => decide (me.1 = rt)) = none := by
  rw [List.find?_eq_none]
  intro p hp
  simpa using hnone p hp

theorem update_eq (hnone : ∀ p ∈ m, p.1 ≠ rt) (hsome : covered m rt ≠ []) :
    partitionAndUpdateIFlow m rt ifrcs replace =
      ((gaps m rt).map (gapEntry rt ifrcs)).foldl
        (fun m p => Ordered.insert FlowRegion.lt p.1 p.2 m)
        (replaced m rt ifrcs replace (covered m rt)) := by
  unfold partitionAndUpdateIFlow
  rw [find?_region hnone]
  dsimp only
  rw [show (m.filter fun me => regionsIntersect me.1 rt) = covered m rt from rfl,
    foldl_partitionStep, List.nil_append]
  dsimp only
  rw [if_pos (List.length_pos_iff.mpr hsome), List.foldl_map]
  rfl

/-- The entries after the update. -/
theorem Updatable.mem_update (h : Updatable m rt ifrcs replace) (hm : m.Partition)
    (hnone : ∀ p ∈ m, p.1 ≠ rt) (hsome : covered m rt ≠ []) :
    SortedIn FlowRegion.lt Set.univ (partitionAndUpdateIFlow m rt ifrcs replace) ∧
      ∀ q, q ∈ partitionAndUpdateIFlow m rt ifrcs replace ↔
        (∃ g ∈ gaps m rt, q = gapEntry rt ifrcs g) ∨
          (q ∈ m ∧ q ∉ covered m rt ∨ ∃ me ∈ covered m rt, q ∈ pieces rt ifrcs replace me) ∧
            ∀ g ∈ gaps m rt, g ≠ q.1 := by
  have hlinear := FlowRegion.linear Set.univ
  obtain ⟨hsorted, hmid⟩ := replaceAll hlinear (pieces rt ifrcs replace) (l := covered m rt)
    hm.sorted (hm.nodup.filter _) (fun p hp => (mem_covered.mp hp).1) (fun _ _ _ _ => trivial) (by
      intro p hp
      exact h.pieces_keys hm hp) (by
      intro p hp q hq q' hq' hne
      obtain ⟨hsize, hsubset⟩ := h.pieces_subset hm hp hq
      exact hm.key_ne (mem_covered.mp hp).1 hq' hne.symm hsubset (subset_refl _) hsize) (by
      intro p hp p' hp' hne q hq q' hq'
      obtain ⟨hsize, hsubset⟩ := h.pieces_subset hm hp hq
      exact hm.key_ne (mem_covered.mp hp).1 (mem_covered.mp hp').1 hne hsubset
        (h.pieces_subset hm hp' hq').2 hsize)
  obtain ⟨hout, hall⟩ := insertAll_over hlinear (l := (gaps m rt).map (gapEntry rt ifrcs)) hsorted
    (fun _ _ => trivial) hm.gaps_keys
  rw [update_eq hnone hsome]
  refine ⟨hout, fun q => (hall q).trans ?_⟩
  rw [hmid, List.forall_mem_map, List.mem_map]
  simp only [eq_comm]
  rfl

theorem Partition.gaps_apart (h : m.Partition) : ∀ g ∈ gaps m rt, ∀ g' ∈ gaps m rt,
    g = g' ∨ g.stop < g'.offset ∨ g'.stop < g.offset := by
  obtain ⟨_, hturn, _⟩ := h.gaps_spec rt
  have : Std.Symm fun g g' : FlowRegion => g = g' ∨ g.stop < g'.offset ∨ g'.stop < g.offset :=
    ⟨fun g g' hg => hg.imp Eq.symm Or.symm⟩
  have hapart := List.Pairwise.forall_of_forall
    (R := fun g g' : FlowRegion => g = g' ∨ g.stop < g'.offset ∨ g'.stop < g.offset)
    (fun g _ => .inl rfl) (hturn.imp fun hlt => .inr (.inl hlt))
  exact fun g hg g' hg' => hapart hg hg'

/-- An entry that is not covered gives way to a gap of its own. -/
theorem Updatable.mem_gaps (h : Updatable m rt ifrcs replace) (hm : m.Partition) (hme : me ∈ m)
    (hnot : me ∉ covered m rt) : me.1 ∈ gaps m rt := by
  obtain ⟨_, _, hbits⟩ := hm.gaps_spec rt
  have hpos := hm.positive me hme
  have hwithin : me.1.StrictlyWithin rt := by
    by_contra hwithin
    exact hnot (mem_covered.mpr ⟨hme, regionsIntersect_iff.mpr ⟨hwithin, h.contains me hme⟩⟩)
  have hbit : ∀ b ∈ me.1.bits, ∃ g ∈ gaps m rt, b ∈ g.bits := by
    intro b hb
    refine (hbits b).mpr ⟨?_, fun p hp hbp => ?_⟩
    · unfold StrictlyWithin at hwithin
      rw [mem_bits] at hb ⊢
      omega
    · obtain ⟨hp', _⟩ := mem_covered.mp hp
      exact hnot (hm.eq_of_mem hme hp' hb hbp ▸ hp)
  -- the neighbours of the entry end the gap
  obtain ⟨⟨l, hl, hlow, hleft⟩, ⟨r, hr, hhigh, hright⟩, _⟩ := h.within me hme hwithin
  have hlcovered : l ∈ covered m rt := by
    refine mem_covered.mpr ⟨hl, regionsIntersect_iff.mpr ⟨?_, h.contains l hl⟩⟩
    unfold StrictlyWithin
    omega
  have hrcovered : r ∈ covered m rt := by
    refine mem_covered.mpr ⟨hr, regionsIntersect_iff.mpr ⟨?_, h.contains r hr⟩⟩
    unfold StrictlyWithin
    omega
  have hlpos := hm.positive l hl
  have hrpos := hm.positive r hr
  obtain ⟨g, hg, hbg⟩ := hbit me.1.offset (by
    rw [mem_bits]
    unfold stop
    omega)
  rw [mem_bits] at hbg
  have hnotl : me.1.offset - 1 ∉ g.bits := by
    intro hb
    refine ((hbits _).mp ⟨g, hg, hb⟩).2 l hlcovered ?_
    rw [mem_bits]
    unfold stop at *
    omega
  have hnotr : me.1.stop ∉ g.bits := by
    intro hb
    refine ((hbits _).mp ⟨g, hg, hb⟩).2 r hrcovered ?_
    rw [mem_bits]
    unfold stop at *
    omega
  have hoffset : g.offset = me.1.offset := by
    rw [mem_bits] at hnotl
    omega
  have hstop : g.stop = me.1.stop := by
    by_contra hne
    have hshort : g.stop < me.1.stop := by
      rw [mem_bits] at hnotr
      unfold stop at *
      omega
    obtain ⟨g', hg', hbg'⟩ := hbit g.stop (by
      rw [mem_bits]
      omega)
    rw [mem_bits] at hbg'
    rcases hm.gaps_apart g hg g' hg' with rfl | hapart
    · omega
    · unfold stop at *
      omega
  rw [← eq_of_ends hoffset hstop]
  exact hg

/-- Where an entry after the update comes from. -/
theorem Updatable.cases (h : Updatable m rt ifrcs replace) (hm : m.Partition)
    (hnone : ∀ p ∈ m, p.1 ≠ rt) (hsome : covered m rt ≠ [])
    (q : FlowRegion × List InfoFlowRegion) :
    q ∈ partitionAndUpdateIFlow m rt ifrcs replace ↔
      (∃ g ∈ gaps m rt, q = gapEntry rt ifrcs g) ∨
        ∃ me ∈ covered m rt, q ∈ pieces rt ifrcs replace me := by
  obtain ⟨_, _, hbits⟩ := hm.gaps_spec rt
  rw [(h.mem_update hm hnone hsome).2]
  refine or_congr_right ?_
  constructor
  · intro hq
    obtain ⟨⟨hq, hnot⟩ | hq, hgap⟩ := hq
    · exact absurd rfl (hgap _ (h.mem_gaps hm hq hnot))
    · exact hq
  · intro hq
    refine ⟨.inr hq, ?_⟩
    obtain ⟨me, hme, hq⟩ := hq
    intro g hg heq
    obtain ⟨hpos, hsubset⟩ := h.pieces_subset hm hme hq
    obtain ⟨b, hb⟩ := bits_nonempty_iff.mpr hpos
    exact ((hbits b).mp ⟨g, hg, heq ▸ hb⟩).2 me hme (hsubset hb)

/-- What the entry of a bit is after the update. -/
theorem Updatable.mem_bits_update (h : Updatable m rt ifrcs replace) (hm : m.Partition)
    (hnone : ∀ p ∈ m, p.1 ≠ rt) (hsome : covered m rt ≠ [])
    (q : FlowRegion × List InfoFlowRegion) (b : Int) :
    q ∈ partitionAndUpdateIFlow m rt ifrcs replace ∧ b ∈ q.1.bits ↔
      (∃ g ∈ gaps m rt, b ∈ g.bits ∧ q = gapEntry rt ifrcs g) ∨
        ∃ me ∈ covered m rt, b ∈ me.1.bits ∧
          (b ∉ rt.bits ∧ q = rest rt me ∨ b ∈ rt.bits ∧ q = common rt ifrcs replace me) := by
  rw [h.cases hm hnone hsome, or_and_right]
  refine or_congr ?_ ?_
  · constructor
    · intro hq
      obtain ⟨⟨g, hg, rfl⟩, hb⟩ := hq
      exact ⟨g, hg, hb, rfl⟩
    · intro hq
      obtain ⟨g, hg, hb, rfl⟩ := hq
      exact ⟨⟨g, hg, rfl⟩, hb⟩
  · constructor
    · intro hq
      obtain ⟨⟨me, hme, hq⟩, hb⟩ := hq
      obtain ⟨hmem, hcovered⟩ := mem_covered.mp hme
      rcases mem_pieces.mp hq with ⟨hpos, rfl⟩ | ⟨hpos, rfl⟩
      · obtain ⟨hbme, hbrt⟩ := (h.rest_bits hmem hcovered (hm.positive me hmem) b).mp ⟨hpos, hb⟩
        exact ⟨me, hme, hbme, .inl ⟨hbrt, rfl⟩⟩
      · obtain ⟨hbme, hbrt⟩ := (common_bits hcovered b).mp ⟨hpos, hb⟩
        exact ⟨me, hme, hbme, .inr ⟨hbrt, rfl⟩⟩
    · intro hq
      obtain ⟨me, hme, hbme, ⟨hbrt, rfl⟩ | ⟨hbrt, rfl⟩⟩ := hq
      · obtain ⟨hmem, hcovered⟩ := mem_covered.mp hme
        obtain ⟨hpos, hb⟩ :=
          (h.rest_bits hmem hcovered (hm.positive me hmem) b).mpr ⟨hbme, hbrt⟩
        exact ⟨⟨me, hme, mem_pieces.mpr (.inl ⟨hpos, rfl⟩)⟩, hb⟩
      · obtain ⟨hpos, hb⟩ := (common_bits (mem_covered.mp hme).2 b).mpr ⟨hbme, hbrt⟩
        exact ⟨⟨me, hme, mem_pieces.mpr (.inr ⟨hpos, rfl⟩)⟩, hb⟩

/-- An entry for each bit. -/
theorem Updatable.partition (h : Updatable m rt ifrcs replace) (hm : m.Partition)
    (hnone : ∀ p ∈ m, p.1 ≠ rt) (hsome : covered m rt ≠ []) :
    (partitionAndUpdateIFlow m rt ifrcs replace).Partition := by
  obtain ⟨hpos, _, hbits⟩ := hm.gaps_spec rt
  refine ⟨(h.mem_update hm hnone hsome).1, ?_, ?_⟩
  · intro q hq
    rcases (h.cases hm hnone hsome q).mp hq with ⟨g, hg, rfl⟩ | ⟨me, hme, hq⟩
    · exact hpos g hg
    · exact (h.pieces_subset hm hme hq).1
  · intro p hp q hq hne
    rw [Set.disjoint_left]
    intro b hbp hbq
    apply hne
    rcases (h.mem_bits_update hm hnone hsome p b).mp ⟨hp, hbp⟩ with
      ⟨g, hg, hbg, rfl⟩ | ⟨me, hme, hbme, hp⟩
    · rcases (h.mem_bits_update hm hnone hsome q b).mp ⟨hq, hbq⟩ with
        ⟨g', hg', hbg', rfl⟩ | ⟨me, hme, hbme, _⟩
      · rw [mem_bits] at hbg hbg'
        rcases hm.gaps_apart g hg g' hg' with rfl | hapart
        · rfl
        · omega
      · exact absurd hbme (((hbits b).mp ⟨g, hg, hbg⟩).2 me hme)
    · rcases (h.mem_bits_update hm hnone hsome q b).mp ⟨hq, hbq⟩ with
        ⟨g, hg, hbg, rfl⟩ | ⟨me', hme', hbme', hq⟩
      · exact absurd hbme (((hbits b).mp ⟨g, hg, hbg⟩).2 me hme)
      · obtain rfl := hm.eq_of_mem (mem_covered.mp hme).1 (mem_covered.mp hme').1 hbme hbme'
        rcases hp with ⟨hbrt, rfl⟩ | ⟨hbrt, rfl⟩
        · rcases hq with ⟨_, rfl⟩ | ⟨hbrt', _⟩
          · rfl
          · contradiction
        · rcases hq with ⟨hbrt', _⟩ | ⟨_, rfl⟩
          · contradiction
          · rfl

theorem Partition.sourcesAt_eq (h : m.Partition) (hme : me ∈ m) (hb : b ∈ me.1.bits) :
    m.sourcesAt b = indices me.2 := by
  ext i
  constructor
  · intro hi
    obtain ⟨p, hp, hbp, hi⟩ := hi
    rw [h.eq_of_mem hme hp hb hbp]
    exact hi
  · intro hi
    exact ⟨me, hme, hb, hi⟩

theorem Updatable.inside (h : Updatable m rt ifrcs replace) (hm : m.Partition)
    (hnone : ∀ p ∈ m, p.1 ≠ rt) (hsome : covered m rt ≠ []) (hb : b ∈ rt.bits) (s : Set Int) :
    (partitionAndUpdateIFlow m rt ifrcs replace).Maps b s ↔
      s = indices ifrcs ∪ if replace then ∅ else m.sourcesAt b := by
  obtain ⟨_, _, hbits⟩ := hm.gaps_spec rt
  -- the indices of the entry that the bit is in
  have hentry : ∀ q ∈ partitionAndUpdateIFlow m rt ifrcs replace, b ∈ q.1.bits →
      indices q.2 = indices ifrcs ∪ if replace then ∅ else m.sourcesAt b := by
    intro q hq hbq
    rcases (h.mem_bits_update hm hnone hsome q b).mp ⟨hq, hbq⟩ with
      ⟨g, hg, hbg, rfl⟩ | ⟨me, hme, hbme, ⟨hbrt, _⟩ | ⟨_, rfl⟩⟩
    · rw [gapEntry, indices_adjustAll]
      refine (Set.union_eq_self_of_subset_right ?_).symm
      split
      · exact Set.empty_subset _
      · rename_i hreplace
        intro i hi
        obtain ⟨p, hp, hbp, hi⟩ := hi
        have hnot : p ∉ covered m rt := fun hp' => ((hbits b).mp ⟨g, hg, hbg⟩).2 p hp' hbp
        have hwithin : p.1.StrictlyWithin rt := by
          by_contra hwithin
          exact hnot (mem_covered.mpr ⟨hp, regionsIntersect_iff.mpr ⟨hwithin, h.contains p hp⟩⟩)
        exact ((h.within p hp hwithin).2.2.resolve_left hreplace) hi
    · contradiction
    · rw [indices_common, hm.sourcesAt_eq (mem_covered.mp hme).1 hbme]
  constructor
  · intro hs
    obtain ⟨q, hq, hbq, rfl⟩ := hs
    exact hentry q hq hbq
  · intro hs
    subst hs
    have hq : ∃ q ∈ partitionAndUpdateIFlow m rt ifrcs replace, b ∈ q.1.bits := by
      by_cases hgap : ∃ g ∈ gaps m rt, b ∈ g.bits
      · obtain ⟨g, hg, hbg⟩ := hgap
        exact ⟨_, (h.mem_bits_update hm hnone hsome _ b).mpr (.inl ⟨g, hg, hbg, rfl⟩)⟩
      · rw [hbits, not_and] at hgap
        have hgap := hgap hb
        push Not at hgap
        obtain ⟨me, hme, hbme⟩ := hgap
        exact ⟨_, (h.mem_bits_update hm hnone hsome _ b).mpr
          (.inr ⟨me, hme, hbme, .inr ⟨hb, rfl⟩⟩)⟩
    obtain ⟨q, hq, hbq⟩ := hq
    exact ⟨q, hq, hbq, hentry q hq hbq⟩

theorem Updatable.outside (h : Updatable m rt ifrcs replace) (hm : m.Partition)
    (hnone : ∀ p ∈ m, p.1 ≠ rt) (hsome : covered m rt ≠ []) (hb : b ∉ rt.bits) (s : Set Int) :
    (partitionAndUpdateIFlow m rt ifrcs replace).Maps b s ↔ m.Maps b s := by
  obtain ⟨_, _, hbits⟩ := hm.gaps_spec rt
  constructor
  · intro hs
    obtain ⟨q, hq, hbq, rfl⟩ := hs
    rcases (h.mem_bits_update hm hnone hsome q b).mp ⟨hq, hbq⟩ with
      ⟨g, hg, hbg, _⟩ | ⟨me, hme, hbme, ⟨_, rfl⟩ | ⟨hbrt, _⟩⟩
    · exact absurd ((hbits b).mp ⟨g, hg, hbg⟩).1 hb
    · exact ⟨me, (mem_covered.mp hme).1, hbme, indices_rest.symm⟩
    · contradiction
  · intro hs
    obtain ⟨me, hme, hbme, rfl⟩ := hs
    have hcovered : me ∈ covered m rt := by
      refine mem_covered.mpr ⟨hme, regionsIntersect_iff.mpr ⟨?_, h.contains me hme⟩⟩
      intro hwithin
      unfold StrictlyWithin at hwithin
      rw [mem_bits] at hb hbme
      omega
    obtain ⟨hq, hbq⟩ := (h.mem_bits_update hm hnone hsome (rest rt me) b).mpr
      (.inr ⟨me, hcovered, hbme, .inl ⟨hb, rfl⟩⟩)
    exact ⟨_, hq, hbq, indices_rest⟩

theorem Partition.updated_set (h : m.Partition) (hsize : 0 < rt.size)
    (hapart : ∀ p ∈ m, p.1 ≠ rt → Disjoint p.1.bits rt.bits) {ifrs : List InfoFlowRegion}
    (hifrs : ∀ b ∈ rt.bits,
      indices ifrs = indices ifrcs ∪ if replace then ∅ else m.sourcesAt b) :
    Updated m (m.set rt ifrs) rt ifrcs replace := by
  have hlinear := FlowRegion.linear Set.univ
  have hmem := mem_insert (v := ifrs) hlinear h.sorted (k := rt) trivial
  refine ⟨⟨h.sorted.insert hlinear trivial, ?_, ?_⟩, ?_, ?_⟩
  · intro p hp
    rcases (hmem p).mp hp with rfl | ⟨hp, _⟩
    · exact hsize
    · exact h.positive p hp
  · intro p hp q hq hne
    rcases (hmem p).mp hp with rfl | ⟨hp, hprt⟩
    · rcases (hmem q).mp hq with rfl | ⟨hq, hqrt⟩
      · contradiction
      · exact (hapart q hq hqrt).symm
    · rcases (hmem q).mp hq with rfl | ⟨hq, hqrt⟩
      · exact hapart p hp hprt
      · exact h.disjoint p hp q hq hne
  · intro b hb s
    rw [← hifrs b hb]
    constructor
    · intro hs
      obtain ⟨p, hp, hbp, rfl⟩ := hs
      rcases (hmem p).mp hp with rfl | ⟨hp, hprt⟩
      · rfl
      · exact absurd hb (Set.disjoint_left.mp (hapart p hp hprt) hbp)
    · intro hs
      exact ⟨(rt, ifrs), (hmem _).mpr (.inl rfl), hb, hs.symm⟩
  · intro b hb s
    constructor
    · intro hs
      obtain ⟨p, hp, hbp, rfl⟩ := hs
      rcases (hmem p).mp hp with rfl | ⟨hp, _⟩
      · contradiction
      · exact ⟨p, hp, hbp, rfl⟩
    · intro hs
      obtain ⟨p, hp, hbp, rfl⟩ := hs
      refine ⟨p, (hmem p).mpr (.inr ⟨hp, ?_⟩), hbp, rfl⟩
      intro heq
      rw [heq] at hbp
      contradiction

/-- A region of the map: its entry alone is written. -/
theorem Partition.updated_key (h : m.Partition) (hkey : ∃ p ∈ m, p.1 = rt) :
    Updated m (partitionAndUpdateIFlow m rt ifrcs replace) rt ifrcs replace := by
  obtain ⟨p, hp, rfl⟩ := hkey
  have hsize := h.positive p hp
  have hfind : m.find? (fun me => decide (me.1 = p.1)) = some p := by
    cases hfind : m.find? fun me => decide (me.1 = p.1) with
    | none =>
      have := List.find?_eq_none.mp hfind p hp
      simp at this
    | some me =>
      have heq : me.1 = p.1 := by simpa using List.find?_some hfind
      rw [h.keys_inj (List.mem_of_find?_eq_some hfind) hp heq]
  unfold partitionAndUpdateIFlow
  rw [hfind]
  dsimp only
  split
  · rename_i hreplace
    refine h.updated_set hsize (fun q hq hne => h.disjoint q hq p hp hne) fun b hb => ?_
    simp [hreplace]
  · rename_i hreplace
    refine h.updated_set hsize (fun q hq hne => h.disjoint q hq p hp hne) fun b hb => ?_
    rw [indices_addAll, if_neg hreplace, h.sourcesAt_eq hp hb, Set.union_comm]

theorem Updatable.updated (h : Updatable m rt ifrcs replace) (hm : m.Partition)
    (hsize : 0 < rt.size) (hnone : ∀ p ∈ m, p.1 ≠ rt) :
    Updated m (partitionAndUpdateIFlow m rt ifrcs replace) rt ifrcs replace := by
  by_cases hsome : covered m rt = []
  · -- an entry strictly within the region has neighbours, and these are covered
    have hempty : m = [] := by
      refine List.eq_nil_iff_forall_not_mem.mpr fun p hp => ?_
      have hnot : ∀ q ∈ m, q.1.StrictlyWithin rt := by
        intro q hq
        by_contra hwithin
        have hq' := mem_covered.mpr ⟨hq, regionsIntersect_iff.mpr ⟨hwithin, h.contains q hq⟩⟩
        rw [hsome] at hq'
        contradiction
      obtain ⟨⟨q, hq, hlow, _⟩, _⟩ := h.within p hp (hnot p hp)
      have hwithin := (hnot q hq).1
      omega
    subst hempty
    have hout : partitionAndUpdateIFlow [] rt ifrcs replace = RegionMap.set [] rt ifrcs := rfl
    rw [hout]
    refine hm.updated_set hsize (by simp) fun b _ => ?_
    simp [sourcesAt]
  · exact ⟨h.partition hm hnone hsome, fun b hb s => h.inside hm hnone hsome hb s,
      fun b hb s => h.outside hm hnone hsome hb s⟩

end RegionMap

end Encider
