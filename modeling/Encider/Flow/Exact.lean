import Encider.Flow.Update

/-! Exactly where `partitionAndUpdateIFlow` is right. -/

namespace Encider

open FlowRegion InfoFlowRegion Ordered

namespace FlowRegion

variable {r1 r2 : FlowRegion}

theorem diffRegion_before (h : r1.offset < r2.offset) (h' : r1.stop ≤ r2.stop) :
    diffRegion r1 r2 = ⟨r1.offset, r2.offset - r1.offset⟩ := by
  unfold diffRegion
  unfold stop at h'
  rw [if_neg (by omega), if_pos (by omega)]

theorem diffRegion_behind (h : r2.offset < r1.offset) (h' : r2.stop ≤ r1.stop) :
    diffRegion r1 r2 = ⟨r2.stop, r1.stop - r2.stop⟩ := by
  unfold diffRegion
  unfold stop at h' ⊢
  rw [if_neg (by omega), if_neg (by omega), if_pos (by omega)]

/-- The rest of a region that begins with the other: its offset is not one. -/
theorem diffRegion_begin (h : r1.offset = r2.offset) (h' : r2.stop < r1.stop) :
    diffRegion r1 r2 = ⟨r1.size + r2.size, r1.size - r2.size⟩ := by
  unfold diffRegion
  unfold stop at h'
  rw [if_pos h, if_neg (by omega)]

end FlowRegion

namespace RegionMap

variable {m : RegionMap} {rt : FlowRegion} {ifrcs : List InfoFlowRegion} {replace : Bool}
  {me p q r x : FlowRegion × List InfoFlowRegion} {b : Int} {k : FlowRegion}

/-- An entry begins with the region and ends behind it, and the only other entry that ends behind
it follows at once with the same indices, so that it makes up for the misplaced rest of the first;
this rest falls on an entry that hides it. -/
structure Coincides (m : RegionMap) (rt : FlowRegion) (q p : FlowRegion × List InfoFlowRegion) :
    Prop where
  begins : q.1.offset = rt.offset
  reaches : rt.stop < q.1.stop
  next : p.1.offset = q.1.stop
  same : indices p.2 = indices q.2
  only : ∀ r ∈ m, rt.stop < r.1.stop → r = q ∨ r = p
  hidden : diffRegion q.1 rt = p.1 ∨ diffRegion q.1 rt = rt ∨
    ∃ r ∈ m, r.1 = diffRegion q.1 rt ∧ r.1.stop = rt.offset ∧ indices r.2 = indices q.2

section

theorem Partition.sorted_replaced (h : m.Partition) (l : RegionMap) :
    SortedIn FlowRegion.lt Set.univ (replaced m rt ifrcs replace l) :=
  h.sorted.replaceAll (FlowRegion.linear _) (fun _ _ => trivial) fun _ _ _ _ => trivial

theorem Partition.sorted_update (h : m.Partition) (hnone : ∀ p ∈ m, p.1 ≠ rt)
    (hsome : covered m rt ≠ []) :
    SortedIn FlowRegion.lt Set.univ (partitionAndUpdateIFlow m rt ifrcs replace) := by
  rw [update_eq hnone hsome]
  exact (h.sorted_replaced _).insertAll (FlowRegion.linear _) fun _ _ => trivial

theorem Partition.key_update (h : m.Partition) (hnone : ∀ p ∈ m, p.1 ≠ rt)
    (hsome : covered m rt ≠ [])
    (hk : ∃ q ∈ replaced m rt ifrcs replace (covered m rt), q.1 = k) :
    ∃ q ∈ partitionAndUpdateIFlow m rt ifrcs replace, q.1 = k := by
  rw [update_eq hnone hsome]
  exact key_insertAll (FlowRegion.linear _) (h.sorted_replaced _) (fun _ _ => trivial) (.inr hk)

theorem Partition.mem_update_of_replaced (h : m.Partition) (hnone : ∀ p ∈ m, p.1 ≠ rt)
    (hsome : covered m rt ≠ []) (hx : x ∈ replaced m rt ifrcs replace (covered m rt))
    (hgap : ∀ g ∈ gaps m rt, g ≠ x.1) : x ∈ partitionAndUpdateIFlow m rt ifrcs replace := by
  rw [update_eq hnone hsome]
  refine (mem_insertAll_of_ne (FlowRegion.linear Set.univ) (h.sorted_replaced _)
    (fun _ _ => trivial) ?_).mpr hx
  intro p hp
  obtain ⟨g, hg, rfl⟩ := List.mem_map.mp hp
  exact hgap g hg

theorem Partition.gapEntry_mem (h : m.Partition) (hnone : ∀ p ∈ m, p.1 ≠ rt)
    (hsome : covered m rt ≠ []) {g : FlowRegion} (hg : g ∈ gaps m rt) :
    gapEntry rt ifrcs g ∈ partitionAndUpdateIFlow m rt ifrcs replace := by
  rw [update_eq hnone hsome]
  exact ((insertAll_over (FlowRegion.linear Set.univ) (h.sorted_replaced _) (fun _ _ => trivial)
    h.gaps_keys).2 _).mpr (.inl (List.mem_map_of_mem hg))

/-- Where an entry comes from in any case. -/
theorem Partition.cases_update (h : m.Partition) (hnone : ∀ p ∈ m, p.1 ≠ rt)
    (hsome : covered m rt ≠ []) (hx : x ∈ partitionAndUpdateIFlow m rt ifrcs replace) :
    (∃ g ∈ gaps m rt, x = gapEntry rt ifrcs g) ∨ (x ∈ m ∧ x ∉ covered m rt) ∨
      ∃ l₁ me l₂, covered m rt = l₁ ++ me :: l₂ ∧ x ∈ pieces rt ifrcs replace me ∧
        ∀ p ∈ l₂, p.1 ≠ x.1 := by
  rw [update_eq hnone hsome] at hx
  rcases mem_or_of_insertAll (FlowRegion.linear Set.univ) (h.sorted_replaced _)
    (fun _ _ => trivial) hx with hx | hx
  · obtain ⟨g, hg, rfl⟩ := List.mem_map.mp hx
    exact .inl ⟨g, hg, rfl⟩
  · rcases mem_or_of_replaceAll (FlowRegion.linear Set.univ) h.sorted (fun _ _ => trivial)
      (fun _ _ _ _ => trivial) hx with ⟨hx, hnot⟩ | hx
    · exact .inr (.inl ⟨hx, fun hc => hnot x hc rfl⟩)
    · exact .inr (.inr hx)

/-- The covered entries behind one of them. -/
theorem Partition.covered_behind (h : m.Partition) {l₁ l₂ : RegionMap}
    (hsplit : covered m rt = l₁ ++ me :: l₂) : ∀ p ∈ l₂, p ∈ m ∧ me.1.stop ≤ p.1.offset := by
  have hturn := h.in_turn.filter fun me => regionsIntersect me.1 rt
  rw [show m.filter (fun me => regionsIntersect me.1 rt) = covered m rt from rfl, hsplit] at hturn
  intro p hp
  have hcovered : p ∈ covered m rt := by
    rw [hsplit]
    exact List.mem_append_right l₁ (List.mem_cons_of_mem me hp)
  exact ⟨(mem_covered.mp hcovered).1,
    List.rel_of_pairwise_cons (List.pairwise_append.mp hturn).2.1 hp⟩

/-- The key of a piece that no later entry has. -/
theorem Partition.piece_key (h : m.Partition) (hnone : ∀ p ∈ m, p.1 ≠ rt)
    (hme : me ∈ covered m rt) (hx : x ∈ pieces rt ifrcs replace me)
    (hne : ∀ p ∈ m, me.1.stop ≤ p.1.offset → p.1 ≠ x.1) :
    ∃ y ∈ partitionAndUpdateIFlow m rt ifrcs replace, y.1 = x.1 := by
  have hlinear := FlowRegion.linear Set.univ
  refine h.key_update hnone (List.ne_nil_of_mem hme) ?_
  obtain ⟨l₁, l₂, hsplit⟩ := List.append_of_mem hme
  have hsorted := @Partition.sorted_replaced m rt ifrcs replace h l₁
  rw [hsplit, replaced, List.foldl_append, List.foldl_cons]
  refine key_replaceAll hlinear ((hsorted.erase hlinear trivial).insertAll hlinear
    fun _ _ => trivial) (fun _ _ => trivial) (fun _ _ _ _ => trivial) ?_ ?_
  · exact key_insertAll hlinear (hsorted.erase hlinear trivial) (fun _ _ => trivial)
      (.inl ⟨x, hx, rfl⟩)
  · intro p hp
    obtain ⟨hp, hstop⟩ := h.covered_behind hsplit p hp
    exact hne p hp hstop

/-- A piece whose key is not written later on. -/
theorem Partition.piece_mem (h : m.Partition) (hnone : ∀ p ∈ m, p.1 ≠ rt)
    (hme : me ∈ covered m rt)
    (hx : ∃ l₁ l₂, pieces rt ifrcs replace me = l₁ ++ x :: l₂ ∧ ∀ y ∈ l₂, y.1 ≠ x.1)
    (hne : ∀ p ∈ m, me.1.stop ≤ p.1.offset →
      p.1 ≠ x.1 ∧ ∀ y ∈ pieces rt ifrcs replace p, y.1 ≠ x.1)
    (hgap : ∀ g ∈ gaps m rt, g ≠ x.1) : x ∈ partitionAndUpdateIFlow m rt ifrcs replace := by
  have hlinear := FlowRegion.linear Set.univ
  refine h.mem_update_of_replaced hnone (List.ne_nil_of_mem hme) ?_ hgap
  obtain ⟨l₁', l₂', hsplit⟩ := List.append_of_mem hme
  have hsorted := @Partition.sorted_replaced m rt ifrcs replace h l₁'
  rw [hsplit, replaced, List.foldl_append, List.foldl_cons]
  refine mem_replaceAll_of_ne hlinear ((hsorted.erase hlinear trivial).insertAll hlinear
    fun _ _ => trivial) (fun _ _ => trivial) (fun _ _ _ _ => trivial) ?_ ?_
  · obtain ⟨l₁, l₂, hx, hlast⟩ := hx
    rw [hx]
    exact mem_insertAll_last hlinear (hsorted.erase hlinear trivial) (fun _ _ => trivial) hlast
  · intro p hp
    obtain ⟨hp, hstop⟩ := h.covered_behind hsplit p hp
    exact hne p hp hstop

/-- The gaps are in the region. -/
theorem Partition.gap_within (h : m.Partition) {g : FlowRegion} (hg : g ∈ gaps m rt) :
    0 < g.size ∧ rt.offset ≤ g.offset ∧ g.stop ≤ rt.stop := by
  obtain ⟨hpos, _, hbits⟩ := h.gaps_spec rt
  have hsize := hpos g hg
  have hfirst := ((hbits g.offset).mp ⟨g, hg, by
    rw [mem_bits, stop]
    omega⟩).1
  have hlast := ((hbits (g.stop - 1)).mp ⟨g, hg, by
    rw [mem_bits, stop]
    omega⟩).1
  rw [mem_bits] at hfirst hlast
  omega

/-- So is what an entry has in common with it. -/
theorem common_within (hpos : 0 < (intersection me.1 rt).size) :
    rt.offset ≤ (common rt ifrcs replace me).1.offset ∧
      me.1.offset ≤ (common rt ifrcs replace me).1.offset ∧
      (common rt ifrcs replace me).1.offset < rt.stop ∧
      (common rt ifrcs replace me).1.offset < me.1.stop := by
  have hends := intersection_ends hpos
  have hmeets := (intersection_size_pos.mp hpos).1
  unfold common
  dsimp only
  omega

/-- An entry that begins with the region and ends behind it has all of it. -/
theorem common_key (hsize : 0 < rt.size) (hbegins : me.1.offset = rt.offset)
    (hreaches : rt.stop < me.1.stop) : 0 < (intersection me.1 rt).size ∧
      (common rt ifrcs replace me).1 = rt := by
  have hmeets : 0 < (intersection me.1 rt).size := by
    rw [intersection_size_pos]
    unfold StrictlyWithin stop at *
    omega
  obtain ⟨hoffset, hstop⟩ := intersection_ends hmeets
  refine ⟨hmeets, eq_of_ends ?_ ?_⟩
  · refine hoffset.trans ?_
    omega
  · refine hstop.trans ?_
    omega

/-- Where the rest of an entry is. -/
theorem Partition.rest_cases (h : m.Partition) (hcovered : me ∈ covered m rt)
    (hpos : 0 < (diffRegion me.1 rt).size) :
    me.1.offset < rt.offset ∧ (rest rt me).1 = ⟨me.1.offset, rt.offset - me.1.offset⟩ ∨
      me.1.offset = rt.offset ∧ rt.stop < me.1.stop ∨
      rt.offset < me.1.offset ∧ rt.stop < me.1.stop ∧
        (rest rt me).1 = ⟨rt.stop, me.1.stop - rt.stop⟩ := by
  have hmepos := h.positive me (mem_covered.mp hcovered).1
  have haligned := regionsIntersect_iff.mp (mem_covered.mp hcovered).2
  unfold StrictlyWithin at haligned
  rcases lt_trichotomy me.1.offset rt.offset with hlt | heq | hgt
  · exact .inl ⟨hlt, diffRegion_before hlt (by omega)⟩
  · refine .inr (.inl ⟨heq, ?_⟩)
    by_contra hle
    unfold diffRegion at hpos
    rw [if_pos heq, if_pos (by unfold stop at hle; omega)] at hpos
    exact absurd hpos (by simp)
  · have hdiff := @diffRegion_behind me.1 rt hgt (by omega)
    rw [hdiff] at hpos
    dsimp only at hpos
    exact .inr (.inr ⟨hgt, by omega, hdiff⟩)

/-- The rest is inserted first, and what is in common over it. -/
theorem rest_last (hpos : 0 < (diffRegion me.1 rt).size)
    (hne : 0 < (intersection me.1 rt).size → (common rt ifrcs replace me).1 ≠ (rest rt me).1) :
    ∃ l₁ l₂, pieces rt ifrcs replace me = l₁ ++ rest rt me :: l₂ ∧
      ∀ y ∈ l₂, y.1 ≠ (rest rt me).1 := by
  refine ⟨[], if (intersection me.1 rt).size > 0 then [common rt ifrcs replace me] else [], ?_, ?_⟩
  · unfold pieces
    rw [if_pos hpos]
    rfl
  · intro y hy
    split at hy
    · rename_i hsize
      rw [List.mem_singleton.mp hy]
      exact hne hsize
    · contradiction

theorem common_last (hpos : 0 < (intersection me.1 rt).size) :
    ∃ l₁ l₂, pieces rt ifrcs replace me = l₁ ++ common rt ifrcs replace me :: l₂ ∧
      ∀ y ∈ l₂, y.1 ≠ (common rt ifrcs replace me).1 := by
  refine ⟨if (diffRegion me.1 rt).size > 0 then [rest rt me] else [], [], ?_, by simp⟩
  unfold pieces
  rw [if_pos hpos]

theorem Partition.eq_of_stop (h : m.Partition) (hp : p ∈ m) (hq : q ∈ m)
    (heq : p.1.stop = q.1.stop) : p = q := by
  have hp' := h.positive p hp
  have hq' := h.positive q hq
  refine h.eq_of_mem (b := p.1.stop - 1) hp hq ?_ ?_
  · rw [mem_bits]
    unfold stop
    omega
  · rw [mem_bits]
    unfold stop at *
    omega

/-- The entries do not overlap. -/
theorem Partition.apart (h : m.Partition) (hp : p ∈ m) (hq : q ∈ m) (hne : p ≠ q) :
    p.1.stop ≤ q.1.offset ∨ q.1.stop ≤ p.1.offset :=
  (disjoint_iff (h.positive p hp) (h.positive q hq)).mp
    (h.disjoint p hp q hq fun heq => hne (h.keys_inj hp hq heq))

/-- The rest of an entry that ends behind the region is behind the region. -/
theorem Partition.rest_behind (h : m.Partition) (hsize : 0 < rt.size)
    (hnone : ∀ p ∈ m, p.1 ≠ rt) (hp : p ∈ m) (hlow : rt.offset < p.1.offset)
    (hhigh : rt.stop < p.1.stop) :
    (rest rt p).1 = ⟨rt.stop, p.1.stop - rt.stop⟩ ∧
      rest rt p ∈ partitionAndUpdateIFlow m rt ifrcs replace := by
  have hdiff : (rest rt p).1 = ⟨rt.stop, p.1.stop - rt.stop⟩ :=
    diffRegion_behind hlow (by omega)
  have hcovered : p ∈ covered m rt := by
    refine mem_covered.mpr ⟨hp, regionsIntersect_iff.mpr ?_⟩
    unfold StrictlyWithin
    omega
  have hpos : (diffRegion p.1 rt).size > 0 := by
    rw [show diffRegion p.1 rt = _ from hdiff]
    dsimp only
    omega
  -- what is within the region has another offset
  have hcommon : ∀ me : FlowRegion × List InfoFlowRegion, 0 < (intersection me.1 rt).size →
      (common rt ifrcs replace me).1 ≠ (rest rt p).1 := by
    intro me hme heq
    have hlt := (@common_within rt ifrcs replace me hme).2.2.1
    rw [heq, hdiff] at hlt
    dsimp only at hlt
    omega
  refine ⟨hdiff, h.piece_mem hnone hcovered (rest_last hpos (hcommon p)) ?_ ?_⟩
  · intro q hq hstop
    refine ⟨?_, ?_⟩
    · intro heq
      rw [heq, hdiff] at hstop
      dsimp only at hstop
      omega
    · intro y hy heq
      rcases mem_pieces.mp hy with ⟨hy', rfl⟩ | ⟨hy', rfl⟩
      · have hq' := h.positive q hq
        have hdiff' : (rest rt q).1 = ⟨rt.stop, q.1.stop - rt.stop⟩ :=
          diffRegion_behind (by unfold stop at *; omega) (by unfold stop at *; omega)
        rw [hdiff, hdiff', FlowRegion.mk.injEq] at heq
        unfold stop at *
        omega
      · exact hcommon q hy' heq
  · intro g hg heq
    have hg := h.gap_within hg
    rw [heq, hdiff] at hg
    unfold stop at hg
    dsimp only at hg
    omega

end

section

variable {out : RegionMap}

/-- Two entries that share a bit are one. -/
theorem Updated.eq_of_mem (hU : Updated m out rt ifrcs replace) (hp : p ∈ out) (hq : q ∈ out)
    (hbp : b ∈ p.1.bits) (hbq : b ∈ q.1.bits) : p = q :=
  hU.partition.eq_of_mem hp hq hbp hbq

/-- The bit of an entry outside the region was in an entry with the same indices. -/
theorem Updated.source (hU : Updated m out rt ifrcs replace) (hx : x ∈ out) (hb : b ∈ x.1.bits)
    (hrt : b ∉ rt.bits) : ∃ q ∈ m, b ∈ q.1.bits ∧ indices q.2 = indices x.2 :=
  (hU.outside b hrt _).mp ⟨x, hx, hb, rfl⟩

/-- The entry of a bit outside the region keeps its indices. -/
theorem Updated.target (hU : Updated m out rt ifrcs replace) (hq : q ∈ m) (hb : b ∈ q.1.bits)
    (hrt : b ∉ rt.bits) : ∃ x ∈ out, b ∈ x.1.bits ∧ indices x.2 = indices q.2 :=
  (hU.outside b hrt _).mpr ⟨q, hq, hb, rfl⟩

end

section

variable (hU : Updated m (partitionAndUpdateIFlow m rt ifrcs replace) rt ifrcs replace)
  (h : m.Partition) (hsize : 0 < rt.size) (hnone : ∀ p ∈ m, p.1 ≠ rt)
include hU h hnone

/-- An entry that is not covered gives way to a gap wherever it meets the region. -/
theorem Updated.gap_of_uncovered (hp : p ∈ m) (hnot : p ∉ covered m rt) (hb : b ∈ p.1.bits)
    (hrt : b ∈ rt.bits) : covered m rt ≠ [] ∧ p.1 ∈ gaps m rt := by
  by_cases hsome : covered m rt = []
  · exfalso
    have hout : partitionAndUpdateIFlow m rt ifrcs replace = m.set rt ifrcs := by
      unfold partitionAndUpdateIFlow
      rw [find?_region hnone]
      dsimp only
      rw [show (m.filter fun me => regionsIntersect me.1 rt) = covered m rt from rfl, hsome]
      rfl
    have hmem := mem_insert (v := ifrcs) (FlowRegion.linear Set.univ) h.sorted (k := rt) trivial
    rw [hout] at hU
    have heq := hU.eq_of_mem ((hmem p).mpr (.inr ⟨hp, hnone p hp⟩)) ((hmem _).mpr (.inl rfl)) hb hrt
    exact hnone p hp (by rw [heq])
  · refine ⟨hsome, ?_⟩
    obtain ⟨_, _, hbits⟩ := h.gaps_spec rt
    obtain ⟨g, hg, hbg⟩ := (hbits b).mpr ⟨hrt, fun me hme hbme =>
      hnot (h.eq_of_mem hp (mem_covered.mp hme).1 hb hbme ▸ hme)⟩
    obtain ⟨x, hx, hxp⟩ := @Partition.key_update m rt ifrcs replace p.1 h hnone hsome
      (key_replaceAll (FlowRegion.linear Set.univ) h.sorted (fun _ _ => trivial)
        (fun _ _ _ _ => trivial) ⟨p, hp, rfl⟩ fun me hme heq =>
          hnot (h.keys_inj (mem_covered.mp hme).1 hp heq ▸ hme))
    have heq := hU.eq_of_mem hx (h.gapEntry_mem hnone hsome hg) (hxp ▸ hb) hbg
    rw [← hxp, heq]
    exact hg

theorem Updated.within (hp : p ∈ m) (hwithin : p.1.StrictlyWithin rt) :
    (∃ q ∈ m, q.1.offset ≤ rt.offset ∧ q.1.stop = p.1.offset) ∧
      (∃ q ∈ m, rt.stop ≤ q.1.stop ∧ q.1.offset = p.1.stop) ∧
      (replace = true ∨ indices p.2 ⊆ indices ifrcs) := by
  have hpos := h.positive p hp
  obtain ⟨_, _, hbits⟩ := h.gaps_spec rt
  have hnot : p ∉ covered m rt := fun hc =>
    (regionsIntersect_iff.mp (RegionMap.mem_covered.mp hc).2).1 hwithin
  unfold StrictlyWithin at hwithin
  have hbp : p.1.offset ∈ p.1.bits := by
    rw [mem_bits]
    unfold stop
    omega
  have hbrt : p.1.offset ∈ rt.bits := by
    rw [mem_bits]
    unfold stop at *
    omega
  obtain ⟨hsome, hgap⟩ := hU.gap_of_uncovered h hnone hp hnot hbp hbrt
  -- a bit beside the gap is in no other gap, so it is in a covered entry
  have hbeside : ∀ b ∈ rt.bits, b = p.1.offset - 1 ∨ b = p.1.stop →
      ∃ q ∈ covered m rt, b ∈ q.1.bits := by
    intro b hb hbeside
    by_contra hnone'
    push Not at hnone'
    obtain ⟨g, hg, hbg⟩ := (hbits b).mpr ⟨hb, hnone'⟩
    have hapart := h.gaps_apart p.1 hgap g hg
    rw [mem_bits] at hbg
    rcases hapart with heq | hapart
    · rw [← heq] at hbg
      omega
    · unfold stop at *
      omega
  have hfacts : ∀ q ∈ covered m rt, q ∈ m ∧ (q.1.offset ≤ rt.offset ∨ rt.stop ≤ q.1.stop) ∧
      (p.1.stop ≤ q.1.offset ∨ q.1.stop ≤ p.1.offset) := by
    intro q hq
    obtain ⟨hqm, hcovered⟩ := RegionMap.mem_covered.mp hq
    have hnotwithin := (regionsIntersect_iff.mp hcovered).1
    unfold StrictlyWithin at hnotwithin
    exact ⟨hqm, by omega, h.apart hp hqm fun heq => hnot (heq ▸ hq)⟩
  refine ⟨?_, ?_, ?_⟩
  · obtain ⟨q, hq, hbq⟩ := hbeside (p.1.offset - 1) (by
      rw [mem_bits]
      unfold stop at *
      omega) (.inl rfl)
    obtain ⟨hqm, hends, hapart⟩ := hfacts q hq
    rw [mem_bits] at hbq
    refine ⟨q, hqm, ?_, ?_⟩
    · unfold stop at *
      omega
    · unfold stop at *
      omega
  · obtain ⟨q, hq, hbq⟩ := hbeside p.1.stop (by
      rw [mem_bits]
      unfold stop at *
      omega) (.inr rfl)
    obtain ⟨hqm, hends, hapart⟩ := hfacts q hq
    rw [mem_bits] at hbq
    refine ⟨q, hqm, ?_, ?_⟩
    · unfold stop at *
      omega
    · unfold stop at *
      omega
  · have hinside := (hU.inside p.1.offset hbrt (indices ifrcs)).mp
      ⟨_, h.gapEntry_mem hnone hsome hgap, hbp, indices_adjustAll _ _⟩
    cases replace with
    | true => exact .inl rfl
    | false =>
      refine .inr ?_
      rw [if_neg (by decide), h.sourcesAt_eq hp hbp] at hinside
      rw [hinside]
      exact Set.subset_union_right

include hsize

theorem Updated.contains (hp : p ∈ m) : ¬ rt.StrictlyWithin p.1 := by
  intro hwithin
  have hnot : p ∉ covered m rt := by
    intro hc
    exact (regionsIntersect_iff.mp (mem_covered.mp hc).2).2 hwithin
  have hb : rt.offset ∈ rt.bits := by
    rw [mem_bits]
    unfold stop
    omega
  have hbp : rt.offset ∈ p.1.bits := by
    rw [mem_bits]
    unfold StrictlyWithin stop at *
    omega
  have hgap := h.gap_within (hU.gap_of_uncovered h hnone hp hnot hbp hb).2
  unfold StrictlyWithin at hwithin
  omega

theorem Updated.mem_covered (hp : p ∈ m) (hwithin : ¬ p.1.StrictlyWithin rt) :
    p ∈ covered m rt :=
  RegionMap.mem_covered.mpr ⟨hp, regionsIntersect_iff.mpr
    ⟨hwithin, hU.contains h hsize hnone hp⟩⟩

/-- The entry before the region, up to it. -/
theorem Updated.rest_before (hp : p ∈ m) (hlow : p.1.offset < rt.offset) :
    ∃ x ∈ partitionAndUpdateIFlow m rt ifrcs replace,
      x.1 = ⟨p.1.offset, rt.offset - p.1.offset⟩ := by
  have hcontains := hU.contains h hsize hnone hp
  unfold StrictlyWithin at hcontains
  have hdiff : diffRegion p.1 rt = ⟨p.1.offset, rt.offset - p.1.offset⟩ :=
    diffRegion_before hlow (by omega)
  have hcovered := hU.mem_covered h hsize hnone hp (by
    unfold StrictlyWithin
    omega)
  have hpos := h.positive p hp
  rw [← hdiff]
  refine h.piece_key hnone hcovered (x := rest rt p) (mem_pieces.mpr (.inl ⟨?_, rfl⟩)) ?_
  · rw [hdiff]
    dsimp only
    omega
  · intro q hq hstop heq
    change q.1 = diffRegion p.1 rt at heq
    rw [heq, hdiff] at hstop
    unfold stop at hstop
    dsimp only at hstop
    omega

theorem Updated.before (hp : p ∈ m) (hlow : p.1.offset < rt.offset) : rt.offset ≤ p.1.stop := by
  by_contra hgap
  have hpos := h.positive p hp
  obtain ⟨x, hx, hkey⟩ := hU.rest_before h hsize hnone hp hlow
  have hb : p.1.stop ∈ x.1.bits := by
    rw [hkey, mem_bits_to]
    unfold stop at *
    omega
  obtain ⟨q, hq, hbq, _⟩ := hU.source hx hb (by
    rw [mem_bits]
    omega)
  -- the entry in the gap comes up to the region too
  rw [mem_bits] at hbq
  have hne : p ≠ q := by
    intro heq
    rw [← heq] at hbq
    omega
  have hapart := h.apart hp hq hne
  have hlow' : q.1.offset < rt.offset := by omega
  obtain ⟨y, hy, hkey'⟩ := hU.rest_before h hsize hnone hq hlow'
  have heq := hU.eq_of_mem hx hy hb (by
    rw [hkey', mem_bits_to]
    unfold stop at *
    omega)
  rw [heq, hkey', FlowRegion.mk.injEq] at hkey
  unfold stop at *
  omega

/-- One entry at most begins behind the first bit of the region and ends behind its last one. -/
theorem Updated.unique_behind (hp : p ∈ m) (hq : q ∈ m) (hlow : rt.offset < p.1.offset)
    (hlow' : rt.offset < q.1.offset) (hhigh : rt.stop < p.1.stop) (hhigh' : rt.stop < q.1.stop) :
    p = q := by
  obtain ⟨hkey, hx⟩ := @Partition.rest_behind m rt ifrcs replace p h hsize hnone hp hlow hhigh
  obtain ⟨hkey', hy⟩ := @Partition.rest_behind m rt ifrcs replace q h hsize hnone hq hlow' hhigh'
  have heq := hU.eq_of_mem (b := rt.stop) hx hy (by
    rw [hkey, mem_bits_to]
    omega) (by
    rw [hkey', mem_bits_to]
    omega)
  rw [heq, hkey', FlowRegion.mk.injEq] at hkey
  exact h.eq_of_stop hp hq (by omega)

/-- An entry that ends behind the region begins with it or behind its first bit. -/
theorem Updated.begins_or_behind (hr : r ∈ m) (hhigh : rt.stop < r.1.stop) :
    r.1.offset = rt.offset ∨ rt.offset < r.1.offset := by
  have hcontains := hU.contains h hsize hnone hr
  unfold StrictlyWithin at hcontains
  omega

/-- An entry apart from the region and behind it follows one that begins with the region. -/
theorem Updated.follows (hp : p ∈ m) (hlow : rt.stop < p.1.offset) :
    ∃ q ∈ m, q.1.offset = rt.offset ∧ rt.stop < q.1.stop ∧ p.1.offset = q.1.stop ∧
      indices p.2 = indices q.2 ∧ ∀ r ∈ m, rt.stop < r.1.stop → r = q ∨ r = p := by
  have hpos := h.positive p hp
  have hhigh : rt.stop < p.1.stop := by
    unfold stop at *
    omega
  have hlow' : rt.offset < p.1.offset := by
    unfold stop at *
    omega
  obtain ⟨hkey, hx⟩ := @Partition.rest_behind m rt ifrcs replace p h hsize hnone hp hlow' hhigh
  -- the entry that a bit behind the region was in
  have hsource : ∀ b, rt.stop ≤ b → b < p.1.stop →
      ∃ q ∈ m, (q.1.offset ≤ b ∧ b < q.1.stop) ∧ indices q.2 = indices p.2 := by
    intro b hb hb'
    rw [← @indices_rest rt p]
    refine hU.source hx ?_ ?_
    · rw [hkey, mem_bits_to]
      exact ⟨hb, hb'⟩
    · rw [mem_bits]
      omega
  obtain ⟨q, hq, hbq, hsame⟩ := hsource rt.stop (Int.le_refl _) hhigh
  have hqp : q ≠ p := by
    intro heq
    rw [heq] at hbq
    omega
  have hbegins : q.1.offset = rt.offset := by
    rcases hU.begins_or_behind h hsize hnone hq hbq.2 with heq | hgt
    · exact heq
    · exact absurd (hU.unique_behind h hsize hnone hq hp hgt hlow' hbq.2 hhigh) hqp
  have honly : ∀ r ∈ m, rt.stop < r.1.stop → r = q ∨ r = p := by
    intro r hr hrhigh
    rcases hU.begins_or_behind h hsize hnone hr hrhigh with heq | hgt
    · refine .inl (h.eq_of_mem (b := rt.stop) hr hq ?_ hbq)
      rw [mem_bits]
      unfold stop at *
      omega
    · exact .inr (hU.unique_behind h hsize hnone hr hp hgt hlow' hrhigh hhigh)
  have hapart := h.apart hq hp hqp
  have hnext : p.1.offset = q.1.stop := by
    obtain ⟨r, hr, hbr, _⟩ := hsource q.1.stop (by omega) (by unfold stop at *; omega)
    rcases honly r hr (by omega) with rfl | rfl
    · omega
    · unfold stop at *
      omega
  exact ⟨q, hq, hbegins, hbq.2, hnext, hsame.symm, honly⟩

omit hU in
/-- The misplaced rest of such an entry stays, unless the entry that follows or the region itself
has its place. -/
theorem Partition.rest_begin_mem (hp : p ∈ m) (hqcovered : q ∈ covered m rt)
    (hbegins : q.1.offset = rt.offset) (hreaches : rt.stop < q.1.stop)
    (hnext : p.1.offset = q.1.stop) (honly : ∀ r ∈ m, rt.stop < r.1.stop → r = q ∨ r = p)
    (hhide : diffRegion q.1 rt ≠ p.1) (hfall : diffRegion q.1 rt ≠ rt) :
    (rest rt q).1 ≠ (rest rt p).1 ∧ 0 < (rest rt q).1.size ∧
      rest rt q ∈ partitionAndUpdateIFlow m rt ifrcs replace := by
  have hq := (RegionMap.mem_covered.mp hqcovered).1
  have hqpos := h.positive q hq
  have hppos := h.positive p hp
  have hdiff : (rest rt q).1 = ⟨q.1.size + rt.size, q.1.size - rt.size⟩ :=
    diffRegion_begin hbegins hreaches
  have hdiffpos : 0 < (rest rt q).1.size := by
    rw [hdiff]
    unfold stop at *
    dsimp only
    omega
  have hneq : (rest rt q).1 ≠ (rest rt p).1 := by
    intro heq
    have hdiff' : (rest rt p).1 = ⟨rt.stop, p.1.stop - rt.stop⟩ :=
      diffRegion_behind (by unfold stop at *; omega) (by unfold stop at *; omega)
    rw [hdiff, hdiff', FlowRegion.mk.injEq] at heq
    unfold stop at *
    omega
  obtain ⟨_, hcommon⟩ := @common_key rt ifrcs replace q hsize hbegins hreaches
  refine ⟨hneq, hdiffpos, h.piece_mem hnone hqcovered (rest_last hdiffpos fun _ heq => ?_) ?_ ?_⟩
  · rw [hcommon] at heq
    exact hfall heq.symm
  · intro r hr hstop
    have hrpos := h.positive r hr
    have hrhigh : rt.stop < r.1.stop := by
      unfold stop at *
      omega
    rcases honly r hr hrhigh with rfl | rfl
    · unfold stop at hstop
      omega
    · refine ⟨fun heq => hhide heq.symm, fun y hy heq => ?_⟩
      rcases mem_pieces.mp hy with ⟨_, rfl⟩ | ⟨hpos', rfl⟩
      · exact hneq heq.symm
      · have hwithin := @common_within rt ifrcs replace r hpos'
        omega
  · intro g hg heq
    obtain ⟨_, _, hbits⟩ := h.gaps_spec rt
    have hg' := h.gap_within hg
    refine ((hbits g.offset).mp ⟨g, hg, ?_⟩).2 q hqcovered ?_
    · rw [mem_bits, stop]
      omega
    · rw [mem_bits]
      unfold stop at *
      omega

/-- The place of the misplaced rest. -/
theorem Updated.hidden (hp : p ∈ m) (hq : q ∈ m) (hbegins : q.1.offset = rt.offset)
    (hreaches : rt.stop < q.1.stop) (hnext : p.1.offset = q.1.stop)
    (honly : ∀ r ∈ m, rt.stop < r.1.stop → r = q ∨ r = p) :
    diffRegion q.1 rt = p.1 ∨ diffRegion q.1 rt = rt ∨
      ∃ r ∈ m, r.1 = diffRegion q.1 rt ∧ r.1.stop = rt.offset ∧ indices r.2 = indices q.2 := by
  by_cases hhide : diffRegion q.1 rt = p.1
  · exact .inl hhide
  by_cases hfall : diffRegion q.1 rt = rt
  · exact .inr (.inl hfall)
  have hppos := h.positive p hp
  have hpstop : p.1.offset < p.1.stop := by
    unfold stop
    omega
  have hrtstop : rt.offset < rt.stop := by
    unfold stop
    omega
  have hqcovered : q ∈ covered m rt := hU.mem_covered h hsize hnone hq (by
    unfold StrictlyWithin
    omega)
  obtain ⟨hkey, hx⟩ := @Partition.rest_behind m rt ifrcs replace p h hsize hnone hp (by omega)
    (by omega)
  obtain ⟨hneq, hpos, hrest⟩ := @Partition.rest_begin_mem m rt ifrcs replace p q h hsize hnone hp
    hqcovered hbegins hreaches hnext honly hhide hfall
  obtain ⟨b, hb⟩ := bits_nonempty_iff.mpr hpos
  have hbrt : b ∉ rt.bits := by
    intro hbrt
    obtain ⟨hmeets, hcommon⟩ := @common_key rt ifrcs replace q hsize hbegins hreaches
    obtain ⟨y, hy, hykey⟩ := h.piece_key (x := common rt ifrcs replace q) hnone hqcovered
      (mem_pieces.mpr (.inr ⟨hmeets, rfl⟩)) fun r hr _ heq => hnone r hr (heq.trans hcommon)
    have heq := hU.eq_of_mem hrest hy hb (by
      rw [hykey, hcommon]
      exact hbrt)
    refine hfall ?_
    change (rest rt q).1 = rt
    rw [heq, hykey, hcommon]
  have hnotp : ¬ (rt.stop ≤ b ∧ b < p.1.stop) := by
    intro hb'
    refine hneq ?_
    rw [hU.eq_of_mem hrest hx hb (by
      rw [hkey, mem_bits_to]
      exact hb')]
  -- the entry that the first bit of the rest was in ends where the region begins
  obtain ⟨r, hr, hbr, hrsame⟩ := hU.source hrest hb hbrt
  rw [indices_rest] at hrsame
  rw [mem_bits] at hbr hbrt
  have hrstop : r.1.stop ≤ rt.stop := by
    by_contra hrhigh
    rcases honly r hr (by omega) with rfl | rfl
    · omega
    · omega
  have hrq : r ≠ q := by
    intro heq
    rw [heq] at hrstop
    omega
  have hrapart := h.apart hr hq hrq
  have hrlow : r.1.offset < rt.offset := by omega
  have hrend : r.1.stop = rt.offset := by
    have hbefore := hU.before h hsize hnone hr hrlow
    omega
  obtain ⟨y, hy, hykey⟩ := hU.rest_before h hsize hnone hr hrlow
  have hrkey : y.1 = r.1 := by
    rw [hykey]
    refine eq_of_ends rfl ?_
    unfold stop at *
    dsimp only
    omega
  have heq := hU.eq_of_mem hrest hy hb (by
    rw [hrkey]
    exact hbr)
  refine .inr (.inr ⟨r, hr, ?_, hrend, hrsame⟩)
  change r.1 = (rest rt q).1
  rw [heq, hrkey]

theorem Updated.coincides (hp : p ∈ m) (hlow : rt.stop < p.1.offset) :
    ∃ q ∈ m, Coincides m rt q p := by
  obtain ⟨q, hq, hbegins, hreaches, hnext, hsame, honly⟩ := hU.follows h hsize hnone hp hlow
  exact ⟨q, hq, hbegins, hreaches, hnext, hsame, honly,
    hU.hidden h hsize hnone hp hq hbegins hreaches hnext honly⟩

/-- The rest of an entry that begins with the region is where it should be, or another one makes
up for it. -/
theorem Updated.aligned (hbehind : ∀ p ∈ m, rt.stop < p.1.stop → p.1.offset ≤ rt.stop) (hq : q ∈ m)
    (hbegins : q.1.offset = rt.offset) (hreaches : rt.stop < q.1.stop) : q.1.size = rt.offset := by
  have hdiff : (rest rt q).1 = ⟨q.1.size + rt.size, q.1.size - rt.size⟩ :=
    diffRegion_begin hbegins hreaches
  have hqcovered : q ∈ covered m rt := hU.mem_covered h hsize hnone hq (by
    unfold StrictlyWithin
    omega)
  have hbq : rt.stop ∈ q.1.bits := by
    rw [mem_bits]
    unfold stop at *
    omega
  obtain ⟨x, hx, hbx, _⟩ := hU.target hq hbq (by
    rw [mem_bits]
    omega)
  rw [mem_bits] at hbx
  -- the only piece that can hold the bit behind the region
  have hkey : x.1 = (rest rt q).1 := by
    rcases h.cases_update hnone (List.ne_nil_of_mem hqcovered) hx with
      ⟨g, hg, rfl⟩ | ⟨hx, hnot⟩ | ⟨l₁, me, l₂, hsplit, hx, _⟩
    · have hg := h.gap_within hg
      change g.offset ≤ rt.stop ∧ rt.stop < g.stop at hbx
      omega
    · exact absurd (h.eq_of_mem hq hx hbq hbx ▸ hqcovered) hnot
    · have hme : me ∈ covered m rt := by
        rw [hsplit]
        exact List.mem_append_right l₁ List.mem_cons_self
      have hme' := (RegionMap.mem_covered.mp hme).1
      rcases mem_pieces.mp hx with ⟨hpos, rfl⟩ | ⟨hpos, rfl⟩
      · rcases h.rest_cases hme hpos with ⟨hlow, hkey⟩ | ⟨heq, hhigh⟩ | ⟨hlow, hhigh, _⟩
        · rw [hkey] at hbx
          unfold stop at hbx
          dsimp only at hbx
          omega
        · rw [h.eq_of_mem (b := rt.stop) hme' hq (by
            rw [mem_bits]
            unfold stop at *
            omega) hbq]
        · have hoffset := hbehind me hme' hhigh
          rw [h.eq_of_mem (b := rt.stop) hme' hq (by
            rw [mem_bits]
            omega) hbq]
      · have hin : rt.stop ∈ rt.bits :=
          ((common_bits (RegionMap.mem_covered.mp hme).2 rt.stop).mp ⟨hpos, hbx⟩).2
        rw [mem_bits] at hin
        omega
  by_contra hne
  obtain ⟨hmeets, hcommon⟩ := @common_key rt ifrcs replace q hsize hbegins hreaches
  obtain ⟨y, hy, hykey⟩ := h.piece_key (x := common rt ifrcs replace q) hnone hqcovered
    (mem_pieces.mpr (.inr ⟨hmeets, rfl⟩)) fun r hr _ heq => hnone r hr (heq.trans hcommon)
  rw [hcommon] at hykey
  have heq := hU.eq_of_mem (b := rt.stop - 1) hx hy (by
    rw [hkey, hdiff] at hbx
    rw [hkey, hdiff, mem_bits]
    unfold stop at *
    dsimp only at *
    omega) (by
    rw [hykey, mem_bits]
    unfold stop
    omega)
  rw [heq, hykey] at hbx
  omega

/-- A region that is updated is one of these. -/
theorem Updated.cases : Updatable m rt ifrcs replace ∨
    (∀ p ∈ m, p.1.offset < rt.offset → rt.offset ≤ p.1.stop) ∧
      ∃ q ∈ m, ∃ p ∈ m, Coincides m rt q p := by
  have hbefore : ∀ p ∈ m, p.1.offset < rt.offset → rt.offset ≤ p.1.stop :=
    fun p hp => hU.before h hsize hnone hp
  by_cases hbehind : ∀ p ∈ m, rt.stop < p.1.stop → p.1.offset ≤ rt.stop
  · exact .inl ⟨fun p hp => hU.contains h hsize hnone hp, hbefore, hbehind,
      fun p hp => hU.aligned h hsize hnone hbehind hp, fun p hp => hU.within h hnone hp⟩
  · push Not at hbehind
    obtain ⟨p, hp, _, hlow⟩ := hbehind
    obtain ⟨q, hq, hcoincides⟩ := hU.coincides h hsize hnone hp hlow
    exact .inr ⟨hbefore, q, hq, p, hp, hcoincides⟩

end

theorem Coincides.rest_mem (hc : Coincides m rt q p) (h : m.Partition) (hsize : 0 < rt.size)
    (hnone : ∀ p ∈ m, p.1 ≠ rt) (hp : p ∈ m) :
    (rest rt p).1 = ⟨rt.stop, p.1.stop - rt.stop⟩ ∧
      rest rt p ∈ partitionAndUpdateIFlow m rt ifrcs replace := by
  have hbegins := hc.begins
  have hreaches := hc.reaches
  have hnext := hc.next
  have hppos := h.positive p hp
  exact h.rest_behind hsize hnone hp (by unfold stop at *; omega) (by unfold stop at *; omega)

section

variable (hc : Coincides m rt q p) (h : m.Partition) (hsize : 0 < rt.size)
  (hnone : ∀ p ∈ m, p.1 ≠ rt) (hbefore : ∀ p ∈ m, p.1.offset < rt.offset → rt.offset ≤ p.1.stop)
  (hq : q ∈ m) (hp : p ∈ m)
include hc h hbefore hq

/-- Besides the two entries there is one at most, which ends where the region begins. -/
theorem Coincides.cases (hr : r ∈ m) :
    r = q ∨ r = p ∨ r.1.offset < rt.offset ∧ r.1.stop = rt.offset := by
  have hbegins := hc.begins
  have hreaches := hc.reaches
  by_cases hhigh : rt.stop < r.1.stop
  · rcases hc.only r hr hhigh with heq | heq
    · exact .inl heq
    · exact .inr (.inl heq)
  · have hrpos := h.positive r hr
    have hrq : r ≠ q := by
      intro heq
      rw [heq] at hhigh
      contradiction
    have hapart := h.apart hr hq hrq
    have hlow := hbefore r hr
    refine .inr (.inr ?_)
    unfold stop at *
    omega

include hsize

theorem Coincides.mem_covered (hr : r ∈ m) : r ∈ covered m rt := by
  have hbegins := hc.begins
  have hreaches := hc.reaches
  have hnext := hc.next
  have hqpos := h.positive q hq
  have hrpos := h.positive r hr
  refine RegionMap.mem_covered.mpr ⟨hr, regionsIntersect_iff.mpr ?_⟩
  unfold StrictlyWithin
  rcases hc.cases h hbefore hq hr with rfl | rfl | hleft
  · omega
  · unfold stop at *
    omega
  · unfold stop at *
    omega

theorem Coincides.no_gap : ∀ g ∈ gaps m rt, False := by
  intro g hg
  obtain ⟨_, _, hbits⟩ := h.gaps_spec rt
  have hbegins := hc.begins
  have hreaches := hc.reaches
  have hg' := h.gap_within hg
  refine ((hbits g.offset).mp ⟨g, hg, ?_⟩).2 q (hc.mem_covered h hsize hbefore hq hq) ?_
  · rw [mem_bits, stop]
    omega
  · rw [mem_bits]
    unfold stop at *
    omega

include hnone

theorem Coincides.left_key (hr : r ∈ m) (hstop : r.1.stop = rt.offset) :
    ∃ x ∈ partitionAndUpdateIFlow m rt ifrcs replace, x.1 = r.1 := by
  have hrpos := h.positive r hr
  have hlow : r.1.offset < rt.offset := by
    unfold stop at hstop
    omega
  have hdiff : diffRegion r.1 rt = ⟨r.1.offset, rt.offset - r.1.offset⟩ :=
    diffRegion_before hlow (by unfold stop at *; omega)
  have hkey : diffRegion r.1 rt = r.1 := by
    rw [hdiff]
    refine eq_of_ends rfl ?_
    rw [hstop]
    unfold stop
    dsimp only
    omega
  obtain ⟨x, hx, hxkey⟩ := @Partition.piece_key m rt ifrcs replace r (rest rt r) h hnone
    (hc.mem_covered h hsize hbefore hq hr) (mem_pieces.mpr (.inl ⟨by rwa [hkey], rfl⟩)) (by
      intro p' hp' hle heq
      change p'.1 = diffRegion r.1 rt at heq
      rw [heq, hkey] at hle
      unfold stop at hle
      omega)
  exact ⟨x, hx, hxkey.trans hkey⟩

include hp

/-- The region itself has what the first entry has in common with it. -/
theorem Coincides.common_mem :
    common rt ifrcs replace q ∈ partitionAndUpdateIFlow m rt ifrcs replace := by
  obtain ⟨hmeets, hkey⟩ := @common_key rt ifrcs replace q hsize hc.begins hc.reaches
  have hbegins := hc.begins
  have hreaches := hc.reaches
  have hnext := hc.next
  have hqpos := h.positive q hq
  refine h.piece_mem hnone (hc.mem_covered h hsize hbefore hq hq) (common_last hmeets) ?_
    fun g hg => (hc.no_gap h hsize hbefore hq g hg).elim
  intro r hr hstop
  rw [hkey]
  have hrpos := h.positive r hr
  refine ⟨hnone r hr, ?_⟩
  intro y hy heq
  rcases hc.cases h hbefore hq hr with rfl | rfl | hleft
  · unfold stop at hstop
    omega
  · rcases mem_pieces.mp hy with ⟨hpos, rfl⟩ | ⟨hpos, rfl⟩
    · change diffRegion r.1 rt = rt at heq
      rw [diffRegion_behind (by unfold stop at *; omega) (by unfold stop at *; omega)] at heq
      have hoffset := congrArg FlowRegion.offset heq
      unfold stop at hoffset
      dsimp only at hoffset
      omega
    · have hwithin := @common_within rt ifrcs replace r hpos
      omega
  · have hrpos := h.positive r hr
    unfold stop at *
    omega

/-- The entries after the update. -/
theorem Coincides.cases_update (hx : x ∈ partitionAndUpdateIFlow m rt ifrcs replace) :
    x = rest rt p ∨ x = common rt ifrcs replace q ∨
      ∃ r ∈ m, r.1.stop = rt.offset ∧ x.1 = r.1 ∧ indices x.2 = indices r.2 := by
  have hqcovered := hc.mem_covered h hsize hbefore hq hq
  have hsome := List.ne_nil_of_mem hqcovered
  have hbegins := hc.begins
  have hreaches := hc.reaches
  have hnext := hc.next
  have hx' := hx
  rcases h.cases_update hnone hsome hx with
    ⟨g, hg, _⟩ | ⟨hx, hnot⟩ | ⟨l₁, me, l₂, hsplit, hx, hlast⟩
  · exact (hc.no_gap h hsize hbefore hq g hg).elim
  · exact absurd (hc.mem_covered h hsize hbefore hq hx) hnot
  · have hme : me ∈ m := by
      have hme : me ∈ covered m rt := by
        rw [hsplit]
        exact List.mem_append_right l₁ List.mem_cons_self
      exact (RegionMap.mem_covered.mp hme).1
    rcases hc.cases h hbefore hq hme with rfl | rfl | ⟨hlow, hstop⟩
    · rcases mem_pieces.mp hx with ⟨_, rfl⟩ | ⟨_, rfl⟩
      · rcases hc.hidden with hhide | hfall | ⟨r, hr, hkey, hstop, hsame⟩
        · -- the next entry is erased after it
          exfalso
          have hp' := hc.mem_covered h hsize hbefore hq hp
          have hturn := h.in_turn.filter fun me => regionsIntersect me.1 rt
          rw [show m.filter (fun me => regionsIntersect me.1 rt) = covered m rt from rfl,
            hsplit] at hturn
          rw [hsplit, List.mem_append, List.mem_cons] at hp'
          have hppos := h.positive p hp
          have hqpos := h.positive me hq
          rcases hp' with hp' | rfl | hp'
          · have hle := (List.pairwise_append.mp hturn).2.2 p hp' me List.mem_cons_self
            unfold stop at *
            omega
          · unfold stop at hnext
            omega
          · exact hlast p hp' hhide.symm
        · refine .inr (.inl ?_)
          refine (h.sorted_update hnone hsome).eq_of_key (FlowRegion.linear Set.univ) hx'
            (hc.common_mem h hsize hnone hbefore hq hp) ?_
          rw [(common_key hsize hbegins hreaches).2]
          exact hfall
        · exact .inr (.inr ⟨r, hr, hstop, hkey.symm, by rw [indices_rest, hsame]⟩)
      · exact .inr (.inl rfl)
    · rcases mem_pieces.mp hx with ⟨_, rfl⟩ | ⟨hpos, rfl⟩
      · exact .inl rfl
      · have hwithin := @common_within rt ifrcs replace me hpos
        omega
    · rcases mem_pieces.mp hx with ⟨_, rfl⟩ | ⟨hpos, rfl⟩
      · refine .inr (.inr ⟨me, hme, hstop, ?_, indices_rest⟩)
        have hdiff : (rest rt me).1 = ⟨me.1.offset, rt.offset - me.1.offset⟩ :=
          diffRegion_before hlow (by unfold stop at *; omega)
        rw [hdiff]
        refine eq_of_ends rfl ?_
        rw [hstop]
        unfold stop
        dsimp only
        omega
      · have hwithin := @common_within rt ifrcs replace me hpos
        omega

/-- What the entry of a bit is after the update. -/
theorem Coincides.bit_cases (hx : x ∈ partitionAndUpdateIFlow m rt ifrcs replace)
    (hb : b ∈ x.1.bits) : (x = rest rt p ∧ rt.stop ≤ b ∧ b < p.1.stop) ∨
      (x = common rt ifrcs replace q ∧ rt.offset ≤ b ∧ b < rt.stop) ∨
      ∃ r ∈ m, b < rt.offset ∧ r.1.stop = rt.offset ∧ x.1 = r.1 ∧ indices x.2 = indices r.2 := by
  rcases hc.cases_update h hsize hnone hbefore hq hp hx with rfl | rfl | ⟨r, hr, hstop, hkey, hs⟩
  · rw [(@Coincides.rest_mem m rt ifrcs replace p q hc h hsize hnone hp).1, mem_bits_to] at hb
    exact .inl ⟨rfl, hb⟩
  · rw [(common_key hsize hc.begins hc.reaches).2, mem_bits] at hb
    exact .inr (.inl ⟨rfl, hb⟩)
  · refine .inr (.inr ⟨r, hr, ?_, hstop, hkey, hs⟩)
    rw [hkey, mem_bits] at hb
    omega

theorem Coincides.partition : (partitionAndUpdateIFlow m rt ifrcs replace).Partition := by
  have hrtstop : rt.offset < rt.stop := by
    unfold stop
    omega
  refine ⟨h.sorted_update hnone (List.ne_nil_of_mem (hc.mem_covered h hsize hbefore hq hq)), ?_, ?_⟩
  · intro x hx
    rcases hc.cases_update h hsize hnone hbefore hq hp hx with rfl | rfl | ⟨r, hr, _, hkey, _⟩
    · have hreaches := hc.reaches
      have hnext := hc.next
      have hppos := h.positive p hp
      rw [(@Coincides.rest_mem m rt ifrcs replace p q hc h hsize hnone hp).1]
      unfold stop at *
      dsimp only
      omega
    · rw [(common_key hsize hc.begins hc.reaches).2]
      exact hsize
    · rw [hkey]
      exact h.positive r hr
  · intro x hx y hy hne
    rw [Set.disjoint_left]
    intro b hbx hby
    apply hne
    rcases hc.bit_cases h hsize hnone hbefore hq hp hx hbx with
      ⟨rfl, hb, _⟩ | ⟨rfl, hb⟩ | ⟨r, hr, hb, hstop, hkey, _⟩
    · rcases hc.bit_cases h hsize hnone hbefore hq hp hy hby with
        ⟨rfl, _⟩ | ⟨_, hb'⟩ | ⟨_, _, hb', _⟩
      · rfl
      · omega
      · omega
    · rcases hc.bit_cases h hsize hnone hbefore hq hp hy hby with
        ⟨_, hb', _⟩ | ⟨rfl, _⟩ | ⟨_, _, hb', _⟩
      · omega
      · rfl
      · omega
    · rcases hc.bit_cases h hsize hnone hbefore hq hp hy hby with
        ⟨_, hb', _⟩ | ⟨_, hb'⟩ | ⟨r', hr', _, hstop', hkey', _⟩
      · omega
      · omega
      · rw [hkey, hkey', h.eq_of_stop hr hr' (hstop.trans hstop'.symm)]

theorem Coincides.inside (hb : b ∈ rt.bits) (s : Set Int) :
    (partitionAndUpdateIFlow m rt ifrcs replace).Maps b s ↔
      s = indices ifrcs ∪ if replace then ∅ else m.sourcesAt b := by
  have hbegins := hc.begins
  have hreaches := hc.reaches
  have hbq : b ∈ q.1.bits := by
    rw [mem_bits] at hb ⊢
    omega
  rw [h.sourcesAt_eq hq hbq, ← @indices_common rt]
  constructor
  · intro hs
    obtain ⟨x, hx, hbx, rfl⟩ := hs
    rw [mem_bits] at hb
    rcases hc.bit_cases h hsize hnone hbefore hq hp hx hbx with
      ⟨_, hb', _⟩ | ⟨rfl, _⟩ | ⟨_, _, hb', _⟩
    · omega
    · rfl
    · omega
  · intro hs
    refine ⟨_, hc.common_mem h hsize hnone hbefore hq hp, ?_, hs.symm⟩
    rw [(common_key hsize hbegins hreaches).2]
    exact hb

theorem Coincides.outside (hb : b ∉ rt.bits) (s : Set Int) :
    (partitionAndUpdateIFlow m rt ifrcs replace).Maps b s ↔ m.Maps b s := by
  have hbegins := hc.begins
  have hreaches := hc.reaches
  have hnext := hc.next
  have hppos := h.positive p hp
  obtain ⟨hkey, hmem⟩ := @Coincides.rest_mem m rt ifrcs replace p q hc h hsize hnone hp
  rw [mem_bits] at hb
  constructor
  · intro hs
    obtain ⟨x, hx, hbx, rfl⟩ := hs
    rcases hc.bit_cases h hsize hnone hbefore hq hp hx hbx with
      ⟨rfl, hlow, hhigh⟩ | ⟨_, hb'⟩ | ⟨r, hr, _, _, hkey, hs⟩
    · rw [indices_rest]
      by_cases hbq : b < q.1.stop
      · refine ⟨q, hq, ?_, hc.same.symm⟩
        rw [mem_bits]
        unfold stop at *
        omega
      · refine ⟨p, hp, ?_, rfl⟩
        rw [mem_bits]
        omega
    · contradiction
    · exact ⟨r, hr, hkey ▸ hbx, hs.symm⟩
  · intro hs
    obtain ⟨r, hr, hbr, rfl⟩ := hs
    have hbr' := mem_bits.mp hbr
    rcases hc.cases h hbefore hq hr with rfl | rfl | ⟨_, hstop⟩
    · refine ⟨_, hmem, ?_, indices_rest.trans hc.same⟩
      rw [hkey, mem_bits_to]
      unfold stop at *
      omega
    · refine ⟨_, hmem, ?_, indices_rest⟩
      rw [hkey, mem_bits_to]
      omega
    · obtain ⟨x, hx, hkey⟩ :=
        @Coincides.left_key m rt ifrcs replace p q r hc h hsize hnone hbefore hq hr hstop
      have hbx : b ∈ x.1.bits := hkey ▸ hbr
      rcases hc.bit_cases h hsize hnone hbefore hq hp hx hbx with
        ⟨_, hlow, _⟩ | ⟨_, hb'⟩ | ⟨r', hr', _, hstop', _, hs⟩
      · unfold stop at *
        omega
      · contradiction
      · rw [h.eq_of_stop hr' hr (hstop'.trans hstop.symm)] at hs
        exact ⟨x, hx, hbx, hs⟩

/-- An entry that is not where it should be does no harm where the two coincide. -/
theorem Coincides.updated :
    Updated m (partitionAndUpdateIFlow m rt ifrcs replace) rt ifrcs replace :=
  ⟨hc.partition h hsize hnone hbefore hq hp,
    fun _ hb s => hc.inside h hsize hnone hbefore hq hp hb s,
    fun _ hb s => hc.outside h hsize hnone hbefore hq hp hb s⟩

end

/-- Exactly these regions are updated: one of the map; one that the entries come up to without a
gap; and one that an entry begins with and ends behind, where the entry that follows makes up for
the misplaced rest. -/
theorem Partition.updated_iff (h : m.Partition) (hsize : 0 < rt.size) :
    Updated m (partitionAndUpdateIFlow m rt ifrcs replace) rt ifrcs replace ↔
      (∃ p ∈ m, p.1 = rt) ∨ Updatable m rt ifrcs replace ∨
        (∀ p ∈ m, p.1.offset < rt.offset → rt.offset ≤ p.1.stop) ∧
          ∃ q ∈ m, ∃ p ∈ m, Coincides m rt q p := by
  by_cases hkey : ∃ p ∈ m, p.1 = rt
  · exact iff_of_true (h.updated_key hkey) (.inl hkey)
  · have hnone : ∀ p ∈ m, p.1 ≠ rt := fun p hp heq => hkey ⟨p, hp, heq⟩
    constructor
    · intro hU
      exact .inr (hU.cases h hsize hnone)
    · intro hcond
      rcases hcond with hkey' | hupdatable | ⟨hbefore, q, hq, p, hp, hc⟩
      · contradiction
      · exact hupdatable.updated h hsize hnone
      · exact hc.updated h hsize hnone hbefore hq hp

/-- A register of one word from one argument. -/
def oneWord : RegionMap := [(⟨0, 8⟩, [⟨1, [⟨0, 8⟩]⟩])]

theorem oneWord_partition : oneWord.Partition := by
  refine ⟨⟨fun _ _ => trivial, List.pairwise_singleton _ _⟩, ?_, ?_⟩
  · decide
  · intro p hp q hq hne
    rw [List.mem_singleton.mp hp, List.mem_singleton.mp hq] at hne
    contradiction

/-- The region right behind it is added as it should be. -/
theorem oneWord_behind :
    Updated oneWord (partitionAndUpdateIFlow oneWord ⟨8, 8⟩ [⟨2, [⟨0, 8⟩]⟩] true) ⟨8, 8⟩
      [⟨2, [⟨0, 8⟩]⟩] true :=
  (oneWord_partition.updated_iff (by decide)).mpr (.inr (.inl (by
    refine ⟨?_, ?_, ?_, ?_, ?_⟩
    · decide
    · decide
    · decide
    · decide
    · intro p hp hwithin
      rw [List.mem_singleton.mp hp] at hwithin
      exact absurd hwithin (by decide))))

/-- A region further behind: the entry grows up to it. -/
theorem oneWord_further :
    ¬ Updated oneWord (partitionAndUpdateIFlow oneWord ⟨16, 8⟩ [⟨2, [⟨0, 8⟩]⟩] true) ⟨16, 8⟩
      [⟨2, [⟨0, 8⟩]⟩] true := by
  intro h
  have hmaps := (h.outside 8 (by decide) {1}).mp ⟨(⟨0, 16⟩, [⟨1, [⟨0, 16⟩]⟩]), by decide,
    by decide, by
      ext i
      simp [indices, eq_comm]⟩
  obtain ⟨p, hp, hb, _⟩ := hmaps
  rw [List.mem_singleton.mp hp] at hb
  revert hb
  decide

end RegionMap

end Encider
