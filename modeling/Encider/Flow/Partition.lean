import Encider.Flow.Slice

/-! `partitionAndUpdateIFlow`: new sources for the bits of a region. -/

namespace Encider

open FlowRegion InfoFlowRegion Ordered

namespace FlowRegion

/-- The loop of `diffPartitionRegion`, with the region that is not covered yet. -/
def diffPartitionLoop (uncovered : FlowRegion) : List FlowRegion → List FlowRegion
  | [] => if uncovered.size > 0 then [uncovered] else []
  | r :: rgs =>
    if uncovered.size ≤ 0 then []
    else if r.offset = uncovered.offset then
      diffPartitionLoop ⟨uncovered.offset + r.size, uncovered.size - r.size⟩ rgs
    else if r.offset < uncovered.offset then
      diffPartitionLoop
        ⟨r.offset + r.size, uncovered.size - (r.offset + r.size - uncovered.offset)⟩ rgs
    else
      let gap : FlowRegion := ⟨uncovered.offset, r.offset - uncovered.offset⟩
      gap :: diffPartitionLoop ⟨r.offset + r.size, uncovered.size - (gap.size + r.size)⟩ rgs

def diffPartitionRegion (r1 : FlowRegion) (rgs : List FlowRegion) : List FlowRegion :=
  diffPartitionLoop r1 rgs

variable {u r : FlowRegion} {rgs : List FlowRegion} {b : Int}

/-- What is left of a region between regions that come in turn: pieces that come in turn, each one
apart from the next. -/
theorem diffPartitionLoop_spec (hpos : ∀ q ∈ rgs, 0 < q.size)
    (hsorted : rgs.Pairwise fun p q => p.stop ≤ q.offset)
    (hin : ∀ q ∈ rgs, u.offset ≤ q.offset ∧ q.stop ≤ u.stop) :
    (∀ g ∈ diffPartitionLoop u rgs, 0 < g.size ∧ u.offset ≤ g.offset) ∧
      (diffPartitionLoop u rgs).Pairwise (fun p q => p.stop < q.offset) ∧
      ∀ b, (∃ g ∈ diffPartitionLoop u rgs, b ∈ g.bits) ↔ b ∈ u.bits ∧ ∀ q ∈ rgs, b ∉ q.bits := by
  induction rgs generalizing u with
  | nil =>
    unfold diffPartitionLoop
    split
    · rename_i hsize
      refine ⟨?_, List.pairwise_singleton _ _, fun b => by simp⟩
      intro g hg
      rw [List.mem_singleton.mp hg]
      exact ⟨hsize, Int.le_refl _⟩
    · rename_i hsize
      refine ⟨by simp, List.Pairwise.nil, fun b => ?_⟩
      refine iff_of_false (by simp) ?_
      intro hb
      have := mem_bits.mp hb.1
      unfold stop at this
      omega
  | cons r rgs ih =>
    have hr := hpos r List.mem_cons_self
    obtain ⟨hlow, hhigh⟩ := hin r List.mem_cons_self
    unfold stop at hhigh
    have hmore : ∀ q ∈ rgs, r.stop ≤ q.offset := fun q hq => List.rel_of_pairwise_cons hsorted hq
    -- the rest of the loop goes on with what is left behind the first region
    have hrest := fun (w : FlowRegion) (hw : w.offset = r.stop) (hz : w.stop = u.stop) =>
      ih (u := w) (fun q hq => hpos q (List.mem_cons_of_mem r hq)) hsorted.of_cons
        fun q hq => ⟨hw ▸ hmore q hq, hz ▸ (hin q (List.mem_cons_of_mem r hq)).2⟩
    unfold diffPartitionLoop
    rw [if_neg (by omega)]
    by_cases hfirst : r.offset = u.offset
    · rw [if_pos hfirst]
      obtain ⟨hpieces, hturn, hbits⟩ := hrest ⟨u.offset + r.size, u.size - r.size⟩
        (by unfold stop; dsimp only; omega) (by unfold stop; dsimp only; omega)
      refine ⟨?_, hturn, fun b => ?_⟩
      · intro g hg
        obtain ⟨hsize, hoffset⟩ := hpieces g hg
        dsimp only at hoffset
        exact ⟨hsize, by omega⟩
      · rw [hbits, List.forall_mem_cons, mem_bits_mk, @mem_bits u b, @mem_bits r b, ← and_assoc]
        refine and_congr_left fun _ => ?_
        unfold stop
        omega
    · rw [if_neg hfirst, if_neg (by omega)]
      obtain ⟨hpieces, hturn, hbits⟩ := hrest
        ⟨r.offset + r.size, u.size - (r.offset - u.offset + r.size)⟩
        (by unfold stop; dsimp only) (by unfold stop; dsimp only; omega)
      dsimp only
      refine ⟨?_, List.pairwise_cons.mpr ⟨?_, hturn⟩, fun b => ?_⟩
      · intro g hg
        rcases List.mem_cons.mp hg with rfl | hg
        · exact ⟨by dsimp only; omega, Int.le_refl _⟩
        · obtain ⟨hsize, hoffset⟩ := hpieces g hg
          dsimp only at hoffset
          exact ⟨hsize, by omega⟩
      · intro g hg
        have hoffset := (hpieces g hg).2
        unfold stop
        dsimp only at hoffset ⊢
        omega
      · have hbehind : b < r.offset → ∀ q ∈ rgs, b ∉ q.bits := by
          intro hb q hq hbq
          have := hmore q hq
          rw [mem_bits] at hbq
          unfold stop at *
          omega
        rw [List.exists_mem_cons_iff, hbits, List.forall_mem_cons, mem_bits_mk, mem_bits_mk,
          @mem_bits u b, @mem_bits r b]
        unfold stop
        by_cases hbefore : b < r.offset
        · have hmiss := hbehind hbefore
          constructor
          · intro h
            exact ⟨by omega, by omega, hmiss⟩
          · intro h
            exact .inl (by omega)
        · constructor
          · intro h
            rcases h with hb | ⟨hb, hmiss⟩
            · omega
            · exact ⟨by omega, by omega, hmiss⟩
          · intro h
            obtain ⟨hb, hmissr, hmiss⟩ := h
            exact .inr ⟨by omega, hmiss⟩

theorem regionsIntersect_iff {r1 r2 : FlowRegion} : regionsIntersect r1 r2 = true ↔
    ¬ r1.StrictlyWithin r2 ∧ ¬ r2.StrictlyWithin r1 := by
  unfold regionsIntersect StrictlyWithin stop
  split_ifs with h h'
  · refine iff_of_true rfl ?_
    omega
  · refine iff_of_true rfl ?_
    omega
  · refine iff_of_false (by decide) ?_
    omega

end FlowRegion

namespace RegionMap

/-- The sources of the bits that an entry and the region have in common. -/
def commonSources (rt : FlowRegion) (ifrcs : List InfoFlowRegion) (replace : Bool)
    (me : FlowRegion × List InfoFlowRegion) (rd3 : FlowRegion) : List InfoFlowRegion :=
  let aifrcs := adjustAll ifrcs (adjustment rt rd3)
  if replace then aifrcs
  else me.2.foldl (fun s ifre => add InfoFlowRegion.lt (ifre.adjust (adjustment me.1 rd3)) s) aifrcs

/-- The loop over the covered entries, with the regions of common bits. -/
def partitionStep (rt : FlowRegion) (ifrcs : List InfoFlowRegion) (replace : Bool)
    (acc : RegionMap × List FlowRegion) (me : FlowRegion × List InfoFlowRegion) :
    RegionMap × List FlowRegion :=
  let ifrmap := erase FlowRegion.lt me.1 acc.1
  let rd1 := diffRegion me.1 rt
  let ifrmap :=
    if rd1.size > 0 then RegionMap.set ifrmap rd1 (adjustAll me.2 (adjustment me.1 rd1)) else ifrmap
  let rd3 := intersection me.1 rt
  if rd3.size > 0 then
    (RegionMap.set ifrmap rd3 (commonSources rt ifrcs replace me rd3), acc.2 ++ [rd3])
  else (ifrmap, acc.2)

def partitionAndUpdateIFlow (ifrmap : RegionMap) (rt : FlowRegion) (ifrcs : List InfoFlowRegion)
    (replace : Bool) : RegionMap :=
  match ifrmap.find? fun me => me.1 = rt with
  | some me =>
    if replace then ifrmap.set rt ifrcs
    else ifrmap.set rt (me.2.foldl (fun s rgse => add InfoFlowRegion.lt rgse s) ifrcs)
  | none =>
    let covered := ifrmap.filter fun me => regionsIntersect me.1 rt
    let (ifrmap, toberemoved) := covered.foldl (partitionStep rt ifrcs replace) (ifrmap, [])
    if covered.length > 0 then
      (diffPartitionRegion rt toberemoved).foldl
        (fun m g => m.set g (adjustAll ifrcs (adjustment rt g))) ifrmap
    else ifrmap.set rt ifrcs

/-- The sources that the bit has in the map. -/
def sourcesAt (m : RegionMap) (b : Int) : Set Int := {i | ∃ p ∈ m, b ∈ p.1.bits ∧ i ∈ indices p.2}

/-- The bits of the region have the new sources, the other bits the ones they had. -/
structure Updated (m out : RegionMap) (rt : FlowRegion) (ifrcs : List InfoFlowRegion)
    (replace : Bool) : Prop where
  partition : out.Partition
  inside : ∀ b ∈ rt.bits, ∀ s, out.Maps b s ↔
    s = indices ifrcs ∪ if replace then ∅ else m.sourcesAt b
  outside : ∀ b ∉ rt.bits, ∀ s, out.Maps b s ↔ m.Maps b s

/-- The entries around a region that is none of theirs are such that the update is right. -/
structure Updatable (m : RegionMap) (rt : FlowRegion) (ifrcs : List InfoFlowRegion)
    (replace : Bool) : Prop where
  contains : ∀ p ∈ m, ¬ rt.StrictlyWithin p.1
  before : ∀ p ∈ m, p.1.offset < rt.offset → rt.offset ≤ p.1.stop
  behind : ∀ p ∈ m, rt.stop < p.1.stop → p.1.offset ≤ rt.stop
  aligned : ∀ p ∈ m, p.1.offset = rt.offset → rt.stop < p.1.stop → p.1.size = rt.offset
  within : ∀ p ∈ m, p.1.StrictlyWithin rt →
    (∃ q ∈ m, q.1.offset ≤ rt.offset ∧ q.1.stop = p.1.offset) ∧
      (∃ q ∈ m, rt.stop ≤ q.1.stop ∧ q.1.offset = p.1.stop) ∧
      (replace = true ∨ indices p.2 ⊆ indices ifrcs)

end RegionMap

end Encider
