import Encider.Label.Region
import Encider.Lib.CInt

/-! `mergeAndCoalesce`: the union of two lists of regions. -/

namespace Encider

namespace Region

/-- The positions of the bits of a region, whose fields are `int`s. -/
def positions (r : Region) : Set Int :=
  {b | r.offset.toInt ≤ b ∧ b < r.offset.toInt + r.size.toInt}

/-- Some bits, all of them at positions that may be, or all of them before the first one. -/
structure OneSided (r : Region) : Prop where
  positive : 0 < r.size.toInt
  side : 0 ≤ r.offset.toInt ∨ r.offset.toInt + r.size.toInt < 0

def canCoalesce (r1 r2 : Region) : Option Bool := do
  let end1 ← CInt.add r1.offset r1.size
  if end1 = r2.offset then return true
  let end2 ← CInt.add r2.offset r2.size
  if end2 = r1.offset then return true
  let max1 ← CInt.add end1 (-1)
  let max2 ← CInt.add end2 (-1)
  return rangesIntersect r1.offset max1 r2.offset max2

/-- The region that takes the place of two; `some none` where they stay apart. -/
def coalasce (r1 r2 : Region) : Option (Option Region) := do
  if ← canCoalesce r1 r2 then
    let end1 ← CInt.add r1.offset r1.size
    let end2 ← CInt.add r2.offset r2.size
    let max1 ← CInt.add end1 (-1)
    let max2 ← CInt.add end2 (-1)
    let newoffset := if r1.offset.slt r2.offset then r1.offset else r2.offset
    let newsize := if max2.slt max1 then end1 - newoffset else end2 - newoffset
    return some ⟨newoffset, newsize⟩
  else return none

/-- The loop body of `mergeAndCoalesce` for one region. -/
def mergeStep (r1 : Region) (acc : Bool × List Region) (r2 : Region) :
    Option (Bool × List Region) := do
  match ← coalasce r1 r2 with
  | some r => return (false, acc.2 ++ [r])
  | none => return (acc.1, acc.2 ++ [r2])

/-- `mergeAndCoalesce` of a region and a list. -/
def mergeAndCoalesce (r1 : Region) (rs2 rs3 : List Region) : Option (List Region) := do
  let (insert, rs3) ← rs2.foldlM (mergeStep r1) (true, rs3)
  return if insert then rs3 ++ [r1] else rs3

variable {r r1 r2 : Region} {b : Int}

theorem mem_positions : b ∈ r.positions ↔
    r.offset.toInt ≤ b ∧ b < r.offset.toInt + r.size.toInt := Iff.rfl

theorem rangesIntersect_iff {min1 max1 min2 max2 : BitVec 32} :
    rangesIntersect min1 max1 min2 max2 = true ↔
      (min1.toNat : Int) ≤ max2.toNat ∧ (min2.toNat : Int) ≤ max1.toNat := by
  unfold rangesIntersect
  rw [ite_eq_right_iff, gt_iff_lt, gt_iff_lt, CInt.lt_iff, CInt.lt_iff]
  constructor
  · intro h
    by_contra hnot
    exact absurd (h (by omega)) (by decide)
  · intro h hor
    omega

/-- The end of a region is an `int`. -/
def EndFits (r : Region) : Prop := r.offset.toInt + r.size.toInt < 2147483648

theorem OneSided.end_eq (h : r.OneSided) (hend : r.EndFits) :
    CInt.add r.offset r.size = some (r.offset + r.size) ∧
      (r.offset + r.size).toInt = r.offset.toInt + r.size.toInt := by
  have hb := CInt.bounds r.offset
  have hpos := h.positive
  unfold EndFits at hend
  have hadd := CInt.toInt_add (x := r.offset) (y := r.size) (by omega) hend
  exact ⟨CInt.add_eq_some_iff.mpr hadd, hadd⟩

theorem OneSided.max_eq (h : r.OneSided) (hend : r.EndFits) :
    CInt.add (r.offset + r.size) (-1) = some (r.offset + r.size + -1) ∧
      (r.offset + r.size + -1).toInt = r.offset.toInt + r.size.toInt - 1 := by
  have hb := CInt.bounds r.offset
  have hpos := h.positive
  have hone : (-1 : BitVec 32).toInt = -1 := by decide
  have hsum := (h.end_eq hend).2
  unfold EndFits at hend
  have hadd := CInt.toInt_add (x := r.offset + r.size) (y := -1) (by omega) (by omega)
  rw [hsum, hone] at hadd
  refine ⟨CInt.add_eq_some_iff.mpr ?_, by omega⟩
  omega

/-- The two regions have a bit in common, or one begins where the other ends. -/
def Touch (r1 r2 : Region) : Prop :=
  r1.offset.toInt ≤ r2.offset.toInt + r2.size.toInt ∧
    r2.offset.toInt ≤ r1.offset.toInt + r1.size.toInt

theorem canCoalesce_eq (h1 : r1.OneSided) (h2 : r2.OneSided) (he1 : r1.EndFits)
    (he2 : r2.EndFits) : ∃ c, canCoalesce r1 r2 = some c ∧ (c = true ↔ r1.Touch r2) := by
  obtain ⟨hadd1, hend1⟩ := h1.end_eq he1
  obtain ⟨hadd2, hend2⟩ := h2.end_eq he2
  obtain ⟨hmax1, hmaxeq1⟩ := h1.max_eq he1
  obtain ⟨hmax2, hmaxeq2⟩ := h2.max_eq he2
  have hpos1 := h1.positive
  have hpos2 := h2.positive
  unfold canCoalesce
  simp only [hadd1, hadd2, hmax1, hmax2, Option.bind_eq_bind, Option.bind_some, Option.pure_def]
  unfold Touch
  by_cases htouch1 : r1.offset + r1.size = r2.offset
  · rw [if_pos htouch1]
    refine ⟨true, rfl, iff_of_true rfl ?_⟩
    rw [htouch1] at hend1
    omega
  · rw [if_neg htouch1]
    by_cases htouch2 : r2.offset + r2.size = r1.offset
    · rw [if_pos htouch2]
      refine ⟨true, rfl, iff_of_true rfl ?_⟩
      rw [htouch2] at hend2
      omega
    · rw [if_neg htouch2]
      refine ⟨_, rfl, ?_⟩
      rw [rangesIntersect_iff]
      have hn1 : r1.offset.toInt + r1.size.toInt ≠ r2.offset.toInt := by
        rw [← hend1]
        exact fun heq => htouch1 (BitVec.toInt_inj.mp heq)
      have hn2 : r2.offset.toInt + r2.size.toInt ≠ r1.offset.toInt := by
        rw [← hend2]
        exact fun heq => htouch2 (BitVec.toInt_inj.mp heq)
      have hs1 := h1.side
      have hs2 := h2.side
      unfold EndFits at he1 he2
      have hb1 := CInt.bounds r1.offset
      have hb2 := CInt.bounds r2.offset
      rw [CInt.toNat_eq, CInt.toNat_eq, CInt.toNat_eq, CInt.toNat_eq, hmaxeq1, hmaxeq2]
      split_ifs <;> omega

/-- What coalescing two regions gives where all sums are defined. -/
theorem coalasce_eq (h1 : r1.OneSided) (h2 : r2.OneSided) (he1 : r1.EndFits)
    (he2 : r2.EndFits) : ∃ o, coalasce r1 r2 = some o ∧
      ∀ r, o = some r → r.OneSided ∧ r.positions = r1.positions ∪ r2.positions := by
  obtain ⟨c, hc, htouch⟩ := canCoalesce_eq h1 h2 he1 he2
  obtain ⟨hadd1, hend1⟩ := h1.end_eq he1
  obtain ⟨hadd2, hend2⟩ := h2.end_eq he2
  obtain ⟨hmax1, hmaxeq1⟩ := h1.max_eq he1
  obtain ⟨hmax2, hmaxeq2⟩ := h2.max_eq he2
  unfold coalasce
  simp only [hc, hadd1, hadd2, hmax1, hmax2, Option.bind_eq_bind, Option.bind_some,
    Option.pure_def]
  cases c with
  | false => exact ⟨none, rfl, nofun⟩
  | true =>
    rw [if_pos rfl]
    refine ⟨_, rfl, ?_⟩
    intro r hr
    cases hr
    have htouch := htouch.mp rfl
    have hpos1 := h1.positive
    have hpos2 := h2.positive
    have hs1 := h1.side
    have hs2 := h2.side
    have hb1 := CInt.bounds r1.offset
    have hb2 := CInt.bounds r2.offset
    unfold Touch at htouch
    unfold EndFits at he1 he2
    simp only [BitVec.slt_iff_toInt_lt, hmaxeq1, hmaxeq2]
    have key : ∀ (o e : BitVec 32), o.toInt = min r1.offset.toInt r2.offset.toInt →
        e.toInt = max (r1.offset.toInt + r1.size.toInt) (r2.offset.toInt + r2.size.toInt) →
        OneSided ⟨o, e - o⟩ ∧ positions ⟨o, e - o⟩ = r1.positions ∪ r2.positions := by
      intro o e ho he
      have hsize : (e - o).toInt = e.toInt - o.toInt := by
        rw [BitVec.toInt_sub]
        exact Int.bmod_eq_of_le (by omega) (by omega)
      refine ⟨⟨?_, ?_⟩, ?_⟩
      · show 0 < (e - o).toInt
        omega
      · show 0 ≤ o.toInt ∨ o.toInt + (e - o).toInt < 0
        omega
      · ext b
        rw [Set.mem_union, mem_positions, mem_positions, mem_positions, hsize, ho, he]
        omega
    split_ifs <;> apply key <;> omega

/-- A defined sum has an end that fits. -/
theorem endFits_of_add {z : BitVec 32} (h : CInt.add r.offset r.size = some z) : r.EndFits := by
  have hz := CInt.bounds z
  rw [CInt.add_eq_some_iff] at h
  unfold EndFits
  omega

theorem endFits_of_coalasce {o : Option Region} (h : coalasce r1 r2 = some o) :
    r1.EndFits ∧ r2.EndFits := by
  unfold coalasce canCoalesce at h
  cases hadd1 : CInt.add r1.offset r1.size with
  | none =>
    rw [hadd1] at h
    contradiction
  | some end1 =>
    refine ⟨endFits_of_add hadd1, ?_⟩
    cases hadd2 : CInt.add r2.offset r2.size with
    | some end2 => exact endFits_of_add hadd2
    | none =>
      rw [hadd1, hadd2] at h
      by_cases htouch : end1 = r2.offset
      · simp [htouch] at h
      · simp [htouch] at h

end Region

open Region

/-- The positions of the bits of some regions. -/
def positionsOf (rs : List Region) : Set Int := {b | ∃ r ∈ rs, b ∈ r.positions}

/-- `mergeAndCoalesce` of two lists. -/
def mergeAndCoalesceAll (rs1 rs2 rs3 : List Region) : Option (List Region) := do
  let temp ← rs1.foldlM (fun temp r1 => mergeAndCoalesce r1 temp []) rs2
  return rs3 ++ temp

@[simp] theorem positionsOf_nil : positionsOf [] = ∅ := by
  simp [positionsOf]

@[simp] theorem positionsOf_cons (r : Region) (rs : List Region) :
    positionsOf (r :: rs) = r.positions ∪ positionsOf rs := by
  ext b
  simp [positionsOf]

@[simp] theorem positionsOf_append (rs rs' : List Region) :
    positionsOf (rs ++ rs') = positionsOf rs ∪ positionsOf rs' := by
  ext b
  simp [positionsOf, or_and_right, exists_or]

theorem positionsOf_mono {r : Region} {rs : List Region} (h : r ∈ rs) :
    r.positions ⊆ positionsOf rs :=
  fun _ hb => ⟨r, h, hb⟩

namespace Region

variable {r1 : Region} {rs2 rs3 out : List Region}

/-- What the loop has pushed after some regions of the list; the region itself is among it as soon
as `insert` is false. -/
structure Pushed (r1 : Region) (rs2 : List Region) (acc acc' : Bool × List Region) : Prop where
  oneSided : ∀ r ∈ acc'.2, r.OneSided
  fits : ∀ r ∈ rs2, r1.EndFits ∧ r.EndFits
  positions : positionsOf acc'.2 ∪ r1.positions = positionsOf acc.2 ∪ positionsOf rs2 ∪ r1.positions
  inserted : acc'.1 = false → r1.positions ⊆ positionsOf acc'.2

theorem mergeStep_pushed {r2 : Region} (h1 : r1.OneSided) (h2 : r2.OneSided)
    {acc acc' : Bool × List Region} (hacc : ∀ r ∈ acc.2, r.OneSided)
    (hin : acc.1 = false → r1.positions ⊆ positionsOf acc.2)
    (h : mergeStep r1 acc r2 = some acc') : Pushed r1 [r2] acc acc' := by
  unfold mergeStep at h
  cases ho : coalasce r1 r2 with
  | none =>
    rw [ho] at h
    contradiction
  | some o =>
    obtain ⟨he1, he2⟩ := endFits_of_coalasce ho
    obtain ⟨o', ho', hspec⟩ := coalasce_eq h1 h2 he1 he2
    obtain rfl : o = o' := Option.some.inj (ho.symm.trans ho')
    have hfits : ∀ r ∈ [r2], r1.EndFits ∧ r.EndFits := by
      intro r hr
      rw [List.mem_singleton.mp hr]
      exact ⟨he1, he2⟩
    rw [ho] at h
    cases o with
    | none =>
      cases h
      refine ⟨?_, hfits, ?_, ?_⟩
      · intro r hr
        rcases List.mem_append.mp hr with hr | hr
        · exact hacc r hr
        · exact List.mem_singleton.mp hr ▸ h2
      · rw [positionsOf_append]
      · intro hfalse
        rw [positionsOf_append]
        exact (hin hfalse).trans Set.subset_union_left
    | some r =>
      cases h
      obtain ⟨hr, hpositions⟩ := hspec r rfl
      refine ⟨?_, hfits, ?_, ?_⟩
      · intro q hq
        rcases List.mem_append.mp hq with hq | hq
        · exact hacc q hq
        · exact List.mem_singleton.mp hq ▸ hr
      · ext b
        simp only [positionsOf_append, positionsOf_cons, positionsOf_nil, hpositions, Set.mem_union,
          Set.mem_empty_iff_false]
        tauto
      · intro _
        rw [positionsOf_append, positionsOf_cons, hpositions]
        exact Set.subset_union_left.trans (Set.subset_union_left.trans Set.subset_union_right)

theorem foldlM_pushed (h1 : r1.OneSided) (h2 : ∀ r ∈ rs2, r.OneSided)
    {acc acc' : Bool × List Region} (hacc : ∀ r ∈ acc.2, r.OneSided)
    (hin : acc.1 = false → r1.positions ⊆ positionsOf acc.2)
    (h : rs2.foldlM (mergeStep r1) acc = some acc') : Pushed r1 rs2 acc acc' := by
  induction rs2 generalizing acc with
  | nil =>
    cases h
    exact ⟨hacc, by simp, by simp, hin⟩
  | cons r2 rs2 ih =>
    rw [List.foldlM_cons] at h
    obtain ⟨next, hnext, h⟩ := Option.bind_eq_some_iff.mp h
    have hone := mergeStep_pushed h1 (h2 r2 List.mem_cons_self) hacc hin hnext
    have hmore := ih (fun r hr => h2 r (List.mem_cons_of_mem r2 hr)) hone.oneSided hone.inserted h
    refine ⟨hmore.oneSided, ?_, ?_, hmore.inserted⟩
    · intro r hr
      rcases List.mem_cons.mp hr with rfl | hr
      · exact hone.fits r (List.mem_singleton_self r)
      · exact hmore.fits r hr
    · rw [hmore.positions, Set.union_right_comm, hone.positions, positionsOf_cons, positionsOf_cons,
        positionsOf_nil, Set.union_empty, Set.union_right_comm, Set.union_assoc (positionsOf acc.2)]

/-- The bits of the region and of the list, where the result is defined; and it is defined only
where all ends that are compared fit. -/
theorem mergeAndCoalesce_spec (h1 : r1.OneSided) (h2 : ∀ r ∈ rs2, r.OneSided)
    (h : mergeAndCoalesce r1 rs2 [] = some out) :
    (∀ r ∈ out, r.OneSided) ∧ (∀ r ∈ rs2, r1.EndFits ∧ r.EndFits) ∧
      positionsOf out = r1.positions ∪ positionsOf rs2 := by
  unfold mergeAndCoalesce at h
  obtain ⟨⟨insert, rs3⟩, hfold, hout⟩ := Option.bind_eq_some_iff.mp h
  have hpushed := foldlM_pushed h1 h2 (by simp) (by simp) hfold
  obtain ⟨honeSided, hfits, hpositions, hinserted⟩ := hpushed
  dsimp only at honeSided hpositions hinserted hout
  rw [positionsOf_nil, Set.empty_union, Set.union_comm (positionsOf rs2)] at hpositions
  cases insert with
  | true =>
    cases hout
    refine ⟨?_, hfits, ?_⟩
    · intro r hr
      rcases List.mem_append.mp hr with hr | hr
      · exact honeSided r hr
      · exact List.mem_singleton.mp hr ▸ h1
    · rw [if_pos rfl, positionsOf_append, positionsOf_cons, positionsOf_nil, Set.union_empty]
      exact hpositions
  | false =>
    cases hout
    refine ⟨honeSided, hfits, ?_⟩
    rw [← hpositions, if_neg Bool.false_ne_true]
    exact (Set.union_eq_self_of_subset_right (hinserted rfl)).symm

theorem foldlM_defined (h1 : r1.OneSided) (h2 : ∀ r ∈ rs2, r.OneSided) (he1 : r1.EndFits)
    (he2 : ∀ r ∈ rs2, r.EndFits) (acc : Bool × List Region) :
    ∃ acc', rs2.foldlM (mergeStep r1) acc = some acc' := by
  induction rs2 generalizing acc with
  | nil => exact ⟨acc, rfl⟩
  | cons r2 rs2 ih =>
    obtain ⟨o, ho, _⟩ := coalasce_eq h1 (h2 r2 List.mem_cons_self) he1 (he2 r2 List.mem_cons_self)
    have hnext : ∃ next, mergeStep r1 acc r2 = some next := by
      unfold mergeStep
      rw [ho]
      cases o with
      | none => exact ⟨_, rfl⟩
      | some r => exact ⟨_, rfl⟩
    obtain ⟨next, hnext⟩ := hnext
    obtain ⟨acc', hacc'⟩ := ih (fun r hr => h2 r (List.mem_cons_of_mem r2 hr))
      (fun r hr => he2 r (List.mem_cons_of_mem r2 hr)) next
    refine ⟨acc', ?_⟩
    rw [List.foldlM_cons, hnext]
    exact hacc'

theorem mergeAndCoalesce_defined (h1 : r1.OneSided) (h2 : ∀ r ∈ rs2, r.OneSided)
    (he1 : r1.EndFits) (he2 : ∀ r ∈ rs2, r.EndFits) :
    ∃ out, mergeAndCoalesce r1 rs2 [] = some out := by
  obtain ⟨acc', hacc'⟩ := foldlM_defined h1 h2 he1 he2 (true, [])
  refine ⟨if acc'.1 then acc'.2 ++ [r1] else acc'.2, ?_⟩
  unfold mergeAndCoalesce
  rw [hacc']
  rfl

end Region

/-- The runs of the loop that are defined collect the bits of both lists. -/
theorem mergeAndCoalesceAll_spec {rs1 rs2 out : List Region} (h1 : ∀ r ∈ rs1, r.OneSided)
    (h2 : ∀ r ∈ rs2, r.OneSided) (h : mergeAndCoalesceAll rs1 rs2 [] = some out) :
    (∀ r ∈ out, r.OneSided) ∧ positionsOf out = positionsOf rs1 ∪ positionsOf rs2 := by
  unfold mergeAndCoalesceAll at h
  obtain ⟨temp, hfold, hout⟩ := Option.bind_eq_some_iff.mp h
  cases hout
  rw [List.nil_append]
  clear h
  induction rs1 generalizing rs2 with
  | nil =>
    cases hfold
    exact ⟨h2, by simp⟩
  | cons r1 rs1 ih =>
    rw [List.foldlM_cons] at hfold
    obtain ⟨next, hnext, hfold⟩ := Option.bind_eq_some_iff.mp hfold
    obtain ⟨honeSided, _, hpositions⟩ :=
      mergeAndCoalesce_spec (h1 r1 List.mem_cons_self) h2 hnext
    obtain ⟨hall, hmore⟩ :=
      ih (fun r hr => h1 r (List.mem_cons_of_mem r1 hr)) honeSided hfold
    refine ⟨hall, ?_⟩
    rw [hmore, hpositions, positionsOf_cons, Set.union_left_comm, Set.union_assoc]

/-- The merged region ends where one of the two ends. -/
theorem Region.mergeAndCoalesce_endFits {r1 : Region} {rs2 out : List Region}
    (h1 : r1.OneSided) (h2 : ∀ r ∈ rs2, r.OneSided) (he1 : r1.EndFits)
    (he2 : ∀ r ∈ rs2, r.EndFits) (h : mergeAndCoalesce r1 rs2 [] = some out) :
    ∀ r ∈ out, r.EndFits := by
  obtain ⟨honeSided, _, hpositions⟩ := mergeAndCoalesce_spec h1 h2 h
  intro r hr
  have hpos := (honeSided r hr).positive
  -- the last bit of the region is a bit of one of those it comes from
  have hlast : r.offset.toInt + r.size.toInt - 1 ∈ positionsOf out :=
    positionsOf_mono hr ⟨by omega, by omega⟩
  rw [hpositions] at hlast
  unfold EndFits at *
  rcases hlast with hlast | ⟨q, hq, hlast⟩
  · rw [mem_positions] at hlast
    omega
  · have := he2 q hq
    rw [mem_positions] at hlast
    omega

theorem mergeAndCoalesceAll_defined {rs1 rs2 : List Region} (h1 : ∀ r ∈ rs1, r.OneSided)
    (h2 : ∀ r ∈ rs2, r.OneSided) (he1 : ∀ r ∈ rs1, r.EndFits) (he2 : ∀ r ∈ rs2, r.EndFits) :
    ∃ out, mergeAndCoalesceAll rs1 rs2 [] = some out := by
  unfold mergeAndCoalesceAll
  induction rs1 generalizing rs2 with
  | nil => exact ⟨rs2, rfl⟩
  | cons r1 rs1 ih =>
    have hone := h1 r1 List.mem_cons_self
    have hend := he1 r1 List.mem_cons_self
    obtain ⟨next, hnext⟩ := mergeAndCoalesce_defined hone h2 hend he2
    obtain ⟨honeSided, _, _⟩ := mergeAndCoalesce_spec hone h2 hnext
    obtain ⟨out, hout⟩ := ih (fun r hr => h1 r (List.mem_cons_of_mem r1 hr)) honeSided
      (fun r hr => he1 r (List.mem_cons_of_mem r1 hr))
      (mergeAndCoalesce_endFits hone h2 hend he2 hnext)
    refine ⟨out, ?_⟩
    rw [List.foldlM_cons, hnext]
    exact hout

/-- Regions of some bits at positions that may be. -/
def Placed (rs : List Region) : Prop := ∀ r ∈ rs, 0 ≤ r.offset.toInt ∧ 0 < r.size.toInt

instance (rs : List Region) : Decidable (Placed rs) :=
  inferInstanceAs (Decidable (∀ r ∈ rs, _))

/-- Nothing is dropped and no gap is filled; and all sums are defined where the ends of the regions
are `int`s. -/
theorem mergeAndCoalesceAll_union {rs1 rs2 : List Region} (h1 : Placed rs1) (h2 : Placed rs2) :
    (∀ out, mergeAndCoalesceAll rs1 rs2 [] = some out →
        positionsOf out = positionsOf rs1 ∪ positionsOf rs2) ∧
      ((∀ r ∈ rs1 ++ rs2, r.EndFits) → ∃ out, mergeAndCoalesceAll rs1 rs2 [] = some out) := by
  have h1 : ∀ r ∈ rs1, r.OneSided := fun r hr => ⟨(h1 r hr).2, .inl (h1 r hr).1⟩
  have h2 : ∀ r ∈ rs2, r.OneSided := fun r hr => ⟨(h2 r hr).2, .inl (h2 r hr).1⟩
  constructor
  · intro out hout
    exact (mergeAndCoalesceAll_spec h1 h2 hout).2
  · intro hend
    exact mergeAndCoalesceAll_defined h1 h2 (fun r hr => hend r (List.mem_append_left _ hr))
      fun r hr => hend r (List.mem_append_right _ hr)

/-- A byte between two bytes becomes part of both. -/
theorem mergeAndCoalesceAll_union_bytes :
    positionsOf [⟨0, 16⟩, ⟨8, 16⟩] = positionsOf [⟨8, 8⟩] ∪ positionsOf [⟨0, 8⟩, ⟨16, 8⟩] :=
  (mergeAndCoalesceAll_union (show Placed [⟨8, 8⟩] by decide)
    (show Placed [⟨0, 8⟩, ⟨16, 8⟩] by decide)).1 _ (by decide)

end Encider
