import Encider.Label.Shift
import Encider.Expr.Syntax

/-! `extractRegion`, the sensitive bits of an expression, and `intersect`. -/

namespace Encider

open Region

namespace Region

/-- The last bit of a region, a sum of `int`s. -/
def last (r : Region) : Option (BitVec 32) := do
  CInt.add (← CInt.add r.offset r.size) (-1)

/-- What two regions with these last bits have in common, all of them read as `unsigned`s. -/
def overlap (offset1 max1 offset2 max2 : BitVec 32) : Option Region :=
  let maxofmin := if offset1 > offset2 then offset1 else offset2
  let minofmax := if max1 < max2 then max1 else max2
  if maxofmin > minofmax then none else some ⟨maxofmin, minofmax - maxofmin + 1⟩

/-- `intersect` of two regions. -/
def intersect (r1 r2 : Region) : Option (Option Region) := do
  let max1 ← r1.last
  let max2 ← r2.last
  return overlap r1.offset max1 r2.offset max2

/-- `intersect` of a region and a list. -/
def intersectAll (r1 : Region) (r2 rs : List Region) : Option (List Region) :=
  r2.foldlM (fun rs q => (r1.intersect q).map fun r => rs ++ r.toList) rs

def moveOffset (rs : List Region) (value : BitVec 32) : List Region :=
  rs.map fun r => { r with offset := r.offset + value }

end Region

def BinaryKind.isShift : BinaryKind → Bool
  | .shl | .lshr | .ashr => true
  | _ => false

/-- The symbols and the regions of one more kid. -/
def mergeKid (acc kid : Nat × List Region) : Option (Nat × List Region) :=
  (mergeAndCoalesceAll acc.2 kid.2 []).map fun rs => (acc.1 + kid.1, rs)

/-- An expression without symbols has no regions. -/
def dropAtTop (top : Bool) (r : Nat × List Region) : Nat × List Region :=
  if top && r.1 == 0 then (r.1, []) else r

/-- `extractRegion`: the number of symbols and the regions. `isInSymRegion` is the test of an access
to an array of that name. -/
def extractRegion (isInSymRegion : String → Expr → Width → Bool) (range : Region) :
    Bool → Bool → Expr → Option (Nat × List Region)
  | _, _, .constant _ _ => some (0, [])
  | concatSeen, _, .read root _ index => do
    let ri ← extractRegion isInSymRegion range false true index
    let marked := isInSymRegion root.name index root.range
    let numsym := (if marked then 1 else 0) + if ri.2.isEmpty then 0 else 1
    if marked || !ri.2.isEmpty then
      match index with
      | .constant _ v =>
        let offset := if concatSeen then BitVec.ofNat 32 (v.toNat * root.range) else 0
        return (numsym, [⟨offset, BitVec.ofNat 32 root.range⟩])
      | _ => return (numsym, [range])
    else return (numsym, [])
  | _, top, .concat l r => do
    let r1 ← extractRegion isInSymRegion range true false l
    let r2 ← extractRegion isInSymRegion range true false r
    let numsym := r1.1 + r2.1
    if top && numsym == 0 then return (numsym, [])
    else if r1.2.isEmpty then return (numsym, r2.2)
    else if r2.2.isEmpty then return (numsym, r1.2)
    else mergeKid r1 r2
  | concatSeen, top, .extract e offset width => do
    let r1 ← extractRegion isInSymRegion range concatSeen false e
    let r3 ← Region.intersectAll ⟨BitVec.ofNat 32 offset, BitVec.ofNat 32 width⟩ r1.2 []
    return dropAtTop top (r1.1, r3)
  | concatSeen, top, .binary kind l r =>
    if kind.isShift then do
      let r1 ← extractRegion isInSymRegion range concatSeen false l
      if (top && r1.1 == 0) || r1.2.isEmpty then return (r1.1, [])
      else match r with
        | .constant w v =>
          let value := BitVec.ofNat 32 v.toNat
          -- the assertion of `getZExtValue`
          if 64 < w then none
          else if kind = .shl then
            return (r1.1, shiftLeftAll r1.2 [] value (BitVec.ofNat 32 l.getWidth))
          else return (r1.1, ← shiftRightAll r1.2 [] value)
        | _ => return (r1.1, [range])
    else do
      let r1 ← extractRegion isInSymRegion range concatSeen false l
      let r2 ← extractRegion isInSymRegion range concatSeen false r
      return dropAtTop top (← mergeKid r1 r2)
  | concatSeen, top, .select c t f => do
    let r1 ← extractRegion isInSymRegion range concatSeen false c
    let r2 ← extractRegion isInSymRegion range concatSeen false t
    let r3 ← extractRegion isInSymRegion range concatSeen false f
    return dropAtTop top (← mergeKid (← mergeKid r1 r2) r3)
  | concatSeen, top, .zext e _ | concatSeen, top, .sext e _ | concatSeen, top, .not e
  | concatSeen, top, .notOptimized e =>
    (extractRegion isInSymRegion range concatSeen false e).map (dropAtTop top)

/-- Where `exprHasSymRegion` looks. -/
def anyRegion : Region := ⟨0, 64⟩

def exprHasSymRegion (isInSymRegion : String → Expr → Width → Bool) (e : Expr) : Option Bool :=
  (extractRegion isInSymRegion anyRegion false true e).map fun r1 =>
    r1.2.any fun r => (0 : BitVec 32).slt r.size

namespace Region

/-- The positions of a region as `intersect` reads it. -/
def unsignedPositions (r : Region) : Set Int :=
  {b | r.offset.toNat ≤ b ∧ b ≤ (r.offset + r.size + -1).toNat}

variable {r1 r2 q r : Region} {b : Int}

/-- A region of a rule: some bits, none of them before the first one, with an `int` as their end. -/
structure Bits (r : Region) : Prop where
  low : 0 ≤ r.offset.toInt
  positive : 0 < r.size.toInt
  fits : r.EndFits

theorem last_eq (h : r.Bits) : r.last = some (r.offset + r.size + -1) ∧
    (r.offset + r.size + -1).toInt = r.offset.toInt + r.size.toInt - 1 := by
  have hone : r.OneSided := ⟨h.positive, .inl h.low⟩
  obtain ⟨hadd, _⟩ := hone.end_eq h.fits
  obtain ⟨hmax, hvalue⟩ := hone.max_eq h.fits
  refine ⟨?_, hvalue⟩
  unfold last
  rw [hadd]
  exact hmax

theorem unsignedPositions_eq (h : r.Bits) : r.unsignedPositions = r.positions := by
  have hlow := h.low
  have hpositive := h.positive
  have hnat := CInt.toNat_eq r.offset
  have hmax := CInt.toNat_eq (r.offset + r.size + -1)
  rw [if_pos hlow] at hnat
  rw [(last_eq h).2, if_pos (by omega)] at hmax
  ext b
  rw [mem_positions]
  unfold unsignedPositions
  rw [Set.mem_ofPred_eq, hnat, hmax]
  omega

theorem last_eq_some {m : BitVec 32} (h : r.last = some m) : m = r.offset + r.size + -1 := by
  obtain ⟨e, he, hm⟩ := Option.bind_eq_some_iff.mp h
  unfold CInt.add at he hm
  split at he
  · contradiction
  · split at hm
    · contradiction
    · rw [← Option.some.inj hm, ← Option.some.inj he]

/-- What `intersect` of a rule's region and another one leaves. -/
theorem intersect_spec (h1 : r1.Bits) {o : Option Region} (h : r1.intersect r2 = some o) :
    positionsOf o.toList = r1.positions ∩ r2.unsignedPositions ∧
      ∀ r ∈ o.toList, 0 < r.size.toInt ∧ r1.offset.toInt ≤ r.offset.toInt ∧
        r.offset.toInt + r.size.toInt ≤ r1.offset.toInt + r1.size.toInt := by
  obtain ⟨hlast, hvalue⟩ := last_eq h1
  have hlow := h1.low
  have hpositive := h1.positive
  have hfits : r1.offset.toInt + r1.size.toInt < 2147483648 := h1.fits
  unfold intersect at h
  obtain ⟨max1, hmax1, h⟩ := Option.bind_eq_some_iff.mp h
  obtain ⟨max2, hmax2, h⟩ := Option.bind_eq_some_iff.mp h
  rw [last_eq_some hmax1, last_eq_some hmax2] at h
  obtain rfl := Option.some.inj h
  have hnat1 := CInt.toNat_eq r1.offset
  have hnatmax := CInt.toNat_eq (r1.offset + r1.size + -1)
  rw [if_pos hlow] at hnat1
  rw [if_pos (by omega), hvalue] at hnatmax
  unfold overlap
  generalize hM : (if r1.offset > r2.offset then r1.offset else r2.offset) = M
  generalize hm : (if r1.offset + r1.size + -1 < r2.offset + r2.size + -1 then
    r1.offset + r1.size + -1 else r2.offset + r2.size + -1) = m
  have hMnat : (M.toNat : Int) = max r1.offset.toInt r2.offset.toNat := by
    rw [← hM]
    split_ifs with hlt
    · rw [gt_iff_lt, CInt.lt_iff] at hlt
      omega
    · rw [gt_iff_lt, CInt.lt_iff] at hlt
      omega
  have hmnat : (m.toNat : Int) =
      min (r1.offset.toInt + r1.size.toInt - 1) (r2.offset + r2.size + -1).toNat := by
    rw [← hm]
    split_ifs with hlt
    · rw [CInt.lt_iff] at hlt
      omega
    · rw [CInt.lt_iff] at hlt
      omega
  have hpos : ∀ b, b ∈ r1.positions ∩ r2.unsignedPositions ↔ M.toNat ≤ b ∧ b ≤ (m.toNat : Int) := by
    intro b
    rw [Set.mem_inter_iff, mem_positions]
    unfold unsignedPositions
    simp only [Set.mem_ofPred_eq]
    omega
  dsimp only
  by_cases hgt : M > m
  · rw [if_pos hgt]
    rw [gt_iff_lt, CInt.lt_iff] at hgt
    refine ⟨?_, by simp⟩
    ext b
    rw [hpos]
    simp
    omega
  · rw [if_neg hgt]
    rw [gt_iff_lt, CInt.lt_iff] at hgt
    have hmlt : (m.toNat : Int) < 2147483648 := by omega
    have hMlt : (M.toNat : Int) < 2147483648 := by omega
    have hM' := CInt.toInt_eq M
    have hm' := CInt.toInt_eq m
    rw [if_pos hMlt] at hM'
    rw [if_pos hmlt] at hm'
    have hone : (1 : BitVec 32).toInt = 1 := by decide
    have hdiff := CInt.toInt_sub (x := m) (y := M) (by omega) (by omega)
    have hsize := CInt.toInt_add (x := m - M) (y := 1) (by omega) (by omega)
    constructor
    · ext b
      rw [hpos, Option.toList_some, positionsOf_cons, positionsOf_nil, Set.union_empty,
        mem_positions]
      dsimp only
      omega
    · intro r hr
      rw [Option.toList_some, List.mem_singleton] at hr
      subst hr
      dsimp only
      omega

/-- The bits of some regions as `intersect` reads them. -/
def unsignedPositionsOf (rs : List Region) : Set Int := {b | ∃ q ∈ rs, b ∈ q.unsignedPositions}

theorem intersectAll_spec (h1 : r1.Bits) {rs2 rs out : List Region}
    (h : r1.intersectAll rs2 rs = some out) :
    positionsOf out = positionsOf rs ∪ r1.positions ∩ unsignedPositionsOf rs2 ∧
      ∀ r ∈ out, r ∈ rs ∨ 0 < r.size.toInt ∧ r1.offset.toInt ≤ r.offset.toInt ∧
        r.offset.toInt + r.size.toInt ≤ r1.offset.toInt + r1.size.toInt := by
  induction rs2 generalizing rs with
  | nil =>
    cases h
    refine ⟨?_, fun r hr => .inl hr⟩
    simp [unsignedPositionsOf]
  | cons q rs2 ih =>
    unfold intersectAll at h
    rw [List.foldlM_cons] at h
    obtain ⟨next, hnext, h⟩ := Option.bind_eq_some_iff.mp h
    obtain ⟨o, ho, rfl⟩ := Option.map_eq_some_iff.mp hnext
    obtain ⟨hbits, hinside⟩ := intersect_spec h1 ho
    obtain ⟨hpositions, hall⟩ := ih h
    constructor
    · rw [hpositions, positionsOf_append, hbits, Set.union_assoc, ← Set.inter_union_distrib_left]
      congr 2
      ext b
      simp [unsignedPositionsOf]
    · intro r hr
      rcases hall r hr with hmem | hr
      · rcases List.mem_append.mp hmem with hrs | hr
        · exact .inl hrs
        · exact .inr (hinside r hr)
      · exact .inr hr

/-- Moved by a difference of offsets, the regions have the bits moved. -/
theorem moveOffset_spec {rs : List Region} {target source : Region} (ht : 0 ≤ target.offset.toInt)
    (hs : source.Bits) (hfits : target.offset.toInt + source.size.toInt < 2147483648)
    (h : ∀ r ∈ rs, 0 < r.size.toInt ∧ source.offset.toInt ≤ r.offset.toInt ∧
      r.offset.toInt + r.size.toInt ≤ source.offset.toInt + source.size.toInt) :
    positionsOf (moveOffset rs (target.offset - source.offset)) =
        {t | t - target.offset.toInt + source.offset.toInt ∈ positionsOf rs} ∧
      Placed (moveOffset rs (target.offset - source.offset)) := by
  have hlow := hs.low
  have hbt := CInt.bounds target.offset
  have hbs := CInt.bounds source.offset
  have hdiff := CInt.toInt_sub (x := target.offset) (y := source.offset) (by omega) (by omega)
  have hmoved : ∀ r ∈ rs, (r.offset + (target.offset - source.offset)).toInt =
      r.offset.toInt + (target.offset.toInt - source.offset.toInt) := by
    intro r hr
    obtain ⟨hpos, hfirst, hend⟩ := h r hr
    have := CInt.toInt_add (x := r.offset) (y := target.offset - source.offset) (by omega)
      (by omega)
    omega
  constructor
  · ext t
    unfold moveOffset positionsOf
    simp only [List.mem_map, exists_exists_and_eq_and, Set.mem_ofPred_eq]
    refine exists_congr fun r => and_congr_right fun hr => ?_
    rw [mem_positions, mem_positions]
    dsimp only
    rw [hmoved r hr]
    omega
  · intro q hq
    obtain ⟨r, hr, rfl⟩ := List.mem_map.mp hq
    obtain ⟨hpos, hfirst, hend⟩ := h r hr
    dsimp only
    rw [hmoved r hr]
    omega

theorem intersect_defined (h1 : r1.Bits) (h2 : r2.last ≠ none) : ∃ o, r1.intersect r2 = some o := by
  obtain ⟨max2, hmax2⟩ := Option.ne_none_iff_exists'.mp h2
  obtain ⟨hmax1, _⟩ := last_eq h1
  unfold intersect
  rw [hmax1, hmax2]
  exact ⟨_, rfl⟩

theorem intersectAll_defined (h1 : r1.Bits) {rs2 : List Region} (h2 : ∀ q ∈ rs2, q.last ≠ none)
    (rs : List Region) : ∃ out, r1.intersectAll rs2 rs = some out := by
  induction rs2 generalizing rs with
  | nil => exact ⟨rs, rfl⟩
  | cons q rs2 ih =>
    obtain ⟨o, ho⟩ := intersect_defined h1 (h2 q List.mem_cons_self)
    obtain ⟨out, hout⟩ := ih (fun q hq => h2 q (List.mem_cons_of_mem _ hq)) (rs ++ o.toList)
    refine ⟨out, ?_⟩
    unfold intersectAll
    rw [List.foldlM_cons, ho]
    exact hout

end Region

theorem Placed.oneSided {rs : List Region} (h : Placed rs) : ∀ r ∈ rs, r.OneSided :=
  fun r hr => ⟨(h r hr).2, .inl (h r hr).1⟩

end Encider
