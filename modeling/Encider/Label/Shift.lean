import Encider.Label.Coalesce

/-! `shiftLeft` and `shiftRight`: regions moved within an expression. -/

namespace Encider

namespace Region

/-- `shiftLeft` of one region; the sums are `unsigned`. -/
def shiftLeft (r1 : Region) (rs : List Region) (value width : BitVec 32) : List Region :=
  let offset := r1.offset + value
  let size := if r1.offset + value + r1.size > width then width - offset else r1.size
  if (0 : BitVec 32).slt size then rs ++ [⟨offset, size⟩] else rs

/-- `shiftRight` of one region; one sum is an `int`. -/
def shiftRight (r1 : Region) (rs : List Region) (value : BitVec 32) : Option (List Region) := do
  let offset := r1.offset - value
  let r : Region ←
    if offset.slt 0 then do
      let sum ← CInt.add r1.size r1.offset
      pure ⟨0, sum - value⟩
    else pure ⟨offset, r1.size⟩
  return if (0 : BitVec 32).slt r.size then rs ++ [r] else rs

/-- The bits of the region are bits of an expression of that width. -/
structure Inside (width : BitVec 32) (r : Region) : Prop where
  positive : 0 < r.size.toInt
  low : 0 ≤ r.offset.toInt
  high : r.offset.toInt + r.size.toInt ≤ width.toNat

instance (width : BitVec 32) (r : Region) : Decidable (r.Inside width) :=
  decidable_of_iff (0 < r.size.toInt ∧ 0 ≤ r.offset.toInt ∧
    r.offset.toInt + r.size.toInt ≤ width.toNat) ⟨fun h => ⟨h.1, h.2.1, h.2.2⟩,
      fun h => ⟨h.positive, h.low, h.high⟩⟩

/-- The region can be shifted left: its end does not wrap, and its new offset is an `int` or so far
behind the width only that the difference is. -/
structure FitsLeft (value width : BitVec 32) (r : Region) : Prop where
  wraps : r.offset.toInt + value.toNat + r.size.toInt < 4294967296
  behind : r.offset.toInt + value.toNat ≤ width.toNat + 2147483648
  offset : r.offset.toInt + value.toNat < width.toNat → r.offset.toInt + value.toNat < 2147483648

/-- The region can be shifted right: it is not shifted by more than an `int` below the first bit,
and its end is an `int` where that is used. -/
structure FitsRight (value : BitVec 32) (r : Region) : Prop where
  below : value.toNat ≤ r.offset.toInt + 2147483648
  sum : r.offset.toInt < value.toNat → r.EndFits

end Region

open Region

/-- `shiftLeft` of a list. -/
def shiftLeftAll (r1 : List Region) (rs : List Region) (value width : BitVec 32) : List Region :=
  r1.foldl (fun rs r => r.shiftLeft rs value width) rs

/-- `shiftRight` of a list, which does not use the width. -/
def shiftRightAll (r1 : List Region) (rs : List Region) (value : BitVec 32) :
    Option (List Region) :=
  r1.foldlM (fun rs r => r.shiftRight rs value) rs

/-- The regions have the bits of others moved by `d`, as far as these are within the width. -/
structure Moved (width : BitVec 32) (d : Int) (rs out : List Region) : Prop where
  inside : ∀ q ∈ out, q.Inside width
  bits : ∀ b, b ∈ positionsOf out ↔ b - d ∈ positionsOf rs ∧ 0 ≤ b ∧ b < width.toNat

namespace Region

variable {value width : BitVec 32} {r : Region}

/-- What one region contributes. -/
def shiftedLeft (value width : BitVec 32) (r : Region) : List Region := r.shiftLeft [] value width

theorem shiftLeft_eq (r : Region) (rs : List Region) (value width : BitVec 32) :
    r.shiftLeft rs value width = rs ++ r.shiftedLeft value width := by
  unfold shiftedLeft shiftLeft
  dsimp only
  split_ifs <;> simp

theorem shiftedLeft_cases (r : Region) (value width : BitVec 32) :
    ∃ size : BitVec 32, (r.shiftedLeft value width = [⟨r.offset + value, size⟩] ∧ 0 < size.toInt ∨
        r.shiftedLeft value width = [] ∧ size.toInt ≤ 0) ∧
      size = if r.offset + value + r.size > width then width - (r.offset + value) else r.size := by
  unfold shiftedLeft shiftLeft
  refine ⟨_, ?_, rfl⟩
  dsimp only
  generalize (if r.offset + value + r.size > width then width - (r.offset + value) else r.size) =
    size
  have hzero : (0 : BitVec 32).toInt = 0 := by decide
  by_cases hsize : (0 : BitVec 32).slt size = true
  · rw [if_pos hsize]
    rw [BitVec.slt_iff_toInt_lt, hzero] at hsize
    exact .inl ⟨rfl, hsize⟩
  · rw [if_neg hsize]
    rw [BitVec.slt_iff_toInt_lt, hzero] at hsize
    exact .inr ⟨rfl, by omega⟩

/-- The numbers behind the fields of a region that is shifted left. -/
theorem shiftedLeft_numbers (h : r.Inside width) (value : BitVec 32) :
    let x := r.offset.toInt + value.toNat
    let u := if x < 4294967296 then x else x - 4294967296
    let t := if u + r.size.toInt < 4294967296 then u + r.size.toInt
      else u + r.size.toInt - 4294967296
    ((r.offset + value).toNat : Int) = u ∧
      ((r.offset + value + r.size > width) ↔ (width.toNat : Int) < t) := by
  have hb := CInt.bounds r.offset
  have hb' := CInt.bounds r.size
  have hlow := h.low
  have hpos := h.positive
  have hoffset := CInt.toNat_eq r.offset
  have hsize := CInt.toNat_eq r.size
  rw [if_pos hlow] at hoffset
  rw [if_pos hpos.le] at hsize
  have hsum := CInt.toNat_add r.offset value
  rw [hoffset] at hsum
  refine ⟨hsum, ?_⟩
  rw [gt_iff_lt, CInt.lt_iff, CInt.toNat_add, hsum, hsize]

theorem shiftedLeft_moved (h : r.Inside width) (hfits : r.FitsLeft value width) :
    Moved width value.toNat [r] (r.shiftedLeft value width) := by
  obtain ⟨hu, hgt⟩ := shiftedLeft_numbers h value
  have hb := CInt.bounds r.offset
  have hb' := CInt.bounds r.size
  have hw := width.isLt
  obtain ⟨hpos, hlow, hhigh⟩ := h
  obtain ⟨hwraps, hbehind, hoffset⟩ := hfits
  obtain ⟨size, hcases, hsize⟩ := r.shiftedLeft_cases value width
  have hint := CInt.toInt_eq (r.offset + value)
  have hsub := CInt.toNat_sub width (r.offset + value)
  have hsubint := CInt.toInt_eq (width - (r.offset + value))
  rw [hu] at hint hsub
  -- the size of what is left inside
  have hvalue : size.toInt = if (width.toNat : Int) < r.offset.toInt + value.toNat + r.size.toInt
      then width.toNat - (r.offset.toInt + value.toNat) else r.size.toInt := by
    rw [hsize]
    split
    · rename_i hin
      rw [hgt] at hin
      rw [if_pos (by split_ifs at hin <;> omega)]
      split_ifs at * <;> omega
    · rename_i hin
      rw [hgt] at hin
      rw [if_neg (by split_ifs at hin <;> omega)]
  rcases hcases with ⟨hout, hsign⟩ | ⟨hout, hsign⟩
  · have hinside : (r.offset + value).toInt = r.offset.toInt + value.toNat := by
      rw [hint]
      split_ifs at * <;> omega
    rw [hout]
    refine ⟨?_, ?_⟩
    · intro q hq
      rw [List.mem_singleton.mp hq]
      refine ⟨hsign, ?_, ?_⟩
      · dsimp only
        omega
      · dsimp only
        rw [hinside, hvalue]
        split_ifs <;> omega
    · intro b
      simp only [positionsOf_cons, positionsOf_nil, Set.union_empty, mem_positions, hinside, hvalue]
      split_ifs <;> omega
  · rw [hout]
    refine ⟨by simp, ?_⟩
    intro b
    simp only [positionsOf_cons, positionsOf_nil, Set.union_empty, mem_positions,
      Set.mem_empty_iff_false, false_iff]
    rw [hvalue] at hsign
    split_ifs at hsign <;> omega

/-- A region that does not fit is shifted to a place where none of the bits belongs. -/
theorem shiftedLeft_wrong (h : r.Inside width) (hfits : ¬ r.FitsLeft value width) :
    ∃ q ∈ r.shiftedLeft value width,
      ¬ q.Inside width ∨ q.offset.toInt ∈ q.positions ∧ q.offset.toInt < value.toNat := by
  obtain ⟨hu, hgt⟩ := shiftedLeft_numbers h value
  have hb := CInt.bounds r.offset
  have hb' := CInt.bounds r.size
  have hw := width.isLt
  have hv := value.isLt
  obtain ⟨hpos, hlow, hhigh⟩ := h
  have hnot : ¬ (r.offset.toInt + value.toNat + r.size.toInt < 4294967296 ∧
      r.offset.toInt + value.toNat ≤ width.toNat + 2147483648 ∧
      (r.offset.toInt + value.toNat < width.toNat →
        r.offset.toInt + value.toNat < 2147483648)) := by
    intro hall
    exact hfits ⟨hall.1, hall.2.1, hall.2.2⟩
  obtain ⟨size, hcases, hsize⟩ := r.shiftedLeft_cases value width
  have hint := CInt.toInt_eq (r.offset + value)
  have hsub := CInt.toNat_sub width (r.offset + value)
  have hsubint := CInt.toInt_eq (width - (r.offset + value))
  rw [hu] at hint hsub
  have hpositive : 0 < size.toInt := by
    rw [hsize]
    split
    · rename_i hin
      rw [hgt] at hin
      split_ifs at * <;> omega
    · exact hpos
  rcases hcases with ⟨hout, _⟩ | ⟨_, hsign⟩
  · rw [hout]
    refine ⟨_, List.mem_singleton_self _, ?_⟩
    by_cases hneg : (r.offset + value).toInt < 0
    · exact .inl fun hin => absurd hin.low (by dsimp only; omega)
    · refine .inr ⟨⟨Int.le_refl _, ?_⟩, ?_⟩
      · dsimp only
        omega
      · dsimp only
        split_ifs at * <;> omega
  · omega

/-- What one region contributes; `none` where the sum is undefined. -/
def shiftedRight (value : BitVec 32) (r : Region) : Option (List Region) := r.shiftRight [] value

theorem shiftRight_eq (r : Region) (rs : List Region) (value : BitVec 32) :
    r.shiftRight rs value = (r.shiftedRight value).map (rs ++ ·) := by
  unfold shiftedRight shiftRight
  dsimp only
  split_ifs
  · cases CInt.add r.size r.offset with
    | none => rfl
    | some sum =>
      simp only [Option.bind_eq_bind, Option.bind_some, Option.pure_def, Option.map_some]
      split_ifs <;> simp
  · simp only [Option.bind_eq_bind, Option.bind_some, Option.pure_def, Option.map_some]
    split_ifs <;> simp

/-- A region shifted right whose new offset, as an `int`, is not negative. -/
theorem shiftedRight_stays {value : BitVec 32} {r : Region} (hpos : 0 < r.size.toInt)
    (h : 0 ≤ (r.offset - value).toInt) :
    r.shiftedRight value = some [⟨r.offset - value, r.size⟩] := by
  have hzero : (0 : BitVec 32).toInt = 0 := by decide
  have hneg : ¬ (r.offset - value).slt 0 = true := by
    rw [BitVec.slt_iff_toInt_lt, hzero]
    omega
  have hsize : (0 : BitVec 32).slt r.size = true := by
    rw [BitVec.slt_iff_toInt_lt, hzero]
    exact hpos
  unfold shiftedRight shiftRight
  simp only [if_neg hneg, Option.pure_def, Option.bind_eq_bind, Option.bind_some, if_pos hsize,
    List.nil_append]

/-- The new offset of a region that is shifted right. -/
theorem shiftedRight_offset (h : r.Inside width) (value : BitVec 32) :
    (r.offset - value).toInt =
      if -2147483648 ≤ r.offset.toInt - value.toNat then r.offset.toInt - value.toNat
      else r.offset.toInt - value.toNat + 4294967296 := by
  have hb := CInt.bounds r.offset
  have hlow := h.low
  have hv := value.isLt
  have hoffset := CInt.toNat_eq r.offset
  have hsub := CInt.toNat_sub r.offset value
  have hint := CInt.toInt_eq (r.offset - value)
  rw [if_pos hlow] at hoffset
  rw [hoffset] at hsub
  split_ifs at * <;> omega

theorem shiftedRight_moved (h : r.Inside width) (hfits : r.FitsRight value) :
    ∃ out, r.shiftedRight value = some out ∧ Moved width (-value.toNat) [r] out := by
  have hoffset := shiftedRight_offset h value
  have hb := CInt.bounds r.offset
  have hb' := CInt.bounds r.size
  have hv := value.isLt
  obtain ⟨hpos, hlow, hhigh⟩ := h
  obtain ⟨hbelow, hsum⟩ := hfits
  have hzero : (0 : BitVec 32).toInt = 0 := by decide
  rw [if_pos (by omega)] at hoffset
  by_cases hneg : (r.offset - value).toInt < 0
  · have hend := hsum (by omega)
    unfold EndFits at hend
    obtain ⟨sum, hadd⟩ := CInt.add_some (x := r.size) (y := r.offset) (by omega) (by omega)
    have hsumint := CInt.add_eq_some_iff.mp hadd
    have hneg' : (r.offset - value).slt 0 = true := by
      rw [BitVec.slt_iff_toInt_lt, hzero]
      exact hneg
    -- the size of what is left
    have hvalue : (sum - value).toInt = r.offset.toInt + r.size.toInt - value.toNat := by
      have hsumnat := CInt.toNat_eq sum
      have hsub := CInt.toNat_sub sum value
      have hint := CInt.toInt_eq (sum - value)
      split_ifs at * <;> omega
    have hout : r.shiftedRight value =
        some (if (0 : BitVec 32).slt (sum - value) then [⟨0, sum - value⟩] else []) := by
      unfold shiftedRight shiftRight
      simp only [if_pos hneg', hadd, Option.pure_def, Option.bind_eq_bind, Option.bind_some,
        List.nil_append]
    refine ⟨_, hout, ?_⟩
    by_cases hleft : (0 : BitVec 32).slt (sum - value) = true
    · rw [if_pos hleft]
      rw [BitVec.slt_iff_toInt_lt, hzero] at hleft
      refine ⟨?_, ?_⟩
      · intro q hq
        rw [List.mem_singleton.mp hq]
        refine ⟨hleft, ?_, ?_⟩
        · exact hzero.ge
        · dsimp only
          rw [hzero]
          omega
      · intro b
        simp only [positionsOf_cons, positionsOf_nil, Set.union_empty, mem_positions, hzero, hvalue]
        omega
    · rw [if_neg hleft]
      rw [BitVec.slt_iff_toInt_lt, hzero] at hleft
      refine ⟨by simp, ?_⟩
      intro b
      simp only [positionsOf_cons, positionsOf_nil, Set.union_empty, mem_positions,
        Set.mem_empty_iff_false, false_iff]
      omega
  · refine ⟨_, shiftedRight_stays hpos (by omega), ?_, ?_⟩
    · intro q hq
      rw [List.mem_singleton.mp hq]
      refine ⟨hpos, ?_, ?_⟩
      · dsimp only
        omega
      · dsimp only
        omega
    · intro b
      simp only [positionsOf_cons, positionsOf_nil, Set.union_empty, mem_positions, hoffset]
      omega

/-- A region that does not fit has an undefined sum, or comes out far behind the last bit. -/
theorem shiftedRight_wrong (h : r.Inside width) (hfits : ¬ r.FitsRight value) :
    r.shiftedRight value = none ∨ ∃ out, r.shiftedRight value = some out ∧
      ∃ q ∈ out, q.offset.toInt ∈ q.positions ∧ width.toNat ≤ q.offset.toInt + value.toNat := by
  have hoffset := shiftedRight_offset h value
  have hb := CInt.bounds r.offset
  have hv := value.isLt
  have hw := width.isLt
  obtain ⟨hpos, hlow, hhigh⟩ := h
  have hzero : (0 : BitVec 32).toInt = 0 := by decide
  by_cases hbelow : (value.toNat : Int) ≤ r.offset.toInt + 2147483648
  · left
    have hsum : r.offset.toInt < value.toNat ∧ ¬ r.EndFits := by
      by_contra hnot
      exact hfits ⟨hbelow, fun hlt => by_contra fun hend => hnot ⟨hlt, hend⟩⟩
    unfold EndFits at hsum
    have hneg : (r.offset - value).slt 0 = true := by
      rw [BitVec.slt_iff_toInt_lt, hzero, hoffset, if_pos (by omega)]
      omega
    have hadd : CInt.add r.size r.offset = none := by
      cases hadd : CInt.add r.size r.offset with
      | none => rfl
      | some sum =>
        have hsumint := CInt.add_eq_some_iff.mp hadd
        have := CInt.bounds sum
        omega
    unfold shiftedRight shiftRight
    simp only [if_pos hneg, hadd, Option.bind_eq_bind, Option.bind_none]
  · right
    rw [if_neg (by omega)] at hoffset
    refine ⟨_, shiftedRight_stays hpos (by omega), _, List.mem_singleton_self _, ⟨?_, ?_⟩, ?_⟩
    · exact Int.le_refl _
    · dsimp only
      omega
    · dsimp only
      omega

end Region

variable {value width : BitVec 32} {rs rs' out out' : List Region} {d : Int}

theorem Moved.nil : Moved width d [] [] := ⟨by simp, by simp⟩

theorem Moved.append (h : Moved width d rs out) (h' : Moved width d rs' out') :
    Moved width d (rs ++ rs') (out ++ out') := by
  constructor
  · intro q hq
    rcases List.mem_append.mp hq with hq | hq
    · exact h.inside q hq
    · exact h'.inside q hq
  · intro b
    rw [positionsOf_append, positionsOf_append, Set.mem_union, Set.mem_union, h.bits, h'.bits]
    tauto

theorem shiftLeftAll_eq (rs out : List Region) (value width : BitVec 32) :
    shiftLeftAll rs out value width = out ++ rs.flatMap (shiftedLeft value width) := by
  unfold shiftLeftAll
  induction rs generalizing out with
  | nil => simp
  | cons r rs ih => rw [List.foldl_cons, ih, shiftLeft_eq, List.append_assoc, List.flatMap_cons]

theorem shiftRightAll_cons (r : Region) (rs out : List Region) (value : BitVec 32) :
    shiftRightAll (r :: rs) out value =
      (r.shiftedRight value).bind fun l => shiftRightAll rs (out ++ l) value := by
  unfold shiftRightAll
  rw [List.foldlM_cons, shiftRight_eq, Option.bind_eq_bind, Option.bind_map]
  rfl

/-- A bit of a region inside the width has no negative position, and none behind the width. -/
theorem inside_of_mem (h : ∀ r ∈ rs, r.Inside width) {b : Int} (hb : b ∈ positionsOf rs) :
    0 ≤ b ∧ b < width.toNat := by
  obtain ⟨r, hr, hb⟩ := hb
  have hlow := (h r hr).low
  have hhigh := (h r hr).high
  rw [mem_positions] at hb
  omega

theorem shiftLeftAll_moved_iff (h : ∀ r ∈ rs, r.Inside width) :
    Moved width value.toNat rs (shiftLeftAll rs [] value width) ↔
      ∀ r ∈ rs, r.FitsLeft value width := by
  rw [shiftLeftAll_eq, List.nil_append]
  constructor
  · intro hmoved r hr
    by_contra hfits
    obtain ⟨q, hq, hwrong⟩ := shiftedLeft_wrong (h r hr) hfits
    have hq : q ∈ rs.flatMap (shiftedLeft value width) := List.mem_flatMap.mpr ⟨r, hr, hq⟩
    rcases hwrong with hwrong | ⟨hmem, hlt⟩
    · exact hwrong (hmoved.inside q hq)
    · have hbit := ((hmoved.bits _).mp (positionsOf_mono hq hmem)).1
      have := (inside_of_mem h hbit).1
      omega
  · intro hfits
    induction rs with
    | nil => exact .nil
    | cons r rs ih =>
      have hone := shiftedLeft_moved (h r List.mem_cons_self) (hfits r List.mem_cons_self)
      have hmore := ih (fun q hq => h q (List.mem_cons_of_mem r hq))
        fun q hq => hfits q (List.mem_cons_of_mem r hq)
      rw [List.flatMap_cons]
      exact hone.append hmore

theorem shiftRightAll_moved (h : ∀ r ∈ rs, r.Inside width) (hfits : ∀ r ∈ rs, r.FitsRight value)
    (out : List Region) : ∃ out', shiftRightAll rs out value = some (out ++ out') ∧
      Moved width (-value.toNat) rs out' := by
  induction rs generalizing out with
  | nil => exact ⟨[], by rw [List.append_nil]; rfl, .nil⟩
  | cons r rs ih =>
    obtain ⟨l, hl, hone⟩ := shiftedRight_moved (h r List.mem_cons_self) (hfits r List.mem_cons_self)
    obtain ⟨out', hout', hmore⟩ := ih (fun q hq => h q (List.mem_cons_of_mem r hq))
      (fun q hq => hfits q (List.mem_cons_of_mem r hq)) (out ++ l)
    refine ⟨l ++ out', ?_, hone.append hmore⟩
    rw [shiftRightAll_cons, hl, Option.bind_some, hout', List.append_assoc]

/-- Everything that one region contributes is in the result. -/
theorem shiftRightAll_mem (hout : shiftRightAll rs out value = some out') :
    (∀ q ∈ out, q ∈ out') ∧
      ∀ r ∈ rs, ∃ l, r.shiftedRight value = some l ∧ ∀ q ∈ l, q ∈ out' := by
  induction rs generalizing out with
  | nil =>
    cases hout
    exact ⟨fun _ hq => hq, by simp⟩
  | cons r rs ih =>
    rw [shiftRightAll_cons] at hout
    obtain ⟨l, hl, hout⟩ := Option.bind_eq_some_iff.mp hout
    obtain ⟨hold, hnew⟩ := ih hout
    refine ⟨fun q hq => hold q (List.mem_append_left _ hq), ?_⟩
    intro q hq
    rcases List.mem_cons.mp hq with rfl | hq
    · exact ⟨l, hl, fun p hp => hold p (List.mem_append_right _ hp)⟩
    · exact hnew q hq

theorem shiftRightAll_moved_iff (h : ∀ r ∈ rs, r.Inside width) :
    (∃ out, shiftRightAll rs [] value = some out ∧ Moved width (-value.toNat) rs out) ↔
      ∀ r ∈ rs, r.FitsRight value := by
  constructor
  · intro hmoved r hr
    obtain ⟨out, hout, hmoved⟩ := hmoved
    by_contra hfits
    obtain ⟨l, hl, hmem⟩ := (shiftRightAll_mem hout).2 r hr
    rcases shiftedRight_wrong (h r hr) hfits with hnone | ⟨l', hl', q, hq, hbit, hbehind⟩
    · rw [hnone] at hl
      contradiction
    · obtain rfl := Option.some.inj (hl.symm.trans hl')
      have hbit := ((hmoved.bits _).mp (positionsOf_mono (hmem q hq) hbit)).1
      have := (inside_of_mem h hbit).2
      omega
  · intro hfits
    obtain ⟨out, hout, hmoved⟩ := shiftRightAll_moved h hfits []
    exact ⟨out, hout, hmoved⟩

/-- The shifts move the bits and clip them, exactly where the amounts fit the regions. -/
theorem shifts_iff (h : ∀ r ∈ rs, r.Inside width) :
    (Moved width value.toNat rs (shiftLeftAll rs [] value width) ↔
        ∀ r ∈ rs, r.FitsLeft value width) ∧
      ((∃ out, shiftRightAll rs [] value = some out ∧ Moved width (-value.toNat) rs out) ↔
        ∀ r ∈ rs, r.FitsRight value) :=
  ⟨shiftLeftAll_moved_iff h, shiftRightAll_moved_iff h⟩

/-- The second byte of a word. -/
def secondByte : Region := ⟨8, 8⟩

/-- It can be shifted by a byte to either side. -/
theorem secondByte_shifts : Moved 32 8 [secondByte] [⟨16, 8⟩] ∧
    ∃ out, shiftRightAll [secondByte] [] 8 = some out ∧ Moved 32 (-8) [secondByte] out := by
  have hinside : ∀ r ∈ [secondByte], r.Inside 32 := by decide
  obtain ⟨hleft, hright⟩ := @shifts_iff 8 32 [secondByte] hinside
  refine ⟨hleft.mpr ?_, hright.mpr ?_⟩
  · intro r hr
    rw [List.mem_singleton.mp hr]
    exact ⟨by decide, by decide, by decide⟩
  · intro r hr
    rw [List.mem_singleton.mp hr]
    exact ⟨by decide, fun _ => by unfold EndFits; decide⟩

/-- Shifted left by an amount near the largest `unsigned` it moves to the right. -/
theorem secondByte_wraps : ¬ Moved 32 (4294967288#32).toNat [secondByte]
    (shiftLeftAll [secondByte] [] 4294967288#32 32) := by
  rw [shiftLeftAll_moved_iff (by decide)]
  intro h
  have := (h _ (List.mem_singleton_self _)).wraps
  revert this
  decide

end Encider
