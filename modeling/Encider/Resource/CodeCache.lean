import Mathlib

/-! `checkCodeCacheSideChannel`: cache lines of one path's addresses that the other path misses. -/

namespace Encider

/-- `cacheLineMode` with `cacheLineBits`, or `cacheBitmaskMode` with `cacheBitmask`. -/
inductive CacheMode where
  | line (bits : Fin 32)
  | bitmask (mask : UInt32)

/-- The cache line or the masked value of an address. -/
def CacheMode.key : CacheMode → UInt32 → UInt32
  | line bits, i => i >>> UInt32.ofNat bits.val
  | bitmask mask, i => i &&& mask

/-- A `std::set` of address ranges, in its order. -/
structure AddressRanges where
  ranges : List (UInt32 × UInt32)
  sorted : ranges.Pairwise fun r r' => r.1 < r'.1 ∨ r.1 = r'.1 ∧ r.2 < r'.2
  ordered : ∀ r ∈ ranges, r.1 ≤ r.2

namespace CodeCache

/-- The loop of `forRange`, for so many tests of `i <= last` at most. -/
def forRangeWithin {σ : Type} (body : σ → UInt32 → σ) (last : UInt32) :
    Nat → σ → UInt32 → Option σ
  | 0, _, _ => none
  | fuel + 1, st, i =>
    if i ≤ last then forRangeWithin body last fuel (body st i) (i + 1) else some st

/-- `for (unsigned i = first; i <= last; i++)`; `none` where it does not end. After `2^32` turns `i`
is back where it was. -/
def forRange {σ : Type} (body : σ → UInt32 → σ) (st : σ) (i last : UInt32) : Option σ :=
  forRangeWithin body last (2 ^ 32 + 1) st i

variable (mode : CacheMode)

/-- The inner loop's turn for a range of `s2`: the lines of the other path grow by those of the
range, and then the addresses of the range of `s1` are looked up. -/
def checkPair (s1i : UInt32 × UInt32) (st : Finset UInt32 × Bool) (s2i : UInt32 × UInt32) :
    Option (Finset UInt32 × Bool) := do
  let s2C ← forRange (fun s2C i => insert (mode.key i) s2C) st.1 s2i.1 s2i.2
  let codeCacheLines ← forRange
    (fun missing i => if mode.key i ∈ s2C then missing else insert i missing) (∅ : Finset UInt32)
    s1i.1 s1i.2
  return (s2C, st.2 || decide (codeCacheLines ≠ ∅))

/-- The turn of the outer loop. -/
def checkRange (s2 : List (UInt32 × UInt32)) (found : Bool) (s1i : UInt32 × UInt32) :
    Option Bool := do
  let st ← s2.foldlM (checkPair mode s1i) (∅, found)
  return st.2

/-- What is returned; the report's text and accuracy are left out. -/
def checkCodeCacheSideChannel (s1 s2 : AddressRanges) : Option Bool :=
  if s1.ranges = [] ∨ s2.ranges = [] then some false
  else s1.ranges.foldlM (checkRange mode s2.ranges) false

/-! The loop over a range. -/

def span (i last : UInt32) : List UInt32 :=
  (List.range' i.toNat (last.toNat + 1 - i.toNat)).map UInt32.ofNat

theorem mem_span {i j last : UInt32} : j ∈ span i last ↔ i ≤ j ∧ j ≤ last := by
  rw [span, List.mem_map, UInt32.le_iff_toNat_le, UInt32.le_iff_toNat_le]
  constructor
  · rintro ⟨n, hn, rfl⟩
    rw [List.mem_range'_1] at hn
    have hlast := last.toNat_lt
    have hn' : n < UInt32.size := by
      have : UInt32.size = 2 ^ 32 := rfl
      omega
    rw [UInt32.toNat_ofNat_of_lt' hn']
    omega
  · intro h
    refine ⟨j.toNat, ?_, UInt32.ofNat_toNat⟩
    rw [List.mem_range'_1]
    omega

theorem span_eq_cons {i last : UInt32} (h : i ≤ last) (hlast : last.toNat + 1 < 2 ^ 32) :
    span i last = i :: span (i + 1) last := by
  rw [UInt32.le_iff_toNat_le] at h
  have hnext : (i + 1).toNat = i.toNat + 1 := by
    rw [UInt32.toNat_add]
    exact Nat.mod_eq_of_lt (by simp; omega)
  obtain ⟨n, hn⟩ := Nat.exists_eq_add_of_le h
  rw [span, span, hnext, hn, show i.toNat + n + 1 - i.toNat = n + 1 by omega,
    show i.toNat + n + 1 - (i.toNat + 1) = n by omega, List.range'_succ, List.map_cons,
    UInt32.ofNat_toNat]

theorem span_eq_nil {i last : UInt32} (h : ¬ i ≤ last) : span i last = [] := by
  rw [UInt32.le_iff_toNat_le] at h
  rw [span, show last.toNat + 1 - i.toNat = 0 by omega]
  rfl

section
variable {σ : Type} (body : σ → UInt32 → σ)

theorem forRangeWithin_eq (fuel : Nat) (st : σ) (i last : UInt32) (hlast : last.toNat + 1 < 2 ^ 32)
    (hfuel : last.toNat + 1 - i.toNat < fuel) :
    forRangeWithin body last fuel st i = some ((span i last).foldl body st) := by
  induction fuel generalizing st i with
  | zero => exact absurd hfuel (Nat.not_lt_zero _)
  | succ fuel ih =>
    rw [forRangeWithin]
    split_ifs with h
    · have hnext : (i + 1).toNat = i.toNat + 1 := by
        rw [UInt32.le_iff_toNat_le] at h
        rw [UInt32.toNat_add]
        exact Nat.mod_eq_of_lt (by simp; omega)
      rw [UInt32.le_iff_toNat_le] at h
      rw [ih _ _ (by omega), span_eq_cons (UInt32.le_iff_toNat_le.mpr h) hlast]
      rfl
    · rw [span_eq_nil h]
      rfl

/-- A loop that does not run up to the largest address goes over its range. -/
theorem forRange_eq (st : σ) (i last : UInt32) (hlast : last.toNat + 1 < 2 ^ 32) :
    forRange body st i last = some ((span i last).foldl body st) :=
  forRangeWithin_eq body _ st i last hlast (by omega)

theorem forRangeWithin_eq_none (fuel : Nat) (st : σ) (i last : UInt32)
    (hlast : ¬ last.toNat + 1 < 2 ^ 32) : forRangeWithin body last fuel st i = none := by
  induction fuel generalizing st i with
  | zero => rfl
  | succ fuel ih =>
    have hle : i ≤ last := by
      rw [UInt32.le_iff_toNat_le]
      have := i.toNat_lt
      omega
    rw [forRangeWithin, if_pos hle, ih]

/-- A loop up to the largest address does not end. -/
theorem forRange_eq_none (st : σ) (i last : UInt32) (hlast : ¬ last.toNat + 1 < 2 ^ 32) :
    forRange body st i last = none :=
  forRangeWithin_eq_none body _ st i last hlast

end

/-! The decision. -/

/-- The range does not end at the largest address. -/
def Bounded (r : UInt32 × UInt32) : Prop := r.2.toNat + 1 < 2 ^ 32

/-- The lines of a range. -/
def lines (r : UInt32 × UInt32) : Set UInt32 := {c | ∃ i, r.1 ≤ i ∧ i ≤ r.2 ∧ mode.key i = c}

/-- Some line of the range is not among the others. -/
def Misses (r : UInt32 × UInt32) (others : Set UInt32) : Prop := ∃ c ∈ lines mode r, c ∉ others

variable {mode}

theorem mem_foldl_insert (l : List UInt32) (s : Finset UInt32) (c : UInt32) :
    c ∈ l.foldl (fun s i => insert (mode.key i) s) s ↔ c ∈ s ∨ ∃ i ∈ l, mode.key i = c := by
  induction l generalizing s with
  | nil => simp
  | cons i l ih =>
    rw [List.foldl_cons, ih, Finset.mem_insert]
    simp only [List.mem_cons, exists_eq_or_imp, eq_comm (a := c)]
    tauto

theorem foldl_missing_ne (l : List UInt32) (s missing : Finset UInt32) :
    l.foldl (fun missing i => if mode.key i ∈ s then missing else insert i missing) missing ≠ ∅ ↔
      missing ≠ ∅ ∨ ∃ i ∈ l, mode.key i ∉ s := by
  induction l generalizing missing with
  | nil => simp
  | cons i l ih =>
    rw [List.foldl_cons, ih]
    by_cases h : mode.key i ∈ s <;> simp [h]

/-- A turn of the inner loop. -/
theorem checkPair_eq {s1i s2i : UInt32 × UInt32} (h1 : Bounded s1i) (h2 : Bounded s2i)
    (st : Finset UInt32 × Bool) :
    ∃ st', checkPair mode s1i st s2i = some st' ∧
      (∀ c, c ∈ st'.1 ↔ c ∈ st.1 ∨ c ∈ lines mode s2i) ∧
      (st'.2 = true ↔ st.2 = true ∨ Misses mode s1i {c | c ∈ st'.1}) := by
  simp only [checkPair, forRange_eq _ _ _ _ h2, forRange_eq _ _ _ _ h1, Option.bind_eq_bind,
    Option.bind_some]
  refine ⟨_, rfl, fun c => ?_, ?_⟩
  · rw [mem_foldl_insert]
    simp only [mem_span, lines, Set.mem_ofPred_eq, and_assoc]
  · rw [Bool.or_eq_true, decide_eq_true_eq]
    refine or_congr_right ((foldl_missing_ne _ _ _).trans ?_)
    simp only [mem_span, Misses, lines, Set.mem_ofPred_eq, ne_eq, not_true_eq_false, false_or,
      and_assoc]
    constructor
    · rintro ⟨i, hi, hi', hc⟩
      exact ⟨_, ⟨i, hi, hi', rfl⟩, hc⟩
    · rintro ⟨_, ⟨i, hi, hi', rfl⟩, hc⟩
      exact ⟨i, hi, hi', hc⟩

theorem Misses.anti {r : UInt32 × UInt32} {A B : Set UInt32} (h : Misses mode r B) (hAB : A ⊆ B) :
    Misses mode r A := by
  obtain ⟨c, hc, hcB⟩ := h
  exact ⟨c, hc, fun hcA => hcB (hAB hcA)⟩

/-- The first range of `s2` decides: its lines are the fewest that are compared with. -/
theorem checkPair_foldlM (mode : CacheMode) {s1i : UInt32 × UInt32} (h1 : Bounded s1i) (l : List (UInt32 × UInt32))
    (hl : ∀ r ∈ l, Bounded r) (st : Finset UInt32 × Bool) :
    ∃ st', l.foldlM (checkPair mode s1i) st = some st' ∧
      (st'.2 = true ↔ st.2 = true ∨
        ∃ r ∈ l.head?, Misses mode s1i ({c | c ∈ st.1} ∪ lines mode r)) := by
  induction l generalizing st with
  | nil => exact ⟨st, rfl, by simp⟩
  | cons r l ih =>
    rw [List.forall_mem_cons] at hl
    obtain ⟨st₁, hst₁, hmem, hfound⟩ := checkPair_eq h1 hl.1 st
    obtain ⟨st₂, hst₂, hfound₂⟩ := ih hl.2 st₁
    have hset : {c | c ∈ st₁.1} = {c | c ∈ st.1} ∪ lines mode r := Set.ext hmem
    rw [hset] at hfound
    refine ⟨st₂, ?_, ?_⟩
    · rw [List.foldlM_cons, hst₁]
      exact hst₂
    · rw [hfound₂, hfound, hset, or_assoc]
      refine or_congr_right ?_
      simp only [List.head?_cons, Option.mem_def, Option.some.injEq, exists_eq_left']
      rw [or_iff_left_iff_imp]
      rintro ⟨r', -, hr'⟩
      exact hr'.anti Set.subset_union_left

theorem checkRange_foldlM (mode : CacheMode) (l : List (UInt32 × UInt32))
    (hl : ∀ r ∈ l, Bounded r) (s2 : List (UInt32 × UInt32)) (hs2 : ∀ r ∈ s2, Bounded r) (found : Bool) :
    ∃ found', l.foldlM (checkRange mode s2) found = some found' ∧
      (found' = true ↔ found = true ∨
        ∃ r ∈ l, ∃ r' ∈ s2.head?, Misses mode r (lines mode r')) := by
  induction l generalizing found with
  | nil => exact ⟨found, rfl, by simp⟩
  | cons r l ih =>
    rw [List.forall_mem_cons] at hl
    obtain ⟨st, hst, hfound⟩ := checkPair_foldlM mode hl.1 s2 hs2 (∅, found)
    obtain ⟨found', hfound', hiff⟩ := ih hl.2 st.2
    have hstep : checkRange mode s2 found r = some st.2 := by
      rw [checkRange, hst]
      rfl
    refine ⟨found', ?_, ?_⟩
    · rw [List.foldlM_cons, hstep]
      exact hfound'
    · rw [hiff, hfound, or_assoc]
      simp

/-- A turn that gives nothing. -/
theorem foldlM_eq_none {σ β : Type} {f : σ → β → Option σ} {l : List β} {x : β} (hx : x ∈ l)
    (h : ∀ st, f st x = none) (st : σ) : l.foldlM f st = none := by
  induction l generalizing st with
  | nil => cases hx
  | cons y l ih =>
    rw [List.foldlM_cons]
    obtain rfl | hy := List.mem_cons.mp hx
    · rw [h]
      rfl
    · cases hfy : f st y with
      | none => rfl
      | some st' => exact ih hy st'

theorem checkPair_eq_none {s1i s2i : UInt32 × UInt32} (h : ¬ (Bounded s1i ∧ Bounded s2i))
    (st : Finset UInt32 × Bool) : checkPair mode s1i st s2i = none := by
  rw [checkPair]
  by_cases h2 : Bounded s2i
  · have h1 : ¬ Bounded s1i := fun h1 => h ⟨h1, h2⟩
    rw [forRange_eq _ _ _ _ h2]
    simp only [forRange_eq_none _ _ _ _ h1, Option.bind_eq_bind, Option.bind_some, Option.bind_none]
  · rw [forRange_eq_none _ _ _ _ h2]
    rfl

theorem checkRange_eq_none {s2 : List (UInt32 × UInt32)} {s1i s2i : UInt32 × UInt32}
    (hs2i : s2i ∈ s2) (h : ¬ (Bounded s1i ∧ Bounded s2i)) (found : Bool) :
    checkRange mode s2 found s1i = none := by
  rw [checkRange, foldlM_eq_none hs2i (checkPair_eq_none h)]
  rfl

/-- Some address of `s1` has a line that no address of `s2` has. -/
def MissingLine (mode : CacheMode) (s1 s2 : AddressRanges) : Prop :=
  ∃ r ∈ s1.ranges, ∃ i, r.1 ≤ i ∧ i ≤ r.2 ∧
    ∀ r' ∈ s2.ranges, ∀ i', r'.1 ≤ i' → i' ≤ r'.2 → mode.key i' ≠ mode.key i

/-- The loops end with the right answer. -/
def Answers (mode : CacheMode) (s1 s2 : AddressRanges) : Prop :=
  ∃ found, checkCodeCacheSideChannel mode s1 s2 = some found ∧
    (found = true ↔ MissingLine mode s1 s2)

/-- Every address of `s1` has a line of the first range of `s2`. -/
def FirstCovers (mode : CacheMode) (s1 s2 : AddressRanges) : Prop :=
  ∀ r ∈ s1.ranges, ∀ i, r.1 ≤ i → i ≤ r.2 → ∀ r' ∈ s2.ranges.head?,
    ∃ i', r'.1 ≤ i' ∧ i' ≤ r'.2 ∧ mode.key i' = mode.key i

variable {s1 s2 : AddressRanges}

theorem bounded_iff {r : UInt32 × UInt32} : Bounded r ↔ r.2.toNat ≠ 2 ^ 32 - 1 := by
  have hlt := r.2.toNat_lt
  unfold Bounded
  omega

/-- The loops end where no range reaches the largest address, and compare with the first range. -/
theorem check_eq_some (mode : CacheMode) (h1 : s1.ranges ≠ []) (h2 : s2.ranges ≠ [])
    (hbounded : ∀ r ∈ s1.ranges ++ s2.ranges, Bounded r) :
    ∃ found, checkCodeCacheSideChannel mode s1 s2 = some found ∧
      (found = true ↔ ¬ FirstCovers mode s1 s2) := by
  rw [List.forall_mem_append] at hbounded
  obtain ⟨found, hfound, hiff⟩ :=
    checkRange_foldlM mode s1.ranges hbounded.1 s2.ranges hbounded.2 false
  refine ⟨found, ?_, hiff.trans ?_⟩
  · rw [checkCodeCacheSideChannel, if_neg (not_or.mpr ⟨h1, h2⟩), hfound]
  · simp only [Bool.false_eq_true, false_or, FirstCovers, not_forall, Misses, lines,
      Set.mem_ofPred_eq]
    constructor
    · rintro ⟨r, hr, r', hr', _, ⟨i, hi, hi', rfl⟩, hc⟩
      refine ⟨r, hr, i, hi, hi', r', hr', ?_⟩
      exact hc
    · rintro ⟨r, hr, i, hi, hi', r', hr', hc⟩
      exact ⟨r, hr, r', hr', _, ⟨i, hi, hi', rfl⟩, hc⟩

theorem check_eq_none (h1 : s1.ranges ≠ []) (h2 : s2.ranges ≠ [])
    (hbounded : ¬ ∀ r ∈ s1.ranges ++ s2.ranges, Bounded r) :
    checkCodeCacheSideChannel mode s1 s2 = none := by
  rw [checkCodeCacheSideChannel, if_neg (not_or.mpr ⟨h1, h2⟩)]
  simp only [not_forall, List.mem_append] at hbounded
  obtain ⟨r, hr | hr, hr'⟩ := hbounded
  · obtain ⟨s2i, hs2i⟩ := List.exists_mem_of_ne_nil _ h2
    exact foldlM_eq_none hr (checkRange_eq_none hs2i fun h => hr' h.1) false
  · obtain ⟨s1i, hs1i⟩ := List.exists_mem_of_ne_nil _ h1
    exact foldlM_eq_none hs1i (checkRange_eq_none hr fun h => hr' h.2) false

theorem MissingLine.not_firstCovers (h : MissingLine mode s1 s2) (h2 : s2.ranges ≠ []) :
    ¬ FirstCovers mode s1 s2 := by
  obtain ⟨r, hr, i, hi, hi', hmissing⟩ := h
  obtain ⟨r', l, hl⟩ := List.exists_cons_of_ne_nil h2
  intro hcovers
  obtain ⟨i', hi₁, hi₂, hkey⟩ := hcovers r hr i hi hi' r' (by rw [hl]; rfl)
  exact hmissing r' (by rw [hl]; exact List.mem_cons_self) i' hi₁ hi₂ hkey

/-- No range reaches the largest address, and unless a line is missing the first range of `s2` has
all lines of `s1`. -/
theorem answers_iff (mode : CacheMode) (s1 s2 : AddressRanges) (h1 : s1.ranges ≠ [])
    (h2 : s2.ranges ≠ []) :
    Answers mode s1 s2 ↔ (∀ r ∈ s1.ranges ++ s2.ranges, r.2.toNat ≠ 2 ^ 32 - 1) ∧
      (MissingLine mode s1 s2 ∨ FirstCovers mode s1 s2) := by
  simp only [← bounded_iff]
  by_cases hbounded : ∀ r ∈ s1.ranges ++ s2.ranges, Bounded r
  · obtain ⟨found, hcheck, hfound⟩ := check_eq_some mode h1 h2 hbounded
    have hmissing := fun h : MissingLine mode s1 s2 => h.not_firstCovers h2
    have hanswers : Answers mode s1 s2 ↔ (¬ FirstCovers mode s1 s2 ↔ MissingLine mode s1 s2) := by
      rw [Answers, hcheck, ← hfound]
      simp
    rw [hanswers, iff_true_intro hbounded, true_and]
    tauto
  · refine iff_of_false ?_ fun h => hbounded h.1
    rintro ⟨found, hcheck, -⟩
    rw [check_eq_none h1 h2 hbounded] at hcheck
    cases hcheck

/-- One address in each of two lines. -/
def twoLines : AddressRanges := ⟨[(0, 0), (64, 64)], by simp, by simp⟩

/-- An address in the second line. -/
def secondLine : AddressRanges := ⟨[(64, 64)], by simp, by simp⟩

theorem answers_secondLine : Answers (.line 6) twoLines secondLine := by
  refine (answers_iff (.line 6) twoLines secondLine (List.cons_ne_nil _ _)
    (List.cons_ne_nil _ _)).mpr ⟨?_, ?_⟩
  · simp [twoLines, secondLine]
  refine Or.inl ⟨(0, 0), List.mem_cons_self, 0, UInt32.le_refl _, UInt32.le_refl _, ?_⟩
  intro r hr i hi hi'
  obtain rfl := List.mem_singleton.mp hr
  obtain rfl : i = 64 := UInt32.le_antisymm hi' hi
  decide

/-- The line of `secondLine` is in the second range, but the first is compared with it alone. -/
theorem secondLine_reported : ¬ Answers (.line 6) secondLine twoLines := by
  rintro ⟨found, hcheck, hfound⟩
  have hbounded : ∀ r ∈ secondLine.ranges ++ twoLines.ranges, Bounded r := by
    simp [Bounded, twoLines, secondLine]
  obtain ⟨found', hcheck', hfound'⟩ :=
    check_eq_some (.line 6) (List.cons_ne_nil _ _) (List.cons_ne_nil _ _) hbounded
  obtain rfl := Option.some.inj (hcheck.symm.trans hcheck')
  have hcovers : ¬ FirstCovers (.line 6) secondLine twoLines := by
    intro h
    obtain ⟨i', hi, hi', hkey⟩ := h (64, 64) List.mem_cons_self 64 (UInt32.le_refl _)
      (UInt32.le_refl _) (0, 0) rfl
    obtain rfl : i' = 0 := UInt32.le_antisymm hi' hi
    revert hkey
    decide
  obtain ⟨r, hr, i, hi, hi', hmissing⟩ := hfound.mp (hfound'.mpr hcovers)
  obtain rfl := List.mem_singleton.mp hr
  obtain rfl : i = 64 := UInt32.le_antisymm hi' hi
  exact hmissing (64, 64) (List.mem_cons_of_mem _ List.mem_cons_self) 64 (UInt32.le_refl _)
    (UInt32.le_refl _) rfl

end CodeCache

end Encider
