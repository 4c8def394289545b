import Mathlib

/-! Regions of bits, and how `clearRegion` takes regions out of regions. -/

namespace Encider

/-- A region of the bits of a symbol or an object. The fields are `int`s, on which
`clearRegion` computes as on `unsigned`. -/
structure Region where
  offset : BitVec 32
  size : BitVec 32
deriving DecidableEq, Repr

/-- Whether `[min1, max1]` and `[min2, max2]` intersect. -/
def rangesIntersect (min1 max1 min2 max2 : BitVec 32) : Bool :=
  if min1 > max2 ∨ min2 > max1 then false else true

namespace Region

def base (r : Region) : Nat := r.offset.toNat

def stop (r : Region) : Nat := r.offset.toNat + r.size.toNat

def bits (r : Region) : Set Nat := {b | r.base ≤ b ∧ b < r.stop}

/-- A region of some bits whose positions are `int`s. -/
structure Proper (r : Region) : Prop where
  positive : 0 < r.size.toNat
  fits : r.stop ≤ 2 ^ 31

/-- The regions that `clearRegion` puts in the place of `s`. -/
def clear (r s : Region) : List Region :=
  if r.offset = s.offset ∧ r.size = s.size then []
  else
    let min1 := r.offset
    let max1 := r.offset + r.size - 1
    let size1 := r.size
    let min2 := s.offset
    let max2 := s.offset + s.size - 1
    let size2 := s.size
    if rangesIntersect min1 max1 min2 max2 then
      if min1 + size1 = min2 + size2 then
        [{ offset := if min1 < min2 then min1 else min2
           size := if min1 < min2 then size1 - size2 else size2 - size1 }]
      else if min1 = min2 then
        [{ offset := if size1 > size2 then min2 + size2 else min1 + size1
           size := if size1 > size2 then size1 - size2 else size2 - size1 }]
      else
        [{ offset := if min1 < min2 then min1 else min2
           size := if min1 > min2 then min1 - min2 else min2 - min1 },
         { offset := if max1 < max2 then max1 + 1 else max2 + 1
           size := if max1 > max2 then max1 - max2 else max2 - max1 }]
    else [s]

/-- Some bit lies between the two regions. -/
def Gap (p q : Region) : Prop := p.stop < q.base ∨ q.stop < p.base

instance : Std.Symm Gap := ⟨fun _ _ h => Or.symm h⟩

theorem Proper.nonempty {r : Region} (h : r.Proper) : r.base < r.stop := by
  have := h.positive
  unfold base stop
  omega

theorem mem_bits {r : Region} {b : Nat} : b ∈ r.bits ↔ r.base ≤ b ∧ b < r.stop := Iff.rfl

/-- What is left of a region when an inner region is taken out: what lies before it and
what lies behind it. -/
structure Rest (r s : Region) (left : List Region) : Prop where
  proper : ∀ q ∈ left, q.Proper
  within : ∀ q ∈ left, s.base ≤ q.base ∧ q.stop ≤ s.stop
  bits : ∀ b, (∃ q ∈ left, b ∈ q.bits) ↔ b ∈ s.bits ∧ b ∉ r.bits
  gaps : left.Pairwise Gap

theorem Proper.toNat_stop {r : Region} (h : r.Proper) : (r.offset + r.size).toNat = r.stop := by
  have := h.fits
  rw [BitVec.toNat_add]
  exact Nat.mod_eq_of_lt (by unfold stop at *; omega)

theorem Proper.toNat_max {r : Region} (h : r.Proper) :
    (r.offset + r.size - 1).toNat = r.stop - 1 := by
  have hstop := h.toNat_stop
  have hne := h.nonempty
  have hfits := h.fits
  have hone : (1 : BitVec 32).toNat = 1 := rfl
  rw [BitVec.toNat_sub, hstop, hone]
  omega

theorem Proper.stop_inj {r s : Region} (hr : r.Proper) (hs : s.Proper) :
    r.offset + r.size = s.offset + s.size ↔ r.stop = s.stop := by
  rw [← BitVec.toNat_inj, hr.toNat_stop, hs.toNat_stop]

theorem rangesIntersect_proper {r s : Region} (hr : r.Proper) (hs : s.Proper) :
    rangesIntersect r.offset (r.offset + r.size - 1) s.offset (s.offset + s.size - 1) = true ↔
      r.base < s.stop ∧ s.base < r.stop := by
  have hr' := hr.nonempty
  have hs' := hs.nonempty
  unfold rangesIntersect
  rw [ite_eq_right_iff, gt_iff_lt, gt_iff_lt, BitVec.lt_def, BitVec.lt_def, hr.toNat_max,
    hs.toNat_max]
  unfold base at *
  constructor
  · intro h
    by_contra hn
    have := h (by omega)
    contradiction
  · intro h hor
    omega

/-- Regions that do not meet stay as they are. -/
theorem clear_apart {r s : Region} (hr : r.Proper) (hs : s.Proper)
    (h : r.stop ≤ s.base ∨ s.stop ≤ r.base) : r.clear s = [s] := by
  have hr' := hr.nonempty
  have hs' := hs.nonempty
  unfold clear
  rw [if_neg, if_neg]
  · rw [rangesIntersect_proper hr hs]
    omega
  · intro heq
    unfold base stop at *
    rw [heq.1, heq.2] at h
    omega

theorem Proper.of_span {q : Region} {hi : Nat} (hq : q.base < q.stop) (hstop : q.stop = hi)
    (hfits : hi ≤ 2 ^ 31) : q.Proper := by
  refine ⟨?_, by omega⟩
  unfold base stop at hq
  omega

theorem Rest.none (r : Region) : Rest r r [] := by
  refine ⟨?_, ?_, ?_, ?_⟩ <;> simp

theorem Rest.before {r s q : Region} (hr : r.Proper) (hfits : s.stop ≤ 2 ^ 31)
    (hlow : s.base < r.base) (hend : r.stop = s.stop) (hbase : q.base = s.base)
    (hstop : q.stop = r.base) : Rest r s [q] := by
  have hne := hr.nonempty
  refine ⟨?_, ?_, ?_, List.pairwise_singleton _ _⟩
  · intro p hp
    rw [List.mem_singleton.mp hp]
    exact .of_span (by omega) hstop (by omega)
  · intro p hp
    rw [List.mem_singleton.mp hp]
    omega
  · intro b
    simp only [List.mem_singleton, exists_eq_left, mem_bits]
    omega

theorem Rest.behind {r s q : Region} (hr : r.Proper) (hfits : s.stop ≤ 2 ^ 31)
    (hstart : r.base = s.base) (hhigh : r.stop < s.stop) (hbase : q.base = r.stop)
    (hstop : q.stop = s.stop) : Rest r s [q] := by
  have hne := hr.nonempty
  refine ⟨?_, ?_, ?_, List.pairwise_singleton _ _⟩
  · intro p hp
    rw [List.mem_singleton.mp hp]
    exact .of_span (by omega) hstop (by omega)
  · intro p hp
    rw [List.mem_singleton.mp hp]
    omega
  · intro b
    simp only [List.mem_singleton, exists_eq_left, mem_bits]
    omega

theorem Rest.both {r s p q : Region} (hr : r.Proper) (hfits : s.stop ≤ 2 ^ 31)
    (hlow : s.base < r.base) (hhigh : r.stop < s.stop) (hpbase : p.base = s.base)
    (hpstop : p.stop = r.base) (hqbase : q.base = r.stop) (hqstop : q.stop = s.stop) :
    Rest r s [p, q] := by
  have hne := hr.nonempty
  refine ⟨?_, ?_, ?_, ?_⟩
  · intro x hx
    rcases List.mem_pair.mp hx with rfl | rfl
    · exact .of_span (by omega) hpstop (by omega)
    · exact .of_span (by omega) hqstop (by omega)
  · intro x hx
    rcases List.mem_pair.mp hx with rfl | rfl <;> omega
  · intro b
    simp only [List.mem_pair, exists_eq_or_imp, exists_eq_left, mem_bits]
    omega
  · refine List.pairwise_pair.mpr (.inl ?_)
    omega

theorem clear_inside {r s : Region} (hr : r.Proper) (hs : s.Proper)
    (hlow : s.base ≤ r.base) (hhigh : r.stop ≤ s.stop) : Rest r s (r.clear s) := by
  have hr' := hr.nonempty
  have hs' := hs.nonempty
  have hmeets := (rangesIntersect_proper hr hs).mpr ⟨by omega, by omega⟩
  have hfits := hs.fits
  have hmax := hr.toNat_max
  have hmax' := hs.toNat_max
  have hstop := hr.toNat_stop
  unfold clear
  split
  · rename_i heq
    have hsame : r = s := by
      cases r
      cases s
      cases heq.1
      cases heq.2
      rfl
    rw [hsame]
    exact .none s
  · rename_i hne
    rw [← BitVec.toNat_inj, ← BitVec.toNat_inj] at hne
    dsimp only
    rw [if_pos hmeets]
    split
    · rename_i hend
      rw [hr.stop_inj hs] at hend
      have hbase : ¬ r.offset < s.offset := by
        rw [BitVec.lt_def]
        exact Nat.not_lt.mpr hlow
      rw [if_neg hbase, if_neg hbase]
      have hsize : (s.size - r.size).toNat = r.base - s.base := by
        rw [BitVec.toNat_sub]
        unfold base stop at *
        omega
      refine .before hr hfits ?_ hend rfl ?_
      · unfold base stop at *
        omega
      · show s.offset.toNat + (s.size - r.size).toNat = r.base
        rw [hsize]
        unfold base at *
        omega
    · rename_i hend
      rw [hr.stop_inj hs] at hend
      split
      · rename_i hstart
        have hsize : ¬ r.size > s.size := by
          rw [gt_iff_lt, BitVec.lt_def]
          unfold base stop at *
          rw [hstart] at *
          omega
        rw [if_neg hsize, if_neg hsize]
        have hstart' : r.base = s.base := congrArg BitVec.toNat hstart
        refine .behind hr hfits hstart' (by omega) hstop ?_
        unfold stop
        rw [hstop, BitVec.toNat_sub]
        unfold base stop at *
        omega
      · rename_i hstart
        have hstart' : s.base < r.base := by
          rw [← BitVec.toNat_inj] at hstart
          unfold base at *
          omega
        have hbase : ¬ r.offset < s.offset := by
          rw [BitVec.lt_def]
          exact Nat.not_lt.mpr hlow
        have hbase' : r.offset > s.offset := by
          rw [gt_iff_lt, BitVec.lt_def]
          exact hstart'
        have hmax₁ : r.offset + r.size - 1 < s.offset + s.size - 1 := by
          rw [BitVec.lt_def, hmax, hmax']
          omega
        have hmax₂ : ¬ r.offset + r.size - 1 > s.offset + s.size - 1 := by
          rw [gt_iff_lt, BitVec.lt_def, hmax, hmax']
          omega
        rw [if_neg hbase, if_pos hbase', if_pos hmax₁, if_neg hmax₂]
        refine .both hr hfits hstart' (by omega) rfl ?_ ?_ ?_
        · show s.offset.toNat + (r.offset - s.offset).toNat = r.base
          rw [BitVec.toNat_sub]
          unfold base at *
          omega
        · unfold base
          rw [BitVec.sub_add_cancel]
          exact hstop
        · unfold stop
          rw [BitVec.sub_add_cancel, hstop, BitVec.toNat_sub, hmax, hmax']
          unfold stop at *
          omega

end Region

open Region

/-- The bits of some regions. -/
def covers (rs : List Region) : Set Nat := {b | ∃ r ∈ rs, b ∈ r.bits}

/-- `clearRegion` for one region. -/
def clearRegion (r : Region) (source : List Region) : List Region := source.flatMap r.clear

/-- `clearRegion` for several regions, one after the other. -/
def clearRegions : List Region → List Region → List Region
  | [], temp => temp
  | r :: rs, temp =>
    let result := clearRegion r temp
    if result.length = 0 then result else clearRegions rs result

/-- The regions are taken out of a set of bits one after the other, and each lies within
what is left by the ones before, or misses it. -/
def TakesOut : List Region → Set Nat → Prop
  | [], _ => True
  | r :: rs, left => (r.bits ⊆ left ∨ Disjoint r.bits left) ∧ TakesOut rs (left \ r.bits)

/-- Regions with gaps between them. -/
structure Pieces (l : List Region) : Prop where
  proper : ∀ p ∈ l, p.Proper
  gaps : l.Pairwise Gap

@[simp] theorem covers_nil : covers [] = ∅ := by
  simp [covers]

@[simp] theorem covers_cons (r : Region) (rs : List Region) :
    covers (r :: rs) = r.bits ∪ covers rs := by
  ext b
  simp [covers]

@[simp] theorem covers_append (rs rs' : List Region) :
    covers (rs ++ rs') = covers rs ∪ covers rs' := by
  ext b
  simp [covers, or_and_right, exists_or]

theorem Pieces.gap {l : List Region} (h : Pieces l) {p q : Region} (hp : p ∈ l) (hq : q ∈ l)
    (hne : p ≠ q) : Gap p q :=
  h.gaps.forall hp hq hne

/-- A region within the pieces is within one of them. -/
theorem Pieces.one {l : List Region} (h : Pieces l) {r : Region} (hr : r.Proper)
    (hsub : r.bits ⊆ covers l) : ∃ p ∈ l, p.base ≤ r.base ∧ r.stop ≤ p.stop := by
  have hne := hr.nonempty
  obtain ⟨p, hp, hlow, hhigh⟩ := hsub (show r.base ∈ r.bits from ⟨Nat.le_refl _, hne⟩)
  refine ⟨p, hp, hlow, ?_⟩
  by_contra hout
  obtain ⟨q, hq, hqlow, hqhigh⟩ := hsub (show p.stop ∈ r.bits from ⟨by omega, by omega⟩)
  have hpq : p ≠ q := by
    intro heq
    rw [heq] at hqhigh
    exact Nat.lt_irrefl _ hqhigh
  rcases h.gap hp hq hpq with hgap | hgap <;> omega

theorem Pieces.fits {l : List Region} (h : Pieces l) {r : Region} (hr : r.Proper)
    (hcut : r.bits ⊆ covers l ∨ Disjoint r.bits (covers l)) {s : Region} (hs : s ∈ l) :
    (s.base ≤ r.base ∧ r.stop ≤ s.stop) ∨ (r.stop ≤ s.base ∨ s.stop ≤ r.base) := by
  have hne := hr.nonempty
  have hne' := (h.proper s hs).nonempty
  rcases hcut with hsub | hdisjoint
  · obtain ⟨p, hp, hlow, hhigh⟩ := h.one hr hsub
    by_cases hsp : s = p
    · rw [hsp]
      exact .inl ⟨hlow, hhigh⟩
    · rcases h.gap hs hp hsp with hgap | hgap
      · exact .inr (.inr (by omega))
      · exact .inr (.inl (by omega))
  · right
    by_contra hmeets
    -- the later one of the two first bits is in both
    have hboth : max r.base s.base ∈ r.bits ∧ max r.base s.base ∈ s.bits := by
      simp only [mem_bits]
      omega
    exact Set.disjoint_left.mp hdisjoint hboth.1 ⟨s, hs, hboth.2⟩

theorem Pieces.clear_rest {l : List Region} (h : Pieces l) {r : Region} (hr : r.Proper)
    (hcut : r.bits ⊆ covers l ∨ Disjoint r.bits (covers l)) {s : Region} (hs : s ∈ l) :
    Rest r s (r.clear s) := by
  rcases h.fits hr hcut hs with ⟨hlow, hhigh⟩ | hapart
  · exact clear_inside hr (h.proper s hs) hlow hhigh
  · rw [clear_apart hr (h.proper s hs) hapart]
    refine ⟨?_, ?_, ?_, List.pairwise_singleton _ _⟩
    · intro q hq
      rw [List.mem_singleton.mp hq]
      exact h.proper s hs
    · intro q hq
      rw [List.mem_singleton.mp hq]
      exact ⟨Nat.le_refl _, Nat.le_refl _⟩
    · intro b
      simp only [List.mem_singleton, exists_eq_left, mem_bits]
      omega

/-- Taking out one region leaves pieces of the bits outside it. -/
theorem Pieces.clearRegion {l : List Region} (h : Pieces l) {r : Region} (hr : r.Proper)
    (hcut : r.bits ⊆ covers l ∨ Disjoint r.bits (covers l)) :
    Pieces (clearRegion r l) ∧ covers (clearRegion r l) = covers l \ r.bits := by
  have hrest : ∀ s ∈ l, Rest r s (r.clear s) := fun s hs => h.clear_rest hr hcut hs
  refine ⟨⟨?_, ?_⟩, ?_⟩
  · intro q hq
    obtain ⟨s, hs, hq⟩ := List.mem_flatMap.mp hq
    exact (hrest s hs).proper q hq
  · refine List.pairwise_flatMap.mpr ⟨fun s hs => (hrest s hs).gaps, ?_⟩
    refine h.gaps.imp_of_mem ?_
    intro s t hs ht hgap p hp q hq
    have hp' := (hrest s hs).within p hp
    have hq' := (hrest t ht).within q hq
    rcases hgap with hgap | hgap
    · exact .inl (by omega)
    · exact .inr (by omega)
  · ext b
    constructor
    · intro hb
      obtain ⟨q, hq, hbq⟩ := hb
      obtain ⟨s, hs, hq⟩ := List.mem_flatMap.mp hq
      obtain ⟨hbs, hbr⟩ := ((hrest s hs).bits b).mp ⟨q, hq, hbq⟩
      exact ⟨⟨s, hs, hbs⟩, hbr⟩
    · intro hb
      obtain ⟨⟨s, hs, hbs⟩, hbr⟩ := hb
      obtain ⟨q, hq, hbq⟩ := ((hrest s hs).bits b).mpr ⟨hbs, hbr⟩
      exact ⟨q, List.mem_flatMap.mpr ⟨s, hs, hq⟩, hbq⟩

theorem clearRegions_nil (rs : List Region) : clearRegions rs [] = [] := by
  cases rs <;> rfl

/-- The early exit of the loop makes no difference. -/
theorem clearRegions_cons (r : Region) (rs temp : List Region) :
    clearRegions (r :: rs) temp = clearRegions rs (clearRegion r temp) := by
  simp only [clearRegions]
  split
  · rename_i hempty
    rw [List.length_eq_zero_iff.mp hempty, clearRegions_nil]
  · rfl

theorem Pieces.clearRegions {rs l : List Region} (hrs : ∀ r ∈ rs, r.Proper) (h : Pieces l)
    (hcut : TakesOut rs (covers l)) :
    Pieces (clearRegions rs l) ∧ covers (clearRegions rs l) = covers l \ covers rs := by
  induction rs generalizing l with
  | nil =>
    exact ⟨h, by simp [Encider.clearRegions]⟩
  | cons r rs ih =>
    obtain ⟨hone, hmore⟩ := hcut
    obtain ⟨hpieces, hcovers⟩ := h.clearRegion (hrs r List.mem_cons_self) hone
    rw [← hcovers] at hmore
    obtain ⟨hpieces', hcovers'⟩ := ih (fun q hq => hrs q (List.mem_cons_of_mem r hq)) hpieces hmore
    rw [clearRegions_cons]
    refine ⟨hpieces', ?_⟩
    rw [hcovers', hcovers, covers_cons]
    exact sdiff_sdiff_left

theorem clearRegions_append (rs l l' : List Region) :
    clearRegions rs (l ++ l') = clearRegions rs l ++ clearRegions rs l' := by
  induction rs generalizing l l' with
  | nil => rfl
  | cons r rs ih => rw [clearRegions_cons, clearRegion, List.flatMap_append, ih, clearRegions_cons,
      clearRegions_cons, clearRegion, clearRegion]

/-- The condition under which `clearRegion` takes the regions out of each region of the
list. -/
def ClearsCleanly (rs source : List Region) : Prop := ∀ s ∈ source, TakesOut rs s.bits

theorem clearRegions_covers {rs source : List Region} (hrs : ∀ r ∈ rs, r.Proper)
    (hsource : ∀ s ∈ source, s.Proper) (h : ClearsCleanly rs source) :
    (∀ q ∈ clearRegions rs source, q.Proper) ∧
      covers (clearRegions rs source) = covers source \ covers rs := by
  induction source with
  | nil =>
    rw [clearRegions_nil]
    exact ⟨by simp, by simp⟩
  | cons s source ih =>
    have hs : s.Proper := hsource s List.mem_cons_self
    have hone : Pieces [s] := ⟨by simpa using hs, List.pairwise_singleton _ _⟩
    have hcovers : covers [s] = s.bits := by simp
    obtain ⟨hpieces, hbits⟩ := hone.clearRegions hrs (hcovers ▸ h s List.mem_cons_self)
    obtain ⟨hproper, hmore⟩ := ih (fun q hq => hsource q (List.mem_cons_of_mem s hq))
      (fun q hq => h q (List.mem_cons_of_mem s hq))
    have hsplit : clearRegions rs (s :: source) = clearRegions rs [s] ++ clearRegions rs source :=
      clearRegions_append rs [s] source
    rw [hsplit]
    refine ⟨?_, ?_⟩
    · intro q hq
      rcases List.mem_append.mp hq with hq | hq
      · exact hpieces.proper q hq
      · exact hproper q hq
    · rw [covers_append, hbits, hmore, hcovers, covers_cons, Set.union_sdiff_distrib]

end Encider
