import Encider.Label.Coalesce

/-! `clearRegion` on any regions of some bits, at positions on either side of the first one. -/

namespace Encider

namespace Region

variable {r s : Region} {b : Int}

/-- The region has bits on both sides of the first position. -/
def Straddles (r : Region) : Prop := r.offset.toInt < 0 ∧ 0 < r.offset.toInt + r.size.toInt

/-- The sums of `int`s that `clearRegion` takes for two regions are defined; it takes none for equal
ones. -/
def SumsDefined (r s : Region) : Prop := r = s ∨ r.EndFits ∧ s.EndFits

/-- `clearRegion` takes `r` out of `s`. -/
def ClearsFrom (r s : Region) : Prop :=
  s = r ∨ r.EndFits ∧ s.EndFits ∧
    (Disjoint r.positions s.positions ∨ r.positions ⊆ s.positions ∧ ¬ s.Straddles)

theorem disjoint_iff (hr : 0 < r.size.toInt) (hs : 0 < s.size.toInt) :
    Disjoint r.positions s.positions ↔
      r.offset.toInt + r.size.toInt ≤ s.offset.toInt ∨
        s.offset.toInt + s.size.toInt ≤ r.offset.toInt := by
  rw [Set.disjoint_left]
  constructor
  · intro h
    by_contra hmeets
    -- the later one of the two first bits is in both
    apply h (a := max r.offset.toInt s.offset.toInt)
    · rw [mem_positions]
      omega
    · rw [mem_positions]
      omega
  · intro h b hb hb'
    rw [mem_positions] at hb hb'
    omega

theorem subset_iff (hr : 0 < r.size.toInt) : r.positions ⊆ s.positions ↔
    s.offset.toInt ≤ r.offset.toInt ∧
      r.offset.toInt + r.size.toInt ≤ s.offset.toInt + s.size.toInt := by
  constructor
  · intro h
    have hfirst := h (show r.offset.toInt ∈ r.positions from ⟨Int.le_refl _, by omega⟩)
    have hlast := h (show r.offset.toInt + r.size.toInt - 1 ∈ r.positions from
      ⟨by omega, by omega⟩)
    rw [mem_positions] at hfirst hlast
    omega
  · intro h b hb
    rw [mem_positions] at hb ⊢
    omega

/-- Regions with the same bits are the same. -/
theorem eq_of_positions (hr : 0 < r.size.toInt) (hs : 0 < s.size.toInt)
    (h : r.positions = s.positions) : r = s := by
  have hle := (subset_iff hr).mp h.subset
  have hge := (subset_iff hs).mp h.symm.subset
  have hoffset : r.offset = s.offset := BitVec.toInt_inj.mp (by omega)
  have hsize : r.size = s.size := BitVec.toInt_inj.mp (by omega)
  cases r
  cases s
  cases hoffset
  cases hsize
  rfl

/-- Some position lies between the two regions. -/
def Between (r s : Region) : Prop :=
  r.offset.toInt + r.size.toInt < s.offset.toInt ∨ s.offset.toInt + s.size.toInt < r.offset.toInt

/-- Regions of some bits, with positions between them, that have these bits together. -/
structure Leaves (l : List Region) (t : Set Int) : Prop where
  positive : ∀ p ∈ l, 0 < p.size.toInt
  between : l.Pairwise Between
  bits : positionsOf l = t

/-- What is left is one piece. -/
theorem one_piece {q : Region} {a c : Int} {t : Set Int} (ho : q.offset.toInt = a)
    (hz : q.size.toInt = c - a) (hac : a < c) (h : ∀ b, a ≤ b ∧ b < c ↔ b ∈ t) : Leaves [q] t := by
  refine ⟨?_, List.pairwise_singleton _ _, ?_⟩
  · intro p hp
    rw [List.mem_singleton.mp hp]
    omega
  · ext b
    rw [positionsOf_cons, positionsOf_nil, Set.union_empty, mem_positions, ho, hz, ← h]
    omega

/-- What is left is two pieces. -/
theorem two_pieces {q p : Region} {a c d e : Int} {t : Set Int} (ho : q.offset.toInt = a)
    (hz : q.size.toInt = c - a) (hac : a < c) (ho' : p.offset.toInt = d)
    (hz' : p.size.toInt = e - d) (hde : d < e)
    (hcd : c < d) (h : ∀ b, a ≤ b ∧ b < c ∨ d ≤ b ∧ b < e ↔ b ∈ t) : Leaves [q, p] t := by
  refine ⟨?_, List.pairwise_pair.mpr (.inl ?_), ?_⟩
  · intro x hx
    rcases List.mem_pair.mp hx with rfl | rfl
    · omega
    · omega
  · omega
  · ext b
    rw [positionsOf_cons, positionsOf_cons, positionsOf_nil, Set.union_empty, Set.mem_union,
      mem_positions, mem_positions, ho, hz, ho', hz', ← h]
    omega

theorem end_toInt (hr : 0 < r.size.toInt) (her : r.EndFits) :
    (r.offset + r.size).toInt = r.offset.toInt + r.size.toInt := by
  have hb := CInt.bounds r.offset
  exact CInt.toInt_add (by omega) her

theorem max_toInt (hr : 0 < r.size.toInt) (her : r.EndFits) :
    (r.offset + r.size - 1).toInt = r.offset.toInt + r.size.toInt - 1 := by
  have hb := CInt.bounds r.offset
  have hone : (1 : BitVec 32).toInt = 1 := by decide
  have hend := end_toInt hr her
  unfold EndFits at her
  rw [CInt.toInt_sub (by omega) (by omega), hend, hone]

/-- The test of `clearRegion`, on `unsigned`s, fails for a region that straddles the first
position. -/
theorem clear_meets (hr : 0 < r.size.toInt) (hs : 0 < s.size.toInt) (her : r.EndFits)
    (hes : s.EndFits) :
    rangesIntersect r.offset (r.offset + r.size - 1) s.offset (s.offset + s.size - 1) = true ↔
      ¬ Disjoint r.positions s.positions ∧ ¬ r.Straddles ∧ ¬ s.Straddles := by
  have hbr := CInt.bounds r.offset
  have hbs := CInt.bounds s.offset
  have hbr' := CInt.bounds r.size
  have hbs' := CInt.bounds s.size
  have hmaxr := max_toInt hr her
  have hmaxs := max_toInt hs hes
  unfold EndFits at her hes
  rw [rangesIntersect_iff, CInt.toNat_eq, CInt.toNat_eq, CInt.toNat_eq, CInt.toNat_eq, hmaxr,
    hmaxs, disjoint_iff hr hs]
  unfold Straddles
  split_ifs <;> omega

/-- Two regions whose ends fit, on the same side of the first position. -/
structure SameSide (r s : Region) : Prop where
  positive : 0 < r.size.toInt
  positive' : 0 < s.size.toInt
  fits : r.EndFits
  fits' : s.EndFits
  side : 0 ≤ r.offset.toInt ∧ 0 ≤ s.offset.toInt ∨
    r.offset.toInt + r.size.toInt ≤ 0 ∧ s.offset.toInt + s.size.toInt ≤ 0

theorem SameSide.symm (h : SameSide r s) : SameSide s r :=
  ⟨h.positive', h.positive, h.fits', h.fits, h.side.imp And.symm And.symm⟩

/-! On one side the `unsigned`s are ordered as the `int`s, and their differences are defined. -/

theorem SameSide.offset_lt (h : SameSide r s) :
    r.offset < s.offset ↔ r.offset.toInt < s.offset.toInt := by
  have hr := h.positive
  have hs := h.positive'
  have hside := h.side
  exact CInt.lt_iff_toInt (by omega)

theorem SameSide.size_lt (h : SameSide r s) : r.size < s.size ↔ r.size.toInt < s.size.toInt := by
  have hr := h.positive
  have hs := h.positive'
  exact CInt.lt_iff_toInt (by omega)

theorem SameSide.max_lt (h : SameSide r s) :
    r.offset + r.size - 1 < s.offset + s.size - 1 ↔
      r.offset.toInt + r.size.toInt < s.offset.toInt + s.size.toInt := by
  have hr := h.positive
  have hs := h.positive'
  have hside := h.side
  have hmax := max_toInt hr h.fits
  have hmax' := max_toInt hs h.fits'
  rw [CInt.lt_iff_toInt (by omega)]
  omega

theorem SameSide.end_eq (h : SameSide r s) : r.offset + r.size = s.offset + s.size ↔
    r.offset.toInt + r.size.toInt = s.offset.toInt + s.size.toInt := by
  rw [← BitVec.toInt_inj, end_toInt h.positive h.fits, end_toInt h.positive' h.fits']

theorem SameSide.size_sub (h : SameSide r s) :
    (r.size - s.size).toInt = r.size.toInt - s.size.toInt := by
  have hr := h.positive
  have hs := h.positive'
  have hb := CInt.bounds r.size
  have hb' := CInt.bounds s.size
  exact CInt.toInt_sub (by omega) (by omega)

theorem SameSide.offset_sub (h : SameSide r s) :
    (r.offset - s.offset).toInt = r.offset.toInt - s.offset.toInt := by
  have hr := h.positive
  have hs := h.positive'
  have hside := h.side
  have hb := CInt.bounds r.offset
  have hb' := CInt.bounds s.offset
  exact CInt.toInt_sub (by omega) (by omega)

theorem SameSide.max_sub (h : SameSide r s) :
    (r.offset + r.size - 1 - (s.offset + s.size - 1)).toInt =
      r.offset.toInt + r.size.toInt - (s.offset.toInt + s.size.toInt) := by
  have hr := h.positive
  have hs := h.positive'
  have hside := h.side
  have hb := CInt.bounds r.offset
  have hb' := CInt.bounds s.offset
  have hmax := max_toInt hr h.fits
  have hmax' := max_toInt hs h.fits'
  have hfits := h.fits
  have hfits' := h.fits'
  unfold EndFits at hfits hfits'
  rw [CInt.toInt_sub (by omega) (by omega)]
  omega

/-- The bits in one of two regions only. -/
def xor (r s : Region) : Set Int := r.positions \ s.positions ∪ s.positions \ r.positions

theorem mem_xor : b ∈ xor r s ↔
    (r.offset.toInt ≤ b ∧ b < r.offset.toInt + r.size.toInt ∧
      ¬ (s.offset.toInt ≤ b ∧ b < s.offset.toInt + s.size.toInt)) ∨
    (s.offset.toInt ≤ b ∧ b < s.offset.toInt + s.size.toInt ∧
      ¬ (r.offset.toInt ≤ b ∧ b < r.offset.toInt + r.size.toInt)) := by
  simp only [xor, Set.mem_union, Set.mem_sdiff, mem_positions, and_assoc]

/-- Two regions with the same end. -/
theorem SameSide.same_end (h : SameSide r s)
    (heq : r.offset.toInt + r.size.toInt = s.offset.toInt + s.size.toInt)
    (hlt : r.offset.toInt < s.offset.toInt) :
    Leaves [⟨r.offset, r.size - s.size⟩] (xor r s) := by
  have hsize := h.size_sub
  have hs := h.positive'
  apply one_piece (q := ⟨r.offset, r.size - s.size⟩) (a := r.offset.toInt) (c := s.offset.toInt) rfl
    (by dsimp only; omega) hlt
  intro b
  rw [mem_xor]
  omega

/-- Two regions with the same first bit. -/
theorem SameSide.same_start (h : SameSide r s) (heq : r.offset.toInt = s.offset.toInt)
    (hlt : s.size.toInt < r.size.toInt) :
    Leaves [⟨s.offset + s.size, r.size - s.size⟩] (xor r s) := by
  have hsize := h.size_sub
  have hs := h.positive'
  have hend := end_toInt h.positive' h.fits'
  apply one_piece (a := s.offset.toInt + s.size.toInt) (c := r.offset.toInt + r.size.toInt) hend
    (by dsimp only; omega) (by omega)
  intro b
  rw [mem_xor]
  omega

/-- Two regions that meet and end apart, the first of which begins before the second. -/
theorem SameSide.apart (h : SameSide r s) (hlt : r.offset.toInt < s.offset.toInt)
    (hmeets : s.offset.toInt < r.offset.toInt + r.size.toInt) {q : Region}
    (hends : q.offset = s.offset + s.size ∧ s.offset.toInt + s.size.toInt < r.offset.toInt +
        r.size.toInt ∧ q.size = r.offset + r.size - 1 - (s.offset + s.size - 1) ∨
      q.offset = r.offset + r.size ∧ r.offset.toInt + r.size.toInt < s.offset.toInt +
        s.size.toInt ∧ q.size = s.offset + s.size - 1 - (r.offset + r.size - 1)) :
    Leaves [⟨r.offset, s.offset - r.offset⟩, q] (xor r s) := by
  have hr := h.positive
  have hs := h.positive'
  have hsub := h.symm.offset_sub
  rcases hends with ⟨hoffset, hend, hsize⟩ | ⟨hoffset, hend, hsize⟩
  · apply two_pieces (q := ⟨r.offset, s.offset - r.offset⟩) (a := r.offset.toInt)
      (c := s.offset.toInt) (d := s.offset.toInt + s.size.toInt)
      (e := r.offset.toInt + r.size.toInt) rfl hsub hlt
    · rw [hoffset, end_toInt h.positive' h.fits']
    · rw [hsize, h.max_sub]
    · exact hend
    · omega
    · intro b
      rw [mem_xor]
      omega
  · apply two_pieces (q := ⟨r.offset, s.offset - r.offset⟩) (a := r.offset.toInt)
      (c := s.offset.toInt) (d := r.offset.toInt + r.size.toInt)
      (e := s.offset.toInt + s.size.toInt) rfl hsub hlt
    · rw [hoffset, end_toInt h.positive h.fits]
    · rw [hsize, h.symm.max_sub]
    · exact hend
    · omega
    · intro b
      rw [mem_xor]
      omega

theorem xor_comm (r s : Region) : xor r s = xor s r := Set.union_comm _ _

theorem xor_self (r : Region) : xor r r = ∅ := by
  simp [xor]

/-- Two regions that meet on one side leave what is in one of them only. -/
theorem SameSide.clear (h : SameSide r s) (hmeets : ¬ Disjoint r.positions s.positions) :
    Leaves (r.clear s) (xor r s) := by
  have hr := h.positive
  have hs := h.positive'
  have hside := h.side
  have hrange := (clear_meets hr hs h.fits h.fits').mpr
    ⟨hmeets, fun hstraddles => by unfold Straddles at hstraddles; omega,
      fun hstraddles => by unfold Straddles at hstraddles; omega⟩
  rw [disjoint_iff hr hs] at hmeets
  unfold Region.clear
  dsimp only
  rw [if_pos hrange]
  split
  · rename_i heq
    have hsame : r = s := by
      cases r
      cases s
      cases heq.1
      cases heq.2
      rfl
    rw [hsame, xor_self]
    exact ⟨by simp, List.Pairwise.nil, positionsOf_nil⟩
  · rename_i hne
    rw [← BitVec.toInt_inj, ← BitVec.toInt_inj] at hne
    split
    · rename_i hend
      rw [h.end_eq] at hend
      by_cases hlt : r.offset.toInt < s.offset.toInt
      · rw [if_pos (h.offset_lt.mpr hlt), if_pos (h.offset_lt.mpr hlt)]
        exact h.same_end hend hlt
      · rw [if_neg (h.offset_lt.not.mpr hlt), if_neg (h.offset_lt.not.mpr hlt), xor_comm]
        exact h.symm.same_end hend.symm (by omega)
    · rename_i hend
      rw [h.end_eq] at hend
      split
      · rename_i hstart
        have hstart' := congrArg BitVec.toInt hstart
        by_cases hlt : s.size.toInt < r.size.toInt
        · rw [if_pos (h.symm.size_lt.mpr hlt), if_pos (h.symm.size_lt.mpr hlt)]
          exact h.same_start hstart' hlt
        · rw [if_neg (h.symm.size_lt.not.mpr hlt), if_neg (h.symm.size_lt.not.mpr hlt),
            xor_comm]
          exact h.symm.same_start hstart'.symm (by omega)
      · rename_i hstart
        rw [← BitVec.toInt_inj] at hstart
        rw [BitVec.sub_add_cancel, BitVec.sub_add_cancel]
        by_cases hlt : r.offset.toInt < s.offset.toInt
        · have hge : ¬ s.offset < r.offset := h.symm.offset_lt.not.mpr (by omega)
          rw [if_pos (h.offset_lt.mpr hlt), if_neg hge]
          apply h.apart hlt (by omega)
          by_cases hmax : r.offset.toInt + r.size.toInt < s.offset.toInt + s.size.toInt
          · have hge : ¬ s.offset + s.size - 1 < r.offset + r.size - 1 :=
              h.symm.max_lt.not.mpr (by omega)
            exact .inr ⟨if_pos (h.max_lt.mpr hmax), hmax, if_neg hge⟩
          · exact .inl ⟨if_neg (h.max_lt.not.mpr hmax), by omega,
              if_pos (h.symm.max_lt.mpr (by omega))⟩
        · have hgt : s.offset < r.offset := h.symm.offset_lt.mpr (by omega)
          rw [if_neg (h.offset_lt.not.mpr hlt), if_pos hgt, xor_comm]
          apply h.symm.apart (by omega) (by omega)
          by_cases hmax : r.offset.toInt + r.size.toInt < s.offset.toInt + s.size.toInt
          · have hge : ¬ s.offset + s.size - 1 < r.offset + r.size - 1 :=
              h.symm.max_lt.not.mpr (by omega)
            exact .inl ⟨if_pos (h.max_lt.mpr hmax), hmax, if_neg hge⟩
          · exact .inr ⟨if_neg (h.max_lt.not.mpr hmax), by omega,
              if_pos (h.symm.max_lt.mpr (by omega))⟩

/-- Two different regions that are apart, or one of which straddles, are not found to meet. -/
theorem clear_stays (hr : 0 < r.size.toInt) (hs : 0 < s.size.toInt) (her : r.EndFits)
    (hes : s.EndFits) (hne : r ≠ s)
    (h : Disjoint r.positions s.positions ∨ r.Straddles ∨ s.Straddles) : r.clear s = [s] := by
  unfold Region.clear
  dsimp only
  rw [if_neg, if_neg]
  · rw [clear_meets hr hs her hes]
    tauto
  · intro heq
    apply hne
    cases r
    cases s
    cases heq.1
    cases heq.2
    rfl

theorem clear_self (r : Region) : r.clear r = [] := if_pos ⟨rfl, rfl⟩

theorem Leaves.singleton (hs : 0 < s.size.toInt) : Leaves [s] s.positions := by
  refine ⟨?_, List.pairwise_singleton _ _, by simp⟩
  intro p hp
  rw [List.mem_singleton.mp hp]
  exact hs

theorem SameSide.of_meets (hr : 0 < r.size.toInt) (hs : 0 < s.size.toInt) (her : r.EndFits)
    (hes : s.EndFits) (hmeets : ¬ Disjoint r.positions s.positions) (hsr : ¬ r.Straddles)
    (hss : ¬ s.Straddles) : SameSide r s := by
  rw [disjoint_iff hr hs] at hmeets
  unfold Straddles at hsr hss
  exact ⟨hr, hs, her, hes, by omega⟩

theorem ClearsFrom.leaves (hr : 0 < r.size.toInt) (hs : 0 < s.size.toInt) (h : r.ClearsFrom s) :
    Leaves (r.clear s) (s.positions \ r.positions) := by
  rcases h with rfl | ⟨her, hes, hdisjoint | ⟨hsub, hss⟩⟩
  · rw [clear_self, Set.sdiff_self]
    exact ⟨by simp, List.Pairwise.nil, positionsOf_nil⟩
  · have hne : r ≠ s := by
      intro heq
      rw [heq, disjoint_iff hs hs] at hdisjoint
      omega
    rw [clear_stays hr hs her hes hne (.inl hdisjoint), hdisjoint.symm.sdiff_eq_left]
    exact .singleton hs
  · have hsub' := (subset_iff hr).mp hsub
    have hmeets : ¬ Disjoint r.positions s.positions := by
      rw [disjoint_iff hr hs]
      omega
    have hsr : ¬ r.Straddles := by
      unfold Straddles at hss ⊢
      omega
    have hleaves := (SameSide.of_meets hr hs her hes hmeets hsr hss).clear hmeets
    rwa [xor, Set.sdiff_eq_empty.mpr hsub, Set.empty_union] at hleaves

/-- Elsewhere a bit of the region is left. -/
theorem clear_wrong (hr : 0 < r.size.toInt) (hs : 0 < s.size.toInt) (hsums : r.SumsDefined s)
    (h : ¬ r.ClearsFrom s) : ∃ b ∈ positionsOf (r.clear s), b ∈ r.positions := by
  have hne : r ≠ s := fun heq => h (.inl heq.symm)
  obtain ⟨her, hes⟩ := hsums.resolve_left hne
  have hmeets : ¬ Disjoint r.positions s.positions := fun hd => h (.inr ⟨her, hes, .inl hd⟩)
  by_cases hstraddles : r.Straddles ∨ s.Straddles
  · rw [clear_stays hr hs her hes hne (.inr hstraddles)]
    obtain ⟨b, hbr, hbs⟩ := Set.not_disjoint_iff.mp hmeets
    exact ⟨b, ⟨s, List.mem_singleton_self s, hbs⟩, hbr⟩
  · rw [not_or] at hstraddles
    have hsub : ¬ r.positions ⊆ s.positions :=
      fun hsub => h (.inr ⟨her, hes, .inr ⟨hsub, hstraddles.2⟩⟩)
    obtain ⟨b, hbr, hbs⟩ := Set.not_subset.mp hsub
    have hleaves := (SameSide.of_meets hr hs her hes hmeets hstraddles.1 hstraddles.2).clear hmeets
    rw [hleaves.bits]
    exact ⟨b, .inl ⟨hbr, hbs⟩, hbr⟩

end Region

open Region

variable {r : Region} {rs source : List Region}

/-- `clearRegion` takes exactly the bits of `r` out of the regions, by sums that are defined. -/
structure Clears (r : Region) (source : List Region) : Prop where
  sums : ∀ s ∈ source, r.SumsDefined s
  bits : positionsOf (clearRegion r source) = positionsOf source \ r.positions

theorem positionsOf_clearRegion (r : Region) (source : List Region) (b : Int) :
    b ∈ positionsOf (clearRegion r source) ↔ ∃ s ∈ source, b ∈ positionsOf (r.clear s) := by
  unfold clearRegion positionsOf
  simp only [List.mem_flatMap, Set.mem_ofPred_eq]
  constructor
  · intro h
    obtain ⟨q, ⟨s, hs, hq⟩, hb⟩ := h
    exact ⟨s, hs, q, hq, hb⟩
  · intro h
    obtain ⟨s, hs, q, hq, hb⟩ := h
    exact ⟨q, ⟨s, hs, hq⟩, hb⟩

theorem Region.ClearsFrom.sums {s : Region} (h : r.ClearsFrom s) : r.SumsDefined s :=
  h.imp Eq.symm fun h => ⟨h.1, h.2.1⟩

/-- Exactly where it takes the region out of each of them. -/
theorem clears_iff (hr : 0 < r.size.toInt) (hs : ∀ s ∈ source, 0 < s.size.toInt) :
    Clears r source ↔ ∀ s ∈ source, r.ClearsFrom s := by
  constructor
  · intro h s hmem
    by_contra hwrong
    obtain ⟨b, hb, hbr⟩ := clear_wrong hr (hs s hmem) (h.sums s hmem) hwrong
    have hb := (positionsOf_clearRegion r source b).mpr ⟨s, hmem, hb⟩
    rw [h.bits] at hb
    exact hb.2 hbr
  · intro h
    refine ⟨fun s hmem => (h s hmem).sums, ?_⟩
    ext b
    rw [positionsOf_clearRegion]
    constructor
    · intro hb
      obtain ⟨s, hmem, hb⟩ := hb
      rw [((h s hmem).leaves hr (hs s hmem)).bits] at hb
      exact ⟨⟨s, hmem, hb.1⟩, hb.2⟩
    · intro hb
      obtain ⟨⟨s, hmem, hbs⟩, hbr⟩ := hb
      refine ⟨s, hmem, ?_⟩
      rw [((h s hmem).leaves hr (hs s hmem)).bits]
      exact ⟨hbs, hbr⟩

theorem clearRegion_positive (hr : 0 < r.size.toInt) (hs : ∀ s ∈ source, 0 < s.size.toInt)
    (h : ∀ s ∈ source, r.ClearsFrom s) : ∀ q ∈ clearRegion r source, 0 < q.size.toInt := by
  intro q hq
  obtain ⟨s, hmem, hq⟩ := List.mem_flatMap.mp hq
  exact ((h s hmem).leaves hr (hs s hmem)).positive q hq

/-- The sums of all rounds are defined. -/
def SumsDefinedAll : List Region → List Region → Prop
  | [], _ => True
  | r :: rs, temp => (∀ s ∈ temp, r.SumsDefined s) ∧ SumsDefinedAll rs (clearRegion r temp)

/-- `clearRegion` for several regions takes exactly their bits out. -/
structure ClearsAll (rs source : List Region) : Prop where
  sums : SumsDefinedAll rs source
  bits : positionsOf (clearRegions rs source) = positionsOf source \ positionsOf rs

/-- Each round takes its region out of the regions there are. -/
def StepsClear : List Region → List Region → Prop
  | [], _ => True
  | r :: rs, temp => (∀ s ∈ temp, r.ClearsFrom s) ∧ StepsClear rs (clearRegion r temp)

theorem StepsClear.clearsAll (hr : ∀ r ∈ rs, 0 < r.size.toInt)
    (hs : ∀ s ∈ source, 0 < s.size.toInt) (h : StepsClear rs source) : ClearsAll rs source := by
  induction rs generalizing source with
  | nil => exact ⟨trivial, by simp [clearRegions]⟩
  | cons r rs ih =>
    have hpos := hr r List.mem_cons_self
    have hone := (clears_iff hpos hs).mpr h.1
    have hmore := ih (fun q hq => hr q (List.mem_cons_of_mem r hq))
      (clearRegion_positive hpos hs h.1) h.2
    refine ⟨⟨hone.sums, hmore.sums⟩, ?_⟩
    rw [clearRegions_cons, hmore.bits, hone.bits, positionsOf_cons, sdiff_sdiff_left]
    rfl

theorem StepsClear.take (h : StepsClear rs source) (n : Nat) : StepsClear (rs.take n) source := by
  induction rs generalizing source n with
  | nil =>
    rw [List.take_nil]
    exact h
  | cons r rs ih =>
    cases n with
    | zero => exact trivial
    | succ n => exact ⟨h.1, ih h.2 n⟩

/-- Every list that the regions begin with is taken out exactly where each round takes out its
region. -/
theorem clearsAll_take_iff (hr : ∀ r ∈ rs, 0 < r.size.toInt)
    (hs : ∀ s ∈ source, 0 < s.size.toInt) :
    (∀ n, ClearsAll (rs.take n) source) ↔ StepsClear rs source := by
  constructor
  · intro h
    induction rs generalizing source with
    | nil => exact trivial
    | cons r rs ih =>
      have hpos := hr r List.mem_cons_self
      have hone : Clears r source := by
        refine ⟨(h 1).sums.1, ?_⟩
        have hbits := (h 1).bits
        rw [List.take_succ_cons, List.take_zero, clearRegions_cons, positionsOf_cons,
          positionsOf_nil, Set.union_empty] at hbits
        exact hbits
      have hfrom := (clears_iff hpos hs).mp hone
      refine ⟨hfrom, ih (fun q hq => hr q (List.mem_cons_of_mem r hq))
        (clearRegion_positive hpos hs hfrom) ?_⟩
      intro n
      have hnext := h (n + 1)
      rw [List.take_succ_cons] at hnext
      refine ⟨hnext.sums.2, ?_⟩
      have hbits := hnext.bits
      rw [clearRegions_cons, positionsOf_cons] at hbits
      rw [hbits, hone.bits, sdiff_sdiff_left]
      rfl
  · intro h n
    exact (h.take n).clearsAll (fun r hmem => hr r (List.mem_of_mem_take hmem)) hs

/-- The region can be taken out of what is left of another one: it misses that, is all of it, or
lies in it, and then no bits are left around the first position. -/
def CanTake (r : Region) (left : Set Int) : Prop :=
  left = ∅ ∨ left = r.positions ∨ r.EndFits ∧ (∀ b ∈ left, b < 2147483647) ∧
    (Disjoint r.positions left ∨ r.positions ⊆ left ∧ ¬ (-1 ∈ left ∧ 0 ∈ left))

/-- Each region can be taken out of what those before it leave. -/
def CanTakeAll : List Region → Set Int → Prop
  | [], _ => True
  | r :: rs, left => CanTake r left ∧ CanTakeAll rs (left \ r.positions)

/-- What the rounds leave of one region. A region that straddles the first position, or does not
fit, is never cut. -/
structure Remains (l : List Region) : Prop where
  positive : ∀ p ∈ l, 0 < p.size.toInt
  between : l.Pairwise Between
  whole : ∀ p ∈ l, p.Straddles ∨ ¬ p.EndFits → l = [p]

namespace Remains

variable {l : List Region}

theorem apart (h : Remains l) {p q : Region} (hp : p ∈ l) (hq : q ∈ l) (hne : p ≠ q) :
    Between p q :=
  have : Std.Symm Between := ⟨fun _ _ h => Or.symm h⟩
  h.between.forall hp hq hne

/-- A region within the remains lies within one of them. -/
theorem one (h : Remains l) (hr : 0 < r.size.toInt) (hsub : r.positions ⊆ positionsOf l) :
    ∃ p ∈ l, r.positions ⊆ p.positions := by
  obtain ⟨p, hp, hb⟩ := hsub (show r.offset.toInt ∈ r.positions from ⟨Int.le_refl _, by omega⟩)
  refine ⟨p, hp, ?_⟩
  rw [mem_positions] at hb
  rw [subset_iff hr]
  by_contra hout
  -- the first position behind the piece is in another one
  obtain ⟨q, hq, hb'⟩ := hsub
    (show p.offset.toInt + p.size.toInt ∈ r.positions from ⟨by omega, by omega⟩)
  rw [mem_positions] at hb'
  have hne : p ≠ q := by
    intro heq
    subst heq
    omega
  rcases h.apart hp hq hne with hgap | hgap
  · omega
  · omega

/-- Some piece is another one than the region. -/
theorem exists_ne (h : Remains l) (hnil : l ≠ []) (hwhole : l ≠ [r]) : ∃ q ∈ l, q ≠ r := by
  by_contra hnone
  push Not at hnone
  cases l with
  | nil => exact hnil rfl
  | cons p l =>
    have hpos := h.positive p List.mem_cons_self
    obtain rfl := hnone p List.mem_cons_self
    cases l with
    | nil => exact hwhole rfl
    | cons q l =>
      have heq := hnone q (List.mem_cons_of_mem p List.mem_cons_self)
      subst heq
      have hgap := List.rel_of_pairwise_cons h.between List.mem_cons_self
      unfold Between at hgap
      omega

/-- No remains lie on both sides of zero where the region is cut out of a piece. -/
theorem not_around (h : Remains l) (hall : ∀ p ∈ l, r.ClearsFrom p) (hwhole : l ≠ [r])
    {x : Region} (hx : x ∈ l) (hmeets : ¬ Disjoint r.positions x.positions) :
    ¬ (-1 ∈ positionsOf l ∧ 0 ∈ positionsOf l) := by
  intro haround
  obtain ⟨⟨y, hy, hneg⟩, ⟨z, hz, hzero⟩⟩ := haround
  rw [mem_positions] at hneg hzero
  by_cases hyz : y = z
  · subst hyz
    have hstraddles : y.Straddles := ⟨by omega, by omega⟩
    have hlist := h.whole y hy (.inl hstraddles)
    obtain rfl : x = y := by
      rw [hlist] at hx
      exact List.mem_singleton.mp hx
    rcases hall x hx with hxr | ⟨_, _, hx⟩
    · exact hwhole (hxr ▸ hlist)
    · exact (hx.resolve_left hmeets).2 hstraddles
  · rcases h.apart hy hz hyz with hgap | hgap
    · omega
    · omega

theorem canTake (h : Remains l) (hall : ∀ p ∈ l, r.ClearsFrom p) : CanTake r (positionsOf l) := by
  by_cases hnil : l = []
  · rw [hnil]
    exact .inl positionsOf_nil
  by_cases hwhole : l = [r]
  · refine .inr (.inl ?_)
    rw [hwhole, positionsOf_cons, positionsOf_nil, Set.union_empty]
  obtain ⟨q, hq, hne⟩ := h.exists_ne hnil hwhole
  have her := ((hall q hq).resolve_left hne).1
  have hfits : ∀ x ∈ l, x.EndFits := by
    intro x hx
    rcases hall x hx with rfl | hx
    · exact her
    · exact hx.2.1
  refine .inr (.inr ⟨her, ?_, ?_⟩)
  · intro b hb
    obtain ⟨x, hx, hb⟩ := hb
    have hend := hfits x hx
    unfold EndFits at hend
    rw [mem_positions] at hb
    omega
  · by_cases hin : ∃ x ∈ l, ¬ Disjoint r.positions x.positions
    · right
      obtain ⟨x, hx, hmeets⟩ := hin
      have hsub : r.positions ⊆ x.positions := by
        rcases hall x hx with rfl | ⟨_, _, hx⟩
        · exact subset_refl _
        · exact (hx.resolve_left hmeets).1
      exact ⟨hsub.trans (positionsOf_mono hx), h.not_around hall hwhole hx hmeets⟩
    · left
      push Not at hin
      rw [Set.disjoint_right]
      intro b hb hbr
      obtain ⟨x, hx, hb⟩ := hb
      exact Set.disjoint_left.mp (hin x hx) hbr hb

/-- A piece with just the positions of all the remains. -/
theorem eq_of_same (h : Remains l) (hr : 0 < r.size.toInt) (hsame : positionsOf l = r.positions)
    {p : Region} (hp : p ∈ l) : p = r := by
  have hpos := h.positive p hp
  obtain ⟨q, hq, hsub⟩ := h.one hr hsame.symm.subset
  have hpq : p = q := by
    by_contra hne
    have hsub' := (subset_iff hpos).mp (hsame ▸ positionsOf_mono hp : p.positions ⊆ r.positions)
    rw [subset_iff hr] at hsub
    rcases h.apart hp hq hne with hgap | hgap
    · omega
    · omega
  subst hpq
  exact eq_of_positions hpos hr ((hsame ▸ positionsOf_mono hp).antisymm hsub)

theorem clearsFrom (h : Remains l) (hr : 0 < r.size.toInt) (htake : CanTake r (positionsOf l))
    {p : Region} (hp : p ∈ l) : r.ClearsFrom p := by
  have hpos := h.positive p hp
  rcases htake with hempty | hsame | ⟨her, hfits, htake⟩
  · have hb : p.offset.toInt ∈ positionsOf l := positionsOf_mono hp ⟨Int.le_refl _, by omega⟩
    rw [hempty] at hb
    contradiction
  · exact .inl (h.eq_of_same hr hsame hp)
  · right
    have hend : p.EndFits := by
      have := hfits _ (positionsOf_mono hp
        (show p.offset.toInt + p.size.toInt - 1 ∈ p.positions from ⟨by omega, by omega⟩))
      unfold EndFits
      omega
    refine ⟨her, hend, ?_⟩
    rcases htake with hdisjoint | ⟨hsub, haround⟩
    · left
      rw [Set.disjoint_right] at hdisjoint ⊢
      intro b hb
      exact hdisjoint (positionsOf_mono hp hb)
    · obtain ⟨q, hq, hsub⟩ := h.one hr hsub
      by_cases hpq : p = q
      · subst hpq
        refine .inr ⟨hsub, ?_⟩
        intro hstraddles
        unfold Straddles at hstraddles
        exact haround ⟨positionsOf_mono hp ⟨by omega, by omega⟩,
          positionsOf_mono hp ⟨by omega, by omega⟩⟩
      · left
        rw [disjoint_iff hr hpos]
        rw [subset_iff hr] at hsub
        rcases h.apart hp hq hpq with hgap | hgap
        · omega
        · omega

theorem canTake_iff (h : Remains l) (hr : 0 < r.size.toInt) :
    (∀ p ∈ l, r.ClearsFrom p) ↔ CanTake r (positionsOf l) :=
  ⟨h.canTake, fun htake _ hp => h.clearsFrom hr htake hp⟩

theorem clearRegion (h : Remains l) (hr : 0 < r.size.toInt) (hall : ∀ p ∈ l, r.ClearsFrom p) :
    Remains (clearRegion r l) := by
  have hleaves := fun p hp => (hall p hp).leaves hr (h.positive p hp)
  have hwithin : ∀ p ∈ l, ∀ q ∈ r.clear p, q.positions ⊆ p.positions := by
    intro p hp q hq
    have hsub := positionsOf_mono hq
    rw [(hleaves p hp).bits] at hsub
    exact hsub.trans Set.sdiff_subset
  refine ⟨clearRegion_positive hr h.positive hall, ?_, ?_⟩
  · refine List.pairwise_flatMap.mpr ⟨fun p hp => (hleaves p hp).between, ?_⟩
    refine h.between.imp_of_mem ?_
    intro p q hp hq hgap x hx y hy
    have hx' := (subset_iff ((hleaves p hp).positive x hx)).mp (hwithin p hp x hx)
    have hy' := (subset_iff ((hleaves q hq).positive y hy)).mp (hwithin q hq y hy)
    unfold Between at hgap ⊢
    omega
  · intro q hq hodd
    obtain ⟨p, hp, hq⟩ := List.mem_flatMap.mp hq
    have hsub := (subset_iff ((hleaves p hp).positive q hq)).mp (hwithin p hp q hq)
    have hodd' : p.Straddles ∨ ¬ p.EndFits := by
      unfold Straddles EndFits at *
      omega
    have hlist := h.whole p hp hodd'
    have hstays : r.clear p = [p] := by
      rcases hall p hp with rfl | ⟨her, hes, hcut⟩
      · rw [clear_self] at hq
        contradiction
      · have hstraddles : p.Straddles := hodd'.resolve_right (not_not_intro hes)
        have hdisjoint := hcut.resolve_right fun hcut => hcut.2 hstraddles
        apply clear_stays hr (h.positive p hp) her hes _ (.inl hdisjoint)
        intro heq
        rw [heq, disjoint_iff (h.positive p hp) (h.positive p hp)] at hdisjoint
        have := h.positive p hp
        omega
    rw [hstays] at hq
    obtain rfl := List.mem_singleton.mp hq
    rw [hlist, Encider.clearRegion, List.flatMap_cons, List.flatMap_nil, List.append_nil, hstays]

theorem stepsClear_iff (h : Remains l) (hr : ∀ r ∈ rs, 0 < r.size.toInt) :
    StepsClear rs l ↔ CanTakeAll rs (positionsOf l) := by
  induction rs generalizing l with
  | nil => exact Iff.rfl
  | cons r rs ih =>
    have hpos := hr r List.mem_cons_self
    unfold StepsClear CanTakeAll
    rw [h.canTake_iff hpos]
    refine and_congr_right fun htake => ?_
    have hall := (h.canTake_iff hpos).mpr htake
    have hbits := ((clears_iff hpos h.positive).mpr hall).bits
    rw [ih (h.clearRegion hpos hall) fun q hq => hr q (List.mem_cons_of_mem r hq), hbits]

theorem singleton {s : Region} (hs : 0 < s.size.toInt) : Remains [s] := by
  refine ⟨?_, List.pairwise_singleton _ _, ?_⟩
  · intro p hp
    rw [List.mem_singleton.mp hp]
    exact hs
  · intro p hp _
    rw [List.mem_singleton.mp hp]

end Remains

/-- The rounds treat the regions apart from each other. -/
theorem stepsClear_each (rs source : List Region) :
    StepsClear rs source ↔ ∀ s ∈ source, StepsClear rs [s] := by
  induction rs generalizing source with
  | nil => simp [StepsClear]
  | cons r rs ih =>
    unfold StepsClear
    rw [ih (clearRegion r source)]
    have heach : ∀ s, StepsClear rs (clearRegion r [s]) ↔ ∀ q ∈ r.clear s, StepsClear rs [q] := by
      intro s
      rw [ih (clearRegion r [s])]
      unfold clearRegion
      rw [List.flatMap_cons, List.flatMap_nil, List.append_nil]
    simp only [heach, List.mem_singleton, forall_eq]
    unfold clearRegion
    simp only [List.mem_flatMap]
    constructor
    · intro h s hs
      exact ⟨h.1 s hs, fun q hq => h.2 q ⟨s, hs, hq⟩⟩
    · intro h
      refine ⟨fun s hs => (h s hs).1, ?_⟩
      intro q hq
      obtain ⟨s, hs, hq⟩ := hq
      exact (h s hs).2 q hq

/-- `clearRegion` is right for one region exactly where this lies in each of the others or misses
it, and for a list of regions, and every list it begins with, exactly where each of them can be
taken out of what those before it leave. -/
theorem clearRegion_exact (source : List Region) (hs : ∀ s ∈ source, 0 < s.size.toInt) :
    (∀ r, 0 < r.size.toInt → (Clears r source ↔ ∀ s ∈ source, r.ClearsFrom s)) ∧
      ∀ rs, (∀ r ∈ rs, 0 < r.size.toInt) →
        ((∀ n, ClearsAll (rs.take n) source) ↔ ∀ s ∈ source, CanTakeAll rs s.positions) := by
  refine ⟨fun r hr => clears_iff hr hs, ?_⟩
  intro rs hr
  rw [clearsAll_take_iff hr hs, stepsClear_each]
  refine forall_congr' fun s => forall_congr' fun hmem => ?_
  rw [(Remains.singleton (hs s hmem)).stepsClear_iff hr, positionsOf_cons, positionsOf_nil,
    Set.union_empty]

/-- The second byte is taken out of a word. -/
theorem clearRegion_exact_byte : Clears ⟨8, 8⟩ [⟨0, 32⟩] := by
  obtain ⟨hone, _⟩ := clearRegion_exact [⟨0, 32⟩] (by decide)
  refine (hone ⟨8, 8⟩ (by decide)).mpr ?_
  intro s hs
  rw [List.mem_singleton.mp hs]
  have hsub : positions ⟨8, 8⟩ ⊆ positions ⟨0, 32⟩ := (subset_iff (by decide)).mpr (by decide)
  refine .inr ⟨by unfold EndFits; decide, by unfold EndFits; decide, .inr ⟨hsub, ?_⟩⟩
  unfold Straddles
  decide

/-- A word is not taken out of its second byte: the rest of the word is added. -/
theorem clearRegion_adds : ¬ Clears ⟨0, 32⟩ [⟨8, 8⟩] := by
  intro h
  have hadded : clearRegion ⟨0, 32⟩ [⟨8, 8⟩] = [⟨0, 8⟩, ⟨16, 16⟩] := by decide
  have hbit : (0 : Int) ∈ positionsOf (clearRegion ⟨0, 32⟩ [⟨8, 8⟩]) := by
    rw [hadded]
    exact ⟨_, List.mem_cons_self, by rw [mem_positions]; decide⟩
  rw [h.bits] at hbit
  exact hbit.2 (by rw [mem_positions]; decide)

end Encider
