import Encider.Label.Extract
import Encider.State.ProgModel

/-! `getHighInfoFlowRegions`: what the rules of a function make of the sensitive bits of its
arguments. -/

namespace Encider

open Region

/-- `infoflowsource_t`. -/
structure InfoFlowSource where
  argno : Nat
  ifregion : Region

/-- The rules of a function: its target regions, each with its sources. -/
abbrev InfoFlowRules := List (Region × List InfoFlowSource)

section

variable (isInSymRegion : String → Expr → Width → Bool) (args : List (Option Expr))

/-- One source of a target; an argument may be null, and has to be there. -/
def addSource (target : Region) (rs : List Region) (ifs : InfoFlowSource) :
    Option (List Region) := do
  match ← args[ifs.argno]? with
  | none => return rs
  | some argp =>
    let r1 ← extractRegion isInSymRegion ifs.ifregion false true argp
    if r1.2.isEmpty then return rs
    else
      let r2 ← ifs.ifregion.intersectAll r1.2 []
      let value ← CInt.sub target.offset ifs.ifregion.offset
      let r2 := moveOffset r2 value
      if r2.isEmpty then return rs
      else if rs.isEmpty then return r2
      else mergeAndCoalesceAll r2 rs []

def addSources (rs : List Region) (fme : Region × List InfoFlowSource) : Option (List Region) :=
  fme.2.foldlM (addSource isInSymRegion args fme.1) rs

def getHighInfoFlowRegions (infoFlowRules : StdMap String InfoFlowRules) (fname : String) :
    Option (List Region) :=
  match infoFlowRules fname with
  | none => some []
  | some fm => fm.foldlM (addSources isInSymRegion args) []

/-- The regions that `extractRegion` reports for a source. -/
def Reported (ifs : InfoFlowSource) (rs : List Region) : Prop :=
  ∃ argp, args[ifs.argno]? = some (some argp) ∧
    ∃ n, extractRegion isInSymRegion ifs.ifregion false true argp = some (n, rs)

/-- A source takes the bit `t` of a target from a bit with the property. -/
def Carries (high : List Region → Set Int) (target : Region) (ifs : InfoFlowSource) : Set Int :=
  {t | ∃ rs, Reported isInSymRegion args ifs rs ∧
    t - target.offset.toInt + ifs.ifregion.offset.toInt ∈ ifs.ifregion.positions ∩ high rs}

end

theorem Placed.positions {rs : List Region} (h : Placed rs) : positionsOf rs ⊆ {b | 0 ≤ b} := by
  intro b hb
  obtain ⟨r, hr, hb⟩ := hb
  have := (h r hr).1
  rw [mem_positions] at hb
  show 0 ≤ b
  omega

theorem placed_of_positions {rs : List Region} (h : ∀ r ∈ rs, r.OneSided)
    (hpos : positionsOf rs ⊆ {b | 0 ≤ b}) : Placed rs := by
  intro r hr
  have hpositive := (h r hr).positive
  have hfirst : r.offset.toInt ∈ r.positions := mem_positions.mpr ⟨Int.le_refl _, by omega⟩
  exact ⟨hpos (positionsOf_mono hr hfirst), hpositive⟩

theorem endFits_of_positions {r : Region} (h : 0 < r.size.toInt)
    (hbound : r.positions ⊆ {b | b < 2147483647}) : r.EndFits := by
  have hlast : r.offset.toInt + r.size.toInt - 1 ∈ r.positions :=
    mem_positions.mpr ⟨by omega, by omega⟩
  have : r.offset.toInt + r.size.toInt - 1 < 2147483647 := hbound hlast
  unfold EndFits
  omega

/-- A source and its target are regions of bits, and the source has room behind the first bit of the
target. -/
structure RulePlaced (target : Region) (ifs : InfoFlowSource) : Prop where
  low : 0 ≤ target.offset.toInt
  bits : ifs.ifregion.Bits
  fits : target.offset.toInt + ifs.ifregion.size.toInt < 2147483648

/-- All that is computed for a source is defined. -/
structure SourceDefined (isInSymRegion : String → Expr → Width → Bool) (args : List (Option Expr))
    (ifs : InfoFlowSource) : Prop where
  argument : ifs.argno < args.length
  extracted : ∀ argp, args[ifs.argno]? = some (some argp) → ∃ r1,
    extractRegion isInSymRegion ifs.ifregion false true argp = some r1 ∧ ∀ q ∈ r1.2, q.last ≠ none

section

variable {isInSymRegion : String → Expr → Width → Bool} {args : List (Option Expr)}
  {target : Region} {ifs : InfoFlowSource} {rs rs' : List Region}

/-- A source adds the bits it carries, read as `intersect` reads them. -/
theorem addSource_spec (hrule : RulePlaced target ifs) (hrs : Placed rs)
    (h : addSource isInSymRegion args target rs ifs = some rs') : Placed rs' ∧
      positionsOf rs' =
        positionsOf rs ∪ Carries isInSymRegion args unsignedPositionsOf target ifs := by
  unfold addSource at h
  obtain ⟨arg, harg, h⟩ := Option.bind_eq_some_iff.mp h
  cases arg with
  | none =>
    cases h
    refine ⟨hrs, ?_⟩
    have hnothing : Carries isInSymRegion args unsignedPositionsOf target ifs = ∅ := by
      ext t
      simp [Carries, Reported, harg]
    rw [hnothing, Set.union_empty]
  | some argp =>
    obtain ⟨⟨n, r1⟩, hr1, h⟩ := Option.bind_eq_some_iff.mp h
    have hcarries : Carries isInSymRegion args unsignedPositionsOf target ifs =
        {t | t - target.offset.toInt + ifs.ifregion.offset.toInt ∈
          ifs.ifregion.positions ∩ unsignedPositionsOf r1} := by
      ext t
      simp [Carries, Reported, harg, hr1]
    rw [hcarries]
    dsimp only at h
    split at h
    · rename_i hempty
      cases h
      refine ⟨hrs, ?_⟩
      rw [List.isEmpty_iff.mp hempty]
      simp [unsignedPositionsOf]
    · obtain ⟨r2, hr2, h⟩ := Option.bind_eq_some_iff.mp h
      obtain ⟨value, hvalue, h⟩ := Option.bind_eq_some_iff.mp h
      rw [CInt.sub_some hrule.low hrule.bits.low, Option.some.injEq] at hvalue
      subst hvalue
      obtain ⟨hbits, hinside⟩ := intersectAll_spec hrule.bits hr2
      rw [positionsOf_nil, Set.empty_union] at hbits
      obtain ⟨hmoved, hplaced⟩ := moveOffset_spec hrule.low hrule.bits hrule.fits
        fun r hr => (hinside r hr).resolve_left List.not_mem_nil
      rw [hbits] at hmoved
      rw [← hmoved]
      split at h
      · rename_i hempty
        cases h
        refine ⟨hrs, ?_⟩
        rw [List.isEmpty_iff.mp hempty, positionsOf_nil, Set.union_empty]
      · split at h
        · rename_i hempty
          cases h
          refine ⟨hplaced, ?_⟩
          rw [List.isEmpty_iff.mp hempty, positionsOf_nil, Set.empty_union]
        · obtain ⟨honeSided, hpositions⟩ :=
            mergeAndCoalesceAll_spec hplaced.oneSided hrs.oneSided h
          refine ⟨placed_of_positions honeSided ?_, hpositions.trans (Set.union_comm _ _)⟩
          rw [hpositions]
          exact Set.union_subset hplaced.positions hrs.positions

theorem addSources_spec {fme : Region × List InfoFlowSource}
    (hrule : ∀ ifs ∈ fme.2, RulePlaced fme.1 ifs) (hrs : Placed rs)
    (h : addSources isInSymRegion args rs fme = some rs') : Placed rs' ∧
      positionsOf rs' = positionsOf rs ∪
        {t | ∃ ifs ∈ fme.2, t ∈ Carries isInSymRegion args unsignedPositionsOf fme.1 ifs} := by
  obtain ⟨target, ifss⟩ := fme
  unfold addSources at h
  dsimp only at h ⊢
  induction ifss generalizing rs with
  | nil =>
    cases h
    simpa using hrs
  | cons ifs ifss ih =>
    rw [List.foldlM_cons] at h
    obtain ⟨next, hnext, h⟩ := Option.bind_eq_some_iff.mp h
    obtain ⟨hplaced, hone⟩ := addSource_spec (hrule ifs List.mem_cons_self) hrs hnext
    obtain ⟨hplaced', hmore⟩ :=
      ih hplaced (fun q hq => hrule q (List.mem_cons_of_mem _ hq)) h
    refine ⟨hplaced', ?_⟩
    rw [hmore, hone, Set.union_assoc]
    congr 1
    ext t
    simp

end

/-- The rules carry these bits to the targets. -/
def carriedBits (isInSymRegion : String → Expr → Width → Bool) (args : List (Option Expr))
    (high : List Region → Set Int) (fm : InfoFlowRules) : Set Int :=
  {t | ∃ fme ∈ fm, ∃ ifs ∈ fme.2, t ∈ Carries isInSymRegion args high fme.1 ifs}

/-- The target bits for which some source has a reported bit at the place of theirs. -/
def highTargetBits (isInSymRegion : String → Expr → Width → Bool) (args : List (Option Expr))
    (fm : InfoFlowRules) : Set Int :=
  {t | ∃ fme ∈ fm, t ∈ fme.1.positions ∧
    ∃ ifs ∈ fme.2, t ∈ Carries isInSymRegion args positionsOf fme.1 ifs}

/-- No source carries a bit past its target, where no other one takes it too, and none that is
reported is missed by `intersect`. -/
structure CarriesWithin (isInSymRegion : String → Expr → Width → Bool) (args : List (Option Expr))
    (fm : InfoFlowRules) : Prop where
  within : ∀ fme ∈ fm, ∀ ifs ∈ fme.2,
    Carries isInSymRegion args unsignedPositionsOf fme.1 ifs ⊆ highTargetBits isInSymRegion args fm
  reads : highTargetBits isInSymRegion args fm ⊆
    carriedBits isInSymRegion args unsignedPositionsOf fm

section

variable {isInSymRegion : String → Expr → Width → Bool} {args : List (Option Expr)}
  {fm : InfoFlowRules} {rs rs' : List Region}

theorem addRules_spec (hrule : ∀ fme ∈ fm, ∀ ifs ∈ fme.2, RulePlaced fme.1 ifs) (hrs : Placed rs)
    (h : fm.foldlM (addSources isInSymRegion args) rs = some rs') : Placed rs' ∧
      positionsOf rs' =
        positionsOf rs ∪ carriedBits isInSymRegion args unsignedPositionsOf fm := by
  induction fm generalizing rs with
  | nil =>
    cases h
    simpa [carriedBits] using hrs
  | cons fme fm ih =>
    rw [List.foldlM_cons] at h
    obtain ⟨next, hnext, h⟩ := Option.bind_eq_some_iff.mp h
    obtain ⟨hplaced, hone⟩ := addSources_spec (hrule fme List.mem_cons_self) hrs hnext
    obtain ⟨hplaced', hmore⟩ :=
      ih (fun q hq => hrule q (List.mem_cons_of_mem _ hq)) hplaced h
    refine ⟨hplaced', ?_⟩
    rw [hmore, hone, Set.union_assoc]
    congr 1
    ext t
    simp [carriedBits]

theorem carriesWithin_iff : CarriesWithin isInSymRegion args fm ↔
    carriedBits isInSymRegion args unsignedPositionsOf fm =
      highTargetBits isInSymRegion args fm := by
  constructor
  · intro h
    refine Set.Subset.antisymm ?_ h.reads
    intro t ht
    obtain ⟨fme, hfme, ifs, hifs, ht⟩ := ht
    exact h.within fme hfme ifs hifs ht
  · intro h
    refine ⟨?_, h.symm.subset⟩
    intro fme hfme ifs hifs t ht
    rw [← h]
    exact ⟨fme, hfme, ifs, hifs, ht⟩

theorem carries_bounded {target : Region} {ifs : InfoFlowSource} (hrule : RulePlaced target ifs) :
    Carries isInSymRegion args unsignedPositionsOf target ifs ⊆ {b | b < 2147483647} := by
  intro t ht
  obtain ⟨_, _, ht, _⟩ := ht
  have := hrule.fits
  rw [mem_positions] at ht
  show t < 2147483647
  omega

theorem addSource_defined {target : Region} {ifs : InfoFlowSource} (hrule : RulePlaced target ifs)
    (hdefined : SourceDefined isInSymRegion args ifs) (hrs : Placed rs)
    (hbound : positionsOf rs ⊆ {b | b < 2147483647}) :
    ∃ rs', addSource isInSymRegion args target rs ifs = some rs' := by
  unfold addSource
  obtain ⟨arg, harg⟩ : ∃ arg, args[ifs.argno]? = some arg :=
    ⟨_, List.getElem?_eq_getElem hdefined.argument⟩
  rw [harg]
  cases arg with
  | none => exact ⟨rs, rfl⟩
  | some argp =>
    obtain ⟨r1, hr1, hlast⟩ := hdefined.extracted argp harg
    obtain ⟨r2, hr2⟩ := intersectAll_defined hrule.bits hlast []
    obtain ⟨hbits, hinside⟩ := intersectAll_spec hrule.bits hr2
    obtain ⟨hmoved, hplaced⟩ := moveOffset_spec hrule.low hrule.bits hrule.fits
      fun r hr => (hinside r hr).resolve_left List.not_mem_nil
    have hends : ∀ r ∈ moveOffset r2 (target.offset - ifs.ifregion.offset), r.EndFits := by
      intro r hr
      apply endFits_of_positions (hplaced r hr).2
      intro t ht
      have ht := hmoved.subset (positionsOf_mono hr ht)
      rw [Set.mem_ofPred_eq, hbits, positionsOf_nil, Set.empty_union] at ht
      have hfits := hrule.fits
      have hin := mem_positions.mp ht.1
      show t < 2147483647
      omega
    obtain ⟨out, hout⟩ := mergeAndCoalesceAll_defined hplaced.oneSided hrs.oneSided hends
      fun r hr => endFits_of_positions (hrs r hr).2
        fun t ht => hbound (positionsOf_mono hr ht)
    simp only [Option.bind_eq_bind, Option.bind_some, hr1, hr2,
      CInt.sub_some hrule.low hrule.bits.low, Option.pure_def, hout]
    split_ifs
    · exact ⟨_, rfl⟩
    · exact ⟨_, rfl⟩
    · exact ⟨_, rfl⟩
    · exact ⟨_, rfl⟩

theorem addSources_defined {fme : Region × List InfoFlowSource}
    (hrule : ∀ ifs ∈ fme.2, RulePlaced fme.1 ifs)
    (hdefined : ∀ ifs ∈ fme.2, SourceDefined isInSymRegion args ifs) (hrs : Placed rs)
    (hbound : positionsOf rs ⊆ {b | b < 2147483647}) :
    ∃ rs', addSources isInSymRegion args rs fme = some rs' ∧ Placed rs' ∧
      positionsOf rs' ⊆ {b | b < 2147483647} := by
  obtain ⟨target, ifss⟩ := fme
  unfold addSources
  dsimp only
  induction ifss generalizing rs with
  | nil => exact ⟨rs, rfl, hrs, hbound⟩
  | cons ifs ifss ih =>
    have hone := hrule ifs List.mem_cons_self
    obtain ⟨next, hnext⟩ := addSource_defined hone (hdefined ifs List.mem_cons_self) hrs hbound
    obtain ⟨hplaced, hbits⟩ := addSource_spec hone hrs hnext
    rw [List.foldlM_cons, hnext]
    apply ih hplaced _ (fun q hq => hrule q (List.mem_cons_of_mem _ hq))
      (fun q hq => hdefined q (List.mem_cons_of_mem _ hq))
    rw [hbits]
    exact Set.union_subset hbound (carries_bounded hone)

theorem addRules_defined (hrule : ∀ fme ∈ fm, ∀ ifs ∈ fme.2, RulePlaced fme.1 ifs)
    (hdefined : ∀ fme ∈ fm, ∀ ifs ∈ fme.2, SourceDefined isInSymRegion args ifs) (hrs : Placed rs)
    (hbound : positionsOf rs ⊆ {b | b < 2147483647}) :
    ∃ rs', fm.foldlM (addSources isInSymRegion args) rs = some rs' := by
  induction fm generalizing rs with
  | nil => exact ⟨rs, rfl⟩
  | cons fme fm ih =>
    obtain ⟨next, hnext, hplaced, hbits⟩ := addSources_defined (hrule fme List.mem_cons_self)
      (hdefined fme List.mem_cons_self) hrs hbound
    rw [List.foldlM_cons, hnext]
    exact ih (fun q hq => hrule q (List.mem_cons_of_mem _ hq))
      (fun q hq => hdefined q (List.mem_cons_of_mem _ hq)) hplaced hbits

/-- The regions are right exactly where no source carries bits past its target, or has a region that
is misread; and they are defined where all that is computed for the sources is. -/
theorem getHighInfoFlowRegions_exact {infoFlowRules : StdMap String InfoFlowRules} {fname : String}
    (hfm : infoFlowRules fname = some fm)
    (hrule : ∀ fme ∈ fm, ∀ ifs ∈ fme.2, RulePlaced fme.1 ifs) :
    (∀ out, getHighInfoFlowRegions isInSymRegion args infoFlowRules fname = some out →
        (positionsOf out = highTargetBits isInSymRegion args fm ↔
          CarriesWithin isInSymRegion args fm)) ∧
      ((∀ fme ∈ fm, ∀ ifs ∈ fme.2, SourceDefined isInSymRegion args ifs) →
        ∃ out, getHighInfoFlowRegions isInSymRegion args infoFlowRules fname = some out) := by
  unfold getHighInfoFlowRegions
  rw [hfm]
  have hnone : Placed [] := fun r hr => absurd hr List.not_mem_nil
  constructor
  · intro out hout
    rw [(addRules_spec hrule hnone hout).2, positionsOf_nil, Set.empty_union, carriesWithin_iff]
  · intro hdefined
    exact addRules_defined hrule hdefined hnone (by simp)

/-- Where no source is larger than its target, and what is reported are regions of bits, the rules
carry what they have to. -/
theorem carriesWithin_of_fits
    (hsize : ∀ fme ∈ fm, ∀ ifs ∈ fme.2, ifs.ifregion.size.toInt ≤ fme.1.size.toInt)
    (hbits : ∀ fme ∈ fm, ∀ ifs ∈ fme.2, ∀ rs, Reported isInSymRegion args ifs rs →
      ∀ q ∈ rs, q.Bits) : CarriesWithin isInSymRegion args fm := by
  have hread : ∀ fme ∈ fm, ∀ ifs ∈ fme.2, Carries isInSymRegion args unsignedPositionsOf fme.1 ifs =
      Carries isInSymRegion args positionsOf fme.1 ifs := by
    intro fme hfme ifs hifs
    ext t
    refine exists_congr fun rs => and_congr_right fun hrs => and_congr_right fun _ => ?_
    refine exists_congr fun q => and_congr_right fun hq => ?_
    rw [unsignedPositions_eq (hbits fme hfme ifs hifs rs hrs q hq)]
  constructor
  · intro fme hfme ifs hifs t ht
    rw [hread fme hfme ifs hifs] at ht
    refine ⟨fme, hfme, ?_, ifs, hifs, ht⟩
    obtain ⟨_, _, hin, _⟩ := ht
    have hle := hsize fme hfme ifs hifs
    rw [mem_positions] at hin ⊢
    omega
  · intro t ht
    obtain ⟨fme, hfme, _, ifs, hifs, ht⟩ := ht
    rw [← hread fme hfme ifs hifs] at ht
    exact ⟨fme, hfme, ifs, hifs, ht⟩

end

/-- The first byte of an array. -/
def keyByte : Expr := .read { name := "key", size := 4 } .nil (.constant 32 0)

def isKey (symname : String) (_ : Expr) (_ : Width) : Bool := symname = "key"

/-- A rule from eight bits of the first argument to the first `size` bits of the target. -/
def byteRules (size : BitVec 32) : InfoFlowRules := [(⟨0, size⟩, [⟨0, ⟨0, 8⟩⟩])]

def hashRules (size : BitVec 32) (fname : String) : Option InfoFlowRules :=
  if fname = "hash" then some (byteRules size) else none

theorem keyByte_reported {ifs : InfoFlowSource} (hifs : ifs = ⟨0, ⟨0, 8⟩⟩) {rs : List Region}
    (h : Reported isKey [some keyByte] ifs rs) : rs = [⟨0, 8⟩] := by
  subst hifs
  obtain ⟨argp, hargp, n, hrs⟩ := h
  cases hargp
  have hkey : extractRegion isKey ⟨0, 8⟩ false true keyByte = some (1, [⟨0, 8⟩]) := rfl
  exact (congrArg Prod.snd (Option.some.inj (hkey.symm.trans hrs))).symm

/-- Eight bits are carried to a target of eight bits. -/
theorem byte_carried :
    positionsOf [⟨0, 8⟩] = highTargetBits isKey [some keyByte] (byteRules 8) := by
  have hbits : Bits ⟨0, 8⟩ := ⟨by decide, by decide, by unfold EndFits; decide⟩
  have hrule : ∀ fme ∈ byteRules 8, ∀ ifs ∈ fme.2, RulePlaced fme.1 ifs := by
    intro fme hfme ifs hifs
    obtain rfl := List.mem_singleton.mp hfme
    obtain rfl := List.mem_singleton.mp hifs
    exact ⟨by decide, hbits, by decide⟩
  have hfm : hashRules 8 "hash" = some (byteRules 8) := rfl
  apply ((getHighInfoFlowRegions_exact hfm hrule).1 [⟨0, 8⟩] rfl).mpr
  apply carriesWithin_of_fits
  · intro fme hfme ifs hifs
    obtain rfl := List.mem_singleton.mp hfme
    obtain rfl := List.mem_singleton.mp hifs
    decide
  · intro fme hfme ifs hifs rs hrs q hq
    obtain rfl := List.mem_singleton.mp hfme
    rw [keyByte_reported (List.mem_singleton.mp hifs) hrs] at hq
    obtain rfl := List.mem_singleton.mp hq
    exact hbits

/-- All eight bits are carried to a target of four bits. -/
theorem byte_carried_past :
    getHighInfoFlowRegions isKey [some keyByte] (hashRules 4) "hash" = some [⟨0, 8⟩] ∧
      positionsOf [⟨0, 8⟩] ≠ highTargetBits isKey [some keyByte] (byteRules 4) := by
  refine ⟨rfl, ?_⟩
  intro h
  have hbit : (4 : Int) ∈ positionsOf [⟨0, 8⟩] :=
    ⟨_, List.mem_cons_self, by rw [mem_positions]; decide⟩
  rw [h] at hbit
  obtain ⟨fme, hfme, htarget, _⟩ := hbit
  obtain rfl := List.mem_singleton.mp hfme
  rw [mem_positions] at htarget
  revert htarget
  decide

end Encider
