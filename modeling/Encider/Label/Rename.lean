import Encider.Expr.Over
import Encider.Expr.Reduce
import Encider.Label.Symbolic
import Encider.Label.FreshNames

/-! `renameExpr`: a copy of an expression whose high arrays are those of a version. -/

namespace Encider

open Encider.Expr

/-- `renameArray`, where an array is made with 32 bits of index and bytes, and symbolic. -/
def renameArray (regs : SymRegions) (high : Bool) (id : Nat) (array : Array) : Array where
  name :=
    if regs.isASymRegion array.name high then array.name ++ "_r_" ++ String.ofList (itostr id)
    else array.name
  size := array.size

/-- `rename`; `none` is a failed assertion. -/
def rename (regs : SymRegions) (high : Bool) (id : Nat) : Expr → Option Expr
  | .constant w v => if w ≤ 64 then some (.constant w v) else none
  | .extract e off w => do
    let e ← rename regs high id e
    return ExtractExpr.create e off w
  -- the writes and the index stay as they are
  | .read root updates index => some (.read (renameArray regs high id root) updates index)
  | .concat l r => do
    let l ← rename regs high id l
    let r ← rename regs high id r
    return ConcatExpr.create l r
  | .notOptimized e => do
    let e ← rename regs high id e
    return .notOptimized e
  | .select c t f => do
    let c ← rename regs high id c
    let t ← rename regs high id t
    let f ← rename regs high id f
    return SelectExpr.create c t f
  | .zext e w => do
    let e ← rename regs high id e
    return ZExtExpr.create e w
  | .sext e w => do
    let e ← rename regs high id e
    return SExtExpr.create e w
  -- `createFromKind` has no case for it
  | .not e => do
    let _ ← rename regs high id e
    none
  | .binary k l r => do
    let l ← rename regs high id l
    let r ← rename regs high id r
    k.create l r

/-- `renameExpr`, with the version it is given. -/
def renameExpr (regs : SymRegions) (versionNo : Nat) (e : Expr) (high : Bool) : Option Expr :=
  rename regs high versionNo e

namespace Renaming

section
variable (regs : SymRegions) (high : Bool)

/-- The array has the label. -/
def Labelled (a : Array) : Prop := regs.isASymRegion a.name high = true

/-- Every array with the label gets the contents of its copy. -/
def given (id : Nat) (σ : Assignment) : Assignment := fun a i =>
  if regs.isASymRegion a.name high then
    BitVec.ofNat a.range (σ (renameArray regs high id a) i).toNat
  else σ a i

/-- The array is one that has the label, or the copy of one, and it is read. -/
def HighIn (id : Nat) (x : Array) (r : Expr) : Prop :=
  ¬ r.Over (· ≠ x) ∧ ((∃ a, Labelled regs high a ∧ x = renameArray regs high id a) ∨
    Labelled regs high x)

/-- Two versions have no high array in common. -/
def Apart (e : Expr) : Prop := ∀ id id' r r', id ≠ id' → renameExpr regs id e high = some r →
  renameExpr regs id' e high = some r' →
    ∀ x, ¬ (HighIn regs high id x r ∧ HighIn regs high id' x r')

/-- The renamed expression stands for the expression with other contents of the high arrays. -/
structure Stands (id : Nat) (e r : Expr) : Prop where
  typed : r.WellTyped
  width : r.getWidth = e.getWidth
  defined : ∀ σ, e.Defined (given regs high id σ) → r.Defined σ
  value : ∀ σ, e.Defined (given regs high id σ) → r.value σ = e.value (given regs high id σ)

/-- Every version of an expression stands for it, and no two have a high array in common. -/
def Renames (e : Expr) : Prop :=
  (∀ id, ∃ r, renameExpr regs id e high = some r ∧ Stands regs high id e r) ∧ Apart regs high e

end

/-- A condition on the expressions that the recursion comes to. -/
def Throughout (P : Expr → Prop) : Expr → Prop
  | .constant w v => P (.constant w v)
  | .extract e off w => P (.extract e off w) ∧ Throughout P e
  | .read a us i => P (.read a us i)
  | .concat l r => P (.concat l r) ∧ Throughout P l ∧ Throughout P r
  | .notOptimized e => P (.notOptimized e) ∧ Throughout P e
  | .select c t f => P (.select c t f) ∧ Throughout P c ∧ Throughout P t ∧ Throughout P f
  | .zext e w => P (.zext e w) ∧ Throughout P e
  | .sext e w => P (.sext e w) ∧ Throughout P e
  | .not e => P (.not e) ∧ Throughout P e
  | .binary k l r => P (.binary k l r) ∧ Throughout P l ∧ Throughout P r

/-- No constant is wider than 64 bits, there is no `Not`, indices have 32 bits, elements 8, and no
high array is read in an index or in a write. -/
def Reached (regs : SymRegions) (high : Bool) : Expr → Prop
  | .constant w _ => w ≤ 64
  | .read a us i => a.domain = 32 ∧ a.range = 8 ∧ us.Over (fun a => ¬ Labelled regs high a) ∧
      i.Over (fun a => ¬ Labelled regs high a)
  | .not _ => False
  | _ => True

/-- No array is constant. -/
def Plain : Expr → Prop
  | .read a _ _ => a.constantValues = []
  | _ => True

variable {regs : SymRegions} {high : Bool} {id : Nat} {e r : Expr} {us : UpdateList} {a b : Array}
  {P P' : Array → Prop} {σ τ : Assignment}

/-! Expressions that read no high array -/

theorem value_of_over (h : ∀ a, P a → ∀ i, σ a i = τ a i) (he : e.Over P) :
    e.value σ = e.value τ := by
  induction e using Expr.rec (motive_2 := fun us => us.Over P → ∀ a i, σ a i = τ a i →
    us.contents σ a i = us.contents τ a i) with
  | constant w v => rfl
  | notOptimized e ih => exact ih he
  | read a us i hus hi =>
    have hi := hi he.2.2
    simp only [Expr.value, hi]
    rw [hus he.2.1 a _ (h a he.1 _)]
  | select c t f hc ht hf => simp only [Expr.value, hc he.1, ht he.2.1, hf he.2.2]
  | concat l r hl hr | binary k l r hl hr => simp only [Expr.value, hl he.1, hr he.2]
  | extract e off w ih | zext e w ih | sext e w ih | not e ih => simp only [Expr.value, ih he]
  | nil =>
    rename_i hi
    simp only [UpdateList.contents, Array.initial, hi]
  | cons i v next hi hv hnext =>
    rename_i hus a j hj
    simp only [UpdateList.contents, hi hus.1, hv hus.2.1, hnext hus.2.2 a j hj]

theorem defined_of_over (h : ∀ a, P a → ∀ i, σ a i = τ a i) (he : e.Over P)
    (hd : e.Defined τ) : e.Defined σ := by
  unfold Expr.Defined at *
  induction e using Expr.rec (motive_2 := fun us => us.Over P → us.All (BinaryKind.Defined τ) →
    us.All (BinaryKind.Defined σ)) with
  | constant w v => trivial
  | notOptimized e ih | extract e off w ih | zext e w ih | sext e w ih | not e ih => exact ih he hd
  | read a us i hus hi => exact ⟨hus he.2.1 hd.1, hi he.2.2 hd.2⟩
  | select c t f hc ht hf => exact ⟨hc he.1 hd.1, ht he.2.1 hd.2.1, hf he.2.2 hd.2.2⟩
  | concat l r hl hr => exact ⟨hl he.1 hd.1, hr he.2 hd.2⟩
  | binary k l r hl hr =>
    refine ⟨hl he.1 hd.1, hr he.2 hd.2.1, hd.2.2.1, fun hk => ?_⟩
    rw [value_of_over h he.2]
    exact hd.2.2.2 hk
  | nil => trivial
  | cons i v next hi hv hnext =>
    rename_i hus hall
    exact ⟨hi hus.1 hall.1, hv hus.2.1 hall.2.1, hnext hus.2.2 hall.2.2⟩

theorem writes_defined_of_over (h : ∀ a, P a → ∀ i, σ a i = τ a i) (hus : us.Over P)
    (hall : us.All (BinaryKind.Defined τ)) : us.All (BinaryKind.Defined σ) := by
  induction us using UpdateList.rec (motive_1 := fun _ => True) with
  | nil => trivial
  | cons i v next _ _ ih =>
    exact ⟨defined_of_over h hus.1 hall.1, defined_of_over h hus.2.1 hall.2.1,
      ih hus.2.2 hall.2.2⟩
  | _ => trivial

theorem given_low (h : ¬ Labelled regs high a) (i : Nat) :
    σ a i = given regs high id σ a i := (if_neg h).symm

/-! Reads -/

theorem writes_typed (hd : b.domain = a.domain) (hr : b.range = a.range)
    (h : us.WellTyped a) : us.WellTyped b := by
  induction us using UpdateList.rec (motive_1 := fun _ => True) with
  | nil => trivial
  | cons i v next _ _ ih =>
    exact ⟨h.1, h.2.1, h.2.2.1.trans hd.symm, h.2.2.2.1.trans hr.symm, ih h.2.2.2.2⟩
  | _ => trivial

/-- The copy has the contents that are given to the array. -/
theorem given_toNat (hr : a.range = 8) (hd : a.domain = 32) (hc : a.constantValues = []) (i : Nat) :
    (given regs high id σ a i).toNat = (σ (renameArray regs high id a) i).toNat := by
  unfold given
  split
  · rw [BitVec.toNat_ofNat, hr]
    exact Nat.mod_eq_of_lt (σ (renameArray regs high id a) i).isLt
  · rename_i hlow
    have hsame : renameArray regs high id a = a := by
      unfold renameArray
      rw [if_neg hlow]
      obtain ⟨name, size, domain, range, values⟩ := a
      obtain rfl : domain = 32 := hd
      obtain rfl : range = 8 := hr
      obtain rfl : values = [] := hc
      rfl
    rw [hsame]

theorem contents_copy (hr : a.range = 8) (hd : a.domain = 32) (hc : a.constantValues = [])
    (hus : us.Over fun a => ¬ Labelled regs high a) (i : Nat) :
    (us.contents σ (renameArray regs high id a) i).toNat =
      (us.contents (given regs high id σ) a i).toNat := by
  induction us using UpdateList.rec (motive_1 := fun _ => True) with
  | nil =>
    rw [UpdateList.contents, UpdateList.contents, Array.initial, Array.initial, hc]
    exact (given_toNat hr hd hc i).symm
  | cons j v next _ _ ih =>
    have hlow : ∀ a, ¬ Labelled regs high a → ∀ i, σ a i = given regs high id σ a i :=
      fun _ => given_low
    have hj := value_of_over hlow hus.1
    have hv := value_of_over hlow hus.2.1
    rw [UpdateList.contents, UpdateList.contents, hj, hv]
    split
    · rw [BitVec.toNat_ofNat, BitVec.toNat_ofNat, hr]
      rfl
    · exact ih hus.2.2
  | _ => trivial

theorem read_stands {i : Expr} (h : (Expr.read a us i).WellTyped)
    (hreach : Reached regs high (.read a us i)) (hplain : Plain (.read a us i)) :
    Stands regs high id (.read a us i) (.read (renameArray regs high id a) us i) := by
  obtain ⟨hd, hr, hus, hi⟩ := hreach
  have hlow : ∀ (σ : Assignment) (a : Array), ¬ Labelled regs high a →
      ∀ i, σ a i = given regs high id σ a i := fun σ a ha i => given_low ha i
  refine ⟨⟨writes_typed hd.symm hr.symm h.1, h.2.1, h.2.2.trans hd⟩, hr.symm, ?_, ?_⟩
  · intro σ hdef
    exact ⟨writes_defined_of_over (hlow σ) hus hdef.1, defined_of_over (hlow σ) hi hdef.2⟩
  · intro σ _
    rw [Expr.value, Expr.value, value_of_over (hlow σ) hi]
    exact contents_copy hr hd hplain hus _

/-! Operations -/

/-- What a constructor makes of kids that stand for those of the expression. -/
theorem Stands.of_recreates {u : Expr} (h : u.Recreates r) (hw : u.getWidth = e.getWidth)
    (hu : ∀ σ, e.Defined (given regs high id σ) →
      u.Defined σ ∧ u.value σ = e.value (given regs high id σ)) : Stands regs high id e r where
  typed := h.typed
  width := h.width.trans hw
  defined σ hd := h.defined (hu σ hd).1
  value σ hd := (h.value (hu σ hd).1).trans (hu σ hd).2

theorem rename_stands (he : e.WellTyped) (hreach : Throughout (Reached regs high) e)
    (hplain : Throughout Plain e) (hdef : ∃ σ, e.Defined (given regs high id σ)) :
    ∃ r, rename regs high id e = some r ∧ Stands regs high id e r := by
  obtain ⟨σ₀, hdef⟩ := hdef
  induction e using Expr.rec (motive_2 := fun _ => True) with
  | constant w v => exact ⟨_, if_pos hreach, trivial, rfl, fun _ hd => hd, fun _ _ => rfl⟩
  | notOptimized e ih =>
    obtain ⟨r, hr, h⟩ := ih he hreach.2 hplain.2 hdef
    refine ⟨.notOptimized r, ?_, h.typed, h.width, h.defined, h.value⟩
    rw [rename, hr]
    rfl
  | read a us i => exact ⟨_, rfl, read_stands he hreach hplain⟩
  | select c t f hc ht hf =>
    obtain ⟨hct, htt, hft, hcw, htf⟩ := he
    obtain ⟨c', hc', hc⟩ := hc hct hreach.2.1 hplain.2.1 hdef.1
    obtain ⟨t', ht', ht⟩ := ht htt hreach.2.2.1 hplain.2.2.1 hdef.2.1
    obtain ⟨f', hf', hf⟩ := hf hft hreach.2.2.2 hplain.2.2.2 hdef.2.2
    refine ⟨SelectExpr.create c' t' f', ?_, Stands.of_recreates (u := .select c' t' f')
      (.rebuild ⟨hc.typed, ht.typed, hf.typed, hc.width.trans hcw,
        (ht.width.trans htf).trans hf.width.symm⟩ rfl) ht.width fun σ hd => ?_⟩
    · rw [rename, hc', ht', hf']
      rfl
    · refine ⟨⟨hc.defined σ hd.1, ht.defined σ hd.2.1, hf.defined σ hd.2.2⟩, ?_⟩
      simp only [Expr.value, hc.value σ hd.1, ht.value σ hd.2.1, hf.value σ hd.2.2, ht.width]
  | concat l r hl hr =>
    obtain ⟨l', hl', hl⟩ := hl he.1 hreach.2.1 hplain.2.1 hdef.1
    obtain ⟨r', hr', hr⟩ := hr he.2 hreach.2.2 hplain.2.2 hdef.2
    refine ⟨ConcatExpr.create l' r', ?_, Stands.of_recreates (u := .concat l' r')
      (.rebuild ⟨hl.typed, hr.typed⟩ rfl) (congrArg₂ (· + ·) hl.width hr.width) fun σ hd => ?_⟩
    · rw [rename, hl', hr']
      rfl
    · refine ⟨⟨hl.defined σ hd.1, hr.defined σ hd.2⟩, ?_⟩
      simp only [Expr.value, hl.value σ hd.1, hr.value σ hd.2, hr.width]
  | extract e off w ih =>
    obtain ⟨e', he', h⟩ := ih he.1 hreach.2 hplain.2 hdef
    refine ⟨ExtractExpr.create e' off w, ?_, Stands.of_recreates (u := .extract e' off w)
      (.rebuild ⟨h.typed, he.2.1, h.width.symm ▸ he.2.2⟩ rfl) rfl fun σ hd => ?_⟩
    · rw [rename, he']
      rfl
    · refine ⟨h.defined σ hd, ?_⟩
      simp only [Expr.value, h.value σ hd]
  | zext e w ih =>
    obtain ⟨e', he', h⟩ := ih he.1 hreach.2 hplain.2 hdef
    refine ⟨ZExtExpr.create e' w, ?_, Stands.of_recreates (u := .zext e' w)
      (.rebuild ⟨h.typed, h.width.symm ▸ he.2⟩ rfl) rfl fun σ hd => ?_⟩
    · rw [rename, he']
      rfl
    · refine ⟨h.defined σ hd, ?_⟩
      simp only [Expr.value, h.value σ hd]
  | sext e w ih =>
    obtain ⟨e', he', h⟩ := ih he.1 hreach.2 hplain.2 hdef
    refine ⟨SExtExpr.create e' w, ?_, Stands.of_recreates (u := .sext e' w)
      (.rebuild ⟨h.typed, h.width.symm ▸ he.2⟩ rfl) rfl fun σ hd => ?_⟩
    · rw [rename, he']
      rfl
    · refine ⟨h.defined σ hd, ?_⟩
      simp only [Expr.value, h.value σ hd]
      rw [h.width]
  | not e ih => exact absurd hreach.1 fun h => h
  | binary k l r hl hr =>
    obtain ⟨l', hl', hl⟩ := hl he.1 hreach.2.1 hplain.2.1 hdef.1
    obtain ⟨r', hr', hr⟩ := hr he.2.1 hreach.2.2 hplain.2.2 hdef.2.1
    have hw : l'.getWidth = r'.getWidth := (hl.width.trans he.2.2).trans hr.width.symm
    have hkind : ∀ σ, (Expr.binary k l r).Defined (given regs high id σ) →
        k.Defined σ l' r' := by
      intro σ hd
      refine ⟨fun hk => ?_, fun hk => ?_⟩
      · rw [hl.width]
        exact hd.2.2.1 hk
      · rw [hr.value σ hd.2.1]
        exact hd.2.2.2 hk
    have hdef' := hkind σ₀ hdef
    obtain ⟨x, hx, -⟩ := BinaryKind.create_simplifies (k := k) ⟨hl.typed, hr.typed, hw⟩
      hdef'.not_overshifts hdef'.not_dividesByZero
    refine ⟨x, ?_, Stands.of_recreates (u := .binary k l' r')
      (.rebuild ⟨hl.typed, hr.typed, hw⟩ hx) ?_ fun σ hd => ?_⟩
    · rw [rename, hl', hr']
      exact hx
    · simp only [Expr.getWidth, hl.width]
    · refine ⟨⟨hl.defined σ hd.1, hr.defined σ hd.2.1, hkind σ hd⟩, ?_⟩
      simp only [Expr.value, hl.value σ hd.1, hr.value σ hd.2.1]
      rw [hl.width]
  | nil => trivial
  | cons => trivial

/-! The arrays of a version -/

/-- An array of a version: the copy of one with the label, or one without. -/
def OfVersion (regs : SymRegions) (high : Bool) (id : Nat) (x : Array) : Prop :=
  (∃ a, Labelled regs high a ∧ x = renameArray regs high id a) ∨ ¬ Labelled regs high x

theorem copy_ofVersion : OfVersion regs high id (renameArray regs high id a) := by
  by_cases ha : Labelled regs high a
  · exact .inl ⟨a, ha, rfl⟩
  · have hname : (renameArray regs high id a).name = a.name := if_neg ha
    refine .inr fun hx => ha ?_
    unfold Labelled at hx ⊢
    rwa [hname] at hx

theorem rename_over (hr : rename regs high id e = some r)
    (hreach : Throughout (Reached regs high) e) : r.Over (OfVersion regs high id) := by
  induction e using Expr.rec (motive_2 := fun _ => True) generalizing r with
  | constant w v =>
    unfold rename at hr
    split at hr
    · cases hr
      trivial
    · cases hr
  | notOptimized e ih =>
    obtain ⟨e', he', hr⟩ := Option.bind_eq_some_iff.mp hr
    have hr : e'.notOptimized = r := Option.some.inj hr
    have hover := ih he' hreach.2
    rw [← hr]
    exact hover
  | read a us i =>
    cases hr
    exact ⟨copy_ofVersion, writes_over_mono (fun _ => .inr) hreach.2.2.1,
      over_mono (fun _ => .inr) hreach.2.2.2⟩
  | select c t f hc ht hf =>
    obtain ⟨c', hc', hr⟩ := Option.bind_eq_some_iff.mp hr
    obtain ⟨t', ht', hr⟩ := Option.bind_eq_some_iff.mp hr
    obtain ⟨f', hf', hr⟩ := Option.bind_eq_some_iff.mp hr
    cases hr
    exact SelectExpr.create_over (hc hc' hreach.2.1) (ht ht' hreach.2.2.1) (hf hf' hreach.2.2.2)
  | concat l r hl hr' =>
    obtain ⟨l', hl', hr⟩ := Option.bind_eq_some_iff.mp hr
    obtain ⟨r', hrr, hr⟩ := Option.bind_eq_some_iff.mp hr
    cases hr
    exact ConcatExpr.create_over (hl hl' hreach.2.1) (hr' hrr hreach.2.2)
  | extract e off w ih =>
    obtain ⟨e', he', hr⟩ := Option.bind_eq_some_iff.mp hr
    cases hr
    exact ExtractExpr.create_over (ih he' hreach.2) off w
  | zext e w ih =>
    obtain ⟨e', he', hr⟩ := Option.bind_eq_some_iff.mp hr
    cases hr
    exact ZExtExpr.create_over (ih he' hreach.2) w
  | sext e w ih =>
    obtain ⟨e', he', hr⟩ := Option.bind_eq_some_iff.mp hr
    cases hr
    exact SExtExpr.create_over (ih he' hreach.2) w
  | not e ih => exact absurd hreach.1 fun h => h
  | binary k l r hl hr' =>
    obtain ⟨l', hl', hr⟩ := Option.bind_eq_some_iff.mp hr
    obtain ⟨r', hrr, hr⟩ := Option.bind_eq_some_iff.mp hr
    exact BinaryKind.create_over hr (hl hl' hreach.2.1) (hr' hrr hreach.2.2)
  | nil => trivial
  | cons => trivial

theorem copy_name (ha : Labelled regs high a) :
    (renameArray regs high id a).name.toList = freshName (a.name.toList ++ ['_', 'r']) id := by
  have hname : (renameArray regs high id a).name =
      a.name ++ "_r_" ++ String.ofList (itostr id) := if_pos ha
  rw [hname, String.toList_append, String.toList_append, String.toList_ofList, freshName]
  simp

/-- The name of a copy tells its version. -/
theorem copy_injective {id' : Nat} (ha : Labelled regs high a) (hb : Labelled regs high b)
    (h : renameArray regs high id a = renameArray regs high id' b) : id = id' := by
  have hname := congrArg (fun x : Array => x.name.toList) h
  rw [copy_name ha, copy_name hb] at hname
  exact (NameCounters.freshName_injective hname).2

theorem HighIn.copy {x : Array} (h : HighIn regs high id x r)
    (hover : r.Over (OfVersion regs high id)) :
    ∃ a, Labelled regs high a ∧ x = renameArray regs high id a := by
  rcases h.2 with hcopy | hlabel
  · exact hcopy
  · have hx : OfVersion regs high id x := by
      by_contra hno
      refine h.1 (over_mono (fun a ha => ?_) hover)
      rintro rfl
      exact hno ha
    exact hx.resolve_right (not_not_intro hlabel)

theorem apart_of_reached (h : Throughout (Reached regs high) e) : Apart regs high e := by
  rintro id id' r r' hne hr hr' x ⟨hx, hx'⟩
  obtain ⟨a, ha, rfl⟩ := hx.copy (rename_over hr h)
  obtain ⟨b, hb, heq⟩ := hx'.copy (rename_over hr' h)
  exact hne (copy_injective ha hb heq)

/-! What a version that stands for the expression needs -/

theorem over_of_ne {L : Array → Prop} (h : ∀ x, L x → e.Over (· ≠ x)) :
    e.Over (fun a => ¬ L a) := by
  induction e using Expr.rec (motive_2 := fun us => (∀ x, L x → us.Over (· ≠ x)) →
    us.Over (fun a => ¬ L a)) with
  | constant w v => trivial
  | notOptimized e ih | extract e off w ih | zext e w ih | sext e w ih | not e ih => exact ih h
  | read a us i hus hi =>
    exact ⟨fun ha => (h a ha).1 rfl, hus fun x hx => (h x hx).2.1, hi fun x hx => (h x hx).2.2⟩
  | select c t f hc ht hf =>
    exact ⟨hc fun x hx => (h x hx).1, ht fun x hx => (h x hx).2.1, hf fun x hx => (h x hx).2.2⟩
  | concat l r hl hr | binary k l r hl hr =>
    exact ⟨hl fun x hx => (h x hx).1, hr fun x hx => (h x hx).2⟩
  | nil => trivial
  | cons i v next hi hv hnext =>
    rename_i hus
    exact ⟨hi fun x hx => (hus x hx).1, hv fun x hx => (hus x hx).2.1,
      hnext fun x hx => (hus x hx).2.2⟩

theorem writes_over_of_ne {L : Array → Prop} (h : ∀ x, L x → us.Over (· ≠ x)) :
    us.Over (fun a => ¬ L a) := by
  induction us using UpdateList.rec (motive_1 := fun _ => True) with
  | nil => trivial
  | cons i v next _ _ ih =>
    exact ⟨over_of_ne fun x hx => (h x hx).1, over_of_ne fun x hx => (h x hx).2.1,
      ih fun x hx => (h x hx).2.2⟩
  | _ => trivial

theorem reached_of_renames (he : e.WellTyped) (h : Renames regs high e) :
    Reached regs high e := by
  obtain ⟨r, hr, hstands⟩ := h.1 0
  cases e with
  | constant w v =>
    by_contra hw
    cases (if_neg hw : rename regs high 0 (.constant w v) = none).symm.trans hr
  | read a us i =>
    have hshared : ∀ x, Labelled regs high x → us.Over (· ≠ x) ∧ i.Over (· ≠ x) := by
      intro x hx
      by_contra hno
      refine h.2 0 1 _ _ Nat.zero_ne_one rfl rfl x ⟨⟨fun hover => hno ?_, .inr hx⟩,
        ⟨fun hover => hno ?_, .inr hx⟩⟩
      · exact hover.2
      · exact hover.2
    obtain rfl := Option.some.inj hr
    have hdomain : a.domain = 32 := he.2.2.symm.trans hstands.typed.2.2
    have hrange : a.range = 8 := hstands.width.symm
    exact ⟨hdomain, hrange, writes_over_of_ne fun x hx => (hshared x hx).1,
      over_of_ne fun x hx => (hshared x hx).2⟩
  | not e =>
    obtain ⟨e', -, hnone⟩ := Option.bind_eq_some_iff.mp hr
    cases hnone
  | _ => trivial

/-- Under some contents of the copies no divisor is zero and no boolean is shifted arithmetically.
-/
def Definable (regs : SymRegions) (high : Bool) (e : Expr) : Prop :=
  ∀ id, ∃ σ, e.Defined (given regs high id σ)

theorem Throughout.self {P : Expr → Prop} (h : Throughout P e) : P e := by
  cases e with
  | constant w v => exact h
  | read a us i => exact h
  | _ => exact h.1

/-- What follows for one expression follows for all that the recursion comes to. -/
theorem Throughout.imp {P P' Q : Expr → Prop}
    (h : ∀ e, e.WellTyped → Definable regs high e → Throughout P e → Throughout P' e → Q e)
    (he : e.WellTyped) (hdef : Definable regs high e) (hP : Throughout P e)
    (hP' : Throughout P' e) : Throughout Q e := by
  have hself := h _ he hdef hP hP'
  induction e using Expr.rec (motive_2 := fun _ => True) with
  | constant w v => exact hself
  | read a us i => exact hself
  | notOptimized e ih | not e ih =>
    exact ⟨hself, ih he hdef hP.2 hP'.2 (h _ he hdef hP.2 hP'.2)⟩
  | extract e off w ih | zext e w ih | sext e w ih =>
    exact ⟨hself, ih he.1 hdef hP.2 hP'.2 (h _ he.1 hdef hP.2 hP'.2)⟩
  | select c t f hc ht hf =>
    have hdc : Definable regs high c := fun id => (hdef id).imp fun _ h => h.1
    have hdt : Definable regs high t := fun id => (hdef id).imp fun _ h => h.2.1
    have hdf : Definable regs high f := fun id => (hdef id).imp fun _ h => h.2.2
    exact ⟨hself, hc he.1 hdc hP.2.1 hP'.2.1 (h _ he.1 hdc hP.2.1 hP'.2.1),
      ht he.2.1 hdt hP.2.2.1 hP'.2.2.1 (h _ he.2.1 hdt hP.2.2.1 hP'.2.2.1),
      hf he.2.2.1 hdf hP.2.2.2 hP'.2.2.2 (h _ he.2.2.1 hdf hP.2.2.2 hP'.2.2.2)⟩
  | concat l r hl hr =>
    have hdl : Definable regs high l := fun id => (hdef id).imp fun _ h => h.1
    have hdr : Definable regs high r := fun id => (hdef id).imp fun _ h => h.2
    exact ⟨hself, hl he.1 hdl hP.2.1 hP'.2.1 (h _ he.1 hdl hP.2.1 hP'.2.1),
      hr he.2 hdr hP.2.2 hP'.2.2 (h _ he.2 hdr hP.2.2 hP'.2.2)⟩
  | binary k l r hl hr =>
    have hdl : Definable regs high l := fun id => (hdef id).imp fun _ h => h.1
    have hdr : Definable regs high r := fun id => (hdef id).imp fun _ h => h.2.1
    exact ⟨hself, hl he.1 hdl hP.2.1 hP'.2.1 (h _ he.1 hdl hP.2.1 hP'.2.1),
      hr he.2.1 hdr hP.2.2 hP'.2.2 (h _ he.2.1 hdr hP.2.2 hP'.2.2)⟩
  | nil => trivial
  | cons => trivial

/-- One high byte and a low table. -/
def secret : SymRegions :=
  ⟨Function.update StdMap.empty "secret" (some [⟨0, 8⟩]), StdMap.empty⟩

def secretByte : Expr := .read { name := "secret", size := 1 } .nil (const 0 32)

def tableAt (index : Expr) : Expr := .read { name := "table", size := 256 } .nil index

end Renaming

end Encider
