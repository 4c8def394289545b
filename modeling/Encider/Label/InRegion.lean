import Encider.Expr.Constraint
import Encider.Expr.Constructors
import Encider.Label.Region

/-! `Executor::isInRegion`: whether an access meets one of the labelled regions. -/

namespace Encider

open Encider.Expr

/-- The arguments of `isInRegion` after the regions. -/
structure RegionAccess where
  offset : {e : Expr // e.WellTyped ∧ e.getWidth ≤ 64}
  offsetType : BitVec 32
  type : BitVec 32
  computed : Bool

namespace RegionAccess

variable (a : RegionAccess) (r : Region)

/-- The bits from one value of the offset to the next. -/
def scale : BitVec 32 := if a.computed then 8 else a.offsetType

def width : Width := a.offset.val.getWidth

/-- An `int` as a constant of some width. -/
def ofInt (i : BitVec 32) (w : Width) : BitVec w := BitVec.ofNat w (i.signExtend 64).toNat

/-- The first bit of the access. -/
def first : Expr := MulExpr.create a.offset.val (const a.scale.toNat a.width)

/-- The last bit of the access. -/
def last : Expr := AddExpr.create a.first (const (a.type - 1).toNat a.width)

theorem first_means (σ : Assignment) :
    a.first.Means σ a.width
      (BitVec.ofNat a.width (a.offset.val.value σ) * BitVec.ofNat a.width a.scale.toNat).toNat := by
  have h := MulExpr.create_means (σ := σ) (r := const a.scale.toNat a.width) (w := a.width)
    a.offset.2.1 trivial rfl rfl
  rwa [const, bits_constant] at h

theorem last_means (σ : Assignment) :
    a.last.Means σ a.width
      (BitVec.ofNat a.width (a.offset.val.value σ) * BitVec.ofNat a.width a.scale.toNat +
        BitVec.ofNat a.width (a.type - 1).toNat).toNat := by
  have hfirst := a.first_means σ
  have h := (Expr.sumCorrect σ a.first (const (a.type - 1).toNat a.width) hfirst.typed trivial
    hfirst.width rfl).1
  rwa [const, bits_constant, hfirst.bits] at h

/-- `UgtExpr::create(l, r)` for operands of the width of the offset. -/
def ugt (l r : Word a.width) : Constraint :=
  ⟨UgtExpr.create l.val r.val,
    have h := UltExpr.create_means (fun _ _ => 0) r.2.1 l.2.1 (r.2.2.trans l.2.2.symm)
    ⟨h.typed, h.width⟩⟩

theorem ugt_holds (σ : Assignment) {l r : Word a.width} {x y : BitVec a.width}
    (hl : l.val.Means σ a.width x.toNat) (hr : r.val.Means σ a.width y.toNat) :
    (a.ugt l r).Holds σ ↔ y < x := by
  have h := UltExpr.create_means σ r.2.1 l.2.1 (r.2.2.trans l.2.2.symm)
  have hl' : BitVec.ofNat a.width (l.val.value σ) = x := hl.bits
  have hr' : BitVec.ofNat a.width (r.val.value σ) = y := hr.bits
  unfold Constraint.Holds Expr.Holds ugt UgtExpr.create
  rw [h.value, binary_value, r.2.2, hl', hr', BinaryKind.apply, Bool.toNat_eq_one,
    BitVec.ult_iff_lt]

def firstWord : Word a.width :=
  ⟨a.first, (a.first_means fun _ _ => 0).typed, (a.first_means fun _ _ => 0).width⟩

def lastWord : Word a.width :=
  ⟨a.last, (a.last_means fun _ _ => 0).typed, (a.last_means fun _ _ => 0).width⟩

def constWord (c : BitVec a.width) : Word a.width := ⟨Expr.constant a.width c, trivial, rfl⟩

def rbase : BitVec a.width := ofInt r.offset a.width

def rend : BitVec a.width := ofInt (r.offset + r.size - 1) a.width

/-- `checkSymInRegion`. -/
def checkSymInRegion (S : Solver) (cs : List Constraint) : Bool :=
  if S.mayBeTrue cs (a.ugt (a.constWord (a.rbase r)) a.lastWord) then false
  else if S.mayBeTrue cs (a.ugt a.firstWord (a.constWord (a.rend r))) then false
  else true

/-- The test of a constant offset, on `unsigned` bounds of the access. -/
def testConstant (value : Nat) : Bool :=
  let base := BitVec.ofNat 64 value * a.scale.setWidth 64
  rangesIntersect r.offset (r.offset + r.size - 1) (base.setWidth 32)
    ((base + a.type.setWidth 64 - 1).setWidth 32)

def isInRegion (S : Solver) (cs : List Constraint) (rs : List Region) : Bool :=
  match a.offset.val with
  | .constant _ v => rs.any fun r => a.testConstant r v.toNat
  | _ => rs.any fun r => a.checkSymInRegion r S cs

/-- The test of a symbolic offset for one of its values, in the arithmetic of its width. -/
def TestSymbolic (value : Nat) : Prop :=
  let first := BitVec.ofNat a.width value * BitVec.ofNat a.width a.scale.toNat
  a.rbase r ≤ first + BitVec.ofNat a.width (a.type - 1).toNat ∧ first ≤ a.rend r

/-- The assignment satisfies the constraints. -/
def Feasible (cs : List Constraint) (σ : Assignment) : Prop := ∀ c ∈ cs, c.Holds σ

variable {S : Solver} {cs : List Constraint}

theorem checkSymInRegion_iff : a.checkSymInRegion r S cs = true ↔
    ∀ σ, Feasible cs σ → a.TestSymbolic r (a.offset.val.value σ) := by
  have hconst : ∀ σ (c : BitVec a.width), (a.constWord c).val.Means σ a.width c.toNat :=
    fun σ c => ⟨trivial, rfl, constant_value σ c⟩
  have h1 : ∀ σ, (a.ugt (a.constWord (a.rbase r)) a.lastWord).Holds σ ↔ _ :=
    fun σ => a.ugt_holds σ (hconst σ _) (a.last_means σ)
  have h2 : ∀ σ, (a.ugt a.firstWord (a.constWord (a.rend r))).Holds σ ↔ _ :=
    fun σ => a.ugt_holds σ (a.first_means σ) (hconst σ _)
  have hsolver : a.checkSymInRegion r S cs = true ↔
      ¬ S.mayBeTrue cs (a.ugt (a.constWord (a.rbase r)) a.lastWord) = true ∧
        ¬ S.mayBeTrue cs (a.ugt a.firstWord (a.constWord (a.rend r))) = true := by
    unfold checkSymInRegion
    split_ifs with hc1 hc2 <;> simp_all
  rw [hsolver, S.exact, S.exact]
  simp only [h1, h2, not_exists, not_and, BitVec.not_lt]
  constructor
  · intro h σ hσ
    exact ⟨h.1 σ hσ, h.2 σ hσ⟩
  · intro h
    exact ⟨fun σ hσ => (h σ hσ).1, fun σ hσ => (h σ hσ).2⟩

/-- What decides for one value of the offset. -/
def Test (value : Nat) : Prop :=
  if a.offset.val.isConstant then a.testConstant r value = true else a.TestSymbolic r value

/-- A region must pass the test for all values of the offset. -/
theorem isInRegion_iff (rs : List Region) {σ : Assignment} (hσ : Feasible cs σ) :
    a.isInRegion S cs rs = true ↔
      ∃ r ∈ rs, ∀ σ, Feasible cs σ → a.Test r (a.offset.val.value σ) := by
  unfold isInRegion
  split
  · rename_i w v hv
    simp only [List.any_eq_true, Test, hv, isConstant, if_true, Expr.value]
    refine exists_congr fun r => and_congr_right fun _ => ?_
    exact ⟨fun h _ _ => h, fun h => h σ hσ⟩
  · rename_i hne
    have hconst : a.offset.val.isConstant = false := by
      unfold isConstant
      split
      · rename_i w v hv
        exact absurd hv (hne w v)
      · rfl
    simp only [List.any_eq_true, Test, hconst, Bool.false_eq_true, if_false, checkSymInRegion_iff]

/-- The access at a value of the offset has a bit of the region. -/
def Meets (value : Nat) : Prop :=
  ∃ b : ℤ, r.offset.toInt ≤ b ∧ b < r.offset.toInt + r.size.toInt ∧
    (value * a.scale.toNat : Nat) ≤ b ∧ b < (value * a.scale.toNat + a.type.toNat : Nat)

/-- The same access with a constant offset. -/
def withConstant (v : BitVec a.width) : RegionAccess :=
  { a with offset := ⟨Expr.constant a.width v, trivial, a.offset.2.2⟩ }

/-- An access that can meet a region is found, and the offset's only value gives the answer that the
offset gives. -/
def FindsRegion (S : Solver) (cs : List Constraint) (rs : List Region) : Prop :=
  (∀ σ, Feasible cs σ → (∃ r ∈ rs, a.Meets r (a.offset.val.value σ)) →
    a.isInRegion S cs rs = true) ∧
  ∀ v : BitVec a.width, (∃ σ, Feasible cs σ) →
    (∀ σ, Feasible cs σ → a.offset.val.value σ = v.toNat) →
      a.isInRegion S cs rs = (a.withConstant v).isInRegion S cs rs

/-- Exactly where one region passes the test for all values whenever some region is met for one, and
the test of an only value is that of a constant. -/
theorem findsRegion_iff (a : RegionAccess) (S : Solver) (cs : List Constraint) (rs : List Region) :
    a.FindsRegion S cs rs ↔
      (∀ σ, Feasible cs σ → (∃ r ∈ rs, a.Meets r (a.offset.val.value σ)) →
        ∃ r ∈ rs, ∀ σ, Feasible cs σ → a.Test r (a.offset.val.value σ)) ∧
      ∀ v : BitVec a.width, (∃ σ, Feasible cs σ) →
        (∀ σ, Feasible cs σ → a.offset.val.value σ = v.toNat) →
          ((∃ r ∈ rs, a.Test r v.toNat) ↔ ∃ r ∈ rs, a.testConstant r v.toNat = true) := by
  refine and_congr ?_ ?_
  · refine forall_congr' fun σ => imp_congr_right fun hσ => imp_congr_right fun _ => ?_
    exact a.isInRegion_iff rs hσ
  · refine forall_congr' fun v => imp_congr_right fun hsat => imp_congr_right fun hv => ?_
    obtain ⟨σ, hσ⟩ := hsat
    have hall : ∀ r, (∀ σ, Feasible cs σ → a.Test r (a.offset.val.value σ)) ↔ a.Test r v.toNat := by
      intro r
      constructor
      · intro h
        exact hv σ hσ ▸ h σ hσ
      · intro h σ' hσ'
        rw [hv σ' hσ']
        exact h
    have hconst : ∀ r, (∀ σ, Feasible cs σ → (a.withConstant v).Test r
        ((a.withConstant v).offset.val.value σ)) ↔ a.testConstant r v.toNat = true := by
      intro r
      have htest : (a.withConstant v).Test r v.toNat ↔ a.testConstant r v.toNat = true := Iff.rfl
      simp only [withConstant, Expr.value] at htest ⊢
      exact ⟨fun h => htest.mp (h σ hσ), fun h _ _ => htest.mpr h⟩
    rw [Bool.eq_iff_iff, a.isInRegion_iff rs hσ, (a.withConstant v).isInRegion_iff rs hσ]
    simp only [hall, hconst]

/-- A byte at an offset that can be any byte. -/
def anyByte : RegionAccess where
  offset := ⟨.read { name := "offset", size := 1 } .nil (const 0 32), ⟨trivial, trivial, rfl⟩,
    by decide⟩
  offsetType := 8
  type := 8
  computed := true

/-- The first byte is labelled; the access may meet it, and need not. -/
theorem anyByte_missed : ¬ anyByte.FindsRegion Solver.ideal [] [⟨0, 8⟩] := by
  intro h
  have hσ : ∀ σ, Feasible [] σ := fun _ => nofun
  have hmeets : anyByte.Meets ⟨0, 8⟩ 0 := ⟨0, by decide⟩
  have hfound := h.1 (fun a _ => BitVec.ofNat a.range 0) (hσ _)
    ⟨⟨0, 8⟩, List.mem_singleton_self _, hmeets⟩
  rw [anyByte.isInRegion_iff _ (hσ fun a _ => BitVec.ofNat a.range 0)] at hfound
  obtain ⟨r, hr, htest⟩ := hfound
  obtain rfl := List.mem_singleton.mp hr
  -- the access at offset 1 begins behind the region
  have hone : anyByte.TestSymbolic ⟨0, 8⟩ 1 := htest (fun a _ => BitVec.ofNat a.range 1) (hσ _)
  have hbehind : anyByte.rend ⟨0, 8⟩ < BitVec.ofNat 8 1 * BitVec.ofNat 8 8 := by decide
  exact BitVec.not_le.mpr hbehind hone.2

end RegionAccess

end Encider
