import Encider.Exec.Branch
import Encider.Expr.Arithmetic

/-! The objects that an address may point to: `AddressSpace::resolveOne` and
`AddressSpace::resolve` for a solver without timeouts. -/

namespace Encider

open Encider.Expr

/-- An address expression, of the width of pointers. -/
abbrev Pointer := {e : Expr // e.WellTyped ∧ e.getWidth = 64}

/-- A memory object, with what an access asks of its `ObjectState`. -/
structure ObjectPair where
  address : Nat
  size : Nat
  readOnly : Bool := false
deriving DecidableEq, Repr

namespace ObjectPair

/-- All of `bytes` bytes from `a` on are in the object. -/
def InBounds (mo : ObjectPair) (bytes a : Nat) : Prop :=
  mo.address ≤ a ∧ a + bytes ≤ mo.address + mo.size

/-- The address points into the object; an empty object has its own address. -/
def Covers (mo : ObjectPair) (a : Nat) : Prop :=
  mo.address ≤ a ∧ a < mo.address + max mo.size 1

/-- Where an object can be: its end is an address too. -/
def Fits (mo : ObjectPair) : Prop := mo.size < 2 ^ 32 ∧ mo.address + mo.size < 2 ^ 64

/-- The object ends before the other begins. -/
def Before (mo other : ObjectPair) : Prop := mo.address + max mo.size 1 ≤ other.address

def getBaseExpr (mo : ObjectPair) : Expr := const mo.address 64

def getSizeExpr (mo : ObjectPair) : Expr := const mo.size 64

def getOffsetExpr (mo : ObjectPair) (p : Pointer) : Expr :=
  SubExpr.createBy p.val (BitVec.ofNat 64 mo.address)

theorem getOffsetExpr_means (σ : Assignment) (mo : ObjectPair) (p : Pointer) :
    (mo.getOffsetExpr p).Means σ 64 (p.val.bits σ 64 - BitVec.ofNat 64 mo.address).toNat :=
  SubExpr.createBy_means σ _ p.2.1 p.2.2

/-- A comparison of the offset with a constant. -/
def offsetBelow (mo : ObjectPair) (p : Pointer) (n : Nat) : Constraint :=
  ⟨UltExpr.create (mo.getOffsetExpr p) (const n 64),
    have h := mo.getOffsetExpr_means (fun _ _ => 0) p
    have hm := UltExpr.create_means (fun _ _ => 0) (r := const n 64) h.typed trivial h.width
    ⟨hm.typed, hm.width⟩⟩

def offsetZero (mo : ObjectPair) (p : Pointer) : Constraint :=
  ⟨EqExpr.create (mo.getOffsetExpr p) (const 0 64),
    have h := mo.getOffsetExpr_means (fun _ _ => 0) p
    have hm := EqExpr.create_means (fun _ _ => 0) (r := const 0 64) h.typed trivial h.width
    ⟨hm.typed, hm.width⟩⟩

/-- `getBoundsCheckPointer(pointer)`. -/
def getBoundsCheckPointer (mo : ObjectPair) (p : Pointer) : Constraint :=
  if mo.size = 0 then mo.offsetZero p else mo.offsetBelow p mo.size

/-- `getBoundsCheckPointer(pointer, bytes)`. -/
def getBoundsCheckAccess (mo : ObjectPair) (p : Pointer) (bytes : Nat) : Constraint :=
  if bytes ≤ mo.size then mo.offsetBelow p (mo.size - bytes + 1) else .ff

/-- `UgeExpr::create(p, mo->getBaseExpr())`. -/
def atOrAbove (mo : ObjectPair) (p : Pointer) : Constraint :=
  ⟨UgeExpr.create p.val mo.getBaseExpr,
    have hm := UleExpr.create_means (fun _ _ => 0) (l := mo.getBaseExpr) trivial p.2.1 p.2.2.symm
    ⟨hm.typed, hm.width⟩⟩

/-- `UltExpr::create(p, mo->getBaseExpr())`. -/
def above (mo : ObjectPair) (p : Pointer) : Constraint :=
  ⟨UltExpr.create p.val mo.getBaseExpr,
    have hm := UltExpr.create_means (fun _ _ => 0) (r := mo.getBaseExpr) p.2.1 trivial p.2.2
    ⟨hm.typed, hm.width⟩⟩

theorem offsetBelow_holds (σ : Assignment) {mo : ObjectPair} (hfit : mo.Fits) (p : Pointer) {n : Nat}
    (hn : n ≤ mo.size) :
    (mo.offsetBelow p n).Holds σ ↔ mo.address ≤ p.val.value σ ∧ p.val.value σ < mo.address + n := by
  have h := mo.getOffsetExpr_means σ p
  have hm := UltExpr.create_means σ (r := const n 64) h.typed trivial h.width
  have hlt := p.val.value_lt σ
  obtain ⟨hsize, hend⟩ := hfit
  rw [p.2.2] at hlt
  unfold Constraint.Holds Expr.Holds offsetBelow
  rw [hm.value, binary_value, h.width, h.value, const_value]
  simp only [BinaryKind.apply, Expr.bits, Bool.toNat_eq_one, BitVec.ult, decide_eq_true_iff,
    BitVec.toNat_sub, BitVec.toNat_ofNat]
  omega

theorem offsetZero_holds (σ : Assignment) {mo : ObjectPair} (hfit : mo.Fits) (p : Pointer) :
    (mo.offsetZero p).Holds σ ↔ p.val.value σ = mo.address := by
  have h := mo.getOffsetExpr_means σ p
  have hm := EqExpr.create_means σ (r := const 0 64) h.typed trivial h.width
  have hlt := p.val.value_lt σ
  obtain ⟨hsize, hend⟩ := hfit
  rw [p.2.2] at hlt
  unfold Constraint.Holds Expr.Holds offsetZero
  rw [hm.value, binary_value, h.width, h.value, const_value]
  simp only [BinaryKind.apply, Expr.bits, Bool.toNat_eq_one, decide_eq_true_iff,
    ← BitVec.toNat_inj, BitVec.toNat_sub, BitVec.toNat_ofNat]
  omega

theorem getBoundsCheckPointer_holds (σ : Assignment) {mo : ObjectPair} (hfit : mo.Fits)
    (p : Pointer) : (mo.getBoundsCheckPointer p).Holds σ ↔ mo.Covers (p.val.value σ) := by
  unfold getBoundsCheckPointer Covers
  split
  · rw [offsetZero_holds σ hfit]
    omega
  · rw [offsetBelow_holds σ hfit p (Nat.le_refl _)]
    omega

theorem getBoundsCheckAccess_holds (σ : Assignment) {mo : ObjectPair} (hfit : mo.Fits)
    (p : Pointer) {bytes : Nat} (hbytes : 0 < bytes) :
    (mo.getBoundsCheckAccess p bytes).Holds σ ↔ mo.InBounds bytes (p.val.value σ) := by
  unfold getBoundsCheckAccess InBounds
  split
  · rw [offsetBelow_holds σ hfit p (by omega)]
    omega
  · have hfalse : ¬ Constraint.Holds σ .ff := by
      simp [Constraint.Holds, Constraint.ff, Expr.Holds]
    simp only [hfalse, false_iff]
    omega

theorem atOrAbove_holds (σ : Assignment) {mo : ObjectPair} (hfit : mo.Fits) (p : Pointer) :
    (mo.atOrAbove p).Holds σ ↔ mo.address ≤ p.val.value σ := by
  have hm := UleExpr.create_means σ (l := mo.getBaseExpr) trivial p.2.1 p.2.2.symm
  have hlt := p.val.value_lt σ
  obtain ⟨hsize, hend⟩ := hfit
  rw [p.2.2] at hlt
  unfold Constraint.Holds Expr.Holds atOrAbove UgeExpr.create
  rw [hm.value, binary_value]
  simp only [getBaseExpr, const_width, const_value, BinaryKind.apply, Bool.toNat_eq_one, BitVec.ule,
    decide_eq_true_iff, BitVec.toNat_ofNat]
  omega

theorem above_holds (σ : Assignment) {mo : ObjectPair} (hfit : mo.Fits) (p : Pointer) :
    (mo.above p).Holds σ ↔ p.val.value σ < mo.address := by
  have hm := UltExpr.create_means σ (r := mo.getBaseExpr) p.2.1 trivial p.2.2
  have hlt := p.val.value_lt σ
  obtain ⟨hsize, hend⟩ := hfit
  rw [p.2.2] at hlt
  unfold Constraint.Holds Expr.Holds above
  rw [hm.value, binary_value, p.2.2]
  simp only [getBaseExpr, const_value, BinaryKind.apply, Bool.toNat_eq_one, BitVec.ult,
    decide_eq_true_iff, BitVec.toNat_ofNat]
  omega

theorem InBounds.covers {mo : ObjectPair} {bytes a : Nat} (hbytes : 0 < bytes)
    (h : mo.InBounds bytes a) : mo.Covers a := by
  unfold InBounds at h
  unfold Covers
  omega

theorem Before.not_covers {mo other : ObjectPair} (h : mo.Before other) {a : Nat}
    (ha : other.address ≤ a) : ¬ mo.Covers a := by
  intro hc
  exact absurd (hc.2.trans_le (h.trans ha)) (lt_irrefl a)

theorem Before.lt {mo other : ObjectPair} (h : mo.Before other) : mo.address < other.address := by
  unfold Before at h
  omega

theorem Before.trans {a b c : ObjectPair} (h : a.Before b) (h' : b.Before c) : a.Before c :=
  Nat.le_trans h h'.lt.le

end ObjectPair

/-- An exact solver that also gives a value an expression can take. -/
structure ValueSolver extends Solver where
  getValue : List Constraint → Expr → Nat
  feasible : ∀ cs e, (∃ σ : Assignment, ∀ d ∈ cs, d.Holds σ) →
    ∃ σ : Assignment, (∀ d ∈ cs, d.Holds σ) ∧ e.value σ = getValue cs e

/-- `solver->mustBeTrue`. -/
def Solver.mustBeTrue (S : Solver) (cs : List Constraint) (c : Constraint) : Bool :=
  !S.mayBeTrue cs c.isZero

theorem Solver.mustBeTrue_iff {S : Solver} {cs : List Constraint} {c : Constraint} :
    S.mustBeTrue cs c = true ↔ ∀ σ : Assignment, (∀ d ∈ cs, d.Holds σ) → c.Holds σ := by
  unfold Solver.mustBeTrue
  rw [Bool.not_eq_true', ← Bool.not_eq_true, S.exact]
  simp only [Constraint.isZero_holds]
  push Not
  rfl

/-- The objects bound in a state, in the order of their addresses. -/
structure AddressSpace where
  objects : List ObjectPair
  apart : objects.Pairwise ObjectPair.Before
  fits : ∀ mo ∈ objects, mo.Fits

namespace AddressSpace

/-- The objects at or below an address, the highest first. -/
def below (space : AddressSpace) (a : Nat) : List ObjectPair :=
  (space.objects.takeWhile fun mo => mo.address ≤ a).reverse

/-- The objects from `objects.upper_bound` on. -/
def upper (space : AddressSpace) (a : Nat) : List ObjectPair :=
  space.objects.dropWhile fun mo => mo.address ≤ a

/-- `resolveOne` on a constant address. -/
def resolveConstant (space : AddressSpace) (a : Nat) : Option ObjectPair :=
  (space.below a).head?.filter fun mo => (mo.size = 0 ∧ a = mo.address) ∨ a - mo.address < mo.size

section Search

variable (S : Solver) (cs : List Constraint) (p : Pointer)

/-- The backward search of `resolve`, with the resolutions so far; `true` is an early return. -/
def resolveBackwards : List ObjectPair → List ObjectPair → List ObjectPair × Bool
  | [], rl => (rl, false)
  | mo :: rest, rl =>
    let inBounds := mo.getBoundsCheckPointer p
    if S.mayBeTrue cs inBounds then
      if rl.length + 1 = 1 ∧ S.mustBeTrue cs inBounds then (rl ++ [mo], true)
      else if S.mustBeTrue cs (mo.atOrAbove p) then (rl ++ [mo], false)
      else resolveBackwards rest (rl ++ [mo])
    else if S.mustBeTrue cs (mo.atOrAbove p) then (rl, false)
    else resolveBackwards rest rl

/-- The forward search of `resolve`. -/
def resolveForwards : List ObjectPair → List ObjectPair → List ObjectPair
  | [], rl => rl
  | mo :: rest, rl =>
    if S.mustBeTrue cs (mo.above p) then rl
    else
      let inBounds := mo.getBoundsCheckPointer p
      if S.mayBeTrue cs inBounds then
        if rl.length + 1 = 1 ∧ S.mustBeTrue cs inBounds then rl ++ [mo]
        else resolveForwards rest (rl ++ [mo])
      else resolveForwards rest rl

/-- The backward search of `resolveOne`; it ends at the first object that may hold the address. -/
def findBackwards : List ObjectPair → Option ObjectPair
  | [] => none
  | mo :: rest =>
    if S.mayBeTrue cs (mo.getBoundsCheckPointer p) then some mo
    else if S.mustBeTrue cs (mo.atOrAbove p) then none
    else findBackwards rest

/-- The forward search of `resolveOne`. -/
def findForwards : List ObjectPair → Option ObjectPair
  | [] => none
  | mo :: rest =>
    if S.mustBeTrue cs (mo.above p) then none
    else if S.mayBeTrue cs (mo.getBoundsCheckPointer p) then some mo
    else findForwards rest

end Search

/-- `AddressSpace::resolveOne`. -/
def resolveOne (space : AddressSpace) (S : ValueSolver) (cs : List Constraint) (p : Pointer) :
    Option ObjectPair :=
  match p.val with
  | .constant _ v => space.resolveConstant v.toNat
  | _ =>
    let cex := S.getValue cs p.val
    match (space.below cex).head?.filter fun mo => cex - mo.address < mo.size with
    | some mo => some mo
    | none =>
      (findBackwards S.toSolver cs p (space.below cex)).orElse fun _ =>
        findForwards S.toSolver cs p (space.upper cex)

/-- `AddressSpace::resolve` with no bound on the number of resolutions. -/
def resolve (space : AddressSpace) (S : ValueSolver) (cs : List Constraint) (p : Pointer) :
    List ObjectPair :=
  match p.val with
  | .constant _ v => (space.resolveConstant v.toNat).toList
  | _ =>
    let cex := S.getValue cs p.val
    match resolveBackwards S.toSolver cs p (space.below cex) [] with
    | (rl, true) => rl
    | (rl, false) => resolveForwards S.toSolver cs p (space.upper cex) rl

end AddressSpace

/-- The values that an expression can have under some constraints. -/
def feasibleValues (cs : List Constraint) (e : Expr) : Set Nat :=
  {a | ∃ σ : Assignment, (∀ d ∈ cs, d.Holds σ) ∧ e.value σ = a}

namespace ObjectPair

variable {S : Solver} {cs : List Constraint} {p : Pointer} {mo other : ObjectPair}

theorem may_iff (hfit : mo.Fits) : S.mayBeTrue cs (mo.getBoundsCheckPointer p) = true ↔
    ∃ a ∈ feasibleValues cs p.val, mo.Covers a := by
  rw [S.exact]
  simp only [getBoundsCheckPointer_holds _ hfit]
  constructor
  · intro h
    obtain ⟨σ, hσ, hc⟩ := h
    exact ⟨_, ⟨σ, hσ, rfl⟩, hc⟩
  · intro h
    obtain ⟨_, ⟨σ, hσ, rfl⟩, hc⟩ := h
    exact ⟨σ, hσ, hc⟩

theorem must_iff (hfit : mo.Fits) : S.mustBeTrue cs (mo.getBoundsCheckPointer p) = true ↔
    ∀ a ∈ feasibleValues cs p.val, mo.Covers a := by
  rw [Solver.mustBeTrue_iff]
  simp only [getBoundsCheckPointer_holds _ hfit]
  constructor
  · intro h a ha
    obtain ⟨σ, hσ, rfl⟩ := ha
    exact h σ hσ
  · intro h σ hσ
    exact h _ ⟨σ, hσ, rfl⟩

theorem Covers.apart {a : Nat} (h : mo.Before other ∨ other.Before mo) (hc : mo.Covers a) :
    ¬ other.Covers a := by
  intro hc'
  rcases h with h | h
  · exact h.not_covers hc'.1 hc
  · exact h.not_covers hc.1 hc'

/-- The address is never below `mo`, so no object before it is accessed. -/
theorem not_may_of_atOrAbove (hfit : mo.Fits) (hother : other.Fits)
    (h : S.mustBeTrue cs (mo.atOrAbove p) = true) (hb : other.Before mo) :
    S.mayBeTrue cs (other.getBoundsCheckPointer p) = false := by
  rw [← Bool.not_eq_true, may_iff hother]
  intro hm
  obtain ⟨_, ⟨σ, hσ, rfl⟩, hc⟩ := hm
  have hle := (atOrAbove_holds σ hfit p).mp (Solver.mustBeTrue_iff.mp h σ hσ)
  exact hb.not_covers hle hc

/-- The address is always below `mo`, so neither it nor an object behind it is accessed. -/
theorem not_may_of_above (hfit : mo.Fits) (hother : other.Fits)
    (h : S.mustBeTrue cs (mo.above p) = true) (hb : mo.address ≤ other.address) :
    S.mayBeTrue cs (other.getBoundsCheckPointer p) = false := by
  rw [← Bool.not_eq_true, may_iff hother]
  intro hm
  obtain ⟨_, ⟨σ, hσ, rfl⟩, hc⟩ := hm
  have hlt := (above_holds σ hfit p).mp (Solver.mustBeTrue_iff.mp h σ hσ)
  exact absurd (hlt.trans_le (hb.trans hc.1)) (lt_irrefl _)

/-- One object holds every address, so no other is accessed. -/
theorem not_may_of_must (hfit : mo.Fits) (hother : other.Fits)
    (h : S.mustBeTrue cs (mo.getBoundsCheckPointer p) = true)
    (hb : mo.Before other ∨ other.Before mo) :
    S.mayBeTrue cs (other.getBoundsCheckPointer p) = false := by
  rw [← Bool.not_eq_true, may_iff hother]
  intro hm
  obtain ⟨a, ha, hc⟩ := hm
  exact Covers.apart hb ((must_iff hfit).mp h a ha) hc

end ObjectPair

namespace AddressSpace

/-- All objects, from the one at or below an address downwards and then upwards. -/
def nearest (space : AddressSpace) (a : Nat) : List ObjectPair := space.below a ++ space.upper a

section Search

variable {S : Solver} {cs : List Constraint} {p : Pointer}

/-- The objects that the address may point into. -/
def mayPoint (S : Solver) (cs : List Constraint) (p : Pointer) (mo : ObjectPair) : Bool :=
  S.mayBeTrue cs (mo.getBoundsCheckPointer p)

theorem filter_none {l : List ObjectPair} (h : ∀ mo ∈ l, mayPoint S cs p mo = false) :
    l.filter (mayPoint S cs p) = [] := by
  rw [List.filter_eq_nil_iff]
  intro mo hmo
  rw [h mo hmo]
  exact Bool.false_ne_true

/-- The backward search collects the candidates, or returns with the only one. -/
theorem resolveBackwards_eq {l : List ObjectPair} (hl : l.Pairwise fun a b => b.Before a)
    (hfit : ∀ mo ∈ l, mo.Fits) (rl : List ObjectPair) :
    resolveBackwards S cs p l rl = (rl ++ l.filter (mayPoint S cs p), false) ∨
      ∃ mo ∈ l, rl = [] ∧ S.mustBeTrue cs (mo.getBoundsCheckPointer p) = true ∧
        l.filter (mayPoint S cs p) = [mo] ∧ resolveBackwards S cs p l rl = ([mo], true) := by
  induction l generalizing rl with
  | nil => exact .inl (by simp [resolveBackwards])
  | cons mo rest ih =>
    obtain ⟨hbefore, hrest⟩ := List.pairwise_cons.mp hl
    have hmo := hfit mo List.mem_cons_self
    have hfits : ∀ other ∈ rest, other.Fits := fun o ho => hfit o (List.mem_cons_of_mem mo ho)
    have hstop : S.mustBeTrue cs (mo.atOrAbove p) = true → rest.filter (mayPoint S cs p) = [] :=
      fun h => filter_none fun o ho =>
        ObjectPair.not_may_of_atOrAbove hmo (hfits o ho) h (hbefore o ho)
    rw [resolveBackwards, List.filter_cons]
    cases hmay : S.mayBeTrue cs (mo.getBoundsCheckPointer p) with
    | true =>
      have hkept : mayPoint S cs p mo = true := hmay
      simp only [hkept, if_true]
      split
      · rename_i hfast
        obtain ⟨hone, hmust⟩ := hfast
        have hnil : rl = [] := List.length_eq_zero_iff.mp (by omega)
        have hnone : rest.filter (mayPoint S cs p) = [] := filter_none fun o ho =>
          ObjectPair.not_may_of_must hmo (hfits o ho) hmust (.inr (hbefore o ho))
        refine .inr ⟨mo, List.mem_cons_self, hnil, hmust, ?_, ?_⟩
        · rw [hnone]
        · rw [hnil, List.nil_append]
      · split
        · rename_i hge
          rw [hstop hge]
          exact .inl rfl
        · rcases ih hrest hfits (rl ++ [mo]) with h | h
          · rw [h, List.append_assoc, List.singleton_append]
            exact .inl rfl
          · obtain ⟨o, _, hnil, _⟩ := h
            simp at hnil
    | false =>
      have hdropped : mayPoint S cs p mo = false := hmay
      simp only [hdropped, Bool.false_eq_true, if_false]
      split
      · rename_i hge
        rw [hstop hge, List.append_nil]
        exact .inl rfl
      · rcases ih hrest hfits rl with h | h
        · exact .inl h
        · obtain ⟨o, ho, h⟩ := h
          exact .inr ⟨o, List.mem_cons_of_mem mo ho, h⟩

theorem resolveForwards_eq {l : List ObjectPair} (hl : l.Pairwise ObjectPair.Before)
    (hfit : ∀ mo ∈ l, mo.Fits) (rl : List ObjectPair) :
    resolveForwards S cs p l rl = rl ++ l.filter (mayPoint S cs p) := by
  induction l generalizing rl with
  | nil => simp [resolveForwards]
  | cons mo rest ih =>
    obtain ⟨hbefore, hrest⟩ := List.pairwise_cons.mp hl
    have hmo := hfit mo List.mem_cons_self
    have hfits : ∀ other ∈ rest, other.Fits := fun o ho => hfit o (List.mem_cons_of_mem mo ho)
    rw [resolveForwards]
    split
    · rename_i hlt
      have hnone : (mo :: rest).filter (mayPoint S cs p) = [] := by
        refine filter_none fun o ho => ?_
        rcases List.mem_cons.mp ho with rfl | ho
        · exact ObjectPair.not_may_of_above hmo hmo hlt (Nat.le_refl _)
        · exact ObjectPair.not_may_of_above hmo (hfits o ho) hlt (hbefore o ho).lt.le
      rw [hnone, List.append_nil]
    · rw [List.filter_cons]
      cases hmay : S.mayBeTrue cs (mo.getBoundsCheckPointer p) with
      | true =>
        have hkept : mayPoint S cs p mo = true := hmay
        simp only [hmay, hkept, if_true]
        split
        · rename_i hfast
          have hnone : rest.filter (mayPoint S cs p) = [] := filter_none fun o ho =>
            ObjectPair.not_may_of_must hmo (hfits o ho) hfast.2 (.inl (hbefore o ho))
          rw [hnone]
        · rw [ih hrest hfits, List.append_assoc, List.singleton_append]
      | false =>
        have hdropped : mayPoint S cs p mo = false := hmay
        simp only [hmay, hdropped, Bool.false_eq_true, if_false]
        exact ih hrest hfits rl

end Search

variable {space : AddressSpace} {mo other : ObjectPair} {a : Nat}

theorem below_sorted (space : AddressSpace) (a : Nat) :
    (space.below a).Pairwise fun x y => y.Before x :=
  List.pairwise_reverse.mpr (space.apart.sublist (List.takeWhile_sublist _))

theorem upper_sorted (space : AddressSpace) (a : Nat) :
    (space.upper a).Pairwise ObjectPair.Before :=
  space.apart.sublist (List.dropWhile_sublist _)

theorem nearest_perm (space : AddressSpace) (a : Nat) : (space.nearest a).Perm space.objects := by
  have h := List.takeWhile_append_dropWhile (p := fun mo => decide (mo.address ≤ a))
    (l := space.objects)
  unfold nearest below upper
  conv_rhs => rw [← h]
  exact (List.reverse_perm _).append_right _

theorem mem_nearest : mo ∈ space.nearest a ↔ mo ∈ space.objects :=
  (space.nearest_perm a).mem_iff

theorem objects_nodup (space : AddressSpace) : space.objects.Nodup := by
  refine space.apart.imp ?_
  intro x y h he
  exact absurd h.lt (he ▸ lt_irrefl _)

theorem before_of_ne (hmo : mo ∈ space.objects) (hother : other ∈ space.objects)
    (hne : mo ≠ other) : mo.Before other ∨ other.Before mo := by
  have : Std.Symm fun x y : ObjectPair => x.Before y ∨ y.Before x := ⟨fun _ _ h => h.symm⟩
  have h : space.objects.Pairwise fun x y => x.Before y ∨ y.Before x := space.apart.imp .inl
  exact h.forall hmo hother hne

/-- At most one object holds an address. -/
theorem covers_unique (hmo : mo ∈ space.objects) (hother : other ∈ space.objects)
    (hc : mo.Covers a) (hc' : other.Covers a) : mo = other := by
  by_contra hne
  exact ObjectPair.Covers.apart (before_of_ne hmo hother hne) hc hc'

/-- `lookup_previous` finds the object that holds an address. -/
theorem head_below (hmo : mo ∈ space.objects) (hc : mo.Covers a) :
    (space.below a).head? = some mo := by
  obtain ⟨front, back, hsplit⟩ := List.append_of_mem hmo
  have hsorted := space.apart
  rw [hsplit, List.pairwise_append, List.pairwise_cons] at hsorted
  obtain ⟨-, ⟨hback, -⟩, hfront⟩ := hsorted
  have htake : space.objects.takeWhile (fun mo => mo.address ≤ a) = front ++ [mo] := by
    rw [hsplit, List.takeWhile_append_of_pos]
    · congr 1
      rw [List.takeWhile_cons_of_pos (by simpa using hc.1)]
      congr 1
      cases back with
      | nil => rfl
      | cons next rest =>
        rw [List.takeWhile_cons_of_neg]
        have hnext := hback next List.mem_cons_self
        have hbelow := hc.2.trans_le hnext
        simpa using hbelow
    · intro x hx
      have hlt := (hfront x hx mo List.mem_cons_self).lt
      simpa using hlt.le.trans hc.1
  unfold below
  rw [htake, List.reverse_append]
  rfl

theorem mem_of_head_below (h : (space.below a).head? = some mo) : mo ∈ space.objects := by
  have hmem := List.mem_of_mem_head? (Option.mem_def.mpr h)
  exact (List.takeWhile_sublist _).subset (List.mem_reverse.mp hmem)

theorem address_le_of_head_below (h : (space.below a).head? = some mo) : mo.address ≤ a := by
  have hmem := List.mem_of_mem_head? (Option.mem_def.mpr h)
  have hpos := List.mem_takeWhile_imp (List.mem_reverse.mp hmem)
  simpa using hpos

theorem resolveConstant_iff :
    space.resolveConstant a = some mo ↔ mo ∈ space.objects ∧ mo.Covers a := by
  unfold resolveConstant
  rw [Option.filter_eq_some_iff]
  simp only [decide_eq_true_iff]
  constructor
  · intro h
    obtain ⟨hhead, hc⟩ := h
    have hle := address_le_of_head_below hhead
    refine ⟨mem_of_head_below hhead, hle, ?_⟩
    omega
  · intro h
    obtain ⟨hmem, hc⟩ := h
    refine ⟨head_below hmem hc, ?_⟩
    unfold ObjectPair.Covers at hc
    omega

section Candidates

variable {S : ValueSolver} {cs : List Constraint} {p : Pointer}

theorem mayPoint_iff (hmo : mo ∈ space.objects) :
    mayPoint S.toSolver cs p mo = true ↔ ∃ a ∈ feasibleValues cs p.val, mo.Covers a :=
  ObjectPair.may_iff (space.fits mo hmo)

/-- A constant address has one candidate at most, the object that holds it. -/
theorem resolve_constant (hfeas : ∃ σ : Assignment, ∀ d ∈ cs, d.Holds σ) {w : Width} {v : BitVec w}
    (hp : p.val = .constant w v) (b : Nat) :
    (space.resolveConstant v.toNat).toList =
      (space.nearest b).filter (mayPoint S.toSolver cs p) := by
  obtain ⟨σ, hσ⟩ := hfeas
  have hvalue : ∀ a, a ∈ feasibleValues cs p.val ↔ a = v.toNat := by
    intro a
    rw [hp]
    constructor
    · intro h
      obtain ⟨τ, -, h⟩ := h
      rw [← h, constant_value]
    · intro h
      exact ⟨σ, hσ, by rw [constant_value, h]⟩
  have hmay : ∀ mo ∈ space.objects, mayPoint S.toSolver cs p mo = true ↔ mo.Covers v.toNat := by
    intro mo hmo
    rw [mayPoint_iff hmo]
    simp only [hvalue, exists_eq_left]
  cases hres : space.resolveConstant v.toNat with
  | none =>
    symm
    refine List.filter_eq_nil_iff.mpr ?_
    intro mo hmo hc
    have hmem := mem_nearest.mp hmo
    have hsome := resolveConstant_iff.mpr ⟨hmem, (hmay mo hmem).mp hc⟩
    rw [hres] at hsome
    cases hsome
  | some mo =>
    obtain ⟨hmem, hc⟩ := resolveConstant_iff.mp hres
    have hnodup : (space.nearest b).Nodup := (space.nearest_perm b).nodup_iff.mpr space.objects_nodup
    have hkeep : (space.nearest b).filter (mayPoint S.toSolver cs p) =
        (space.nearest b).filter (· == mo) := by
      refine List.filter_congr ?_
      intro other hother
      have hother := mem_nearest.mp hother
      rw [Bool.eq_iff_iff, hmay other hother, beq_iff_eq]
      constructor
      · exact fun h => covers_unique hother hmem h hc
      · intro h
        rw [h]
        exact hc
    rw [hkeep, List.filter_beq, List.count_eq_one_of_mem hnodup (mem_nearest.mpr hmem)]
    rfl

/-- The resolution list: every object the address may point into, from the example on. -/
theorem resolve_eq (hfeas : ∃ σ : Assignment, ∀ d ∈ cs, d.Holds σ) :
    space.resolve S cs p =
      (space.nearest (S.getValue cs p.val)).filter (mayPoint S.toSolver cs p) := by
  have hbelow : ∀ mo ∈ space.below (S.getValue cs p.val), mo ∈ space.objects := fun mo h =>
    mem_nearest.mp (List.mem_append_left _ h)
  have hupper : ∀ mo ∈ space.upper (S.getValue cs p.val), mo ∈ space.objects := fun mo h =>
    mem_nearest.mp (List.mem_append_right _ h)
  unfold resolve
  split
  · rename_i w v hp
    exact resolve_constant hfeas hp _
  · have hforwards (rl : List ObjectPair) :
        resolveForwards S.toSolver cs p (space.upper (S.getValue cs p.val)) rl =
          rl ++ (space.upper (S.getValue cs p.val)).filter (mayPoint S.toSolver cs p) :=
      resolveForwards_eq (space.upper_sorted _) (fun mo h => space.fits mo (hupper mo h)) rl
    rw [nearest, List.filter_append]
    rcases @resolveBackwards_eq S.toSolver cs p _ (space.below_sorted (S.getValue cs p.val))
      (fun mo h => space.fits mo (hbelow mo h)) [] with h | h
    · simp only [h, List.nil_append]
      exact hforwards _
    · obtain ⟨mo, hmo, -, hmust, hfilter, h⟩ := h
      have hnone : (space.upper (S.getValue cs p.val)).filter (mayPoint S.toSolver cs p) = [] := by
        refine filter_none fun other hother => ?_
        have hne : mo ≠ other := by
          intro he
          have hnodup := (space.nearest_perm (S.getValue cs p.val)).nodup_iff.mpr
            space.objects_nodup
          exact List.disjoint_of_nodup_append hnodup hmo (he ▸ hother)
        exact ObjectPair.not_may_of_must (space.fits mo (hbelow mo hmo))
          (space.fits other (hupper other hother)) hmust
          (before_of_ne (hbelow mo hmo) (hupper other hother) hne)
      simp only [h, hfilter, hnone, List.append_nil]

theorem findBackwards_mem {l : List ObjectPair} (h : findBackwards S.toSolver cs p l = some mo) :
    mo ∈ l := by
  induction l with
  | nil => cases h
  | cons first rest ih =>
    unfold findBackwards at h
    split at h
    · cases h
      exact List.mem_cons_self
    · split at h
      · cases h
      · exact List.mem_cons_of_mem first (ih h)

theorem findForwards_mem {l : List ObjectPair} (h : findForwards S.toSolver cs p l = some mo) :
    mo ∈ l := by
  induction l with
  | nil => cases h
  | cons first rest ih =>
    unfold findForwards at h
    split at h
    · cases h
    · split at h
      · cases h
        exact List.mem_cons_self
      · exact List.mem_cons_of_mem first (ih h)

theorem resolveOne_mem (h : space.resolveOne S cs p = some mo) : mo ∈ space.objects := by
  unfold resolveOne at h
  split at h
  · exact (resolveConstant_iff.mp h).1
  · dsimp only at h
    split at h
    · rename_i first hfirst
      cases h
      exact mem_of_head_below (Option.filter_eq_some_iff.mp hfirst).1
    · rcases hback : findBackwards S.toSolver cs p (space.below (S.getValue cs p.val)) with _ | first
      · rw [hback, Option.orElse_none] at h
        exact mem_nearest.mp (List.mem_append_right _ (findForwards_mem h))
      · rw [hback, Option.orElse_some] at h
        cases h
        exact mem_nearest.mp (List.mem_append_left _ (findBackwards_mem hback))

/-- An object that every address is in bounds of is the one that `resolveOne` finds. -/
theorem resolveOne_of_all (hfeas : ∃ σ : Assignment, ∀ d ∈ cs, d.Holds σ)
    (hmo : mo ∈ space.objects) {bytes : Nat} (hbytes : 0 < bytes)
    (hall : ∀ a ∈ feasibleValues cs p.val, mo.InBounds bytes a) :
    space.resolveOne S cs p = some mo := by
  unfold resolveOne
  split
  · rename_i w v hp
    obtain ⟨σ, hσ⟩ := hfeas
    have hin := hall v.toNat ⟨σ, hσ, by rw [hp, constant_value]⟩
    exact resolveConstant_iff.mpr ⟨hmo, hin.covers hbytes⟩
  · obtain ⟨σ, hσ, hv⟩ := S.feasible cs p.val hfeas
    have hin := hall (S.getValue cs p.val) ⟨σ, hσ, hv⟩
    have hhead := head_below hmo (hin.covers hbytes)
    have hlt : S.getValue cs p.val - mo.address < mo.size := by
      unfold ObjectPair.InBounds at hin
      omega
    simp only [hhead, Option.filter_some, hlt, decide_true, if_true]

/-- A backward search without a result has met no candidate. -/
theorem findBackwards_none {l : List ObjectPair} (hl : l.Pairwise fun a b => b.Before a)
    (hfit : ∀ mo ∈ l, mo.Fits) (h : findBackwards S.toSolver cs p l = none) :
    ∀ mo ∈ l, mayPoint S.toSolver cs p mo = false := by
  induction l with
  | nil => simp
  | cons first rest ih =>
    obtain ⟨hbefore, hrest⟩ := List.pairwise_cons.mp hl
    have hfits : ∀ other ∈ rest, other.Fits := fun o ho => hfit o (List.mem_cons_of_mem first ho)
    unfold findBackwards at h
    split at h
    · cases h
    · rename_i hmay
      intro mo hmo
      rcases List.mem_cons.mp hmo with hmo | hmo
      · rw [hmo]
        exact Bool.eq_false_iff.mpr hmay
      · split at h
        · rename_i hge
          exact ObjectPair.not_may_of_atOrAbove (hfit first List.mem_cons_self) (hfits mo hmo) hge
            (hbefore mo hmo)
        · exact ih hrest hfits h mo hmo

theorem findForwards_none {l : List ObjectPair} (hl : l.Pairwise ObjectPair.Before)
    (hfit : ∀ mo ∈ l, mo.Fits) (h : findForwards S.toSolver cs p l = none) :
    ∀ mo ∈ l, mayPoint S.toSolver cs p mo = false := by
  induction l with
  | nil => simp
  | cons first rest ih =>
    obtain ⟨hbefore, hrest⟩ := List.pairwise_cons.mp hl
    have hfirst := hfit first List.mem_cons_self
    have hfits : ∀ other ∈ rest, other.Fits := fun o ho => hfit o (List.mem_cons_of_mem first ho)
    unfold findForwards at h
    split at h
    · rename_i hlt
      intro mo hmo
      rcases List.mem_cons.mp hmo with hmo | hmo
      · rw [hmo]
        exact ObjectPair.not_may_of_above hfirst hfirst hlt (Nat.le_refl _)
      · exact ObjectPair.not_may_of_above hfirst (hfits mo hmo) hlt (hbefore mo hmo).lt.le
    · split at h
      · cases h
      · rename_i hmay
        intro mo hmo
        rcases List.mem_cons.mp hmo with hmo | hmo
        · rw [hmo]
          exact Bool.eq_false_iff.mpr hmay
        · exact ih hrest hfits h mo hmo

theorem findBackwards_may {l : List ObjectPair} (h : findBackwards S.toSolver cs p l = some mo) :
    mayPoint S.toSolver cs p mo = true := by
  induction l with
  | nil => cases h
  | cons first rest ih =>
    unfold findBackwards at h
    split at h
    · rename_i hmay
      cases h
      exact hmay
    · split at h
      · cases h
      · exact ih h

theorem findForwards_may {l : List ObjectPair} (h : findForwards S.toSolver cs p l = some mo) :
    mayPoint S.toSolver cs p mo = true := by
  induction l with
  | nil => cases h
  | cons first rest ih =>
    unfold findForwards at h
    split at h
    · cases h
    · split at h
      · rename_i hmay
        cases h
        exact hmay
      · exact ih h

theorem mem_resolve (hfeas : ∃ σ : Assignment, ∀ d ∈ cs, d.Holds σ) :
    mo ∈ space.resolve S cs p ↔
      mo ∈ space.objects ∧ ∃ a ∈ feasibleValues cs p.val, mo.Covers a := by
  rw [resolve_eq hfeas, List.mem_filter, mem_nearest]
  exact and_congr_right fun hmo => mayPoint_iff hmo

theorem resolve_nodup (hfeas : ∃ σ : Assignment, ∀ d ∈ cs, d.Holds σ) :
    (space.resolve S cs p).Nodup := by
  rw [resolve_eq hfeas]
  exact ((space.nearest_perm _).nodup_iff.mpr space.objects_nodup).filter _

/-- What `resolveOne` finds holds a feasible address. -/
theorem resolveOne_covers (hfeas : ∃ σ : Assignment, ∀ d ∈ cs, d.Holds σ)
    (h : space.resolveOne S cs p = some mo) :
    mo ∈ space.objects ∧ ∃ a ∈ feasibleValues cs p.val, mo.Covers a := by
  have hmem := resolveOne_mem h
  refine ⟨hmem, ?_⟩
  unfold resolveOne at h
  split at h
  · rename_i w v hp
    obtain ⟨σ, hσ⟩ := hfeas
    exact ⟨v.toNat, ⟨σ, hσ, by rw [hp, constant_value]⟩, (resolveConstant_iff.mp h).2⟩
  · dsimp only at h
    split at h
    · rename_i first hfirst
      cases h
      obtain ⟨hhead, hlt⟩ := Option.filter_eq_some_iff.mp hfirst
      obtain ⟨σ, hσ, hvalue⟩ := S.feasible cs p.val hfeas
      refine ⟨_, ⟨σ, hσ, hvalue⟩, address_le_of_head_below hhead, ?_⟩
      rw [decide_eq_true_iff] at hlt
      omega
    · apply (mayPoint_iff hmem).mp
      rcases hback : findBackwards S.toSolver cs p (space.below (S.getValue cs p.val)) with _ | first
      · rw [hback, Option.orElse_none] at h
        exact findForwards_may h
      · rw [hback, Option.orElse_some] at h
        cases h
        exact findBackwards_may hback

/-- Where a feasible address lies in an object `resolveOne` finds one. -/
theorem resolveOne_isSome (hmo : mo ∈ space.objects)
    (hmay : ∃ a ∈ feasibleValues cs p.val, mo.Covers a) : (space.resolveOne S cs p).isSome := by
  unfold resolveOne
  split
  · rename_i w v hp
    obtain ⟨_, ⟨σ, _, rfl⟩, hc⟩ := hmay
    rw [hp, constant_value] at hc
    rw [resolveConstant_iff.mpr ⟨hmo, hc⟩]
    rfl
  · dsimp only
    split
    · rfl
    · cases hback : findBackwards S.toSolver cs p (space.below (S.getValue cs p.val)) with
      | some first => rfl
      | none =>
        rw [Option.orElse_none]
        cases hforth : findForwards S.toSolver cs p (space.upper (S.getValue cs p.val)) with
        | some first => rfl
        | none =>
          have hbelow := findBackwards_none (space.below_sorted _) (fun x hx => space.fits x
            (mem_nearest.mp (List.mem_append_left _ hx))) hback
          have hupper := findForwards_none (space.upper_sorted _) (fun x hx => space.fits x
            (mem_nearest.mp (List.mem_append_right _ hx))) hforth
          have htrue := (mayPoint_iff (S := S) hmo).mpr hmay
          rcases List.mem_append.mp (mem_nearest.mpr hmo) with hmem | hmem
          · rw [hbelow mo hmem] at htrue
            cases htrue
          · rw [hupper mo hmem] at htrue
            cases htrue

end Candidates

end AddressSpace

end Encider
