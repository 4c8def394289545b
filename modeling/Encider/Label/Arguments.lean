import Encider.Label.Memory
import Encider.Label.Symbolic

/-! `Executor::setSymRegionSensitive`: the labels of the object a sensitive argument points into. -/

namespace Encider

inductive Sensitivity where
  | high | low | mixed

/-- What the configuration declares, and what the module's types are. -/
structure SensitivityTables where
  highFunctionArgs : StdMap String (Finset Nat)
  lowFunctionArgs : StdMap String (Finset Nat)
  mixedFunctionArgs : StdMap String (Finset Nat)
  highFunctionArgsRet : StdMap String (Finset Nat)
  lowFunctionArgsRet : StdMap String (Finset Nat)
  mixedFunctionArgsRet : StdMap String (Finset Nat)
  highTypeRegions : StdMap String (List Region)
  lowTypeRegions : StdMap String (List Region)
  funcArgTypeHints : StdMap String (StdMap Nat String)
  /-- `getTypeAllocSize` of the type of a name. -/
  typeAllocSize : String → Nat

/-- The labels of all states and symbols. -/
structure Labels where
  memory : MemoryRegions
  sym : SymRegions

/-- The fields of a `MemoryObject` that are read. -/
structure SensitiveObject where
  baseExpr : Expr
  name : String
  size : BitVec 32

structure SensitiveArgument where
  saddr : Nat
  sm : SensitiveObject
  fname : String
  /-- The name of the argument's type. -/
  argtype : String
  ai : Nat
  pointerType : Bool
  oncall : Bool
  offset : BitVec 32

namespace SensitivityTables

variable (T : SensitivityTables) (c : SensitiveArgument)

def argsH : Finset Nat :=
  ((if c.oncall then T.highFunctionArgs else T.highFunctionArgsRet) c.fname).getD ∅

def argsL : Finset Nat :=
  ((if c.oncall then T.lowFunctionArgs else T.lowFunctionArgsRet) c.fname).getD ∅

def argsM : Finset Nat :=
  ((if c.oncall then T.mixedFunctionArgs else T.mixedFunctionArgsRet) c.fname).getD ∅

def sensitivity : Option Sensitivity :=
  if c.ai ∈ T.argsH c then some .high
  else if c.ai ∈ T.argsL c then some .low
  else if c.ai ∈ T.argsM c then some .mixed
  else none

def hint : Option String := (T.funcArgTypeHints c.fname).bind fun hints => hints c.ai

/-- The hint takes the place of the type. -/
def btname : String := (T.hint c).getD c.argtype

def typeRegions (high : Bool) : StdMap String (List Region) :=
  if high then T.highTypeRegions else T.lowTypeRegions

/-- The region that stands for the whole argument. -/
def wholeRegion : Region where
  offset := c.offset
  size := if c.pointerType then c.sm.size * 8
    else BitVec.ofNat 32 (T.typeAllocSize (T.btname c) * 8)

/-- The regions of an argument with one label. -/
def regions (high : Bool) : List Region :=
  (T.typeRegions high (T.btname c)).getD [T.wholeRegion c]

end SensitivityTables

namespace Labels

/-- `set(High|Low)MemoryRegion` and `set(High|Low)SymRegion`. -/
def setRegions (σ : Labels) (high : Bool) (c : SensitiveArgument) (rs : List Region) : Labels where
  memory := σ.memory.setMemoryRegion high c.saddr c.sm.baseExpr rs
  sym := σ.sym.setSymRegion high c.sm.name rs

variable (T : SensitivityTables) (σ : Labels) (c : SensitiveArgument)

/-- `none` where the assertion fails. -/
def setSymRegionSensitive : Option Labels :=
  match T.sensitivity c with
  | some .high => some (σ.setRegions true c (T.regions c true))
  | some .low => some (σ.setRegions false c (T.regions c false))
  | some .mixed =>
    if T.hint c = none ∧ T.lowTypeRegions (T.btname c) = none ∧
        T.highTypeRegions (T.btname c) = none then none
    else
      let σ := match T.lowTypeRegions (T.btname c) with
        | some rs => σ.setRegions false c rs
        | none => σ
      let σ := match T.highTypeRegions (T.btname c) with
        | some rs => σ.setRegions true c rs
        | none => σ
      some σ
  | none => some σ

/-- These bits of the object carry the label, in the state and in the symbol. -/
structure Labelled (high : Bool) (bits : Set Nat) : Prop where
  memory : σ.memory.labelled high c.saddr c.sm.baseExpr = bits
  sym : σ.sym.labelled high c.sm.name = bits

variable {σ c} {high : Bool} {rs rs' : List Region}

theorem setRegions_labelled (σ : Labels) (c : SensitiveArgument) (high : Bool) (rs : List Region) :
    (σ.setRegions high c rs).Labelled c high (covers rs) := by
  constructor
  · rw [setRegions, MemoryRegions.labelled, MemoryRegions.setMemoryRegion_entry,
      if_pos ⟨rfl, rfl⟩]
  · ext b
    simp [setRegions, SymRegions.labelled, SymRegions.setSymRegion_same]

/-- The other label loses what the new regions clear. -/
theorem setRegions_labelled_not (σ : Labels) (c : SensitiveArgument) (high : Bool)
    (rs rs' : List Region) : ((σ.setRegions high c rs).setRegions (!high) c rs').Labelled c high
      (covers (clearRegions rs' rs)) := by
  have hmemory := σ.memory.setMemoryRegion_entry high c.saddr c.sm.baseExpr rs c.saddr c.sm.baseExpr
  rw [if_pos ⟨rfl, rfl⟩] at hmemory
  have hclear := (σ.setRegions high c rs).memory.setMemoryRegion_entry_not (!high) c.saddr
    c.sm.baseExpr rs' c.saddr c.sm.baseExpr
  rw [Bool.not_not, if_pos ⟨rfl, rfl⟩] at hclear
  have hset : (σ.setRegions high c rs).sym.regions high c.sm.name = some rs := by
    rw [setRegions, SymRegions.setSymRegion_same, Function.update_self]
  have hsym : ((σ.setRegions high c rs).sym.setSymRegion (!high) c.sm.name rs').regions
      (!(!high)) = _ := SymRegions.setSymRegion_opposite
  rw [Bool.not_not, hset, Option.map_some] at hsym
  constructor
  · rw [MemoryRegions.labelled]
    exact congrArg covers (hclear.trans (congrArg (clearRegions rs') hmemory))
  · ext b
    have hname := congrFun hsym c.sm.name
    rw [Function.update_self] at hname
    simp only [SymRegions.labelled, Set.mem_ofPred_eq]
    constructor
    · rintro ⟨rs₁, hrs₁, hb⟩
      obtain rfl := Option.some.inj (hname.symm.trans hrs₁)
      exact hb
    · intro hb
      exact ⟨_, hname, hb⟩

theorem Labelled.iff {A B : Set Nat} (h : σ.Labelled c high A) : σ.Labelled c high B ↔ A = B := by
  constructor
  · intro h'
    exact h.memory.symm.trans h'.memory
  · rintro rfl
    exact h

/-! What is intended. -/

/-- Bits that lie as many bytes further on. -/
def shifted (d : Nat) (bits : Set Nat) : Set Nat := {b | ∃ b' ∈ bits, b = b' + 8 * d}

/-- The bits of the argument: those of the object, or those of its type. -/
def extent (T : SensitivityTables) (c : SensitiveArgument) : Nat :=
  if c.pointerType then 8 * c.sm.size.toNat else 8 * T.typeAllocSize (T.btname c)

/-- The regions of the type from the offset on, or the bits of the argument from there on that the
object has. -/
def intended (T : SensitivityTables) (c : SensitiveArgument) (high : Bool) : Set Nat :=
  match T.typeRegions high (T.btname c) with
  | some rs => shifted c.offset.toNat (covers rs)
  | none => {b | 8 * c.offset.toNat ≤ b ∧
      b < min (8 * c.offset.toNat + extent T c) (8 * c.sm.size.toNat)}

/-- An argument with one label has it on the intended bits, and a mixed one both labels on the
regions of its type. -/
def LabelsIntended (T : SensitivityTables) (σ : Labels) (c : SensitiveArgument) : Prop :=
  ∀ σ', setSymRegionSensitive T σ c = some σ' →
    match T.sensitivity c with
    | some .high => σ'.Labelled c true (intended T c true)
    | some .low => σ'.Labelled c false (intended T c false)
    | some .mixed => ∀ high, ∀ rs ∈ T.typeRegions high (T.btname c),
        σ'.Labelled c high (shifted c.offset.toNat (covers rs))
    | none => True

/-- The regions are none, or the offset is zero. -/
def Unmoved (c : SensitiveArgument) (rs : List Region) : Prop := c.offset = 0 ∨ covers rs = ∅

/-- The region for the whole argument: at the offset zero, and not beyond the object. -/
def WholeFits (T : SensitivityTables) (c : SensitiveArgument) : Prop :=
  let size := (T.wholeRegion c).size.toNat
  let rest := min (extent T c) (8 * c.sm.size.toNat - 8 * c.offset.toNat)
  size = rest ∧ (c.offset = 0 ∨ size = 0)

theorem covers_eq_shifted_iff :
    covers rs = shifted c.offset.toNat (covers rs) ↔ Unmoved c rs := by
  constructor
  · intro h
    by_contra hmoved
    rw [Unmoved, not_or] at hmoved
    have hpos : 0 < c.offset.toNat := by
      rw [Nat.pos_iff_ne_zero]
      exact fun h0 => hmoved.1 (BitVec.eq_of_toNat_eq h0)
    -- the least bit comes from a lesser one
    have hne : ∃ b, b ∈ covers rs := Set.nonempty_iff_ne_empty.mpr hmoved.2
    classical
    have hmin := Nat.find_spec hne
    obtain ⟨b, hb, hb'⟩ := h.le hmin
    have hle := Nat.find_min' hne hb
    omega
  · rintro (h0 | hempty)
    · rw [h0]
      ext b
      simp [shifted]
    · rw [hempty]
      ext b
      simp [shifted]

theorem covers_singleton (r : Region) : covers [r] = r.bits := by
  ext b
  simp [covers]

theorem wholeRegion_eq_iff (T : SensitivityTables) (c : SensitiveArgument) :
    covers [T.wholeRegion c] = {b | 8 * c.offset.toNat ≤ b ∧
      b < min (8 * c.offset.toNat + extent T c) (8 * c.sm.size.toNat)} ↔ WholeFits T c := by
  have hoffset : c.offset = 0 ↔ c.offset.toNat = 0 :=
    ⟨fun h => h ▸ rfl, fun h => BitVec.eq_of_toNat_eq h⟩
  have hbase : (T.wholeRegion c).base = c.offset.toNat := rfl
  have hstop : (T.wholeRegion c).stop = c.offset.toNat + (T.wholeRegion c).size.toNat := rfl
  rw [covers_singleton, WholeFits, hoffset, Set.ext_iff]
  simp only [Region.mem_bits, hbase, hstop, Set.mem_ofPred_eq]
  constructor
  · intro h
    have hfirst := h c.offset.toNat
    have hfirst' := h (8 * c.offset.toNat)
    have hlast := h (c.offset.toNat + (T.wholeRegion c).size.toNat)
    have hlast' := h (8 * c.offset.toNat +
      min (extent T c) (8 * c.sm.size.toNat - 8 * c.offset.toNat))
    have hlast'' := h (c.offset.toNat + (T.wholeRegion c).size.toNat - 1)
    omega
  · intro h b
    omega

/-- The condition for an argument with one label. -/
def SingleRight (T : SensitivityTables) (c : SensitiveArgument) (high : Bool) : Prop :=
  match T.typeRegions high (T.btname c) with
  | some rs => Unmoved c rs
  | none => WholeFits T c

/-- The condition for a mixed argument: taking out the high regions leaves the low ones. -/
structure MixedRight (T : SensitivityTables) (c : SensitiveArgument) : Prop where
  high : ∀ rs ∈ T.highTypeRegions (T.btname c), Unmoved c rs
  low : T.highTypeRegions (T.btname c) = none → ∀ rs ∈ T.lowTypeRegions (T.btname c), Unmoved c rs
  both : ∀ rsH ∈ T.highTypeRegions (T.btname c), ∀ rsL ∈ T.lowTypeRegions (T.btname c),
    covers (clearRegions rsH rsL) = shifted c.offset.toNat (covers rsL)

theorem single_iff (T : SensitivityTables) (σ : Labels) (c : SensitiveArgument) (high : Bool) :
    (σ.setRegions high c (T.regions c high)).Labelled c high (intended T c high) ↔
      SingleRight T c high := by
  rw [(setRegions_labelled σ c high _).iff, intended, SingleRight, SensitivityTables.regions]
  cases T.typeRegions high (T.btname c) with
  | none => exact wholeRegion_eq_iff T c
  | some rs => exact covers_eq_shifted_iff

/-- The labels are the intended ones exactly at the offset zero, for an object that holds the
argument and for regions that do not take bits from one another. -/
theorem labelsIntended_iff (T : SensitivityTables) (σ : Labels) (c : SensitiveArgument) :
    LabelsIntended T σ c ↔
      match T.sensitivity c with
      | some .high => SingleRight T c true
      | some .low => SingleRight T c false
      | some .mixed => MixedRight T c
      | none => True := by
  unfold LabelsIntended setSymRegionSensitive
  cases hs : T.sensitivity c with
  | none => simp
  | some s =>
    cases s with
    | high => simp only [Option.some.injEq, forall_eq', single_iff]
    | low => simp only [Option.some.injEq, forall_eq', single_iff]
    | mixed =>
      simp only [Bool.forall_bool, SensitivityTables.typeRegions, Bool.false_eq_true, if_false,
        if_true]
      cases hl : T.lowTypeRegions (T.btname c) with
      | none =>
        cases hh : T.highTypeRegions (T.btname c) with
        | none =>
          refine iff_of_true (fun σ' _ => ⟨nofun, nofun⟩) ⟨?_, ?_, ?_⟩ <;> simp [hl, hh]
        | some rsH =>
          have hright : MixedRight T c ↔ Unmoved c rsH := by
            constructor
            · exact fun h => h.high rsH hh
            · refine fun h => ⟨?_, ?_, ?_⟩ <;> simp [hl, hh, h]
          have hlabelled := setRegions_labelled σ c true rsH
          simp [hright, hlabelled.iff, covers_eq_shifted_iff]
      | some rsL =>
        cases hh : T.highTypeRegions (T.btname c) with
        | none =>
          have hright : MixedRight T c ↔ Unmoved c rsL := by
            constructor
            · exact fun h => h.low hh rsL hl
            · refine fun h => ⟨?_, ?_, ?_⟩ <;> simp [hl, hh, h]
          have hlabelled := setRegions_labelled σ c false rsL
          simp [hright, hlabelled.iff, covers_eq_shifted_iff]
        | some rsH =>
          have hright : MixedRight T c ↔ Unmoved c rsH ∧
              covers (clearRegions rsH rsL) = shifted c.offset.toNat (covers rsL) := by
            constructor
            · exact fun h => ⟨h.high rsH hh, h.both rsH hh rsL hl⟩
            · refine fun h => ⟨?_, ?_, ?_⟩ <;> simp [hl, hh, h]
          have hlow := setRegions_labelled_not σ c false rsL rsH
          have hhigh := setRegions_labelled (σ.setRegions false c rsL) c true rsH
          rw [Bool.not_false] at hlow
          simp [hright, hlow.iff, hhigh.iff, covers_eq_shifted_iff, and_comm]

/-- The first argument of `use` is high. -/
def useTables : SensitivityTables where
  highFunctionArgs := Function.update StdMap.empty "use" (some {0})
  lowFunctionArgs := .empty
  mixedFunctionArgs := .empty
  highFunctionArgsRet := .empty
  lowFunctionArgsRet := .empty
  mixedFunctionArgsRet := .empty
  highTypeRegions := .empty
  lowTypeRegions := .empty
  funcArgTypeHints := .empty
  typeAllocSize _ := 4

/-- It points to the second byte of an object of four bytes. -/
def secondByte : SensitiveArgument :=
  ⟨0, ⟨Expr.const 4096 64, "key", 4⟩, "use", "i32", 0, true, true, 1⟩

/-- The label begins at the second bit. -/
theorem secondByte_mislabelled :
    ¬ LabelsIntended useTables ⟨.empty, .empty⟩ secondByte := by
  intro h
  have hhigh : Labelled _ secondByte true (intended useTables secondByte true) := h _ rfl
  have heq := (setRegions_labelled ⟨.empty, .empty⟩ secondByte true
    (useTables.regions secondByte true)).iff.mp hhigh
  have hmem : 1 ∈ covers (useTables.regions secondByte true) :=
    ⟨_, List.mem_singleton_self _, by decide, by decide⟩
  rw [heq] at hmem
  have hfirst : 8 * 1 ≤ 1 := hmem.1
  omega

end Labels

end Encider
