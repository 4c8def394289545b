import Encider.Object.State
import Encider.Lib.Fold

/-! What the redundant stores of an object say about its bytes, and that every operation on single
bytes keeps it. -/

namespace Encider

open Encider.Expr

/-- A write that the update list of an object of `n` bytes may hold. -/
structure WriteOk (n : Nat) (w : Expr × Expr) : Prop where
  index : w.1.WellTyped
  value : w.2.WellTyped
  indexWidth : w.1.getWidth = 32
  valueWidth : w.2.getWidth = 8
  bound : ∀ v (c : BitVec v), w.1 = .constant v c → c.toNat < n

namespace UpdateList

theorem extendAll_append (us : UpdateList) (ws vs : List (Expr × Expr)) :
    us.extendAll (ws ++ vs) = (us.extendAll ws).extendAll vs :=
  List.foldl_append

theorem extendAll_writes (us : UpdateList) : UpdateList.nil.extendAll us.writes = us := by
  induction us using UpdateList.rec (motive_1 := fun _ => True) with
  | nil => rfl
  | cons i v next _ _ ih =>
    rw [writes, extendAll_append, ih]
    rfl
  | _ => trivial

theorem writes_extendAll (us : UpdateList) (ws : List (Expr × Expr)) :
    (us.extendAll ws).writes = us.writes ++ ws := by
  induction ws generalizing us with
  | nil => exact (List.append_nil _).symm
  | cons w ws ih =>
    have h := ih (.cons w.1 w.2 us)
    rw [writes, List.append_assoc] at h
    exact h

theorem wellTyped_of_writes {a : Array} (hd : a.domain = 32) (hr : a.range = 8) {n : Nat}
    {us : UpdateList} (h : ∀ w ∈ us.writes, WriteOk n w) : us.WellTyped a := by
  induction us using UpdateList.rec (motive_1 := fun _ => True) with
  | nil => trivial
  | cons i v next _ _ ih =>
    rw [writes] at h
    have hw := h (i, v) (List.mem_append_right _ List.mem_cons_self)
    exact ⟨hw.index, hw.value, hw.indexWidth.trans hd.symm, hw.valueWidth.trans hr.symm,
      ih fun w hmem => h w (List.mem_append_left _ hmem)⟩
  | _ => trivial

/-- More writes keep two lists the same at an index. -/
theorem contents_extendAll_congr {σ : Assignment} {a b : Array} (hr : a.range = b.range) {i : Nat}
    {us vs : UpdateList} (h : (us.contents σ a i).toNat = (vs.contents σ b i).toNat)
    (ws : List (Expr × Expr)) :
    ((us.extendAll ws).contents σ a i).toNat = ((vs.extendAll ws).contents σ b i).toNat := by
  induction ws generalizing us vs with
  | nil => exact h
  | cons w ws ih =>
    have hcons : ((cons w.1 w.2 us).contents σ a i).toNat =
        ((cons w.1 w.2 vs).contents σ b i).toNat := by
      rw [contents, contents]
      split
      · rw [BitVec.toNat_ofNat, BitVec.toNat_ofNat, hr]
      · exact h
    exact ih hcons

end UpdateList

namespace ObjectState

/-- The root of the update list, where a constant array not yet created is zero. -/
def base (os : ObjectState) : Array :=
  os.root.getD (constantArray "" os.size (List.replicate os.size 0))

/-- What the update list says of a byte. -/
def contents (σ : Assignment) (os : ObjectState) (i : Nat) : Nat :=
  (os.head.contents σ os.base i).toNat

/-- What the stores and masks say of a byte: each that counts has its value, and one does. -/
structure Cached (σ : Assignment) (m : Bytes) (os : ObjectState) (i : Nat) : Prop where
  concrete : os.isByteConcrete i = true → os.concreteStore i = m i ∧ os.knownSymbolic i = none
  known : ∀ e, os.knownSymbolic i = some e → e.Means σ 8 (m i).toNat
  flushed : os.isByteFlushed i = true → os.contents σ i = (m i).toNat
  covered : os.isByteConcrete i = true ∨ (os.knownSymbolic i).isSome ∨ os.isByteFlushed i = true

/-- Under `σ` the object has the `n` bytes of `m`. -/
structure Represents (σ : Assignment) (n : Nat) (m : Bytes) (os : ObjectState) : Prop where
  size : os.size = n
  small : n < 2 ^ 32
  root : ∀ a, os.root = some a → a.domain = 32 ∧ a.range = 8
  writes : ∀ w ∈ os.head.writes, WriteOk n w
  cached : ∀ i < n, os.Cached σ m i

/-- Two states say the same of a byte. -/
structure AgreeAt (σ : Assignment) (os os' : ObjectState) (i : Nat) : Prop where
  concrete : os'.isByteConcrete i = os.isByteConcrete i
  store : os'.concreteStore i = os.concreteStore i
  known : os'.knownSymbolic i = os.knownSymbolic i
  flushed : os'.isByteFlushed i = os.isByteFlushed i
  contents : os'.contents σ i = os.contents σ i

section
variable {σ : Assignment} {n : Nat} {m : Bytes} {os os' : ObjectState}

theorem Cached.congr {m' : Bytes} {i : Nat} (h : os.Cached σ m i) (ha : AgreeAt σ os os' i)
    (hm : m' i = m i) : os'.Cached σ m' i := by
  constructor
  · intro hc
    rw [ha.store, ha.known, hm]
    exact h.concrete (ha.concrete ▸ hc)
  · intro e he
    rw [hm]
    exact h.known e (ha.known ▸ he)
  · intro hf
    rw [ha.contents, hm]
    exact h.flushed (ha.flushed ▸ hf)
  · rw [ha.concrete, ha.known, ha.flushed]
    exact h.covered

@[simp] theorem markByteConcrete_isByteConcrete (j i : Nat) :
    (os.markByteConcrete j).isByteConcrete i = if i = j then true else os.isByteConcrete i := by
  unfold markByteConcrete isByteConcrete
  cases os.concreteMask with
  | none => simp
  | some mask => simp [Function.update_apply]

@[simp] theorem markByteSymbolic_isByteConcrete (j i : Nat) :
    (os.markByteSymbolic j).isByteConcrete i = if i = j then false else os.isByteConcrete i := by
  unfold markByteSymbolic isByteConcrete
  cases os.concreteMask with
  | none => simp [Function.update_apply]
  | some mask => simp [Function.update_apply]

@[simp] theorem markByteUnflushed_isByteFlushed (j i : Nat) :
    (os.markByteUnflushed j).isByteFlushed i = if i = j then false else os.isByteFlushed i := by
  unfold markByteUnflushed isByteFlushed
  cases os.flushMask with
  | none => simp
  | some mask =>
    simp only [Option.map_some, Option.elim_some, Function.update_apply]
    split <;> rfl

@[simp] theorem setKnownSymbolic_knownSymbolic (j : Nat) (v : Option Expr) (i : Nat) :
    (os.setKnownSymbolic j v).knownSymbolic i = if i = j then v else os.knownSymbolic i := by
  unfold setKnownSymbolic knownSymbolic
  cases os.knownSymbolics with
  | none =>
    cases v with
    | none => simp
    | some v => simp [Function.update_apply]
  | some known => simp [Function.update_apply]

section
variable (j : Nat) (v : Option Expr) (i : Nat)

@[simp] theorem setConcreteStore_isByteConcrete (x : BitVec 8) :
    (os.setConcreteStore j x).isByteConcrete i = os.isByteConcrete i := rfl

@[simp] theorem setConcreteStore_isByteFlushed (x : BitVec 8) :
    (os.setConcreteStore j x).isByteFlushed i = os.isByteFlushed i := rfl

@[simp] theorem setConcreteStore_knownSymbolic (x : BitVec 8) :
    (os.setConcreteStore j x).knownSymbolic i = os.knownSymbolic i := rfl

@[simp] theorem setConcreteStore_concreteStore (x : BitVec 8) :
    (os.setConcreteStore j x).concreteStore = Function.update os.concreteStore j x := rfl

@[simp] theorem markByteConcrete_knownSymbolic :
    (os.markByteConcrete j).knownSymbolic i = os.knownSymbolic i := rfl

@[simp] theorem markByteConcrete_isByteFlushed :
    (os.markByteConcrete j).isByteFlushed i = os.isByteFlushed i := rfl

@[simp] theorem markByteConcrete_concreteStore :
    (os.markByteConcrete j).concreteStore = os.concreteStore := rfl

@[simp] theorem markByteSymbolic_knownSymbolic :
    (os.markByteSymbolic j).knownSymbolic i = os.knownSymbolic i := rfl

@[simp] theorem markByteSymbolic_isByteFlushed :
    (os.markByteSymbolic j).isByteFlushed i = os.isByteFlushed i := rfl

@[simp] theorem markByteSymbolic_concreteStore :
    (os.markByteSymbolic j).concreteStore = os.concreteStore := rfl

@[simp] theorem markByteUnflushed_isByteConcrete :
    (os.markByteUnflushed j).isByteConcrete i = os.isByteConcrete i := rfl

@[simp] theorem markByteUnflushed_knownSymbolic :
    (os.markByteUnflushed j).knownSymbolic i = os.knownSymbolic i := rfl

@[simp] theorem markByteUnflushed_concreteStore :
    (os.markByteUnflushed j).concreteStore = os.concreteStore := rfl

@[simp] theorem setKnownSymbolic_isByteConcrete :
    (os.setKnownSymbolic j v).isByteConcrete i = os.isByteConcrete i := rfl

@[simp] theorem setKnownSymbolic_isByteFlushed :
    (os.setKnownSymbolic j v).isByteFlushed i = os.isByteFlushed i := rfl

@[simp] theorem setKnownSymbolic_concreteStore :
    (os.setKnownSymbolic j v).concreteStore = os.concreteStore := rfl

@[simp] theorem unsetFlushMask_isByteConcrete :
    (os.unsetFlushMask j).isByteConcrete i = os.isByteConcrete i := rfl

@[simp] theorem unsetFlushMask_knownSymbolic :
    (os.unsetFlushMask j).knownSymbolic i = os.knownSymbolic i := rfl

@[simp] theorem unsetFlushMask_concreteStore :
    (os.unsetFlushMask j).concreteStore = os.concreteStore := rfl

end

theorem unsetFlushMask_isByteFlushed (hmask : os.flushMask.isSome) (j i : Nat) :
    (os.unsetFlushMask j).isByteFlushed i = if i = j then true else os.isByteFlushed i := by
  unfold unsetFlushMask isByteFlushed
  cases h : os.flushMask with
  | none =>
    rw [h] at hmask
    cases hmask
  | some mask =>
    simp only [Option.map_some, Option.elim_some, Function.update_apply]
    split <;> rfl

theorem Represents.typed (h : os.Represents σ n m) : os.head.WellTyped os.base ∧
    os.base.domain = 32 ∧ os.base.range = 8 := by
  have hbase : os.base.domain = 32 ∧ os.base.range = 8 := by
    unfold base
    cases hr : os.root with
    | none => exact ⟨rfl, rfl⟩
    | some a => exact h.root a hr
  exact ⟨UpdateList.wellTyped_of_writes hbase.1 hbase.2 h.writes, hbase⟩

/-- The update of one byte, when nothing else is said of the others. -/
theorem Represents.update {m' : Bytes} (h : os.Represents σ n m) (offset : Nat)
    (hsize : os'.size = os.size) (hroot : os'.root = os.root)
    (hwrites : ∀ w ∈ os'.head.writes, WriteOk n w) (hbyte : os'.Cached σ m' offset)
    (hothers : ∀ i < n, i ≠ offset → AgreeAt σ os os' i) (hm : ∀ i, i ≠ offset → m' i = m i) :
    os'.Represents σ n m' := by
  refine ⟨hsize.trans h.size, h.small, hroot ▸ h.root, hwrites, ?_⟩
  intro i hi
  by_cases he : i = offset
  · exact he ▸ hbyte
  · exact (h.cached i hi).congr (hothers i hi he) (hm i he)

theorem write8At_agree (offset : Nat) (v : BitVec 8) {i : Nat} (hi : i ≠ offset) :
    AgreeAt σ os (os.write8At offset v) i := by
  constructor
  · simp [write8At, hi]
  · simp [write8At, hi]
  · simp [write8At, hi]
  · simp [write8At, hi]
  · rfl

theorem Represents.write8At (h : os.Represents σ n m) (offset : Nat) (v : BitVec 8) :
    (os.write8At offset v).Represents σ n (Function.update m offset v) := by
  refine h.update offset rfl rfl h.writes ?_ (fun i _ hi => write8At_agree offset v hi)
    fun i hi => Function.update_of_ne hi _ _
  constructor
  · intro _
    simp [ObjectState.write8At]
  · intro e he
    simp [ObjectState.write8At] at he
  · intro hf
    simp [ObjectState.write8At] at hf
  · left
    simp [ObjectState.write8At]

theorem Represents.write8ExprAt (h : os.Represents σ n m) (offset : Nat) {value : Expr}
    (hvalue : value.WellTyped) (hw : value.getWidth = 8) :
    (os.write8ExprAt offset value).Represents σ n
      (Function.update m offset (value.bits σ 8)) := by
  unfold ObjectState.write8ExprAt
  split
  · rename_i w v
    obtain rfl : w = 8 := hw
    rw [bits_constant, BitVec.setWidth_eq]
    exact h.write8At offset v
  · rename_i hc
    have hagree : ∀ i, i ≠ offset → AgreeAt σ os (((os.setKnownSymbolic offset
        (some value)).markByteSymbolic offset).markByteUnflushed offset) i := by
      intro i hi
      constructor <;> first | rfl | simp [hi]
    refine h.update offset rfl rfl h.writes ?_ (fun i _ hi => hagree i hi)
      fun i hi => Function.update_of_ne hi _ _
    constructor
    · intro hcon
      simp at hcon
    · intro e he
      simp only [markByteUnflushed_knownSymbolic, markByteSymbolic_knownSymbolic,
        setKnownSymbolic_knownSymbolic, if_true, Option.some.injEq] at he
      subst he
      rw [Function.update_self, Expr.bits_toNat hw]
      exact ⟨hvalue, hw, rfl⟩
    · intro hf
      simp at hf
    · right
      left
      simp

/-- A write that the list may hold passes the assertions. -/
theorem Represents.extend (h : os.Represents σ n m) {index value : Expr}
    (hw : WriteOk n (index, value)) :
    os.extend index value = some (os.addWrite index value) := by
  refine if_pos ?_
  cases hr : os.root with
  | none => rfl
  | some a =>
    obtain ⟨hd, hrange⟩ := h.root a hr
    rw [Option.all_some, decide_eq_true_iff]
    exact ⟨hd.trans hw.indexWidth.symm, hrange.trans hw.valueWidth.symm⟩

theorem writes_extend (h : os.Represents σ n m) {index value : Expr}
    (hw : WriteOk n (index, value)) :
    ∀ w ∈ (os.addWrite index value).head.writes, WriteOk n w := by
  intro w hmem
  rw [addWrite, UpdateList.writes] at hmem
  rcases List.mem_append.mp hmem with hmem | hmem
  · exact h.writes w hmem
  · exact List.mem_singleton.mp hmem ▸ hw

theorem contents_extend (h : os.Represents σ n m) {index value : Expr}
    (hw : WriteOk n (index, value)) (i : Nat) :
    (os.addWrite index value).contents σ i =
      if index.value σ = i then value.value σ else os.contents σ i := by
  have hlt := value.value_lt σ
  rw [hw.valueWidth] at hlt
  have hbase : (os.addWrite index value).base = os.base := rfl
  unfold contents
  rw [hbase, addWrite, UpdateList.contents]
  split
  · rw [BitVec.toNat_ofNat, h.typed.2.2, Nat.mod_eq_of_lt hlt]
  · rfl

/-- The value of a byte that is not flushed, written to the list. -/
theorem flushByte_spec (h : os.Represents σ n m) {offset : Nat} (ho : offset < n)
    (hf : os.isByteFlushed offset = false) : ∃ value, WriteOk n (const offset 32, value) ∧
      value.value σ = (m offset).toNat ∧
      os.flushByte offset = some (os.addWrite (const offset 32) value) := by
  have hbyte := h.cached offset ho
  have hbound : ∀ v (c : BitVec v), const offset 32 = .constant v c → c.toNat < n := by
    intro v c hc
    cases hc
    have hsmall := h.small
    rw [BitVec.toNat_ofNat, Nat.mod_eq_of_lt (by omega)]
    exact ho
  unfold flushByte
  by_cases hc : os.isByteConcrete offset = true
  · have hw : WriteOk n (const offset 32, constant 8 (os.concreteStore offset)) :=
      ⟨trivial, trivial, rfl, rfl, hbound⟩
    refine ⟨_, hw, ?_, ?_⟩
    · rw [constant_value, (hbyte.concrete hc).1]
    · rw [if_pos hc]
      exact h.extend hw
  · have hknown : (os.knownSymbolic offset).isSome := by
      rcases hbyte.covered with hcov | hcov | hcov
      · exact absurd hcov hc
      · exact hcov
      · rw [hf] at hcov
        cases hcov
    obtain ⟨e, he⟩ := Option.isSome_iff_exists.mp hknown
    have hm := hbyte.known e he
    have hw : WriteOk n (const offset 32, e) := ⟨trivial, hm.typed, rfl, hm.width, hbound⟩
    refine ⟨e, hw, hm.value, ?_⟩
    rw [if_neg hc, he, Option.bind_some]
    exact h.extend hw

/-- What the list says after a byte is flushed. -/
theorem contents_flushed (h : os.Represents σ n m) {offset : Nat} (ho : offset < n) {value : Expr}
    (hw : WriteOk n (const offset 32, value)) (hv : value.value σ = (m offset).toNat) (i : Nat) :
    (os.addWrite (const offset 32) value).contents σ i =
      if i = offset then (m offset).toNat else os.contents σ i := by
  have hsmall := h.small
  rw [contents_extend h hw, const_value, Nat.mod_eq_of_lt (by omega), hv]
  simp only [eq_comm]

theorem flushByteForRead_spec (h : os.Represents σ n m) (hmask : os.flushMask.isSome) {offset : Nat}
    (ho : offset < n) : ∃ os', os.flushByteForRead offset = some os' ∧ os'.Represents σ n m ∧
      os'.flushMask.isSome ∧
      ∀ i, os'.isByteFlushed i = if i = offset then true else os.isByteFlushed i := by
  unfold flushByteForRead
  by_cases hf : os.isByteFlushed offset = true
  · rw [if_pos hf]
    refine ⟨os, rfl, h, hmask, ?_⟩
    intro i
    split
    · rename_i he
      rw [he, hf]
    · rfl
  · rw [if_neg hf]
    obtain ⟨value, hw, hv, hflush⟩ := flushByte_spec h ho (Bool.eq_false_iff.mpr hf)
    have hcontents := contents_flushed h ho hw hv
    have hmask' : (os.addWrite (const offset 32) value).flushMask.isSome := hmask
    have hflags := unsetFlushMask_isByteFlushed hmask' offset
    rw [hflush, Option.map_some]
    refine ⟨_, rfl, ?_, ?_, hflags⟩
    · have hbyte := h.cached offset ho
      refine h.update offset rfl rfl (writes_extend h hw) ?_ ?_ fun _ _ => rfl
      · refine ⟨hbyte.concrete, hbyte.known, ?_, .inr (.inr ?_)⟩
        · intro _
          exact (hcontents offset).trans (if_pos rfl)
        · rw [hflags, if_pos rfl]
      · intro i _ hi
        exact ⟨rfl, rfl, rfl, (hflags i).trans (if_neg hi), (hcontents i).trans (if_neg hi)⟩
    · exact Option.isSome_map.trans hmask

theorem createFlushMask_spec (h : os.Represents σ n m) :
    os.createFlushMask.Represents σ n m ∧ os.createFlushMask.flushMask.isSome := by
  refine ⟨⟨h.size, h.small, h.root, h.writes, ?_⟩, rfl⟩
  intro i hi
  refine (h.cached i hi).congr ⟨rfl, rfl, rfl, ?_, rfl⟩ rfl
  unfold createFlushMask isByteFlushed
  cases os.flushMask with
  | none => rfl
  | some mask => rfl

theorem flushRangeForRead_spec (h : os.Represents σ n m) : ∃ os', os.flushRangeForRead = some os' ∧
    os'.Represents σ n m ∧ ∀ i < n, os'.isByteFlushed i = true := by
  obtain ⟨hstart, hmask⟩ := createFlushMask_spec h
  obtain ⟨os', hrun, hrep, -, hall⟩ := List.foldlM_rule (f := flushByteForRead)
    (fun pre os => os.Represents σ n m ∧ os.flushMask.isSome ∧ ∀ i ∈ pre, os.isByteFlushed i = true)
    (l := List.range os.size) (s := os.createFlushMask) ⟨hstart, hmask, nofun⟩ <| by
      intro pre x post t hsplit ⟨ht, htm, hdone⟩
      have hx : x < n := by
        rw [← h.size, ← List.mem_range, hsplit]
        exact List.mem_append_right _ List.mem_cons_self
      obtain ⟨t', hrun, hrep, hm, hflags⟩ := flushByteForRead_spec ht htm hx
      refine ⟨t', hrun, hrep, hm, ?_⟩
      intro i hi
      rw [hflags]
      split
      · rfl
      · rename_i hne
        rcases List.mem_append.mp hi with hi | hi
        · exact hdone i hi
        · exact absurd (List.mem_singleton.mp hi) hne
  refine ⟨os', hrun, hrep, ?_⟩
  intro i hi
  exact hall i (List.mem_range.mpr (h.size.symm ▸ hi))

/-- Only the update list has the value of the byte. -/
structure OnlyFlushed (os : ObjectState) (i : Nat) : Prop where
  flushed : os.isByteFlushed i = true
  concrete : os.isByteConcrete i = false
  known : os.knownSymbolic i = none

theorem OnlyFlushed.cached {i : Nat} (h : os.OnlyFlushed i)
    (hm : os.contents σ i = (m i).toNat) : os.Cached σ m i := by
  refine ⟨?_, ?_, fun _ => hm, .inr (.inr h.flushed)⟩
  · intro hc
    rw [h.concrete] at hc
    cases hc
  · intro e he
    rw [h.known] at he
    cases he

/-- A flushed byte, marked out of the other stores. -/
def markedOut (os : ObjectState) (offset : Nat) : ObjectState :=
  if os.isByteConcrete offset then os.markByteSymbolic offset else os.setKnownSymbolic offset none

theorem markedOut_spec (h : os.Represents σ n m) {offset : Nat} (ho : offset < n)
    (hf : os.isByteFlushed offset = true) : (os.markedOut offset).Represents σ n m ∧
      (os.markedOut offset).flushMask = os.flushMask ∧ (os.markedOut offset).OnlyFlushed offset ∧
      ∀ i, i ≠ offset → AgreeAt σ os (os.markedOut offset) i := by
  have hbyte := h.cached offset ho
  unfold markedOut
  split
  · rename_i hc
    have honly : (os.markByteSymbolic offset).OnlyFlushed offset :=
      ⟨hf, by simp, (hbyte.concrete hc).2⟩
    have hagree : ∀ i, i ≠ offset → AgreeAt σ os (os.markByteSymbolic offset) i := by
      intro i hi
      exact ⟨by simp [hi], rfl, rfl, rfl, rfl⟩
    exact ⟨h.update offset rfl rfl h.writes (honly.cached (hbyte.flushed hf))
      (fun i _ hi => hagree i hi) fun _ _ => rfl, rfl, honly, hagree⟩
  · rename_i hc
    have honly : (os.setKnownSymbolic offset none).OnlyFlushed offset :=
      ⟨hf, Bool.eq_false_iff.mpr hc, by simp⟩
    have hagree : ∀ i, i ≠ offset → AgreeAt σ os (os.setKnownSymbolic offset none) i := by
      intro i hi
      exact ⟨rfl, rfl, by simp [hi], rfl, rfl⟩
    exact ⟨h.update offset rfl rfl h.writes (honly.cached (hbyte.flushed hf))
      (fun i _ hi => hagree i hi) fun _ _ => rfl, rfl, honly, hagree⟩

theorem OnlyFlushed.congr {i : Nat} (h : os.OnlyFlushed i) (ha : AgreeAt σ os os' i) :
    os'.OnlyFlushed i :=
  ⟨ha.flushed.trans h.flushed, ha.concrete.trans h.concrete, ha.known.trans h.known⟩

/-- The flush of a byte for a write is that for a read, marked out. -/
theorem flushByteForWrite_spec (h : os.Represents σ n m) (hmask : os.flushMask.isSome)
    {offset : Nat} (ho : offset < n) : ∃ os', os.flushByteForWrite offset = some os' ∧
      os'.Represents σ n m ∧ os'.flushMask.isSome ∧ os'.OnlyFlushed offset ∧
      ∀ i, i ≠ offset → os.OnlyFlushed i → os'.OnlyFlushed i := by
  by_cases hf : os.isByteFlushed offset = true
  · obtain ⟨hrep, hm, honly, hagree⟩ := markedOut_spec h ho hf
    have hmarked := And.intro hrep (And.intro (hm ▸ hmask) (And.intro honly
      fun i hi hone => OnlyFlushed.congr hone (hagree i hi)))
    unfold flushByteForWrite
    rw [if_pos hf]
    unfold markedOut at hmarked
    split
    · rename_i hc
      rw [if_pos hc] at hmarked
      exact ⟨_, rfl, hmarked⟩
    · rename_i hc
      rw [if_neg hc] at hmarked
      split
      · exact ⟨_, rfl, hmarked⟩
      · rename_i hk
        exact ⟨_, rfl, h, hmask, ⟨hf, Bool.eq_false_iff.mpr hc, Option.not_isSome_iff_eq_none.mp hk⟩,
          fun _ _ hone => hone⟩
  · obtain ⟨value, -, -, hflush⟩ := flushByte_spec h ho (Bool.eq_false_iff.mpr hf)
    obtain ⟨t, hread, ht, htm, hflags⟩ := flushByteForRead_spec h hmask ho
    rw [flushByteForRead, if_neg hf, hflush, Option.map_some, Option.some.injEq] at hread
    subst hread
    obtain ⟨hrep, hm, honly, hagree⟩ := markedOut_spec ht ho ((hflags offset).trans (if_pos rfl))
    refine ⟨_, ?_, hrep, hm ▸ htm, honly, ?_⟩
    · rw [flushByteForWrite, if_neg hf, hflush, Option.map_some, markedOut]
      by_cases hc : os.isByteConcrete offset = true
      · have hc' : ((os.addWrite (const offset 32) value).unsetFlushMask offset).isByteConcrete
            offset = true := hc
        rw [if_pos hc, if_pos hc']
        rfl
      · have hc' : ¬ ((os.addWrite (const offset 32) value).unsetFlushMask offset).isByteConcrete
            offset = true := hc
        rw [if_neg hc, if_neg hc']
        rfl
    · intro i hi hone
      have hbefore : ((os.addWrite (const offset 32) value).unsetFlushMask offset).OnlyFlushed i :=
        ⟨((hflags i).trans (if_neg hi)).trans hone.flushed, hone.concrete, hone.known⟩
      exact hbefore.congr (hagree i hi)

theorem flushRangeForWrite_spec (h : os.Represents σ n m) : ∃ os',
    os.flushRangeForWrite = some os' ∧ os'.Represents σ n m ∧ ∀ i < n, os'.OnlyFlushed i := by
  obtain ⟨hstart, hmask⟩ := createFlushMask_spec h
  obtain ⟨os', hrun, hrep, -, hall⟩ := List.foldlM_rule (f := flushByteForWrite)
    (fun pre os => os.Represents σ n m ∧ os.flushMask.isSome ∧ ∀ i ∈ pre, os.OnlyFlushed i)
    (l := List.range os.size) (s := os.createFlushMask) ⟨hstart, hmask, nofun⟩ <| by
      intro pre x post t hsplit ⟨ht, htm, hdone⟩
      have hx : x < n := by
        rw [← h.size, ← List.mem_range, hsplit]
        exact List.mem_append_right _ List.mem_cons_self
      obtain ⟨t', hrun, hrep, hm, hone, hothers⟩ := flushByteForWrite_spec ht htm hx
      refine ⟨t', hrun, hrep, hm, ?_⟩
      intro i hi
      by_cases he : i = x
      · exact he ▸ hone
      · rcases List.mem_append.mp hi with hi | hi
        · exact hothers i he (hdone i hi)
        · exact absurd (List.mem_singleton.mp hi) he
  refine ⟨os', hrun, hrep, ?_⟩
  intro i hi
  exact hall i (List.mem_range.mpr (h.size.symm ▸ hi))

/-- A write at a symbolic offset. -/
theorem Represents.write8 (h : os.Represents σ n m) {offset value : Expr}
    (hoffset : offset.WellTyped) (how : offset.getWidth = 32) (hconst : offset.isConstant = false)
    (hvalue : value.WellTyped) (hvw : value.getWidth = 8) : ∃ os',
    os.write8 offset value = some os' ∧
      os'.Represents σ n (Function.update m (offset.value σ) (value.bits σ 8)) := by
  obtain ⟨t, hflush, ht, hall⟩ := flushRangeForWrite_spec h
  have hsame : ZExtExpr.create offset 32 = offset := if_pos how.symm
  have hw : WriteOk n (offset, value) := by
    refine ⟨hoffset, hvalue, how, hvw, ?_⟩
    intro v c hc
    have hc' : offset = .constant v c := hc
    rw [hc'] at hconst
    cases hconst
  refine ⟨t.addWrite offset value, ?_, ht.size, ht.small, ht.root, writes_extend ht hw, ?_⟩
  · rw [ObjectState.write8, hconst, if_neg Bool.false_ne_true, hflush, Option.bind_some, hsame]
    exact ht.extend hw
  · intro i hi
    have hone := hall i hi
    have hone' : (t.addWrite offset value).OnlyFlushed i := ⟨hone.flushed, hone.concrete, hone.known⟩
    refine hone'.cached ?_
    rw [contents_extend ht hw, Function.update_apply]
    by_cases he : offset.value σ = i
    · rw [if_pos he, if_pos he.symm, Expr.bits_toNat hvw]
    · rw [if_neg he, if_neg fun hi => he hi.symm]
      exact (ht.cached i hi).flushed hone.flushed

theorem constantArray_contents {contents : List (BitVec 8)} {name : String} {i : Nat}
    (hi : i < contents.length) : (UpdateList.nil.contents σ
      (constantArray name n contents) i).toNat = contents[i].toNat := by
  rw [UpdateList.contents, Array.initial]
  have hget : (constantArray name n contents).constantValues[i]? = some contents[i] :=
    List.getElem?_eq_getElem hi
  rw [hget]
  rfl

/-- The oldest write may as well be in the array. -/
theorem constantArray_set {contents : List (BitVec 8)} {i : Nat} (hi : i < contents.length)
    {v w : Width} (index : BitVec v) (value : BitVec w) (hw : w = 8) :
    ((UpdateList.cons (.constant v index) (.constant w value) .nil).contents σ
        (constantArray "" n contents) i).toNat =
      (UpdateList.nil.contents σ
        (constantArray "" n (contents.set index.toNat (value.setWidth 8))) i).toNat := by
  subst hw
  rw [BitVec.setWidth_eq]
  have hlength : i < (contents.set index.toNat value).length := by
    rwa [List.length_set]
  rw [constantArray_contents hlength, List.getElem_set, UpdateList.contents, constant_value,
    constant_value]
  split
  · rw [BitVec.toNat_ofNat]
    exact Nat.mod_eq_of_lt value.isLt
  · exact constantArray_contents hi

/-- Pushing the concrete writes into the contents of a constant array does not change what is read
from the array under the writes. -/
theorem pushConcrete_spec (name : String) {ws : List (Expr × Expr)}
    (hws : ∀ w ∈ ws, WriteOk n w) {contents : List (BitVec 8)} (hlength : contents.length = n) :
    ∃ contents' rest, pushConcrete contents ws = some (contents', rest) ∧
      (∀ w ∈ rest, w ∈ ws) ∧ ∀ i < n,
        ((UpdateList.nil.extendAll ws).contents σ (constantArray "" n contents) i).toNat =
        ((UpdateList.nil.extendAll rest).contents σ (constantArray name n contents') i).toNat := by
  have hstop : ∀ {contents : List (BitVec 8)}, contents.length = n → ∀ ws : List (Expr × Expr),
      ∀ i < n, ((UpdateList.nil.extendAll ws).contents σ (constantArray "" n contents) i).toNat =
        ((UpdateList.nil.extendAll ws).contents σ (constantArray name n contents) i).toNat := by
    intro contents hlength ws i hi
    apply UpdateList.contents_extendAll_congr (a := constantArray "" n contents)
      (b := constantArray name n contents) rfl
    rw [constantArray_contents (hlength ▸ hi), constantArray_contents (hlength ▸ hi)]
  induction ws generalizing contents with
  | nil => exact ⟨contents, [], rfl, nofun, hstop hlength []⟩
  | cons w ws ih =>
    unfold pushConcrete
    split
    · rename_i v index u value ws' heq
      cases heq
      have hw := hws _ List.mem_cons_self
      have hindex : index.toNat < contents.length := hlength ▸ hw.bound v index rfl
      have hset : (contents.set index.toNat (value.setWidth 8)).length = n :=
        List.length_set.trans hlength
      obtain ⟨contents', rest, hpush, hrest, hsame⟩ :=
        ih (fun w hmem => hws w (List.mem_cons_of_mem _ hmem)) hset
      rw [if_pos hindex]
      refine ⟨contents', rest, hpush, fun w hmem => List.mem_cons_of_mem _ (hrest w hmem), ?_⟩
      intro i hi
      rw [← hsame i hi]
      exact UpdateList.contents_extendAll_congr (a := constantArray "" n contents)
        (b := constantArray "" n (contents.set index.toNat (value.setWidth 8))) rfl
        (constantArray_set (hlength ▸ hi) index value hw.valueWidth) ws
    · exact ⟨contents, w :: ws, rfl, fun _ h => h, hstop hlength (w :: ws)⟩

/-- The update list with its root says what it said before. -/
theorem getUpdates_spec (h : os.Represents σ n m) (ids : StaticIds) : ∃ root os' ids',
    os.getUpdates ids = some (root, os', ids') ∧ os'.root = some root ∧ os'.Represents σ n m ∧
      ∀ i < n, AgreeAt σ os os' i := by
  unfold getUpdates
  cases hroot : os.root with
  | some root => exact ⟨root, os, ids, rfl, hroot, h, fun i _ => ⟨rfl, rfl, rfl, rfl, rfl⟩⟩
  | none =>
    let name := "const_arr" ++ toString (ids.constArr + 1)
    have hzero : (List.replicate os.size (0 : BitVec 8)).length = n :=
      List.length_replicate.trans h.size
    obtain ⟨bytes, rest, hpush, hrest, hsame⟩ := pushConcrete_spec (σ := σ) name h.writes hzero
    rw [hpush]
    have hagree : ∀ i < n, AgreeAt σ os { os with
        root := some (constantArray name os.size bytes)
        head := UpdateList.nil.extendAll rest } i := by
      intro i hi
      refine ⟨rfl, rfl, rfl, rfl, ?_⟩
      have hi' := hsame i hi
      rw [UpdateList.extendAll_writes, ← h.size] at hi'
      have hbase : os.base = constantArray "" os.size (List.replicate os.size 0) := by
        rw [base, hroot, Option.getD_none]
      rw [contents, contents, hbase]
      exact hi'.symm
    refine ⟨_, _, _, rfl, rfl, ⟨h.size, h.small, ?_, ?_, ?_⟩, hagree⟩
    · intro a ha
      cases ha
      exact ⟨rfl, rfl⟩
    · intro w hw
      rw [UpdateList.writes_extendAll, UpdateList.writes, List.nil_append] at hw
      exact h.writes w (hrest w hw)
    · intro i hi
      exact (h.cached i hi).congr (hagree i hi) rfl

/-- A read from the update list, at an index whose byte is flushed. -/
theorem readUpdates_means (h : os.Represents σ n m) {root : Array} (hroot : os.root = some root)
    {index : Expr} (hindex : index.WellTyped) (hw : index.getWidth = 32) (hin : index.value σ < n)
    (hf : os.isByteFlushed (index.value σ) = true) :
    (ReadExpr.create root os.head index).Means σ 8 (m (index.value σ)).toNat := by
  have hbase : os.base = root := by rw [base, hroot, Option.getD_some]
  obtain ⟨htyped, hd, hr⟩ := h.typed
  rw [hbase] at htyped hd hr
  have hmeans := ReadExpr.create_means (σ := σ) hindex (hw.trans hd.symm) htyped
  have hcontents := (h.cached _ hin).flushed hf
  rw [contents, hbase] at hcontents
  exact ⟨hmeans.typed, hmeans.width.trans hr, hmeans.value.trans hcontents⟩

theorem read8At_spec (h : os.Represents σ n m) (ids : StaticIds) {offset : Nat} (ho : offset < n) :
    ∃ e os' ids', os.read8At ids offset = some (e, os', ids') ∧ os'.Represents σ n m ∧
      e.Means σ 8 (m offset).toNat := by
  have hbyte := h.cached offset ho
  unfold read8At
  by_cases hc : os.isByteConcrete offset = true
  · rw [if_pos hc]
    refine ⟨_, _, _, rfl, h, trivial, rfl, ?_⟩
    rw [constant_value, (hbyte.concrete hc).1]
  · rw [if_neg hc]
    cases hk : os.knownSymbolic offset with
    | some e => exact ⟨_, _, _, rfl, h, hbyte.known e hk⟩
    | none =>
      have hf : os.isByteFlushed offset = true := by
        rcases hbyte.covered with hcov | hcov | hcov
        · exact absurd hcov hc
        · rw [hk] at hcov
          cases hcov
        · exact hcov
      obtain ⟨root, os', ids', hget, hroot, hrep, hagree⟩ := getUpdates_spec h ids
      have hvalue : (const offset 32).value σ = offset := by
        have hsmall := h.small
        rw [const_value, Nat.mod_eq_of_lt (by omega)]
      have htyped : (const offset 32).WellTyped := trivial
      have hmeans := readUpdates_means hrep hroot htyped rfl
        (hvalue.symm ▸ ho) (hvalue.symm ▸ (hagree offset ho).flushed.trans hf)
      rw [hvalue] at hmeans
      dsimp only
      rw [if_pos hf, hget]
      exact ⟨_, _, _, rfl, hrep, hmeans⟩

/-- A read at a symbolic offset. -/
theorem read8_spec (h : os.Represents σ n m) (ids : StaticIds) {offset : Expr}
    (hoffset : offset.WellTyped) (how : offset.getWidth = 32) (hconst : offset.isConstant = false)
    (hin : offset.value σ < n) : ∃ e os' ids', os.read8 ids offset = some (e, os', ids') ∧
      os'.Represents σ n m ∧ e.Means σ 8 (m (offset.value σ)).toNat := by
  obtain ⟨t, hflush, ht, hall⟩ := flushRangeForRead_spec h
  obtain ⟨root, os', ids', hget, hroot, hrep, hagree⟩ := getUpdates_spec ht ids
  have hsame : ZExtExpr.create offset 32 = offset := if_pos how.symm
  rw [read8, hconst, if_neg Bool.false_ne_true, hflush, Option.bind_some, hget, Option.map_some,
    hsame]
  exact ⟨_, _, _, rfl, hrep, readUpdates_means hrep hroot hoffset how hin
    ((hagree _ hin).flushed.trans (hall _ hin))⟩

end

end ObjectState

end Encider
