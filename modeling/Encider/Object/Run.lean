import Encider.Object.Access

/-! Objects over whole runs of allocations, copies, reads and writes, beside plain byte arrays. -/

namespace Encider

open Encider.Expr

/-- What is done with the objects, which are numbered in the order of their making. -/
inductive ObjectOp where
  | alloc (useConstantArrays : Bool) (size : Nat)
  | allocSymbolic (array : Array) (size : Nat)
  | copy (k : Nat)
  | read (k : Nat) (offset : Expr) (width : Width)
  | readAt (k : Nat) (offset : Nat) (width : Width)
  | write (k : Nat) (offset value : Expr)
  | writeAt (k : Nat) (offset : Nat) (value : Expr)
  | write8 (k : Nat) (offset : Nat) (value : BitVec 8)
  | write16 (k : Nat) (offset : Nat) (value : BitVec 16)
  | write32 (k : Nat) (offset : Nat) (value : BitVec 32)
  | write64 (k : Nat) (offset : Nat) (value : BitVec 64)

structure ObjectHeap where
  objects : List ObjectState := []
  ids : StaticIds := {}

namespace ObjectHeap

def readFrom (heap : ObjectHeap) (k : Nat)
    (f : ObjectState → StaticIds → Option (Expr × ObjectState × StaticIds)) :
    Option (ObjectHeap × Option Expr) :=
  heap.objects[k]?.bind fun os =>
    (f os heap.ids).map fun r => (⟨heap.objects.set k r.2.1, r.2.2⟩, some r.1)

def writeTo (heap : ObjectHeap) (k : Nat) (f : ObjectState → Option ObjectState) :
    Option (ObjectHeap × Option Expr) :=
  heap.objects[k]?.bind fun os =>
    (f os).map fun os => (⟨heap.objects.set k os, heap.ids⟩, none)

/-- One operation, with the expression that a read gives. -/
def step (little : Bool) (heap : ObjectHeap) : ObjectOp → Option (ObjectHeap × Option Expr)
  | .alloc useConstantArrays size =>
    let r := ObjectState.new useConstantArrays heap.ids size
    some (⟨heap.objects ++ [r.1], r.2⟩, none)
  | .allocSymbolic array size =>
    some (⟨heap.objects ++ [.ofArray array size], heap.ids⟩, none)
  | .copy k => heap.objects[k]?.map fun os => (⟨heap.objects ++ [os], heap.ids⟩, none)
  | .read k offset width => heap.readFrom k fun os ids => os.read little ids offset width
  | .readAt k offset width => heap.readFrom k fun os ids => os.readAt little ids offset width
  | .write k offset value => heap.writeTo k fun os => os.write little offset value
  | .writeAt k offset value => heap.writeTo k fun os => os.writeAt little offset value
  | .write8 k offset value => heap.writeTo k fun os => some (os.write8At offset value)
  | .write16 k offset value => heap.writeTo k fun os => some (os.write16 little offset value.toNat)
  | .write32 k offset value => heap.writeTo k fun os => some (os.write32 little offset value.toNat)
  | .write64 k offset value => heap.writeTo k fun os => some (os.write64 little offset value.toNat)

def run (little : Bool) : ObjectHeap → List ObjectOp → Option (ObjectHeap × List Expr)
  | heap, [] => some (heap, [])
  | heap, op :: ops =>
    (heap.step little op).bind fun r =>
      (run little r.1 ops).map fun s => (s.1, r.2.toList ++ s.2)

end ObjectHeap

/-- The reference for an object: an array of bytes. -/
structure ByteObject where
  size : Nat
  bytes : Bytes

namespace ByteObject

def writeTo (objects : List ByteObject) (k : Nat) (f : Bytes → Bytes) : List ByteObject :=
  match objects[k]? with
  | some o => objects.set k { o with bytes := f o.bytes }
  | none => objects

/-- The width and the value of a read. -/
def readFrom (objects : List ByteObject) (k : Nat) (width : Width) (f : Bytes → Nat) :
    Option (Width × Nat) :=
  objects[k]?.map fun o => (width, f o.bytes)

/-- One operation on the byte arrays, with what a read gives. -/
def step (σ : Assignment) (little : Bool) (objects : List ByteObject) :
    ObjectOp → List ByteObject × Option (Width × Nat)
  | .alloc _ size => (objects ++ [⟨size, fun _ => 0⟩], none)
  | .allocSymbolic array size =>
    (objects ++ [⟨size, fun i => BitVec.ofNat 8 (array.initial σ i).toNat⟩], none)
  | .copy k => (objects ++ objects[k]?.toList, none)
  | .read k offset width =>
    (objects, readFrom objects k width fun m => loadWidth little width m (offset.value σ))
  | .readAt k offset width =>
    (objects, readFrom objects k width fun m => loadWidth little width m offset)
  | .write k offset value =>
    (writeTo objects k fun m =>
      storeWidth little value.getWidth m (offset.value σ) (value.value σ), none)
  | .writeAt k offset value =>
    (writeTo objects k fun m => storeWidth little value.getWidth m offset (value.value σ), none)
  | .write8 k offset value => (writeTo objects k fun m => m.store little 1 offset value.toNat, none)
  | .write16 k offset value =>
    (writeTo objects k fun m => m.store little 2 offset value.toNat, none)
  | .write32 k offset value =>
    (writeTo objects k fun m => m.store little 4 offset value.toNat, none)
  | .write64 k offset value =>
    (writeTo objects k fun m => m.store little 8 offset value.toNat, none)

def run (σ : Assignment) (little : Bool) : List ByteObject → List ObjectOp → List (Width × Nat)
  | _, [] => []
  | objects, op :: ops =>
    (step σ little objects op).2.toList ++ run σ little (step σ little objects op).1 ops

end ByteObject

/-- The bytes from an offset on are in the object. -/
def InObject (objects : List ByteObject) (k offset bytes : Nat) : Prop :=
  ∃ o, objects[k]? = some o ∧ offset + bytes ≤ o.size

/-- The operation is of a width that there is, at an offset that is in bounds. -/
def ObjectOp.Ok (σ : Assignment) (objects : List ByteObject) : ObjectOp → Prop
  | .alloc _ size => size < 2 ^ 32
  | .allocSymbolic array size => size < 2 ^ 32 ∧ array.domain = 32 ∧ array.range = 8
  | .copy k => k < objects.length
  | .read k offset width => OffsetOk offset ∧ IsAccess width ∧
      InObject objects k (offset.value σ) (accessBytes width)
  | .readAt k offset width => IsAccess width ∧ InObject objects k offset (accessBytes width)
  | .write k offset value => OffsetOk offset ∧ value.WellTyped ∧ IsAccess value.getWidth ∧
      InObject objects k (offset.value σ) (accessBytes value.getWidth)
  | .writeAt k offset value => value.WellTyped ∧ IsAccess value.getWidth ∧
      InObject objects k offset (accessBytes value.getWidth)
  | .write8 k offset _ => InObject objects k offset 1
  | .write16 k offset _ => InObject objects k offset 2
  | .write32 k offset _ => InObject objects k offset 4
  | .write64 k offset _ => InObject objects k offset 8

/-- All operations of a run are. -/
def RunOk (σ : Assignment) (little : Bool) : List ByteObject → List ObjectOp → Prop
  | _, [] => True
  | objects, op :: ops =>
    op.Ok σ objects ∧ RunOk σ little (ByteObject.step σ little objects op).1 ops

theorem forall₂_getElem? {α β : Type} {R : α → β → Prop} {as : List α} {bs : List β}
    (h : List.Forall₂ R as bs) {k : Nat} {b : β} (hb : bs[k]? = some b) :
    ∃ a, as[k]? = some a ∧ R a b := by
  induction h generalizing k with
  | nil => cases hb
  | cons hab _ ih =>
    cases k with
    | zero =>
      cases hb
      exact ⟨_, rfl, hab⟩
    | succ k => exact ih hb

theorem forall₂_set {α β : Type} {R : α → β → Prop} {as : List α} {bs : List β}
    (h : List.Forall₂ R as bs) (k : Nat) {a : α} {b : β} (hab : R a b) :
    List.Forall₂ R (as.set k a) (bs.set k b) := by
  induction h generalizing k with
  | nil => exact .nil
  | cons h hrest ih =>
    cases k with
    | zero => exact .cons hab hrest
    | succ k => exact .cons h (ih k)

theorem set_getElem? {α : Type} {as : List α} {k : Nat} {a : α} (h : as[k]? = some a) :
    as.set k a = as := by
  obtain ⟨hlt, rfl⟩ := List.getElem?_eq_some_iff.mp h
  exact List.set_getElem_self hlt

namespace ObjectState

section
variable {σ : Assignment} {n : Nat}

theorem new_represents (useConstantArrays : Bool) (ids : StaticIds) (hn : n < 2 ^ 32) :
    (new useConstantArrays ids n).1.Represents σ n fun _ => 0 := by
  have hcached : ∀ os : ObjectState, os.concreteStore = (fun _ => 0) → os.concreteMask = none →
      os.flushMask = none → os.knownSymbolics = none → ∀ i, os.Cached σ (fun _ => 0) i := by
    intro os hstore hmask hflush hknown i
    have hk : os.knownSymbolic i = none := by rw [knownSymbolic, hknown, Option.bind_none]
    refine ⟨fun _ => ⟨by rw [hstore], hk⟩, ?_, ?_, .inl ?_⟩
    · intro e he
      rw [hk] at he
      cases he
    · intro hf
      rw [isByteFlushed, hflush] at hf
      cases hf
    · rw [isByteConcrete, hmask, Option.elim_none]
  unfold new
  cases useConstantArrays with
  | true => exact ⟨rfl, hn, nofun, nofun, fun i _ => hcached _ rfl rfl rfl rfl i⟩
  | false =>
    refine ⟨rfl, hn, ?_, nofun, fun i _ => hcached _ rfl rfl rfl rfl i⟩
    intro a ha
    cases ha
    exact ⟨rfl, rfl⟩

theorem markByteFlushed_isByteFlushed {os : ObjectState} {i j : Nat}
    (h : i = j ∨ os.isByteFlushed i = true) : (os.markByteFlushed j).isByteFlushed i = true := by
  unfold markByteFlushed isByteFlushed
  cases hmask : os.flushMask with
  | none => rfl
  | some mask =>
    simp only [Option.elim_some, Function.update_apply]
    split
    · rfl
    · rename_i hne
      have hflushed := h.resolve_left hne
      rwa [isByteFlushed, hmask] at hflushed

/-- The bytes marked so far have their values in the update list only. -/
theorem makeSymbolic_spec (os : ObjectState) : os.makeSymbolic.size = os.size ∧
    os.makeSymbolic.root = os.root ∧ os.makeSymbolic.head = os.head ∧
    ∀ i < os.size, os.makeSymbolic.OnlyFlushed i := by
  unfold makeSymbolic
  have hloop : ∀ N, ∀ t, t = (List.range N).foldl
      (fun os i => ((os.markByteSymbolic i).setKnownSymbolic i none).markByteFlushed i) os →
      t.size = os.size ∧ t.root = os.root ∧ t.head = os.head ∧ ∀ i < N, t.OnlyFlushed i := by
    intro N
    induction N with
    | zero =>
      intro t ht
      subst ht
      exact ⟨rfl, rfl, rfl, nofun⟩
    | succ k ih =>
      intro t ht
      rw [List.range_succ, List.foldl_append, List.foldl_cons, List.foldl_nil] at ht
      obtain ⟨hsize, hroot, hhead, hdone⟩ := ih _ rfl
      subst ht
      refine ⟨hsize, hroot, hhead, ?_⟩
      intro i hi
      by_cases he : i = k
      · subst he
        refine ⟨markByteFlushed_isByteFlushed (.inl rfl), ?_, ?_⟩
        · exact (markByteSymbolic_isByteConcrete i i).trans (if_pos rfl)
        · exact (setKnownSymbolic_knownSymbolic i none i).trans (if_pos rfl)
      · have hone := hdone i (by omega)
        refine ⟨markByteFlushed_isByteFlushed (.inr hone.flushed), ?_, ?_⟩
        · exact ((markByteSymbolic_isByteConcrete k i).trans (if_neg he)).trans hone.concrete
        · exact ((setKnownSymbolic_knownSymbolic k none i).trans (if_neg he)).trans hone.known
  exact hloop os.size _ rfl

theorem ofArray_represents {array : Array} (hd : array.domain = 32) (hr : array.range = 8)
    (hn : n < 2 ^ 32) : (ofArray array n).Represents σ n
      fun i => BitVec.ofNat 8 (array.initial σ i).toNat := by
  obtain ⟨hsize, hroot, hhead, hall⟩ := makeSymbolic_spec { size := n, root := some array }
  have hhead' : (ofArray array n).head = .nil := hhead
  have hroot' : (ofArray array n).root = some array := hroot
  refine ⟨hsize, hn, ?_, ?_, ?_⟩
  · intro a ha
    cases hroot'.symm.trans ha
    exact ⟨hd, hr⟩
  · intro w hw
    rw [hhead'] at hw
    cases hw
  · intro i hi
    refine (hall i hi).cached ?_
    have hbase : (ofArray array n).base = array := by rw [base, hroot', Option.getD_some]
    have hlt : (array.initial σ i).toNat < 2 ^ 8 :=
      (array.initial σ i).isLt.trans_eq (congrArg (2 ^ ·) hr)
    have hcontents : (ofArray array n).contents σ i = (array.initial σ i).toNat := by
      rw [contents, hhead', hbase, UpdateList.contents]
    rw [BitVec.toNat_ofNat, Nat.mod_eq_of_lt hlt]
    exact hcontents

end

end ObjectState

/-- Each object has the bytes of its reference. -/
def ObjectHeap.Represents (σ : Assignment) (heap : ObjectHeap) (objects : List ByteObject) : Prop :=
  List.Forall₂ (fun os o => ObjectState.Represents σ o.size o.bytes os) heap.objects objects

section
variable {σ : Assignment} {little : Bool} {heap : ObjectHeap} {objects : List ByteObject}

/-- The result of a read is the expected word, and nothing is expected where nothing is read. -/
def ReadMeans (σ : Assignment) (e : Option Expr) (r : Option (Width × Nat)) : Prop :=
  Option.Rel (fun e r => Expr.Means σ e r.1 r.2) e r

theorem ObjectHeap.readFrom_spec (h : heap.Represents σ objects) {k offset bytes : Nat}
    (hin : InObject objects k offset bytes) {width : Width}
    {f : ObjectState → StaticIds → Option (Expr × ObjectState × StaticIds)} {g : Bytes → Nat}
    (hf : ∀ os ids n m, offset + bytes ≤ n → ObjectState.Represents σ n m os → ∃ e os' ids',
      f os ids = some (e, os', ids') ∧ ObjectState.Represents σ n m os' ∧ e.Means σ width (g m)) :
    ∃ heap' e, heap.readFrom k f = some (heap', e) ∧ heap'.Represents σ objects ∧
      ReadMeans σ e (ByteObject.readFrom objects k width g) := by
  obtain ⟨o, ho, hbound⟩ := hin
  obtain ⟨os, hos, hrep⟩ := forall₂_getElem? h ho
  obtain ⟨e, os', ids', hrun, hrep', hm⟩ := hf os heap.ids o.size o.bytes hbound hrep
  refine ⟨⟨heap.objects.set k os', ids'⟩, some e, ?_, ?_, ?_⟩
  · rw [readFrom, hos, Option.bind_some, hrun, Option.map_some]
  · have hset := forall₂_set h k hrep'
    rwa [set_getElem? ho] at hset
  · rw [ByteObject.readFrom, ho]
    exact .some hm

theorem ObjectHeap.writeTo_spec (h : heap.Represents σ objects) {k offset bytes : Nat}
    (hin : InObject objects k offset bytes) {f : ObjectState → Option ObjectState}
    {g : Bytes → Bytes}
    (hf : ∀ os n m, offset + bytes ≤ n → ObjectState.Represents σ n m os → ∃ os',
      f os = some os' ∧ ObjectState.Represents σ n (g m) os') :
    ∃ heap', heap.writeTo k f = some (heap', none) ∧
      heap'.Represents σ (ByteObject.writeTo objects k g) := by
  obtain ⟨o, ho, hbound⟩ := hin
  obtain ⟨os, hos, hrep⟩ := forall₂_getElem? h ho
  obtain ⟨os', hrun, hrep'⟩ := hf os o.size o.bytes hbound hrep
  refine ⟨⟨heap.objects.set k os', heap.ids⟩, ?_, ?_⟩
  · rw [writeTo, hos, Option.bind_some, hrun, Option.map_some]
  · rw [ByteObject.writeTo, ho]
    exact forall₂_set h k (b := { o with bytes := g o.bytes }) hrep'

/-- One operation keeps each object like its reference, and a read gives the expected word. -/
theorem ObjectHeap.step_spec (h : heap.Represents σ objects) {op : ObjectOp}
    (hop : op.Ok σ objects) : ∃ heap' e, heap.step little op = some (heap', e) ∧
      heap'.Represents σ (ByteObject.step σ little objects op).1 ∧
      ReadMeans σ e (ByteObject.step σ little objects op).2 := by
  have hwrite : ∀ {k offset bytes : Nat} {f : ObjectState → Option ObjectState}
      {g : Bytes → Bytes}, InObject objects k offset bytes →
      (∀ os n m, offset + bytes ≤ n → ObjectState.Represents σ n m os → ∃ os',
        f os = some os' ∧ ObjectState.Represents σ n (g m) os') →
      ∃ heap' e, heap.writeTo k f = some (heap', e) ∧
        heap'.Represents σ (ByteObject.writeTo objects k g) ∧ ReadMeans σ e none := by
    intro k offset bytes f g hin hf
    obtain ⟨heap', hrun, hrep⟩ := writeTo_spec h hin hf
    exact ⟨heap', none, hrun, hrep, .none⟩
  cases op with
  | alloc useConstantArrays size =>
    refine ⟨_, none, rfl, ?_, .none⟩
    exact List.rel_append h (.cons (ObjectState.new_represents useConstantArrays heap.ids hop) .nil)
  | allocSymbolic array size =>
    obtain ⟨hsize, hd, hr⟩ := hop
    refine ⟨_, none, rfl, ?_, .none⟩
    exact List.rel_append h (.cons (ObjectState.ofArray_represents hd hr hsize) .nil)
  | copy k =>
    have ho : objects[k]? = some objects[k] := List.getElem?_eq_getElem hop
    obtain ⟨os, hos, hrep⟩ := forall₂_getElem? h ho
    refine ⟨⟨heap.objects ++ [os], heap.ids⟩, none, ?_, ?_, .none⟩
    · rw [step, hos, Option.map_some]
    · rw [ByteObject.step, ho]
      exact List.rel_append h (.cons hrep .nil)
  | read k offset width =>
    obtain ⟨ho, hw, hin⟩ := hop
    exact readFrom_spec h hin fun os ids n m hbound hrep => ObjectState.read_spec hrep ids ho hw hbound
  | readAt k offset width =>
    obtain ⟨hw, hin⟩ := hop
    exact readFrom_spec h hin fun os ids n m hbound hrep => ObjectState.readAt_spec hrep ids hw hbound
  | write k offset value =>
    obtain ⟨ho, hvalue, hw, hin⟩ := hop
    exact hwrite hin fun os n m hbound hrep => ObjectState.write_spec hrep ho hvalue hw hbound
  | writeAt k offset value =>
    obtain ⟨hvalue, hw, hin⟩ := hop
    exact hwrite hin fun os n m _ hrep => ObjectState.writeAt_spec hrep offset hvalue hw
  | write8 k offset value =>
    have hbyte : ∀ (os : ObjectState) (n : Nat) (m : Bytes), offset + 1 ≤ n →
        ObjectState.Represents σ n m os → ∃ os', some (os.write8At offset value) = some os' ∧
          ObjectState.Represents σ n (m.store little 1 offset value.toNat) os' := by
      intro os n m _ hrep
      rw [Bytes.store_one, BitVec.ofNat_toNat, BitVec.setWidth_eq]
      exact ⟨_, rfl, hrep.write8At offset value⟩
    exact hwrite hop hbyte
  | write16 k offset value =>
    exact hwrite hop fun os n m _ hrep => ⟨_, rfl, ObjectState.writeNumber_spec hrep offset _⟩
  | write32 k offset value =>
    exact hwrite hop fun os n m _ hrep => ⟨_, rfl, ObjectState.writeNumber_spec hrep offset _⟩
  | write64 k offset value =>
    exact hwrite hop fun os n m _ hrep => ⟨_, rfl, ObjectState.writeNumber_spec hrep offset _⟩

theorem ObjectHeap.run_spec (h : heap.Represents σ objects) {ops : List ObjectOp}
    (hops : RunOk σ little objects ops) : ∃ heap' es, heap.run little ops = some (heap', es) ∧
      List.Forall₂ (fun e r => Expr.Means σ e r.1 r.2) es
        (ByteObject.run σ little objects ops) := by
  induction ops generalizing heap objects with
  | nil => exact ⟨heap, [], rfl, .nil⟩
  | cons op ops ih =>
    obtain ⟨hop, hrest⟩ := hops
    obtain ⟨heap₁, e, hstep, hrep, hread⟩ := step_spec h hop
    obtain ⟨heap₂, es, hrun, hes⟩ := ih hrep hrest
    refine ⟨heap₂, e.toList ++ es, ?_, ?_⟩
    · rw [run, hstep, Option.bind_some, hrun, Option.map_some]
    · rw [ByteObject.run]
      refine List.rel_append ?_ hes
      unfold ReadMeans at hread
      generalize (ByteObject.step σ little objects op).2 = r at hread ⊢
      cases hread with
      | none => exact .nil
      | some hm => exact .cons hm .nil

end

/-- In every run of allocations, copies, reads and writes in bounds, each read gives an expression
of its width, with the value of the bytes that the same writes leave in plain byte arrays. -/
theorem ObjectHeap.reads_bytes (σ : Assignment) (little : Bool) (ops : List ObjectOp)
    (hops : RunOk σ little [] ops) : ∃ heap es, ObjectHeap.run little {} ops = some (heap, es) ∧
      List.Forall₂ (fun e r => Expr.Means σ e r.1 r.2) es (ByteObject.run σ little [] ops) := by
  have hnone : ObjectHeap.Represents σ {} [] := List.Forall₂.nil
  exact ObjectHeap.run_spec hnone hops

/-- An index below 256 that is an input. -/
def inputIndex : Expr := .zext (.read { name := "i", size := 1 } .nil (const 0 32)) 32

theorem inputIndex_ok : OffsetOk inputIndex :=
  ⟨⟨⟨trivial, trivial, rfl⟩, by decide⟩, trivial, trivial⟩

/-- Writes of a number and at the index, and reads of the object and of its copy. -/
def indexedRun : List ObjectOp :=
  [.alloc true 8, .write16 0 2 4660, .write 0 inputIndex (const 255 8), .copy 0,
    .readAt 0 2 16, .writeAt 1 4 inputIndex, .read 1 inputIndex 32]

/-- The index is 3, so it is the high byte of the number that is overwritten. -/
theorem indexedRun_reads : ∃ heap es, ObjectHeap.run true {} indexedRun = some (heap, es) ∧
    List.Forall₂ (fun e r => Expr.Means (fun a _ => BitVec.ofNat a.range 3) e r.1 r.2) es
      [(16, 65332), (32, 1023)] := by
  have hword : IsAccess 32 := .inr ⟨4, by decide, rfl⟩
  have hok : RunOk (fun a _ => BitVec.ofNat a.range 3) true [] indexedRun := by
    refine ⟨?_, ?_, ?_, ?_, ?_, ?_, ?_, trivial⟩
    · exact (by decide : 8 < 2 ^ 32)
    · exact ⟨_, rfl, by decide⟩
    · exact ⟨inputIndex_ok, trivial, .inr ⟨1, by decide, rfl⟩, _, rfl, by decide⟩
    · exact Nat.one_pos
    · exact ⟨.inr ⟨2, by decide, rfl⟩, _, rfl, by decide⟩
    · exact ⟨inputIndex_ok.typed, hword, _, rfl, by decide⟩
    · exact ⟨inputIndex_ok, hword, _, rfl, by decide⟩
  have hvalues : ByteObject.run (fun a _ => BitVec.ofNat a.range 3) true [] indexedRun =
      [(16, 65332), (32, 1023)] := by decide
  exact hvalues ▸ ObjectHeap.reads_bytes _ true indexedRun hok

end Encider
