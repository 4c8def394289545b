import Encider.Expr.Weight
import Encider.Lib.Bytes

/-! `ObjectState`: the bytes of a memory object, each of which may be in the concrete store, in the
table of known symbolic bytes, and in the update list. -/

namespace Encider

open Encider.Expr

/-- The static counters from which array names are made. -/
structure StaticIds where
  tmpArr : Nat := 0
  constArr : Nat := 0

/-- The stores and the masks are indexed below `size`, and `none` is a null pointer. -/
structure ObjectState where
  size : Nat
  concreteStore : Nat → BitVec 8 := fun _ => 0
  concreteMask : Option (Nat → Bool) := none
  flushMask : Option (Nat → Bool) := none
  knownSymbolics : Option (Nat → Option Expr) := none
  root : Option Array := none
  head : UpdateList := .nil

namespace ObjectState

def isByteConcrete (os : ObjectState) (offset : Nat) : Bool :=
  os.concreteMask.elim true (· offset)

def isByteFlushed (os : ObjectState) (offset : Nat) : Bool :=
  os.flushMask.elim false fun mask => !mask offset

/-- The symbolic value that is known of a byte. -/
def knownSymbolic (os : ObjectState) (offset : Nat) : Option Expr :=
  os.knownSymbolics.bind (· offset)

def markByteConcrete (os : ObjectState) (offset : Nat) : ObjectState :=
  { os with concreteMask := os.concreteMask.map (Function.update · offset true) }

def markByteSymbolic (os : ObjectState) (offset : Nat) : ObjectState :=
  { os with
    concreteMask := some (Function.update (os.concreteMask.getD fun _ => true) offset false) }

def markByteUnflushed (os : ObjectState) (offset : Nat) : ObjectState :=
  { os with flushMask := os.flushMask.map (Function.update · offset true) }

/-- A new mask has no bit set, so all bytes are flushed. -/
def markByteFlushed (os : ObjectState) (offset : Nat) : ObjectState :=
  { os with flushMask := some (os.flushMask.elim (fun _ => false) (Function.update · offset false)) }

def setKnownSymbolic (os : ObjectState) (offset : Nat) (value : Option Expr) : ObjectState :=
  { os with
    knownSymbolics :=
      match os.knownSymbolics, value with
      | some known, value => some (Function.update known offset value)
      | none, some value => some (Function.update (fun _ => none) offset (some value))
      | none, none => none }

def addWrite (os : ObjectState) (index value : Expr) : ObjectState :=
  { os with head := .cons index value os.head }

/-- `updates.extend`, with its assertions. -/
def extend (os : ObjectState) (index value : Expr) : Option ObjectState :=
  if os.root.all fun a => a.domain = index.getWidth ∧ a.range = value.getWidth then
    some (os.addWrite index value)
  else none

/-- `ObjectState(mo)`. -/
def new (useConstantArrays : Bool) (ids : StaticIds) (size : Nat) : ObjectState × StaticIds :=
  if useConstantArrays then ({ size := size }, ids)
  else
    let id := ids.tmpArr + 1
    ({ size := size, root := some { name := "tmp_arr" ++ toString id, size := size } },
      { ids with tmpArr := id })

/-- `makeSymbolic`, for an object without updates. -/
def makeSymbolic (os : ObjectState) : ObjectState :=
  (List.range os.size).foldl
    (fun os i => ((os.markByteSymbolic i).setKnownSymbolic i none).markByteFlushed i) os

/-- `ObjectState(mo, array)`. -/
def ofArray (array : Array) (size : Nat) : ObjectState :=
  makeSymbolic { size := size, root := some array }

end ObjectState

/-- The writes of an update list, the oldest first. -/
def UpdateList.writes : UpdateList → List (Expr × Expr)
  | .nil => []
  | .cons index value next => next.writes ++ [(index, value)]

def UpdateList.extendAll (us : UpdateList) (ws : List (Expr × Expr)) : UpdateList :=
  ws.foldl (fun us w => .cons w.1 w.2 us) us

namespace ObjectState

/-- The concrete writes at the beginning are pushed into the contents of the constant array. -/
def pushConcrete (contents : List (BitVec 8)) :
    List (Expr × Expr) → Option (List (BitVec 8) × List (Expr × Expr))
  | (.constant _ index, .constant _ value) :: ws =>
    if index.toNat < contents.length then
      pushConcrete (contents.set index.toNat (value.setWidth 8)) ws
    else none
  | ws => some (contents, ws)

/-- A constant array, of bytes by default. -/
def constantArray (name : String) (size : Nat) (contents : List (BitVec 8)) : Array :=
  { name := name, size := size, constantValues := contents }

/-- `getUpdates`, with the root of the list. -/
def getUpdates (os : ObjectState) (ids : StaticIds) : Option (Array × ObjectState × StaticIds) :=
  match os.root with
  | some root => some (root, os, ids)
  | none =>
    (pushConcrete (List.replicate os.size 0) os.head.writes).map fun r =>
      let id := ids.constArr + 1
      let array := constantArray ("const_arr" ++ toString id) os.size r.1
      (array, { os with root := some array, head := UpdateList.nil.extendAll r.2 },
        { ids with constArr := id })

/-- The write that brings the value of a byte into the update list. -/
def flushByte (os : ObjectState) (offset : Nat) : Option ObjectState :=
  if os.isByteConcrete offset then
    os.extend (const offset 32) (constant 8 (os.concreteStore offset))
  else
    (os.knownSymbolic offset).bind fun value => os.extend (const offset 32) value

def unsetFlushMask (os : ObjectState) (offset : Nat) : ObjectState :=
  { os with flushMask := os.flushMask.map (Function.update · offset false) }

def flushByteForRead (os : ObjectState) (offset : Nat) : Option ObjectState :=
  if os.isByteFlushed offset then some os
  else (os.flushByte offset).map (·.unsetFlushMask offset)

def flushByteForWrite (os : ObjectState) (offset : Nat) : Option ObjectState :=
  if os.isByteFlushed offset then
    if os.isByteConcrete offset then some (os.markByteSymbolic offset)
    else if (os.knownSymbolic offset).isSome then some (os.setKnownSymbolic offset none)
    else some os
  else
    (os.flushByte offset).map fun flushed =>
      (if os.isByteConcrete offset then flushed.markByteSymbolic offset
        else flushed.setKnownSymbolic offset none).unsetFlushMask offset

def createFlushMask (os : ObjectState) : ObjectState :=
  { os with flushMask := some (os.flushMask.getD fun _ => true) }

/-- The range is that of `fastRangeCheckOffset`: the whole object. -/
def flushRangeForRead (os : ObjectState) : Option ObjectState :=
  (List.range os.size).foldlM flushByteForRead os.createFlushMask

def flushRangeForWrite (os : ObjectState) : Option ObjectState :=
  (List.range os.size).foldlM flushByteForWrite os.createFlushMask

/-- `read8` at a constant offset. -/
def read8At (os : ObjectState) (ids : StaticIds) (offset : Nat) :
    Option (Expr × ObjectState × StaticIds) :=
  if os.isByteConcrete offset then some (constant 8 (os.concreteStore offset), os, ids)
  else
    match os.knownSymbolic offset with
    | some value => some (value, os, ids)
    | none =>
      if os.isByteFlushed offset then
        (os.getUpdates ids).map fun r => (ReadExpr.create r.1 r.2.1.head (const offset 32), r.2)
      else none

/-- `read8` at a symbolic offset. -/
def read8 (os : ObjectState) (ids : StaticIds) (offset : Expr) :
    Option (Expr × ObjectState × StaticIds) :=
  if offset.isConstant then none
  else
    os.flushRangeForRead.bind fun os =>
      (os.getUpdates ids).map fun r =>
        (ReadExpr.create r.1 r.2.1.head (ZExtExpr.create offset 32), r.2)

/-- `concreteStore[offset] = value`. -/
def setConcreteStore (os : ObjectState) (offset : Nat) (value : BitVec 8) : ObjectState :=
  { os with concreteStore := Function.update os.concreteStore offset value }

/-- `write8` of a number at a constant offset. -/
def write8At (os : ObjectState) (offset : Nat) (value : BitVec 8) : ObjectState :=
  (((os.setConcreteStore offset value).setKnownSymbolic offset none).markByteConcrete
    offset).markByteUnflushed offset

/-- `write8` of an expression at a constant offset. -/
def write8ExprAt (os : ObjectState) (offset : Nat) (value : Expr) : ObjectState :=
  match value with
  | .constant _ v => os.write8At offset (v.setWidth 8)
  | value =>
    ((os.setKnownSymbolic offset (some value)).markByteSymbolic offset).markByteUnflushed offset

/-- `write8` at a symbolic offset. -/
def write8 (os : ObjectState) (offset value : Expr) : Option ObjectState :=
  if offset.isConstant then none
  else os.flushRangeForWrite.bind fun os => os.extend (ZExtExpr.create offset 32) value

/-- The bytes of a read, put together; `n` is one less than their number. -/
def readBytes (byte : ObjectState → StaticIds → Nat → Option (Expr × ObjectState × StaticIds)) :
    Nat → ObjectState → StaticIds → Option (Expr × ObjectState × StaticIds)
  | 0, os, ids => byte os ids 0
  | n + 1, os, ids =>
    (readBytes byte n os ids).bind fun r =>
      (byte r.2.1 r.2.2 (n + 1)).map fun b => (ConcatExpr.create b.1 r.1, b.2)

/-- The general case of a read, given the read of the byte at an index. -/
def readWidth (little : Bool)
    (byte : ObjectState → StaticIds → Nat → Option (Expr × ObjectState × StaticIds))
    (os : ObjectState) (ids : StaticIds) (width : Width) :
    Option (Expr × ObjectState × StaticIds) :=
  match width / 8 with
  | 0 => none
  | n + 1 =>
    if width = (n + 1) * 8 then
      readBytes (fun os ids i => byte os ids (Bytes.lane little (n + 1) i)) n os ids
    else none

/-- `read` at a constant offset. -/
def readAt (little : Bool) (os : ObjectState) (ids : StaticIds) (offset : Nat) (width : Width) :
    Option (Expr × ObjectState × StaticIds) :=
  if width = 1 then (os.read8At ids offset).map fun r => (ExtractExpr.create r.1 0 1, r.2)
  else readWidth little (fun os ids idx => os.read8At ids (offset + idx)) os ids width

def read (little : Bool) (os : ObjectState) (ids : StaticIds) (offset : Expr) (width : Width) :
    Option (Expr × ObjectState × StaticIds) :=
  match ZExtExpr.create offset 32 with
  | .constant _ c => os.readAt little ids c.toNat width
  | offset =>
    if width = 1 then (os.read8 ids offset).map fun r => (ExtractExpr.create r.1 0 1, r.2)
    else
      readWidth little (fun os ids idx => os.read8 ids (AddExpr.create offset (const idx 32))) os
        ids width

/-- The general case of a write, given the write of a byte at an index. -/
def writeWidth (little : Bool) (byte : ObjectState → Nat → Expr → Option ObjectState)
    (os : ObjectState) (value : Expr) : Option ObjectState :=
  let n := value.getWidth / 8
  if value.getWidth = n * 8 then
    (List.range n).foldlM
      (fun os i => byte os (Bytes.lane little n i) (ExtractExpr.create value (8 * i) 8)) os
  else none

/-- `write16`, `write32` and `write64`, by the number of bytes. -/
def writeNumber (little : Bool) (n : Nat) (os : ObjectState) (offset value : Nat) : ObjectState :=
  (List.range n).foldl (fun os i => os.write8At (offset + Bytes.lane little n i)
    (BitVec.ofNat 8 (value >>> (8 * i)))) os

def write16 (little : Bool) : ObjectState → Nat → Nat → ObjectState := writeNumber little 2

def write32 (little : Bool) : ObjectState → Nat → Nat → ObjectState := writeNumber little 4

def write64 (little : Bool) : ObjectState → Nat → Nat → ObjectState := writeNumber little 8

def isPowerOfTwo (x : Nat) : Bool := x ≠ 0 ∧ x &&& (x - 1) = 0

/-- The case of `write` at a constant offset that is not for constants. -/
def writeExprAt (little : Bool) (os : ObjectState) (offset : Nat) (value : Expr) :
    Option ObjectState :=
  if value.getWidth = 1 then some (os.write8ExprAt offset (ZExtExpr.create value 8))
  else writeWidth little (fun os idx byte => some (os.write8ExprAt (offset + idx) byte)) os value

/-- `write` at a constant offset. -/
def writeAt (little : Bool) (os : ObjectState) (offset : Nat) (value : Expr) :
    Option ObjectState :=
  match value with
  | .constant w v =>
    if w ≤ 64 ∧ isPowerOfTwo w then
      if w = 1 ∨ w = 8 then some (os.write8At offset (v.setWidth 8))
      else if w = 16 then some (os.write16 little offset v.toNat)
      else if w = 32 then some (os.write32 little offset v.toNat)
      else if w = 64 then some (os.write64 little offset v.toNat)
      else none
    else os.writeExprAt little offset value
  | _ => os.writeExprAt little offset value

def write (little : Bool) (os : ObjectState) (offset value : Expr) : Option ObjectState :=
  match ZExtExpr.create offset 32 with
  | .constant _ c => os.writeAt little c.toNat value
  | offset =>
    if value.getWidth = 1 then os.write8 offset (ZExtExpr.create value 8)
    else
      writeWidth little
        (fun os idx byte => os.write8 (AddExpr.create offset (const idx 32)) byte) os value

end ObjectState

end Encider
