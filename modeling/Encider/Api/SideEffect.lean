import Encider.Exec.Resolve
import Encider.Object.Access

/-! `SideEffectAPIHandler::interpret`: an assignment to a field that a specification names. -/

namespace Encider

/-- A type; a scalar is one of whole bytes, or a boolean. -/
inductive CType where
  | bool
  | scalar (bytes : Nat)
  | pointer (elem : CType)
  | struct (name : String)
deriving DecidableEq, Repr

structure StructElement where
  type : CType
  offset : Nat
deriving DecidableEq, Repr

structure StructLayout where
  elements : List StructElement
  size : Nat
deriving DecidableEq, Repr

namespace SideEffect

/-- A value and its width. -/
structure Number where
  width : Width
  value : Nat
deriving DecidableEq, Repr

/-- A step to the field with an index. -/
inductive FieldStep where
  | arrow (fieldIndex : Nat)
  | dot (fieldIndex : Nat)
deriving DecidableEq, Repr

/-- The loop reads both operators alike. -/
def FieldStep.fieldIndex : FieldStep → Nat
  | arrow i => i
  | dot i => i

/-- An argument, or the symbol of an allocation; a name with `arg` in it is that of an argument. -/
inductive Root where
  | arg (index : Nat)
  | alloc (symbol : String)
deriving DecidableEq, Repr

/-- A side of a specification as it is read; the `&` for an address is left out. -/
inductive Side where
  | null
  | constant (val : Nat)
  | path (root : Root) (steps : List FieldStep)
deriving DecidableEq, Repr

/-- The call: the types of the program, the arguments and the symbols of the allocation models. -/
structure Call where
  littleEndian : Bool
  structLayout : String → Option StructLayout
  argTypes : List CType
  arguments : List Number
  symbols : String → Option (CType × Nat)

/-- The objects, and the bytes at the addresses. -/
structure Contents where
  objects : List ObjectPair
  bytes : Bytes

/-- `createPointer`. -/
def createPointer (v : Nat) : Number := ⟨64, v⟩

/-- The structure of a type or of what it points to. -/
def structType : CType → Option String
  | .struct name => some name
  | .pointer (.struct name) => some name
  | _ => none

instance (mo : ObjectPair) (a : Nat) : Decidable (mo.Covers a) :=
  inferInstanceAs (Decidable (_ ∧ _))

instance (mo : ObjectPair) (n a : Nat) : Decidable (mo.InBounds n a) :=
  inferInstanceAs (Decidable (_ ∧ _))

namespace Contents

/-- `AddressSpace::resolveOne` for a constant. -/
def resolveOne (m : Contents) (address : Nat) : Option ObjectPair :=
  m.objects.find? fun mo => mo.Covers address

/-- `ObjectState::read` with the width of pointers; `none` beyond the object. -/
def read (m : Contents) (little : Bool) (mo : ObjectPair) (address : Nat) : Option Number :=
  if mo.InBounds 8 address then some ⟨64, m.bytes.load little 8 address⟩ else none

/-- `getWriteable` and `ObjectState::write`; `none` where an assertion fails, or beyond the
object. -/
def write (m : Contents) (little : Bool) (mo : ObjectPair) (address : Nat) (value : Number) :
    Option Contents :=
  if mo.readOnly then none
  else if value.width = 1 ∨ value.width % 8 = 0 then
    if mo.InBounds (accessBytes value.width) address then
      some { m with bytes := storeWidth little value.width m.bytes address value.value }
    else none
  else none

end Contents

/-- What the loop of `eval` keeps. -/
structure Evaluation where
  st : Option String
  cur : Number
  addressRes : Number
deriving DecidableEq, Repr

section
variable (c : Call) (m : Contents)

/-- One round of the loop. A pointer that no object resolves for is initialized lazily, which is
left out: `none`, as where an assertion fails. -/
def evalStep (exprParsed : Bool) (e : Evaluation) (step : FieldStep) : Option Evaluation :=
  e.st.bind fun name =>
  (c.structLayout name).bind fun layout =>
  layout.elements[step.fieldIndex]?.bind fun field =>
  if e.cur.width = 64 then
    let cur : Number := ⟨64, (field.offset + e.cur.value) % 2 ^ 64⟩
    let st := structType field.type
    match field.type with
    | .pointer _ =>
      (m.resolveOne cur.value).bind fun mo =>
        (m.read c.littleEndian mo cur.value).map fun value => ⟨st, value, cur⟩
    | _ =>
      if exprParsed then
        match m.resolveOne cur.value with
        | some mo => (m.read c.littleEndian mo cur.value).map fun value => ⟨st, value, cur⟩
        | none => some ⟨st, cur, e.addressRes⟩
      else some ⟨st, cur, e.addressRes⟩
  else none

def evalSteps (e : Evaluation) : List FieldStep → Option Evaluation
  | [] => some e
  | step :: steps => (evalStep c m steps.isEmpty e step).bind fun e => evalSteps e steps

/-- `APIHandler::eval`. A number that is no `int` ends it with an exception. -/
def eval (side : Side) (address : Bool) : Option Number :=
  match side with
  | .null => some (createPointer 0)
  | .constant val => if val < 2 ^ 31 then some ⟨64, val⟩ else none
  | .path (.arg index) steps =>
    c.argTypes[index]?.bind fun t =>
    c.arguments[index]?.bind fun cur =>
    (evalSteps c m ⟨structType t, cur, cur⟩ steps).map fun e =>
      if address then e.addressRes else e.cur
  | .path (.alloc symbol) steps =>
    match c.symbols symbol with
    | none => some (createPointer 0)
    | some (t, cur) =>
      if cur = 0 then some (createPointer 0)
      else
        (evalSteps c m ⟨structType t, ⟨64, cur⟩, ⟨64, cur⟩⟩ steps).bind fun e =>
          if address then some e.addressRes
          else if steps.isEmpty then
            (m.resolveOne e.cur.value).bind fun mo => m.read c.littleEndian mo e.cur.value
          else some e.cur

/-- `SideEffectAPIHandler::interpret`: `addr` and `value` are of 64 bits and of any width. -/
def interpret (lhs rhs : Side) : Option Contents :=
  (eval c m lhs true).bind fun addr =>
  (eval c m rhs false).bind fun value =>
  if addr.width = 64 then
    match m.resolveOne addr.value with
    | some mo => m.write c.littleEndian mo addr.value value
    | none => some m
  else none

end

end SideEffect

end Encider
