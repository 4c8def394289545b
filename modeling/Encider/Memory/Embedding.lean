import Mathlib.Data.List.Basic
import Mathlib.Data.List.Nodup
import Mathlib.Logic.Function.Basic

/-!
Lazy allocation of struct types in `lib/Core/MemoryManager.cpp`, with the embedding relation in
use (`TurnOffEmbedding` off, `ConformToEmbedding` on): an object for an embedded type is one of
the type that embeds it. A failed assertion is `none`. The types are the struct types of the
module. An object lies in the address space, so an address inside it is a sum that does not wrap.
-/

namespace Encider.Embedding

variable {τ : Type} [DecidableEq τ]

/-- The tables the allocator reads. `elements` lists the elements of a struct that are structs
themselves, with their offsets; `embeddingTypes` is what `runFunctionAsMain` collects from them,
in the order of the set; `lazyInit` is `isAllocTypeLazyInit` called with a count of one. -/
structure Layout (τ : Type) [DecidableEq τ] where
  elements : τ → List (τ × ℕ)
  embeddingTypes : τ → List τ
  typeName : τ → String
  inferenceClue : String → Option (List String)
  lazyInit : τ → Bool × ℕ
  allocSize : τ → ℕ
  mem_embeddingTypes : ∀ {et t}, et ∈ embeddingTypes t ↔ t ∈ (elements et).map Prod.fst
  element_fits : ∀ {et e}, e ∈ elements et → e.2 + allocSize e.1 ≤ allocSize et
  depth : τ → ℕ
  acyclic : ∀ {et t}, et ∈ embeddingTypes t → depth et < depth t

structure MemoryObject (τ : Type) where
  base : ℕ
  size : ℕ
  type : τ
deriving DecidableEq

/-- The part of an `ExecutionState` that requests read and write. -/
structure LazyState (τ : Type) where
  objects : List (MemoryObject τ)
  lazyInitSingleInstances : τ → Option (MemoryObject τ)
  typeToAddr : τ → Option ℕ

def LazyState.empty : LazyState τ := ⟨[], fun _ => none, fun _ => none⟩

/-- `AddressSpace::resolveOne` at the base of an object: objects do not overlap. -/
def LazyState.resolveOne (st : LazyState τ) (address : ℕ) : Option (MemoryObject τ) :=
  st.objects.find? (·.base = address)

structure Answer (τ : Type) where
  mo : MemoryObject τ
  rallocType : τ
  resaddr : ℕ
  sym : Bool

/-- No answer is the null pointer, returned with `abort` set. -/
structure Response (τ : Type) where
  answer : Option (Answer τ)
  abort : Bool
  st : LazyState τ

namespace Layout

variable (p : Layout τ)

def isEmbeddedType (t : τ) : Bool := !(p.embeddingTypes t).isEmpty

def isAnInferenceClue (embeddedType embeddingType : String) : Bool :=
  match p.inferenceClue embeddedType with
  | some inf => inf.contains embeddingType
  | none => false

/-- An embedding type that is not named by the clues for the embedded one is passed over. -/
def skips (t et : τ) : Bool :=
  (p.inferenceClue (p.typeName t)).isSome && !p.isAnInferenceClue (p.typeName t) (p.typeName et)

/-- The offset of the first element of type `t`; there is an assertion that there is one. -/
def elementOffset (set t : τ) : Option ℕ := ((p.elements set).find? (·.1 = t)).map Prod.snd

/-- An object found through `typeToAddr`. -/
def ancestorInstance (origType allocType : τ) (address : ℕ) (mo : MemoryObject τ) :
    Option (Answer τ) :=
  if origType = allocType then some ⟨mo, allocType, address, false⟩
  else do
    let offset ← p.elementOffset allocType origType
    some ⟨mo, allocType, offset + mo.base, false⟩

/-- The new object goes to `address`. -/
def createInstance (st : LazyState τ) (address : ℕ) (allocType : τ) (isSingle : Bool)
    (count : ℕ) : Response τ :=
  let mo : MemoryObject τ := ⟨address, p.allocSize allocType * count, allocType⟩
  { answer := some ⟨mo, allocType, mo.base, true⟩
    abort := false
    st :=
      { objects := st.objects ++ [mo]
        typeToAddr := Function.update st.typeToAddr allocType (some mo.base)
        lazyInitSingleInstances :=
          if isSingle then Function.update st.lazyInitSingleInstances allocType (some mo)
          else st.lazyInitSingleInstances } }

/-- The recorded address of a type counts only for a request that began at an embedded type. -/
def recordedAddress (st : LazyState τ) (origType allocType : τ) : Option ℕ :=
  if p.isEmbeddedType origType then st.typeToAddr allocType else none

def allocateLazyForTypeOrEmbeddingSimple (st : LazyState τ) (address : ℕ) (origType allocType : τ)
    (isSingle : Bool) (count : ℕ) : Option (Response τ) :=
  if isSingle then
    match st.lazyInitSingleInstances allocType with
    | some mo => some ⟨some ⟨mo, allocType, mo.base, false⟩, false, st⟩
    | none =>
      match p.recordedAddress st origType allocType with
      | some recorded =>
        match st.resolveOne recorded with
        | some mo => do
          let answer ← p.ancestorInstance origType allocType recorded mo
          some ⟨some answer, false, st⟩
        | none => some ⟨none, true, st⟩
      | none => some (p.createInstance st address allocType isSingle count)
  else some (p.createInstance st address allocType isSingle count)

mutual

def allocateLazyForTypeOrEmbedding (st : LazyState τ) (address : ℕ) (origType allocType : τ)
    (isSingle : Bool) (count : ℕ) : Option (Response τ) :=
  if p.isEmbeddedType allocType then
    if isSingle then
      match st.lazyInitSingleInstances allocType with
      | some mo => some ⟨some ⟨mo, allocType, mo.base, false⟩, false, st⟩
      | none =>
        match p.recordedAddress st origType allocType with
        | some recorded => do
          let mo ← st.resolveOne recorded
          let answer ← p.ancestorInstance origType allocType recorded mo
          some ⟨some answer, false, st⟩
        | none =>
          askEmbedders st address origType allocType isSingle count (p.embeddingTypes allocType)
            (fun _ h => h) false
    else
      askEmbedders st address origType allocType isSingle count (p.embeddingTypes allocType)
        (fun _ h => h) false
  else p.allocateLazyForTypeOrEmbeddingSimple st address origType allocType isSingle count
termination_by (p.depth allocType, 1, 0)

/-- The loop over the embedding types: the first object found is taken, and the address is made
from its base. The type is allocated on its own when there is none. -/
def askEmbedders (st : LazyState τ) (address : ℕ) (origType allocType : τ) (isSingle : Bool)
    (count : ℕ) (embset : List τ) (hsub : ∀ et ∈ embset, et ∈ p.embeddingTypes allocType)
    (abort : Bool) : Option (Response τ) :=
  match embset with
  | [] => do
    let r ← p.allocateLazyForTypeOrEmbeddingSimple st address origType allocType isSingle count
    some { r with abort := abort || r.abort }
  | et :: rest =>
    if p.skips allocType et then
      askEmbedders st address origType allocType isSingle count rest
        (fun et' h => hsub et' (List.mem_cons_of_mem _ h)) abort
    else
      have := p.acyclic (hsub et List.mem_cons_self)
      match allocateLazyForTypeOrEmbedding st address origType et (p.lazyInit et).1
          (p.lazyInit et).2 with
      | none => none
      | some r =>
        match r.answer with
        | some a => do
          let offset ← p.elementOffset et allocType
          some ⟨some { a with resaddr := offset + a.mo.base }, abort || r.abort, r.st⟩
        | none =>
          askEmbedders r.st address origType allocType isSingle count rest
            (fun et' h => hsub et' (List.mem_cons_of_mem _ h)) (abort || r.abort)
termination_by (p.depth allocType, 0, embset.length)

end

end Layout

end Encider.Embedding
