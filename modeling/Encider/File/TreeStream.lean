import Encider.Lib.Reader

/-! `TreeStream.cpp`: streams that fork, all written to one file. -/

namespace Encider

open Reader

/-- `TreeStreamWriter`. A stream is given by its id; the root has id 0. -/
structure TreeStreamWriter where
  lastID : Nat := 0
  buffer : List UInt8 := []
  /-- The file. -/
  output : List UInt8 := []
  /-- An `unsigned`. -/
  ids : Nat := 1

namespace TreeStreamWriter

def bufferSize : Nat := 4 * 4096

/-- Four bytes of an `unsigned` as they are in memory. -/
def word (n : Nat) : List UInt8 := littleEndian (UInt32.ofNat n)

def flushBuffer (w : TreeStreamWriter) : TreeStreamWriter :=
  if w.buffer = [] then w
  else { w with
    output := w.output ++ (word w.lastID ++ word w.buffer.length ++ w.buffer)
    buffer := [] }

/-- The tag of a fork: bit 31 is set. -/
def forkTag (id : Nat) : Nat := id ||| 2 ^ 31

/-- The new stream has the id `w.ids`. -/
def openStream (w : TreeStreamWriter) (os : Nat) : TreeStreamWriter :=
  let w := w.flushBuffer
  { w with
    ids := (w.ids + 1) % 2 ^ 32
    output := w.output ++ (word os ++ word (forkTag w.ids)) }

/-- `write` once there is no chunk of another stream in the buffer. -/
def put (w : TreeStreamWriter) (os : Nat) (s : List UInt8) : TreeStreamWriter :=
  if w.buffer ≠ [] then { w with buffer := w.buffer ++ s }
  else if s.length < bufferSize then { w with lastID := os, buffer := s }
  else { w with output := w.output ++ (word os ++ word s.length ++ s) }

def write (w : TreeStreamWriter) (os : Nat) (s : List UInt8) : TreeStreamWriter :=
  if w.buffer ≠ [] ∧ (os ≠ w.lastID ∨ s.length + w.buffer.length > bufferSize) then
    w.flushBuffer.put os s
  else w.put os s

/-- A record of the file. -/
inductive Record where
  | fork (id child : Nat)
  | chunk (id : Nat) (bytes : List UInt8)

/-- `get` as often as said; it gives -1 at the end of the file. -/
def getBytes (size : Nat) : Reader (List UInt8) := fun input =>
  some (input.take size ++ List.replicate (size - input.length) 255, input.drop size)

def readRecord : Reader Record := do
  let id ← readLittle
  let tag ← readLittle
  if tag.toNat.testBit 31 then return .fork id.toNat (tag.toNat ^^^ 2 ^ 31)
  else do
    let bytes ← getBytes tag.toNat
    return .chunk id.toNat bytes

/-- `std::map::insert` keeps an element that is there. -/
def insertParent (parents : Nat → Option Nat) (child id : Nat) : Nat → Option Nat := fun c =>
  if c = child then (parents c).or (some id) else parents c

/-- The loop over the parents; the back of `roots` comes first. -/
def climbWithin (parents : Nat → Option Nat) : Nat → Nat → List Nat → Option (List Nat)
  | 0, _, _ => none
  | fuel + 1, id, roots =>
    if id = 0 then some roots
    else do
      let parent ← parents id
      climbWithin parents fuel parent (id :: roots)

/-- An id is an `unsigned`, so a climb that ends takes fewer steps than `2^32`. -/
def climb (parents : Nat → Option Nat) (id : Nat) (roots : List Nat) : Option (List Nat) :=
  climbWithin parents (2 ^ 32) id roots

/-- The first loop of `readStream`, for so many records at most. -/
def findRootsWithin (streamID : Nat) :
    Nat → (Nat → Option Nat) → List UInt8 → Option (List Nat)
  | 0, _, _ => none
  | fuel + 1, parents, input => do
    match ← readRecord input with
    | (.fork id child, rest) =>
      if child = streamID then climb parents id [child]
      else findRootsWithin streamID fuel (insertParent parents child id) rest
    | (.chunk _ _, rest) => findRootsWithin streamID fuel parents rest

/-- The first loop of `readStream`; `none` where the file ends before the stream is opened. There
are fewer records than bytes. -/
def findRoots (streamID : Nat) (parents : Nat → Option Nat) (input : List UInt8) :
    Option (List Nat) :=
  findRootsWithin streamID (input.length + 1) parents input

/-- One turn of the second loop, on the output and the roots. -/
def collect (st : List UInt8 × List Nat) : Record → List UInt8 × List Nat
  | .fork id child =>
    match st.2 with
    | back :: next :: roots => if id = back ∧ child = next then (st.1, next :: roots) else st
    | _ => st
  | .chunk id bytes => if st.2.head? = some id then (st.1 ++ bytes, st.2) else st

/-- The second loop of `readStream`, for so many records at most. -/
def collectWithin : Nat → List UInt8 × List Nat → List UInt8 → Option (List UInt8 × List Nat)
  | 0, _, _ => none
  | fuel + 1, st, input =>
    match readRecord input with
    | none => some st
    | some (record, rest) => collectWithin fuel (collect st record) rest

/-- The second loop: it ends with the file. -/
def collectAll (st : List UInt8 × List Nat) (input : List UInt8) :
    Option (List UInt8 × List Nat) :=
  collectWithin (input.length + 1) st input

/-- `none` where an assertion fails or the loop does not end. -/
def readStream (w : TreeStreamWriter) (streamID : Nat) : Option (List UInt8) :=
  if streamID > 0 ∧ streamID < w.ids then do
    let file := w.flushBuffer.output
    let roots ← findRoots streamID (fun _ => none) file
    let st ← collectAll ([], roots) file
    return st.1
  else none

/-- The calls of a program. Streams are numbered as they are opened, from 1; 0 is the root. -/
inductive Call where
  | openStream (parent : Nat)
  | write (stream : Nat) (bytes : List UInt8)

/-- The id of a stream is what `ids` was when it was opened. -/
def perform (w : TreeStreamWriter) : Call → TreeStreamWriter
  | .openStream parent => w.openStream (parent % 2 ^ 32)
  | .write stream bytes => w.write (stream % 2 ^ 32) bytes

end TreeStreamWriter

/-- What the streams are for: each begins with what its parent has when it is opened. -/
structure StreamTree where
  count : Nat := 0
  contents : Nat → List UInt8 := fun _ => []

namespace StreamTree

def openStream (t : StreamTree) (parent : Nat) : StreamTree where
  count := t.count + 1
  contents := Function.update t.contents (t.count + 1) (t.contents parent)

def write (t : StreamTree) (stream : Nat) (bytes : List UInt8) : StreamTree :=
  { t with contents := Function.update t.contents stream (t.contents stream ++ bytes) }

open TreeStreamWriter in
def perform (t : StreamTree) : Call → StreamTree
  | .openStream parent => t.openStream parent
  | .write stream bytes => t.write stream bytes

open TreeStreamWriter in
/-- The stream of the call is there, and a chunk is shorter than `2^31` bytes. -/
def Allows (t : StreamTree) : Call → Prop
  | .openStream parent => parent ≤ t.count
  | .write stream bytes => 1 ≤ stream ∧ stream ≤ t.count ∧ bytes.length < 2 ^ 31

variable (t : StreamTree) (p k : Nat) (bytes : List UInt8)

@[simp] theorem openStream_count : (t.openStream p).count = t.count + 1 := rfl

@[simp] theorem openStream_new : (t.openStream p).contents (t.count + 1) = t.contents p :=
  Function.update_self ..

theorem openStream_old {k : Nat} (h : k ≤ t.count) : (t.openStream p).contents k = t.contents k :=
  Function.update_of_ne (Nat.lt_succ_of_le h).ne _ _

@[simp] theorem write_count : (t.write k bytes).count = t.count := rfl

@[simp] theorem write_self : (t.write k bytes).contents k = t.contents k ++ bytes :=
  Function.update_self ..

theorem write_other {j : Nat} (h : j ≠ k) : (t.write k bytes).contents j = t.contents j :=
  Function.update_of_ne h _ _

@[simp] theorem write_nil : t.write k [] = t := by
  rw [write, List.append_nil, Function.update_eq_self]

theorem write_write (bytes' : List UInt8) :
    (t.write k bytes).write k bytes' = t.write k (bytes ++ bytes') := by
  simp [write]

end StreamTree

end Encider
