import Encider.Lib.Traced
import Encider.File.KTest

/-! `kTest_fromFile` with its buffers: what each read transfers, and what is allocated for it. -/

namespace Encider.KTest

open Traced

/-- What is left of the file, and the number of allocations so far. -/
structure LoadState where
  input : List UInt8
  allocations : ℕ
deriving DecidableEq

/-- The bytes that a read transfers, and those of its destination. -/
structure Transfer where
  bytes : ℕ
  room : ℕ
deriving DecidableEq

abbrev Load := Traced LoadState Transfer

/-- `fread` of one item to a destination of so many bytes. What is left of a shorter file is
transferred, too. -/
def freadTo (size room : ℕ) : Load (List UInt8) := fun s =>
  (if size = 0 ∨ s.input.length < size then none
    else some (s.input.take size, { s with input := s.input.drop size }),
    [⟨min size s.input.length, room⟩])

def loadUint32 : Load UInt32 := do
  let data ← freadTo 4 4
  match data with
  | [b₃, b₂, b₁, b₀] => return Reader.word b₃ b₂ b₁ b₀
  | _ => fail

section
-- whether the allocation with this number and size succeeds
variable (granted : ℕ → ℕ → Bool)

/-- `malloc` or `calloc`: whether a buffer of this size is returned. -/
def allocate (size : ℕ) : Load Bool := fun s =>
  (some (granted s.allocations size, { s with allocations := s.allocations + 1 }), [])

def loadString : Load CString := do
  let len ← loadUint32
  -- `len+1` is an `unsigned`
  let room := (len.toNat + 1) % 2 ^ 32
  if ← allocate granted room then
    let value ← freadTo len.toNat room
    return CString.ofBuffer value
  else fail

def loadObject : Load KTestObject := do
  let name ← loadString granted
  let numBytes ← loadUint32
  -- the result of this `malloc` is not checked
  let ok ← allocate granted numBytes.toNat
  let bytes ← freadTo numBytes.toNat (if ok then numBytes.toNat else 0)
  return ⟨name, bytes⟩

def loadHeader : Load Unit := do
  let header ← freadTo 5 5
  if header ≠ magic ∧ header ≠ boutMagic then fail else return ()

def loadSymArgvs (version : UInt32) : Load (UInt32 × UInt32) :=
  if version ≥ 2 then do
    let symArgvs ← loadUint32
    let symArgvLen ← loadUint32
    return (symArgvs, symArgvLen)
  else return (0, 0)

/-- A `calloc` whose result is checked. -/
def callocChecked (size : ℕ) : Load Unit := do
  if ← allocate granted size then return () else fail

/-- `kTest_fromFile` up to the arguments: the version and their number. -/
def loadFront : Load (UInt32 × UInt32) := do
  loadHeader
  callocChecked granted 40
  let version ← loadUint32
  if version > getCurrentVersion then fail
  else do
    let numArgs ← loadUint32
    callocChecked granted (numArgs.toNat * 8)
    return (version, numArgs)

/-- The part between the arguments and the objects. -/
def loadMiddle (version : UInt32) : Load ((UInt32 × UInt32) × UInt32) := do
  let symArgv ← loadSymArgvs version
  let numObjects ← loadUint32
  callocChecked granted (numObjects.toNat * 24)
  return (symArgv, numObjects)

/-- `kTest_fromFile` of a file that is open. -/
def load : Load KTest := do
  let (version, numArgs) ← loadFront granted
  let args ← Traced.count (loadString granted) numArgs.toNat
  let (symArgv, numObjects) ← loadMiddle granted version
  let objects ← Traced.count (loadObject granted) numObjects.toNat
  return ⟨version, args, symArgv.1, symArgv.2, objects⟩

end

/-- More bytes than there is room for. -/
def Overrun (t : Transfer) : Prop := t.room < t.bytes

/-! The layout of the files, with the allocations for their parts. -/

/-- A length and so many bytes. -/
def field (bs : List UInt8) : List UInt8 := Reader.bigEndian (UInt32.ofNat bs.length) ++ bs

/-- The size that is allocated for a string of this length. -/
def stringRoom (length : ℕ) : ℕ := (length + 1) % 2 ^ 32

section
variable (granted : ℕ → ℕ → Bool)

/-- So many strings, of which the first is the allocation with this number. -/
inductive StringFields : ℕ → ℕ → List UInt8 → Prop
  | nil (k : ℕ) : StringFields k 0 []
  | cons {k n : ℕ} {bs rest : List UInt8} (hne : bs ≠ []) (hlt : bs.length < 2 ^ 32)
      (hg : granted k (stringRoom bs.length) = true) (t : StringFields (k + 1) n rest) :
      StringFields k (n + 1) (field bs ++ rest)

/-- So many objects, each with the allocations of its name and of its bytes. -/
inductive ObjectFields : ℕ → ℕ → List UInt8 → Prop
  | nil (k : ℕ) : ObjectFields k 0 []
  | cons {k n : ℕ} {name bs rest : List UInt8} (hname : name ≠ []) (hnlt : name.length < 2 ^ 32)
      (hg : granted k (stringRoom name.length) = true) (hne : bs ≠ []) (hlt : bs.length < 2 ^ 32)
      (t : ObjectFields (k + 2) n rest) :
      ObjectFields k (n + 1) (field name ++ (field bs ++ rest))

/-- The bytes in front of the arguments. -/
structure Front (version numArgs : UInt32) (bytes : List UInt8) : Prop where
  layout : ∃ header, (header = magic ∨ header = boutMagic) ∧
    bytes = header ++ (Reader.bigEndian version ++ Reader.bigEndian numArgs)
  known : version ≤ getCurrentVersion
  test : granted 0 40 = true
  args : granted 1 (numArgs.toNat * 8) = true

/-- The bytes between the arguments and the objects. -/
structure Middle (version numArgs numObjects : UInt32) (bytes : List UInt8) : Prop where
  layout : ∃ sym : List UInt8, sym.length = (if version ≥ 2 then 8 else 0) ∧
    bytes = sym ++ Reader.bigEndian numObjects
  objects : granted (2 + numArgs.toNat) (numObjects.toNat * 24) = true

/-- The bytes in front of a string, with the number of its allocation. -/
inductive BeforeString : ℕ → List UInt8 → Prop
  | arg {version numArgs : UInt32} {n : ℕ} {front args : List UInt8}
      (hf : Front granted version numArgs front) (hn : n < numArgs.toNat)
      (ha : StringFields granted 2 n args) : BeforeString (2 + n) (front ++ args)
  | name {version numArgs numObjects : UInt32} {n : ℕ} {front args middle objects : List UInt8}
      (hf : Front granted version numArgs front)
      (ha : StringFields granted 2 numArgs.toNat args)
      (hm : Middle granted version numArgs numObjects middle) (hn : n < numObjects.toNat)
      (ho : ObjectFields granted (3 + numArgs.toNat) n objects) :
      BeforeString (3 + numArgs.toNat + 2 * n) (front ++ (args ++ (middle ++ objects)))

/-- The bytes in front of those of an object of this size, with the number of their allocation. -/
def BeforeBytes (k : ℕ) (size : UInt32) (bytes : List UInt8) : Prop :=
  ∃ version numArgs numObjects n front args middle objects name,
    Front granted version numArgs front ∧ StringFields granted 2 numArgs.toNat args ∧
      Middle granted version numArgs numObjects middle ∧ n < numObjects.toNat ∧
      ObjectFields granted (3 + numArgs.toNat) n objects ∧ name ≠ [] ∧ name.length < 2 ^ 32 ∧
      granted (3 + numArgs.toNat + 2 * n) (stringRoom name.length) = true ∧
      k = 3 + numArgs.toNat + 2 * n + 1 ∧
      bytes = front ++ (args ++ (middle ++ (objects ++ (field name ++ Reader.bigEndian size))))

/-- No string has the length `2^32 - 1` and bytes behind it, unless nothing is allocated for it; and
what an object has bytes for is allocated. -/
structure Fits (file : List UInt8) : Prop where
  strings : ∀ k bytes b rest, BeforeString granted k bytes →
    file = bytes ++ (Reader.bigEndian 0xffffffff ++ b :: rest) → granted k 0 = false
  bytes : ∀ k size bytes b rest, BeforeBytes granted k size bytes → size ≠ 0 →
    file = bytes ++ b :: rest → granted k size.toNat = true

end

variable {granted : ℕ → ℕ → Bool} {s s' : LoadState}

theorem gives_freadTo {size room : ℕ} {bs : List UInt8} : Gives (freadTo size room) s bs s' ↔
    size ≠ 0 ∧ bs.length = size ∧ s.input = bs ++ s'.input ∧ s'.allocations = s.allocations := by
  unfold Gives freadTo
  dsimp only
  split
  · next h =>
    refine iff_of_false (by simp) ?_
    rintro ⟨h0, hl, hi, -⟩
    rw [hi, List.length_append] at h
    omega
  · next h =>
    rw [not_or, Nat.not_lt] at h
    constructor
    · intro he
      cases he
      exact ⟨h.1, List.length_take_of_le h.2, (List.take_append_drop _ _).symm, rfl⟩
    · rintro ⟨-, hl, hi, ha⟩
      rw [hi, List.take_left' hl, List.drop_left' hl, ← ha]

theorem notes_freadTo {size room : ℕ} :
    Notes Overrun (freadTo size room) s ↔ room < min size s.input.length := by
  simp [Notes, freadTo, Overrun]

theorem gives_loadUint32 {v : UInt32} : Gives loadUint32 s v s' ↔
    s.input = Reader.bigEndian v ++ s'.input ∧ s'.allocations = s.allocations := by
  unfold loadUint32
  rw [gives_bind]
  constructor
  · rintro ⟨data, s₁, hd, hg⟩
    obtain ⟨-, hl, hi, ha⟩ := gives_freadTo.mp hd
    match data, hl with
    | [b₃, b₂, b₁, b₀], _ =>
      obtain ⟨rfl, rfl⟩ := gives_pure.mp hg
      rw [Reader.bigEndian_word]
      exact ⟨hi, ha⟩
  · rintro ⟨hi, ha⟩
    refine ⟨Reader.bigEndian v, s', gives_freadTo.mpr ⟨by omega, rfl, hi, ha⟩, ?_⟩
    exact gives_pure.mpr ⟨Reader.word_bytes v, rfl⟩

theorem not_notes_loadUint32 : ¬ Notes Overrun loadUint32 s := by
  unfold loadUint32
  rw [notes_bind, notes_freadTo]
  rintro (h | ⟨data, s₁, -, h⟩)
  · exact Nat.not_lt.mpr (min_le_left 4 _) h
  · split at h
    · exact not_notes_pure h
    · exact not_notes_fail h

theorem gives_allocate {size : ℕ} {b : Bool} : Gives (allocate granted size) s b s' ↔
    granted s.allocations size = b ∧ s' = { s with allocations := s.allocations + 1 } := by
  unfold Gives allocate
  simp only [Option.some.injEq, Prod.mk.injEq]
  exact and_congr_right fun _ => eq_comm

theorem not_notes_allocate {size : ℕ} : ¬ Notes Overrun (allocate granted size) s := by
  rintro ⟨t, ht, -⟩
  cases ht

theorem toNat_ofNat_length {bs : List UInt8} (h : bs.length < 2 ^ 32) :
    (UInt32.ofNat bs.length).toNat = bs.length :=
  UInt32.toNat_ofNat_of_lt' h

/-- The length, the allocation and the bytes of a string. -/
theorem gives_loadString_iff {v : CString} : Gives (loadString granted) s v s' ↔
    ∃ len s₁, s.input = Reader.bigEndian len ++ s₁ ∧
      granted s.allocations (stringRoom len.toNat) = true ∧
      ∃ bs, len.toNat ≠ 0 ∧ bs.length = len.toNat ∧ s₁ = bs ++ s'.input ∧
        s'.allocations = s.allocations + 1 ∧ CString.ofBuffer bs = v := by
  unfold loadString
  rw [gives_bind]
  constructor
  · rintro ⟨len, s₁, hl, h⟩
    obtain ⟨hi, ha⟩ := gives_loadUint32.mp hl
    obtain ⟨b, s₂, hb, h⟩ := gives_bind.mp h
    obtain ⟨hg, rfl⟩ := gives_allocate.mp hb
    cases b with
    | false => exact absurd h gives_fail
    | true =>
      obtain ⟨bs, s₃, hf, h⟩ := gives_bind.mp h
      obtain ⟨h0, hlen, hi', ha'⟩ := gives_freadTo.mp hf
      obtain ⟨rfl, rfl⟩ := gives_pure.mp h
      rw [ha] at hg ha'
      exact ⟨len, _, hi, hg, bs, h0, hlen, hi', ha', rfl⟩
  · rintro ⟨len, rest, hi, hg, bs, h0, hlen, hi', ha', rfl⟩
    refine ⟨len, ⟨rest, s.allocations⟩, gives_loadUint32.mpr ⟨hi, rfl⟩, ?_⟩
    refine gives_bind.mpr ⟨true, _, gives_allocate.mpr ⟨hg, rfl⟩, ?_⟩
    exact gives_bind.mpr ⟨bs, s', gives_freadTo.mpr ⟨h0, hlen, hi', ha'⟩,
      gives_pure.mpr ⟨rfl, rfl⟩⟩

/-- A string is read, and with it one allocation is made. -/
theorem gives_loadString : (∃ v, Gives (loadString granted) s v s') ↔
    ∃ bs, bs ≠ [] ∧ bs.length < 2 ^ 32 ∧ granted s.allocations (stringRoom bs.length) = true ∧
      s.input = field bs ++ s'.input ∧ s'.allocations = s.allocations + 1 := by
  constructor
  · rintro ⟨v, h⟩
    obtain ⟨len, rest, hi, hg, bs, h0, hlen, rfl, ha, -⟩ := gives_loadString_iff.mp h
    refine ⟨bs, ?_, hlen ▸ len.toNat_lt, hlen ▸ hg, ?_, ha⟩
    · rintro rfl
      exact h0 hlen.symm
    · rw [field, hlen, UInt32.ofNat_toNat, hi, List.append_assoc]
  · rintro ⟨bs, hne, hlt, hg, hi, ha⟩
    have hn := toNat_ofNat_length hlt
    refine ⟨_, gives_loadString_iff.mpr ⟨UInt32.ofNat bs.length, bs ++ s'.input, ?_, ?_, bs, ?_,
      hn.symm, rfl, ha, rfl⟩⟩
    · rw [hi, field, List.append_assoc]
    · rwa [hn]
    · rw [hn]
      exact mt List.length_eq_zero_iff.mp hne

theorem notes_loadString : Notes Overrun (loadString granted) s ↔
    ∃ b rest, s.input = Reader.bigEndian 0xffffffff ++ b :: rest ∧
      granted s.allocations 0 = true := by
  unfold loadString
  rw [notes_bind, or_iff_right not_notes_loadUint32]
  constructor
  · rintro ⟨len, s₁, hl, h⟩
    obtain ⟨hi, ha⟩ := gives_loadUint32.mp hl
    obtain ⟨b, s₂, hb, h⟩ := (notes_bind.mp h).resolve_left not_notes_allocate
    obtain ⟨hg, rfl⟩ := gives_allocate.mp hb
    cases b with
    | false => exact absurd h not_notes_fail
    | true =>
      rcases notes_bind.mp h with h | ⟨bs, s₃, -, h⟩
      · -- only the largest length makes the room smaller than the string
        rw [notes_freadTo] at h
        have hle := min_le_left len.toNat s₁.input.length
        have hle' := min_le_right len.toNat s₁.input.length
        have hlt := len.toNat_lt
        have hlen : len.toNat = 4294967295 := by
          dsimp only at h
          omega
        have hmax : len = 0xffffffff := UInt32.toNat_inj.mp hlen
        subst hmax
        rw [ha] at hg
        cases hr : s₁.input with
        | nil =>
          rw [hr] at hi
          simp [hr] at h
        | cons b rest => exact ⟨b, rest, by rw [hi, hr], hg⟩
      · exact absurd h not_notes_pure
  · rintro ⟨b, rest, hi, hg⟩
    refine ⟨0xffffffff, ⟨b :: rest, s.allocations⟩, gives_loadUint32.mpr ⟨hi, rfl⟩, ?_⟩
    refine notes_bind.mpr (.inr ⟨true, _, gives_allocate.mpr ⟨hg, rfl⟩, ?_⟩)
    refine notes_bind.mpr (.inl (notes_freadTo.mpr ?_))
    simp

theorem gives_loadObject : (∃ v, Gives (loadObject granted) s v s') ↔
    ∃ name bs, name ≠ [] ∧ name.length < 2 ^ 32 ∧
      granted s.allocations (stringRoom name.length) = true ∧ bs ≠ [] ∧ bs.length < 2 ^ 32 ∧
      s.input = field name ++ (field bs ++ s'.input) ∧ s'.allocations = s.allocations + 2 := by
  unfold loadObject
  constructor
  · rintro ⟨v, h⟩
    obtain ⟨name, s₁, hn, h⟩ := gives_bind.mp h
    obtain ⟨n, hne, hlt, hg, hi, ha⟩ := gives_loadString.mp ⟨name, hn⟩
    obtain ⟨size, s₂, hs, h⟩ := gives_bind.mp h
    obtain ⟨hi₂, ha₂⟩ := gives_loadUint32.mp hs
    obtain ⟨b, s₃, hb, h⟩ := gives_bind.mp h
    obtain ⟨-, rfl⟩ := gives_allocate.mp hb
    obtain ⟨bs, s₄, hf, h⟩ := gives_bind.mp h
    obtain ⟨h0, hlen, hi₄, ha₄⟩ := gives_freadTo.mp hf
    obtain ⟨-, rfl⟩ := gives_pure.mp h
    refine ⟨n, bs, hne, hlt, hg, ?_, hlen ▸ size.toNat_lt, ?_, ?_⟩
    · rintro rfl
      exact h0 hlen.symm
    · dsimp only at hi₄
      rw [hi, hi₂, hi₄, field, field, hlen, UInt32.ofNat_toNat]
      simp only [List.append_assoc]
    · rw [ha₄, ha₂, ha]
  · rintro ⟨n, bs, hne, hlt, hg, hbne, hblt, hi, ha⟩
    have hn : ∃ v, Gives (loadString granted) s v ⟨field bs ++ s'.input, s.allocations + 1⟩ :=
      gives_loadString.mpr ⟨n, hne, hlt, hg, hi, rfl⟩
    obtain ⟨name, hn⟩ := hn
    have hlen := toNat_ofNat_length hblt
    refine ⟨_, gives_bind.mpr ⟨name, ⟨field bs ++ s'.input, s.allocations + 1⟩, hn,
      gives_bind.mpr ⟨UInt32.ofNat bs.length, ⟨bs ++ s'.input, s.allocations + 1⟩,
        gives_loadUint32.mpr ⟨?_, rfl⟩, gives_bind.mpr ⟨_, _, gives_allocate.mpr ⟨rfl, rfl⟩,
          gives_bind.mpr ⟨bs, s', gives_freadTo.mpr ⟨?_, hlen.symm, rfl, ha⟩,
            gives_pure.mpr ⟨rfl, rfl⟩⟩⟩⟩⟩⟩
    · rw [field, List.append_assoc]
    · rw [hlen]
      exact mt List.length_eq_zero_iff.mp hbne

theorem notes_loadObject : Notes Overrun (loadObject granted) s ↔
    (∃ b rest, s.input = Reader.bigEndian 0xffffffff ++ b :: rest ∧
      granted s.allocations 0 = true) ∨
    ∃ name size b rest, name ≠ [] ∧ name.length < 2 ^ 32 ∧
      granted s.allocations (stringRoom name.length) = true ∧ size ≠ 0 ∧
      s.input = field name ++ (Reader.bigEndian size ++ b :: rest) ∧
      granted (s.allocations + 1) size.toNat = false := by
  unfold loadObject
  rw [notes_bind, notes_loadString]
  refine or_congr_right ?_
  constructor
  · rintro ⟨name, s₁, hn, h⟩
    obtain ⟨n, hne, hlt, hg, hi, ha⟩ := gives_loadString.mp ⟨name, hn⟩
    obtain ⟨size, s₂, hs, h⟩ := (notes_bind.mp h).resolve_left not_notes_loadUint32
    obtain ⟨hi₂, ha₂⟩ := gives_loadUint32.mp hs
    obtain ⟨ok, s₃, hb, h⟩ := (notes_bind.mp h).resolve_left not_notes_allocate
    obtain ⟨hg₂, rfl⟩ := gives_allocate.mp hb
    rcases notes_bind.mp h with h | ⟨bs, s₄, -, h⟩
    · rw [notes_freadTo] at h
      have hle := min_le_left size.toNat s₂.input.length
      cases ok with
      | true => exact absurd h (Nat.not_lt.mpr hle)
      | false =>
        dsimp only at h
        refine ⟨n, size, ?_⟩
        cases hr : s₂.input with
        | nil => simp [hr] at h
        | cons b rest =>
          refine ⟨b, rest, hne, hlt, hg, ?_, by rw [hi, hi₂, hr], ?_⟩
          · rintro rfl
            simp at h
          · rwa [ha₂, ha] at hg₂
    · exact absurd h not_notes_pure
  · rintro ⟨n, size, b, rest, hne, hlt, hg, h0, hi, hg₂⟩
    have hn : ∃ v, Gives (loadString granted) s v
        ⟨Reader.bigEndian size ++ b :: rest, s.allocations + 1⟩ :=
      gives_loadString.mpr ⟨n, hne, hlt, hg, hi, rfl⟩
    obtain ⟨name, hn⟩ := hn
    refine ⟨name, _, hn, notes_bind.mpr (.inr ⟨size, ⟨b :: rest, s.allocations + 1⟩,
      gives_loadUint32.mpr ⟨rfl, rfl⟩, notes_bind.mpr (.inr ⟨false, _,
        gives_allocate.mpr ⟨hg₂, rfl⟩, notes_bind.mpr (.inl (notes_freadTo.mpr ?_))⟩)⟩)⟩
    have hpos : 0 < size.toNat := Nat.pos_of_ne_zero fun h => h0 (UInt32.toNat_inj.mp h)
    simp [hpos]

theorem passes_loadString {n : ℕ} : Passes (loadString granted) n s s' ↔
    ∃ bytes, StringFields granted s.allocations n bytes ∧ s.input = bytes ++ s'.input ∧
      s'.allocations = s.allocations + n := by
  constructor
  · intro h
    induction h with
    | zero s => exact ⟨[], .nil _, rfl, rfl⟩
    | succ hx _ ih =>
      obtain ⟨bs, hne, hlt, hg, hi, ha⟩ := gives_loadString.mp ⟨_, hx⟩
      obtain ⟨bytes, hf, hi', ha'⟩ := ih
      rw [ha] at hf ha'
      refine ⟨field bs ++ bytes, .cons hne hlt hg hf, ?_, ?_⟩
      · rw [hi, hi', List.append_assoc]
      · rw [ha', Nat.add_assoc, Nat.add_comm 1]
  · rintro ⟨bytes, hf, hi, ha⟩
    generalize hk : s.allocations = k at hf ha
    induction hf generalizing s with
    | nil k =>
      obtain ⟨input, allocations⟩ := s
      obtain ⟨input', allocations'⟩ := s'
      dsimp only [List.nil_append, Nat.add_zero] at hi ha hk
      subst hi ha hk
      exact .zero _
    | cons hne hlt hg _ ih =>
      rename_i bs rest t
      rw [List.append_assoc] at hi
      have hx : ∃ v, Gives (loadString granted) s v ⟨rest ++ s'.input, s.allocations + 1⟩ :=
        gives_loadString.mpr ⟨bs, hne, hlt, hk ▸ hg, hi, rfl⟩
      obtain ⟨v, hx⟩ := hx
      exact .succ hx (ih rfl (by dsimp only; omega) (by omega))

theorem passes_loadObject {n : ℕ} : Passes (loadObject granted) n s s' ↔
    ∃ bytes, ObjectFields granted s.allocations n bytes ∧ s.input = bytes ++ s'.input ∧
      s'.allocations = s.allocations + 2 * n := by
  constructor
  · intro h
    induction h with
    | zero s => exact ⟨[], .nil _, rfl, rfl⟩
    | succ hx _ ih =>
      obtain ⟨name, bs, hne, hlt, hg, hbne, hblt, hi, ha⟩ := gives_loadObject.mp ⟨_, hx⟩
      obtain ⟨bytes, hf, hi', ha'⟩ := ih
      rw [ha] at hf ha'
      refine ⟨field name ++ (field bs ++ bytes), .cons hne hlt hg hbne hblt hf, ?_, by omega⟩
      rw [hi, hi']
      simp only [List.append_assoc]
  · rintro ⟨bytes, hf, hi, ha⟩
    generalize hk : s.allocations = k at hf ha
    induction hf generalizing s with
    | nil k =>
      obtain ⟨input, allocations⟩ := s
      obtain ⟨input', allocations'⟩ := s'
      dsimp only [List.nil_append] at hi ha hk
      rw [Nat.mul_zero, Nat.add_zero] at ha
      subst hi ha hk
      exact .zero _
    | cons hne hlt hg hbne hblt _ ih =>
      rename_i name bs rest t
      simp only [List.append_assoc] at hi
      have hx : ∃ v, Gives (loadObject granted) s v ⟨rest ++ s'.input, s.allocations + 2⟩ :=
        gives_loadObject.mpr ⟨name, bs, hne, hlt, hk ▸ hg, hbne, hblt, hi, rfl⟩
      obtain ⟨v, hx⟩ := hx
      exact .succ hx (ih rfl (by dsimp only; omega) (by omega))

/-- What one of the first or the last parts notes. -/
theorem not_notes_loadHeader : ¬ Notes Overrun loadHeader s := by
  unfold loadHeader
  rw [notes_bind, notes_freadTo]
  rintro (h | ⟨header, s₁, -, h⟩)
  · exact Nat.not_lt.mpr (min_le_left 5 _) h
  · split at h
    · exact not_notes_fail h
    · exact not_notes_pure h

theorem gives_loadHeader : Gives loadHeader s () s' ↔
    ∃ header, (header = magic ∨ header = boutMagic) ∧ s.input = header ++ s'.input ∧
      s'.allocations = s.allocations := by
  unfold loadHeader
  rw [gives_bind]
  constructor
  · rintro ⟨header, s₁, hf, h⟩
    obtain ⟨-, -, hi, ha⟩ := gives_freadTo.mp hf
    split at h
    · exact absurd h gives_fail
    · next hm =>
      obtain ⟨-, rfl⟩ := gives_pure.mp h
      exact ⟨header, by tauto, hi, ha⟩
  · rintro ⟨header, hm, hi, ha⟩
    have hlen : header.length = 5 := by
      rcases hm with rfl | rfl <;> rfl
    refine ⟨header, s', gives_freadTo.mpr ⟨by omega, hlen, hi, ha⟩, ?_⟩
    rw [if_neg (by tauto)]
    exact gives_pure.mpr ⟨rfl, rfl⟩

theorem not_notes_callocChecked {size : ℕ} : ¬ Notes Overrun (callocChecked granted size) s := by
  unfold callocChecked
  rw [notes_bind]
  rintro (h | ⟨b, s₁, -, h⟩)
  · exact not_notes_allocate h
  · split at h
    · exact not_notes_pure h
    · exact not_notes_fail h

theorem gives_callocChecked {size : ℕ} : Gives (callocChecked granted size) s () s' ↔
    granted s.allocations size = true ∧ s' = { s with allocations := s.allocations + 1 } := by
  unfold callocChecked
  rw [gives_bind]
  constructor
  · rintro ⟨b, s₁, hb, h⟩
    obtain ⟨hg, rfl⟩ := gives_allocate.mp hb
    cases b with
    | false => exact absurd h gives_fail
    | true =>
      obtain ⟨-, rfl⟩ := gives_pure.mp h
      exact ⟨hg, rfl⟩
  · rintro ⟨hg, rfl⟩
    exact ⟨true, _, gives_allocate.mpr ⟨hg, rfl⟩, gives_pure.mpr ⟨rfl, rfl⟩⟩

theorem not_notes_loadSymArgvs {version : UInt32} : ¬ Notes Overrun (loadSymArgvs version) s := by
  unfold loadSymArgvs
  split
  · rw [notes_bind]
    rintro (h | ⟨_, s₁, -, h⟩)
    · exact not_notes_loadUint32 h
    · rcases notes_bind.mp h with h | ⟨_, s₂, -, h⟩
      · exact not_notes_loadUint32 h
      · exact not_notes_pure h
  · exact not_notes_pure

theorem gives_loadSymArgvs {version : UInt32} : (∃ v, Gives (loadSymArgvs version) s v s') ↔
    ∃ sym : List UInt8, sym.length = (if version ≥ 2 then 8 else 0) ∧
      s.input = sym ++ s'.input ∧ s'.allocations = s.allocations := by
  unfold loadSymArgvs
  by_cases hv : version ≥ 2
  · rw [if_pos hv, if_pos hv]
    constructor
    · rintro ⟨v, h⟩
      obtain ⟨v₁, s₁, h₁, h⟩ := gives_bind.mp h
      obtain ⟨v₂, s₂, h₂, h⟩ := gives_bind.mp h
      obtain ⟨hi₁, ha₁⟩ := gives_loadUint32.mp h₁
      obtain ⟨hi₂, ha₂⟩ := gives_loadUint32.mp h₂
      obtain ⟨-, rfl⟩ := gives_pure.mp h
      refine ⟨Reader.bigEndian v₁ ++ Reader.bigEndian v₂, rfl, ?_, ha₂.trans ha₁⟩
      rw [hi₁, hi₂, List.append_assoc]
    · rintro ⟨sym, hl, hi, ha⟩
      match sym, hl with
      | [a₃, a₂, a₁, a₀, b₃, b₂, b₁, b₀], _ =>
        refine ⟨_, gives_bind.mpr ⟨Reader.word a₃ a₂ a₁ a₀,
          ⟨[b₃, b₂, b₁, b₀] ++ s'.input, s.allocations⟩, gives_loadUint32.mpr ⟨?_, rfl⟩,
          gives_bind.mpr ⟨Reader.word b₃ b₂ b₁ b₀, s', gives_loadUint32.mpr ⟨?_, ha⟩,
            gives_pure.mpr ⟨rfl, rfl⟩⟩⟩⟩
        · rw [Reader.bigEndian_word]
          exact hi
        · rw [Reader.bigEndian_word]
  · rw [if_neg hv, if_neg hv]
    constructor
    · rintro ⟨v, h⟩
      obtain ⟨-, rfl⟩ := gives_pure.mp h
      exact ⟨[], rfl, rfl, rfl⟩
    · rintro ⟨sym, hl, hi, ha⟩
      obtain rfl := List.length_eq_zero_iff.mp hl
      obtain ⟨input, allocations⟩ := s
      obtain ⟨input', allocations'⟩ := s'
      dsimp only [List.nil_append] at hi ha
      subst hi ha
      exact ⟨_, gives_pure.mpr ⟨rfl, rfl⟩⟩

theorem not_notes_loadFront : ¬ Notes Overrun (loadFront granted) s := by
  unfold loadFront
  rw [notes_bind, or_iff_right not_notes_loadHeader]
  rintro ⟨_, s₁, -, h⟩
  obtain ⟨_, s₂, -, h⟩ := (notes_bind.mp h).resolve_left not_notes_callocChecked
  obtain ⟨version, s₃, -, h⟩ := (notes_bind.mp h).resolve_left not_notes_loadUint32
  split at h
  · exact not_notes_fail h
  · obtain ⟨numArgs, s₄, -, h⟩ := (notes_bind.mp h).resolve_left not_notes_loadUint32
    obtain ⟨_, s₅, -, h⟩ := (notes_bind.mp h).resolve_left not_notes_callocChecked
    exact not_notes_pure h

theorem gives_loadFront {file : List UInt8} {version numArgs : UInt32} :
    Gives (loadFront granted) ⟨file, 0⟩ (version, numArgs) s' ↔
      ∃ bytes, Front granted version numArgs bytes ∧ file = bytes ++ s'.input ∧
        s'.allocations = 2 := by
  unfold loadFront
  constructor
  · intro h
    obtain ⟨_, s₁, h₁, h⟩ := gives_bind.mp h
    obtain ⟨header, hm, hi₁, ha₁⟩ := gives_loadHeader.mp h₁
    obtain ⟨_, s₂, h₂, h⟩ := gives_bind.mp h
    obtain ⟨hg₂, rfl⟩ := gives_callocChecked.mp h₂
    obtain ⟨v, s₃, h₃, h⟩ := gives_bind.mp h
    obtain ⟨hi₃, ha₃⟩ := gives_loadUint32.mp h₃
    split at h
    · exact absurd h gives_fail
    · next hv =>
      obtain ⟨n, s₄, h₄, h⟩ := gives_bind.mp h
      obtain ⟨hi₄, ha₄⟩ := gives_loadUint32.mp h₄
      obtain ⟨_, s₅, h₅, h⟩ := gives_bind.mp h
      obtain ⟨hg₅, rfl⟩ := gives_callocChecked.mp h₅
      obtain ⟨he, rfl⟩ := gives_pure.mp h
      cases he
      dsimp only at hi₁ ha₁ hi₃ ha₃
      refine ⟨_, ⟨⟨header, hm, rfl⟩, UInt32.not_lt.mp hv, ha₁ ▸ hg₂, ?_⟩, ?_, ?_⟩
      · rwa [ha₄, ha₃, ha₁] at hg₅
      · rw [hi₁, hi₃, hi₄]
        simp only [List.append_assoc]
      · simp only [ha₄, ha₃, ha₁]
  · rintro ⟨bytes, ⟨⟨header, hm, rfl⟩, hv, hg, hga⟩, rfl, ha⟩
    refine gives_bind.mpr ⟨(), ⟨_, 0⟩, gives_loadHeader.mpr ⟨header, hm, List.append_assoc .., rfl⟩,
      gives_bind.mpr ⟨(), _, gives_callocChecked.mpr ⟨hg, rfl⟩, gives_bind.mpr ⟨version, ⟨_, 1⟩,
        gives_loadUint32.mpr ⟨List.append_assoc .., rfl⟩, ?_⟩⟩⟩
    rw [if_neg (UInt32.not_lt.mpr hv)]
    refine gives_bind.mpr ⟨numArgs, ⟨s'.input, 1⟩, gives_loadUint32.mpr ⟨rfl, rfl⟩,
      gives_bind.mpr ⟨(), _, gives_callocChecked.mpr ⟨hga, rfl⟩, gives_pure.mpr ⟨rfl, ?_⟩⟩⟩
    exact (LoadState.mk.injEq ..).mpr ⟨rfl, ha.symm⟩

theorem not_notes_loadMiddle {version : UInt32} :
    ¬ Notes Overrun (loadMiddle granted version) s := by
  unfold loadMiddle
  rw [notes_bind, or_iff_right not_notes_loadSymArgvs]
  rintro ⟨_, s₁, -, h⟩
  obtain ⟨_, s₂, -, h⟩ := (notes_bind.mp h).resolve_left not_notes_loadUint32
  obtain ⟨_, s₃, -, h⟩ := (notes_bind.mp h).resolve_left not_notes_callocChecked
  exact not_notes_pure h

theorem gives_loadMiddle {version numArgs numObjects : UInt32}
    (hs : s.allocations = 2 + numArgs.toNat) :
    (∃ sym, Gives (loadMiddle granted version) s (sym, numObjects) s') ↔
      ∃ bytes, Middle granted version numArgs numObjects bytes ∧ s.input = bytes ++ s'.input ∧
        s'.allocations = 3 + numArgs.toNat := by
  unfold loadMiddle
  constructor
  · rintro ⟨sym, h⟩
    obtain ⟨v, s₁, h₁, h⟩ := gives_bind.mp h
    obtain ⟨bs, hl, hi₁, ha₁⟩ := gives_loadSymArgvs.mp ⟨v, h₁⟩
    obtain ⟨n, s₂, h₂, h⟩ := gives_bind.mp h
    obtain ⟨hi₂, ha₂⟩ := gives_loadUint32.mp h₂
    obtain ⟨_, s₃, h₃, h⟩ := gives_bind.mp h
    obtain ⟨hg₃, rfl⟩ := gives_callocChecked.mp h₃
    obtain ⟨he, rfl⟩ := gives_pure.mp h
    cases he
    rw [ha₂, ha₁, hs] at hg₃
    refine ⟨_, ⟨⟨bs, hl, rfl⟩, hg₃⟩, ?_, ?_⟩
    · rw [hi₁, hi₂, List.append_assoc]
    · dsimp only
      omega
  · rintro ⟨bytes, ⟨⟨bs, hl, rfl⟩, hg⟩, hi, ha⟩
    rw [List.append_assoc] at hi
    have hv : ∃ v, Gives (loadSymArgvs version) s v
        ⟨Reader.bigEndian numObjects ++ s'.input, s.allocations⟩ :=
      gives_loadSymArgvs.mpr ⟨bs, hl, hi, rfl⟩
    obtain ⟨v, hv⟩ := hv
    refine ⟨v, gives_bind.mpr ⟨v, _, hv, gives_bind.mpr ⟨numObjects, ⟨s'.input, s.allocations⟩,
      gives_loadUint32.mpr ⟨rfl, rfl⟩, gives_bind.mpr ⟨(), _, gives_callocChecked.mpr ⟨?_, rfl⟩,
        gives_pure.mpr ⟨rfl, ?_⟩⟩⟩⟩⟩
    · dsimp only
      rwa [hs]
    · obtain ⟨input', allocations'⟩ := s'
      dsimp only at ha ⊢
      rw [ha, hs]
      congr 1
      omega

/-- The loader before an argument, a name or the bytes of an object. -/
theorem notes_load {file : List UInt8} : Notes Overrun (load granted) ⟨file, 0⟩ ↔
    (∃ version numArgs s₁, Gives (loadFront granted) ⟨file, 0⟩ (version, numArgs) s₁ ∧
      ((∃ n < numArgs.toNat, ∃ s₂, Passes (loadString granted) n s₁ s₂ ∧
        Notes Overrun (loadString granted) s₂) ∨
      ∃ s₂, Passes (loadString granted) numArgs.toNat s₁ s₂ ∧ ∃ numObjects s₃,
        (∃ sym, Gives (loadMiddle granted version) s₂ (sym, numObjects) s₃) ∧
        ∃ n < numObjects.toNat, ∃ s₄, Passes (loadObject granted) n s₃ s₄ ∧
          Notes Overrun (loadObject granted) s₄)) := by
  unfold load
  rw [notes_bind, or_iff_right not_notes_loadFront]
  constructor
  · rintro ⟨⟨version, numArgs⟩, s₁, h₁, h⟩
    refine ⟨version, numArgs, s₁, h₁, ?_⟩
    rcases notes_bind.mp h with h | ⟨args, s₂, h₂, h⟩
    · exact .inl (notes_count.mp h)
    · right
      refine ⟨s₂, exists_gives_count.mp ⟨args, h₂⟩, ?_⟩
      obtain ⟨⟨sym, numObjects⟩, s₃, h₃, h⟩ := (notes_bind.mp h).resolve_left not_notes_loadMiddle
      refine ⟨numObjects, s₃, ⟨sym, h₃⟩, ?_⟩
      rcases notes_bind.mp h with h | ⟨objects, s₄, -, h⟩
      · exact notes_count.mp h
      · exact absurd h not_notes_pure
  · rintro ⟨version, numArgs, s₁, h₁, h⟩
    refine ⟨(version, numArgs), s₁, h₁, notes_bind.mpr ?_⟩
    rcases h with h | ⟨s₂, h₂, numObjects, s₃, ⟨sym, h₃⟩, h⟩
    · exact .inl (notes_count.mpr h)
    · obtain ⟨args, h₂⟩ := exists_gives_count.mpr h₂
      exact .inr ⟨args, s₂, h₂, notes_bind.mpr (.inr ⟨(sym, numObjects), s₃, h₃,
        notes_bind.mpr (.inl (notes_count.mpr h))⟩)⟩

/-- The places of the file at which the loader overruns a buffer. -/
theorem notes_load_iff {file : List UInt8} : Notes Overrun (load granted) ⟨file, 0⟩ ↔
    (∃ k bytes b rest, BeforeString granted k bytes ∧
      file = bytes ++ (Reader.bigEndian 0xffffffff ++ b :: rest) ∧ granted k 0 = true) ∨
    ∃ k size bytes b rest, BeforeBytes granted k size bytes ∧ size ≠ 0 ∧
      file = bytes ++ b :: rest ∧ granted k size.toNat = false := by
  rw [notes_load]
  constructor
  · rintro ⟨version, numArgs, s₁, h₁, h⟩
    obtain ⟨front, hf, rfl, ha₁⟩ := gives_loadFront.mp h₁
    rcases h with ⟨n, hn, s₂, h₂, h⟩ | ⟨s₂, h₂, numObjects, s₃, h₃, n, hn, s₄, h₄, h⟩
    · obtain ⟨args, hargs, hi₂, ha₂⟩ := passes_loadString.mp h₂
      obtain ⟨b, rest, hi, hg⟩ := notes_loadString.mp h
      rw [ha₁] at hargs ha₂
      rw [ha₂] at hg
      refine .inl ⟨_, _, b, rest, .arg hf hn hargs, ?_, hg⟩
      rw [hi₂, hi, List.append_assoc]
    · obtain ⟨args, hargs, hi₂, ha₂⟩ := passes_loadString.mp h₂
      rw [ha₁] at hargs ha₂
      obtain ⟨middle, hm, hi₃, ha₃⟩ := (gives_loadMiddle ha₂).mp h₃
      obtain ⟨objects, ho, hi₄, ha₄⟩ := passes_loadObject.mp h₄
      rw [ha₃] at ho ha₄
      rcases notes_loadObject.mp h with ⟨b, rest, hi, hg⟩ | ⟨name, size, b, rest, hne, hlt, hgn, h0,
        hi, hg⟩
      · rw [ha₄] at hg
        refine .inl ⟨_, _, b, rest, .name hf hargs hm hn ho, ?_, hg⟩
        rw [hi₂, hi₃, hi₄, hi]
        simp only [List.append_assoc]
      · rw [ha₄] at hg hgn
        refine .inr ⟨_, size, _, b, rest, ⟨version, numArgs, numObjects, n, front, args, middle,
          objects, name, hf, hargs, hm, hn, ho, hne, hlt, hgn, rfl, rfl⟩, h0, ?_, hg⟩
        rw [hi₂, hi₃, hi₄, hi]
        simp only [List.append_assoc]
  · rintro (⟨k, bytes, b, rest, hb, rfl, hg⟩ | ⟨k, size, bytes, b, rest, hb, h0, rfl, hg⟩)
    · cases hb with
      | arg hf hn ha =>
        rename_i version numArgs n front args
        refine ⟨version, numArgs, ⟨_, 2⟩,
          gives_loadFront.mpr ⟨front, hf, List.append_assoc .., rfl⟩, .inl ⟨n, hn, ⟨_, 2 + n⟩,
            passes_loadString.mpr ⟨args, ha, rfl, rfl⟩,
            notes_loadString.mpr ⟨b, rest, rfl, hg⟩⟩⟩
      | name hf ha hm hn ho =>
        rename_i version numArgs numObjects n front args middle objects
        have h3 : ∃ sym, Gives (loadMiddle granted version)
            ⟨middle ++ (objects ++ (Reader.bigEndian 0xffffffff ++ b :: rest)), 2 + numArgs.toNat⟩
            (sym, numObjects)
            ⟨objects ++ (Reader.bigEndian 0xffffffff ++ b :: rest), 3 + numArgs.toNat⟩ :=
          (gives_loadMiddle rfl).mpr ⟨middle, hm, rfl, rfl⟩
        refine ⟨version, numArgs, ⟨args ++ (middle ++ (objects ++
            (Reader.bigEndian 0xffffffff ++ b :: rest))), 2⟩,
          gives_loadFront.mpr ⟨front, hf, by simp only [List.append_assoc], rfl⟩, .inr ⟨_,
            passes_loadString.mpr ⟨args, ha, rfl, rfl⟩, numObjects, _, h3, n, hn,
            ⟨Reader.bigEndian 0xffffffff ++ b :: rest, 3 + numArgs.toNat + 2 * n⟩,
            passes_loadObject.mpr ⟨objects, ho, rfl, rfl⟩,
            notes_loadObject.mpr (.inl ⟨b, rest, rfl, hg⟩)⟩⟩
    · obtain ⟨version, numArgs, numObjects, n, front, args, middle, objects, name, hf, ha, hm, hn,
        ho, hne, hlt, hgn, rfl, rfl⟩ := hb
      have h3 : ∃ sym, Gives (loadMiddle granted version)
          ⟨middle ++ (objects ++ (field name ++ (Reader.bigEndian size ++ b :: rest))),
            2 + numArgs.toNat⟩ (sym, numObjects)
          ⟨objects ++ (field name ++ (Reader.bigEndian size ++ b :: rest)), 3 + numArgs.toNat⟩ :=
        (gives_loadMiddle rfl).mpr ⟨middle, hm, rfl, rfl⟩
      refine ⟨version, numArgs, ⟨args ++ (middle ++ (objects ++
          (field name ++ (Reader.bigEndian size ++ b :: rest)))), 2⟩,
        gives_loadFront.mpr ⟨front, hf, by simp only [List.append_assoc], rfl⟩, .inr ⟨_,
          passes_loadString.mpr ⟨args, ha, rfl, rfl⟩, numObjects, _, h3, n, hn,
          ⟨field name ++ (Reader.bigEndian size ++ b :: rest), 3 + numArgs.toNat + 2 * n⟩,
          passes_loadObject.mpr ⟨objects, ho, rfl, rfl⟩,
          notes_loadObject.mpr (.inr ⟨name, size, b, rest, hne, hlt, hgn, h0, rfl, hg⟩)⟩⟩

/-- No read transfers more than was allocated for it exactly where the file fits. -/
theorem reads_fit_iff (granted : ℕ → ℕ → Bool) (file : List UInt8) :
    (∀ t ∈ (load granted ⟨file, 0⟩).2, t.bytes ≤ t.room) ↔ Fits granted file := by
  have hnotes : (∀ t ∈ (load granted ⟨file, 0⟩).2, t.bytes ≤ t.room) ↔
      ¬ Notes Overrun (load granted) ⟨file, 0⟩ := by
    simp only [Notes, Overrun, not_exists, not_and, Nat.not_lt]
  rw [hnotes, notes_load_iff]
  constructor
  · intro h
    rw [not_or] at h
    constructor
    · intro k bytes b rest hb hfile
      exact Bool.eq_false_iff.mpr fun hg => h.1 ⟨k, bytes, b, rest, hb, hfile, hg⟩
    · intro k size bytes b rest hb h0 hfile
      by_contra hg
      exact h.2 ⟨k, size, bytes, b, rest, hb, h0, hfile, Bool.eq_false_iff.mpr hg⟩
  · rintro h (⟨k, bytes, b, rest, hb, hfile, hg⟩ | ⟨k, size, bytes, b, rest, hb, h0, hfile, hg⟩)
    · rw [h.strings k bytes b rest hb hfile] at hg
      cases hg
    · rw [h.bytes k size bytes b rest hb h0 hfile] at hg
      cases hg

/-- A string of the largest length, for which the room is zero, and one byte. -/
theorem reads_overrun : ⟨1, 0⟩ ∈ (load (fun _ _ => true)
    ⟨magic ++ Reader.bigEndian 1 ++ Reader.bigEndian 1 ++ Reader.bigEndian 0xffffffff ++ [0x61],
      0⟩).2 := by
  decide

/-- Where every allocation succeeds, the loader returns what the reader of the file does. -/
def Erases {α : Type} (p : Load α) (r : Reader α) : Prop :=
  ∀ s, (p s).1.map (fun x => (x.1, x.2.input)) = r s.input

section
variable {α β : Type} {p : Load α} {r : Reader α} {q : α → Load β} {r' : α → Reader β}

theorem Erases.pure (x : α) : Erases (pure x) (pure x) := fun _ => rfl

theorem erases_fail : Erases (fail : Load α) failure := fun _ => rfl

theorem Erases.bind (h : Erases p r) (h' : ∀ x, Erases (q x) (r' x)) :
    Erases (p >>= q) (r >>= r') := by
  intro s
  have hs := h s
  rw [Reader.bind_apply, ← hs]
  change (andThen (p s) q).1.map _ = _
  unfold andThen
  cases (p s).1 with
  | none => rfl
  | some x => exact h' x.1 x.2

theorem Erases.count (h : Erases p r) (n : ℕ) : Erases (Traced.count p n) (Reader.count r n) := by
  induction n with
  | zero => exact .pure []
  | succ n ih => exact h.bind fun x => ih.bind fun xs => .pure (x :: xs)

/-- A part that only allocates. -/
theorem Erases.skip {p : Load Unit} (h : ∀ s, (p s).1.map (fun x => x.2.input) = some s.input)
    {q : Unit → Load β} {r : Reader β} (hq : Erases (q ()) r) : Erases (p >>= q) r := by
  intro s
  have hs := h s
  change (andThen (p s) q).1.map _ = _
  unfold andThen
  cases hp : (p s).1 with
  | none => simp [hp] at hs
  | some x =>
    rw [hp, Option.map_some, Option.some.injEq] at hs
    rw [← hs]
    exact hq x.2

theorem erases_freadTo (size room : ℕ) : Erases (freadTo size room) (fread size) := by
  intro s
  unfold freadTo fread Reader.take
  by_cases h0 : size = 0
  · simp [h0]
    rfl
  · by_cases hl : s.input.length < size
    · simp [h0, hl]
    · simp [h0, hl]

end

theorem erases_loadUint32 : Erases loadUint32 Reader.readBig := by
  intro s
  obtain ⟨input, k⟩ := s
  match input with
  | [] => rfl
  | [_] => rfl
  | [_, _] => rfl
  | [_, _, _] => rfl
  | a :: b :: c :: d :: rest =>
    have hg : Gives loadUint32 ⟨a :: b :: c :: d :: rest, k⟩ (Reader.word a b c d) ⟨rest, k⟩ := by
      rw [gives_loadUint32, Reader.bigEndian_word]
      exact ⟨rfl, rfl⟩
    rw [hg]
    rfl

/-- All allocations succeed. -/
def always : ℕ → ℕ → Bool := fun _ _ => true

theorem erases_loadString : Erases (loadString always) readString := by
  refine erases_loadUint32.bind fun len => ?_
  intro s
  exact ((erases_freadTo len.toNat _).bind fun bs => Erases.pure (CString.ofBuffer bs))
    ⟨s.input, s.allocations + 1⟩

theorem erases_loadObject : Erases (loadObject always) readObject := by
  refine erases_loadString.bind fun name => erases_loadUint32.bind fun numBytes => ?_
  intro s
  exact ((erases_freadTo numBytes.toNat numBytes.toNat).bind fun bs =>
    Erases.pure (KTestObject.mk name bs)) ⟨s.input, s.allocations + 1⟩

theorem erases_loadHeader : Erases loadHeader checkHeader := by
  refine (erases_freadTo 5 5).bind fun header => ?_
  split
  · exact erases_fail
  · exact .pure ()

theorem erases_loadSymArgvs (version : UInt32) :
    Erases (loadSymArgvs version) (readSymArgvs version) := by
  unfold loadSymArgvs readSymArgvs
  split
  · exact erases_loadUint32.bind fun _ => erases_loadUint32.bind fun _ => .pure _
  · exact .pure _

theorem skip_calloc (size : ℕ) (s : LoadState) :
    (callocChecked always size s).1.map (fun x => x.2.input) = some s.input := rfl

theorem erases_loadFront : Erases (loadFront always) (do
    checkHeader
    let version ← Reader.readBig
    if version > getCurrentVersion then failure
    else do
      let numArgs ← Reader.readBig
      return (version, numArgs)) := by
  refine erases_loadHeader.bind fun _ => Erases.skip (skip_calloc 40) ?_
  refine erases_loadUint32.bind fun version => ?_
  split
  · exact erases_fail
  · exact erases_loadUint32.bind fun numArgs => Erases.skip (skip_calloc _) (.pure _)

theorem erases_loadMiddle (version : UInt32) : Erases (loadMiddle always version) (do
    let symArgv ← readSymArgvs version
    let numObjects ← Reader.readBig
    return (symArgv, numObjects)) :=
  (erases_loadSymArgvs version).bind fun _ => erases_loadUint32.bind fun _ =>
    Erases.skip (skip_calloc _) (.pure _)

/-- The reader of the file is the loader without its buffers. -/
theorem load_eq_fromFile (file : List UInt8) :
    (load always ⟨file, 0⟩).1.map Prod.fst = fromFile file := by
  have h : Erases (load always) readTest := by
    have hall := erases_loadFront.bind fun v => (erases_loadString.count v.2.toNat).bind fun args =>
      (erases_loadMiddle v.1).bind fun m => (erases_loadObject.count m.2.toNat).bind fun objects =>
        Erases.pure (KTest.mk v.1 args m.1.1 m.1.2 objects)
    convert hall using 1
    · rfl
    unfold readTest
    rw [bind_assoc]
    refine bind_congr fun _ => ?_
    rw [bind_assoc]
    refine bind_congr fun version => ?_
    split
    · rfl
    · simp only [bind_assoc, pure_bind]
  have hf := h ⟨file, 0⟩
  rw [fromFile, ← hf, Option.map_map]
  rfl

end Encider.KTest
