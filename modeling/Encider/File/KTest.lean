import Encider.Lib.Reader

/-! `KTest.cpp`: test cases are written to files and read back. -/

namespace Encider

open Reader

/-- A C string: the bytes before the terminating zero. -/
structure CString where
  bytes : List UInt8
  noZero : 0 ∉ bytes
deriving DecidableEq

namespace CString

/-- The string at the start of a buffer. -/
def ofBuffer (buffer : List UInt8) : CString where
  bytes := buffer.takeWhile (· != 0)
  noZero := by
    intro h
    simpa using List.mem_takeWhile_imp h

def strlen (s : CString) : Nat := s.bytes.length

theorem ofBuffer_bytes (s : CString) : ofBuffer s.bytes = s := by
  obtain ⟨bytes, noZero⟩ := s
  rw [ofBuffer, mk.injEq, List.takeWhile_eq_self_iff]
  intro b hb
  rw [bne_iff_ne]
  rintro rfl
  exact noZero hb

end CString

structure KTestObject where
  name : CString
  bytes : List UInt8
deriving DecidableEq

/-- The arrays with their numbers of elements. -/
structure KTest where
  version : UInt32
  args : List CString
  symArgvs : UInt32
  symArgvLen : UInt32
  objects : List KTestObject
deriving DecidableEq

namespace KTest

/-- `fwrite` of one item to a file that takes all bytes: an item without bytes counts as not
written. -/
def fwrite (bytes : List UInt8) : Option (List UInt8) := if bytes = [] then none else some bytes

/-- `fread` of one item. -/
def fread (size : Nat) : Reader (List UInt8) := if size = 0 then failure else Reader.take size

def writeUint32 (value : UInt32) : Option (List UInt8) := some (bigEndian value)

def writeString (value : CString) : Option (List UInt8) := do
  let len := UInt32.ofNat value.strlen
  let head ← writeUint32 len
  let body ← fwrite (value.bytes.take len.toNat)
  return head ++ body

def readString : Reader CString := do
  let len ← readBig
  let value ← fread len.toNat
  return CString.ofBuffer value

/-- `KTEST_MAGIC`: "KTEST". -/
def magic : List UInt8 := [0x4b, 0x54, 0x45, 0x53, 0x54]

/-- `BOUT_MAGIC`: "BOUT" and a newline. -/
def boutMagic : List UInt8 := [0x42, 0x4f, 0x55, 0x54, 0x0a]

def checkHeader : Reader Unit := do
  let header ← fread 5
  if header ≠ magic ∧ header ≠ boutMagic then failure

def getCurrentVersion : UInt32 := 3

def writeObject (o : KTestObject) : Option (List UInt8) := do
  let numBytes := UInt32.ofNat o.bytes.length
  -- an object without bytes is skipped, but stays in the number of objects
  if numBytes = 0 then return []
  let name ← writeString o.name
  let size ← writeUint32 numBytes
  let bytes ← fwrite (o.bytes.take numBytes.toNat)
  return name ++ size ++ bytes

def readObject : Reader KTestObject := do
  let name ← readString
  let numBytes ← readBig
  let bytes ← fread numBytes.toNat
  return ⟨name, bytes⟩

/-- `kTest_toFile`: the bytes of the file, where it reports success. -/
def toFile (bo : KTest) : Option (List UInt8) := do
  let header ← fwrite magic
  let version ← writeUint32 getCurrentVersion
  let numArgs ← writeUint32 (UInt32.ofNat bo.args.length)
  let args ← bo.args.mapM writeString
  let symArgvs ← writeUint32 bo.symArgvs
  let symArgvLen ← writeUint32 bo.symArgvLen
  let numObjects ← writeUint32 (UInt32.ofNat bo.objects.length)
  let objects ← bo.objects.mapM writeObject
  return header ++ version ++ numArgs ++ args.flatten ++ symArgvs ++ symArgvLen ++ numObjects ++
    objects.flatten

/-- Files from version 2 on have the fields of symbolic arguments. -/
def readSymArgvs (version : UInt32) : Reader (UInt32 × UInt32) :=
  if version ≥ 2 then do
    let symArgvs ← readBig
    let symArgvLen ← readBig
    return (symArgvs, symArgvLen)
  else return (0, 0)

def readTest : Reader KTest := do
  checkHeader
  let version ← readBig
  if version > getCurrentVersion then failure
  else do
    let numArgs ← readBig
    let args ← Reader.count readString numArgs.toNat
    let symArgv ← readSymArgvs version
    let numObjects ← readBig
    let objects ← Reader.count readObject numObjects.toNat
    return ⟨version, args, symArgv.1, symArgv.2, objects⟩

/-- `kTest_fromFile`. -/
def fromFile (file : List UInt8) : Option KTest := (readTest file).map Prod.fst

/-- All lengths are below `2^31`. -/
structure Small (bo : KTest) : Prop where
  numArgs : bo.args.length < 2 ^ 31
  args : ∀ a ∈ bo.args, a.strlen < 2 ^ 31
  numObjects : bo.objects.length < 2 ^ 31
  names : ∀ o ∈ bo.objects, o.name.strlen < 2 ^ 31
  bytes : ∀ o ∈ bo.objects, o.bytes.length < 2 ^ 31

/-- No empty item is written. -/
def Writable (bo : KTest) : Prop :=
  (∀ a ∈ bo.args, a.bytes ≠ []) ∧ ∀ o ∈ bo.objects, o.bytes ≠ [] → o.name.bytes ≠ []

/-- What is read back from the file, if one is written. -/
def RoundTrip (bo : KTest) : Prop :=
  ∀ file, toFile bo = some file → ∃ bo', fromFile file = some bo' ∧ bo'.args = bo.args ∧
    bo'.symArgvs = bo.symArgvs ∧ bo'.symArgvLen = bo.symArgvLen ∧ bo'.objects = bo.objects

theorem toNat_length {n : Nat} (h : n < 2 ^ 31) : (UInt32.ofNat n).toNat = n :=
  UInt32.toNat_ofNat_of_lt' (h.trans (by decide))

/-! The bytes of each part. -/

def stringBytes (s : CString) : List UInt8 := bigEndian (UInt32.ofNat s.strlen) ++ s.bytes

def objectBytes (o : KTestObject) : List UInt8 :=
  stringBytes o.name ++ bigEndian (UInt32.ofNat o.bytes.length) ++ o.bytes

theorem reads_fread {bytes : List UInt8} (h : bytes ≠ []) :
    Reads (fread bytes.length) bytes bytes := by
  rw [fread, if_neg (mt List.length_eq_zero_iff.mp h)]
  exact reads_take bytes

theorem writeString_eq {s : CString} (h : s.strlen < 2 ^ 31) (hne : s.bytes ≠ []) :
    writeString s = some (stringBytes s) := by
  simp only [writeString, writeUint32, Option.bind_eq_bind, Option.bind_some, toNat_length h]
  rw [CString.strlen, List.take_length, fwrite, if_neg hne]
  rfl

theorem writeString_empty {s : CString} (h : s.bytes = []) : writeString s = none := by
  simp [writeString, writeUint32, fwrite, h]

theorem reads_readString {s : CString} (h : s.strlen < 2 ^ 31) (hne : s.bytes ≠ []) :
    Reads readString (stringBytes s) s := by
  have hlast := (reads_fread hne).last CString.ofBuffer
  rw [CString.ofBuffer_bytes] at hlast
  refine (reads_readBig _).bind ?_
  rw [toNat_length h]
  exact hlast

theorem ofNat_length_eq_zero {bytes : List UInt8} (h : bytes.length < 2 ^ 31) :
    UInt32.ofNat bytes.length = 0 ↔ bytes = [] := by
  rw [← UInt32.toNat_inj, toNat_length h]
  exact List.length_eq_zero_iff

theorem writeObject_eq {o : KTestObject} (hname : o.name.strlen < 2 ^ 31)
    (hbytes : o.bytes.length < 2 ^ 31) (hne : o.bytes ≠ []) (hnamed : o.name.bytes ≠ []) :
    writeObject o = some (objectBytes o) := by
  have hzero := mt (ofNat_length_eq_zero hbytes).mp hne
  simp only [writeObject, if_neg hzero, writeString_eq hname hnamed, writeUint32,
    Option.bind_eq_bind, Option.bind_some, toNat_length hbytes]
  rw [List.take_length, fwrite, if_neg hne]
  rfl

theorem writeObject_unnamed {o : KTestObject} (hbytes : o.bytes.length < 2 ^ 31)
    (hne : o.bytes ≠ []) (hnamed : o.name.bytes = []) : writeObject o = none := by
  have hzero := mt (ofNat_length_eq_zero hbytes).mp hne
  simp only [writeObject, if_neg hzero, writeString_empty hnamed, Option.bind_eq_bind,
    Option.bind_none]

theorem writeObject_skipped {o : KTestObject} (h : o.bytes = []) : writeObject o = some [] := by
  simp [writeObject, h]

theorem reads_readObject {o : KTestObject} (hname : o.name.strlen < 2 ^ 31)
    (hbytes : o.bytes.length < 2 ^ 31) (hne : o.bytes ≠ []) (hnamed : o.name.bytes ≠ []) :
    Reads readObject (objectBytes o) o := by
  have hlast := (reads_fread hne).last (KTestObject.mk o.name)
  rw [← toNat_length hbytes] at hlast
  rw [objectBytes, List.append_assoc]
  exact (reads_readString hname hnamed).bind ((reads_readBig _).bind hlast)

/-- What is written of the objects. -/
def kept (bo : KTest) : List KTestObject := bo.objects.filter fun o => o.bytes ≠ []

def fileBytes (bo : KTest) : List UInt8 :=
  magic ++ bigEndian getCurrentVersion ++ bigEndian (UInt32.ofNat bo.args.length) ++
    bo.args.flatMap stringBytes ++ bigEndian bo.symArgvs ++ bigEndian bo.symArgvLen ++
    bigEndian (UInt32.ofNat bo.objects.length) ++ (kept bo).flatMap objectBytes

theorem mapM_eq_some {α β : Type} {f : α → Option β} {g : α → β} {xs : List α}
    (h : ∀ x ∈ xs, f x = some (g x)) : xs.mapM f = some (xs.map g) := by
  induction xs with
  | nil => rfl
  | cons x xs ih =>
    rw [List.forall_mem_cons] at h
    simp [h.1, ih h.2]

theorem mapM_eq_none {α β : Type} {f : α → Option β} {xs : List α} {x : α} (hx : x ∈ xs)
    (h : f x = none) : xs.mapM f = none := by
  induction xs with
  | nil => cases hx
  | cons y ys ih =>
    rw [List.mapM_cons]
    obtain rfl | hy := List.mem_cons.mp hx
    · rw [h]
      rfl
    · rw [ih hy]
      cases f y <;> rfl

variable {bo : KTest}

theorem toFile_eq (h : bo.Small) (hw : bo.Writable) : toFile bo = some (fileBytes bo) := by
  have hargs : bo.args.mapM writeString = some (bo.args.map stringBytes) :=
    mapM_eq_some fun a ha => writeString_eq (h.args a ha) (hw.1 a ha)
  have hobjects : bo.objects.mapM writeObject =
      some (bo.objects.map fun o => if o.bytes = [] then [] else objectBytes o) := by
    refine mapM_eq_some fun o ho => ?_
    split_ifs with hb
    · exact writeObject_skipped hb
    · exact writeObject_eq (h.names o ho) (h.bytes o ho) hb (hw.2 o ho hb)
  have hflat : (bo.objects.map fun o => if o.bytes = [] then [] else objectBytes o).flatten =
      (kept bo).flatMap objectBytes := by
    rw [kept]
    induction bo.objects with
    | nil => rfl
    | cons o os ih =>
      by_cases hb : o.bytes = [] <;> simp [hb, ih]
  have hmagic : fwrite magic = some magic := by decide
  simp only [toFile, hargs, hobjects, hmagic, writeUint32, Option.bind_eq_bind, Option.bind_some,
    hflat]
  rfl

theorem toFile_eq_none (h : bo.Small) (hw : ¬ bo.Writable) : toFile bo = none := by
  rw [Writable, not_and_or] at hw
  have hmagic : fwrite magic = some magic := by decide
  simp only [toFile, hmagic, writeUint32, Option.bind_eq_bind, Option.bind_some]
  obtain hargs | hobjects := hw
  · simp only [not_forall, not_not] at hargs
    obtain ⟨a, ha, hempty⟩ := hargs
    rw [mapM_eq_none ha (writeString_empty hempty), Option.bind_none]
  · simp only [not_forall, not_not] at hobjects
    obtain ⟨o, ho, hb, hempty⟩ := hobjects
    rw [mapM_eq_none ho (writeObject_unnamed (h.bytes o ho) hb hempty)]
    cases bo.args.mapM writeString <;> rfl

theorem reads_checkHeader : Reads checkHeader magic () := by
  have hread : Reads (fread magic.length) magic magic := reads_fread (by decide)
  intro rest
  rw [checkHeader]
  refine (hread.run _ _).trans rfl

theorem reads_readSymArgvs (symArgvs symArgvLen : UInt32) :
    Reads (readSymArgvs getCurrentVersion) (bigEndian symArgvs ++ bigEndian symArgvLen)
      (symArgvs, symArgvLen) := by
  rw [readSymArgvs, if_pos (by decide)]
  exact (reads_readBig _).bind ((reads_readBig _).last _)

/-- The file is read up to the objects. -/
theorem readTest_fileBytes (h : bo.Small) (hw : bo.Writable) :
    readTest (fileBytes bo) =
      (Reader.count readObject bo.objects.length ((kept bo).flatMap objectBytes)).map fun r =>
        (⟨getCurrentVersion, bo.args, bo.symArgvs, bo.symArgvLen, r.1⟩, r.2) := by
  have hargs : Reads (Reader.count readString bo.args.length) (bo.args.flatMap stringBytes)
      (bo.args.map id) :=
    Reads.count fun a ha => reads_readString (h.args a ha) (hw.1 a ha)
  rw [List.map_id, ← toNat_length h.numArgs] at hargs
  have hsym := reads_readSymArgvs bo.symArgvs bo.symArgvLen
  have hfile : fileBytes bo = magic ++ (bigEndian getCurrentVersion ++
      (bigEndian (UInt32.ofNat bo.args.length) ++ (bo.args.flatMap stringBytes ++
        ((bigEndian bo.symArgvs ++ bigEndian bo.symArgvLen) ++
          (bigEndian (UInt32.ofNat bo.objects.length) ++ (kept bo).flatMap objectBytes))))) := by
    simp only [fileBytes, List.append_assoc]
  have hversion : ¬ getCurrentVersion > getCurrentVersion := by decide
  rw [hfile, readTest, reads_checkHeader.run, (reads_readBig _).run, if_neg hversion,
    (reads_readBig _).run, hargs.run, hsym.run, (reads_readBig _).run, map_apply,
    toNat_length h.numObjects]

theorem reads_objects (h : bo.Small) (hw : bo.Writable) : ∀ o ∈ kept bo,
    Reads readObject (objectBytes o) (id o) := by
  intro o ho
  rw [kept, List.mem_filter, decide_eq_true_eq] at ho
  obtain ⟨ho, hb⟩ := ho
  exact reads_readObject (h.names o ho) (h.bytes o ho) hb (hw.2 o ho hb)

/-- A test is read back as it was written exactly where no object was skipped. -/
theorem roundTrip_iff (bo : KTest) (h : bo.Small) :
    bo.RoundTrip ↔ (bo.Writable → ∀ o ∈ bo.objects, o.bytes ≠ []) := by
  by_cases hw : bo.Writable
  · have hread := readTest_fileBytes h hw
    have hobjects := reads_objects h hw
    simp only [hw, forall_const]
    by_cases hall : ∀ o ∈ bo.objects, o.bytes ≠ []
    · refine iff_of_true ?_ hall
      intro file hfile
      rw [toFile_eq h hw, Option.some.injEq] at hfile
      have hkept : kept bo = bo.objects := List.filter_eq_self.mpr (by simpa using hall)
      rw [hkept] at hread hobjects
      have hcount := Reads.count hobjects []
      rw [List.append_nil, List.map_id] at hcount
      rw [hcount, Option.map_some] at hread
      refine ⟨⟨getCurrentVersion, bo.args, bo.symArgvs, bo.symArgvLen, bo.objects⟩, ?_, rfl, rfl,
        rfl, rfl⟩
      rw [← hfile, fromFile, hread, Option.map_some]
    · refine iff_of_false ?_ hall
      intro hround
      obtain ⟨bo', hbo', -⟩ := hround _ (toFile_eq h hw)
      -- a skipped object is missing at the end of the file
      have hlt : (kept bo).length < bo.objects.length := by
        refine List.length_filter_lt_length_iff_exists.mpr ?_
        simpa using hall
      rw [fromFile, hread, count_eq_none hobjects rfl hlt] at hbo'
      cases hbo'
  · refine iff_of_true ?_ fun hw' => absurd hw' hw
    intro file hfile
    rw [toFile_eq_none h hw] at hfile
    cases hfile

/-- A test with two objects that is read back. -/
def twoObjects : KTest :=
  ⟨3, [⟨[0x61], by decide⟩], 1, 2, [⟨⟨[0x78], by decide⟩, [0, 255]⟩, ⟨⟨[0x79], by decide⟩, [7]⟩]⟩

theorem roundTrip_twoObjects : twoObjects.RoundTrip := by
  refine (roundTrip_iff twoObjects ⟨?_, ?_, ?_, ?_, ?_⟩).mpr fun _ => ?_ <;> decide

/-- One object without bytes. -/
def noBytes : KTest := ⟨3, [], 0, 0, [⟨⟨[0x78], by decide⟩, []⟩]⟩

theorem noBytes_not_roundTrip : noBytes.Small ∧ ¬ noBytes.RoundTrip := by
  refine ⟨⟨?_, ?_, ?_, ?_, ?_⟩, ?_⟩
  iterate 5 decide
  intro hround
  obtain ⟨bo', hbo', -⟩ := hround (fileBytes noBytes) (by decide)
  have hnone : fromFile (fileBytes noBytes) = none := by decide
  rw [hnone] at hbo'
  cases hbo'

end KTest

end Encider
