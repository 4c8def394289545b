import Encider.File.StreamRecords

/-! In a run of calls each stream is read back as it was written. -/

namespace Encider

open Reader

namespace TreeStreamWriter

/-- The file of a writer tells the contents of the streams. -/
structure Flushed (w : TreeStreamWriter) (t : StreamTree) : Prop where
  empty : w.buffer = []
  ids : w.ids = t.count + 1
  count : t.count < 2 ^ 31
  file : ∃ rs, w.output = rs.flatMap Record.encode ∧ Tells rs t

/-- The file and then the buffer do. -/
structure Keeps (w : TreeStreamWriter) (t : StreamTree) : Prop where
  ids : w.ids = t.count + 1
  count : t.count < 2 ^ 31
  small : w.buffer.length ≤ bufferSize
  last : w.buffer ≠ [] → 1 ≤ w.lastID ∧ w.lastID ≤ t.count
  file : ∃ rs t₀, w.output = rs.flatMap Record.encode ∧ Tells rs t₀ ∧ t = t₀.write w.lastID w.buffer

variable {w : TreeStreamWriter} {t : StreamTree}

theorem Flushed.keeps (h : Flushed w t) : Keeps w t := by
  obtain ⟨rs, hrs, htells⟩ := h.file
  refine ⟨h.ids, h.count, ?_, fun hne => absurd h.empty hne, rs, t, hrs, htells, ?_⟩
  · rw [h.empty]
    exact Nat.zero_le _
  · rw [h.empty, t.write_nil]

theorem Keeps.flush (h : Keeps w t) : Flushed w.flushBuffer t := by
  obtain ⟨rs, t₀, hrs, htells, rfl⟩ := h.file
  by_cases hbuffer : w.buffer = []
  · rw [flushBuffer, if_pos hbuffer]
    refine ⟨hbuffer, h.ids, h.count, rs, hrs, ?_⟩
    rwa [hbuffer, t₀.write_nil]
  · obtain ⟨hlast, hlast'⟩ := h.last hbuffer
    rw [flushBuffer, if_neg hbuffer]
    refine ⟨rfl, h.ids, h.count, rs ++ [.chunk w.lastID w.buffer], ?_, ?_⟩
    · simp only [hrs, List.flatMap_append, List.flatMap_singleton, Record.encode]
    · exact htells.chunk hlast hlast' h.count (h.small.trans_lt (by decide))

theorem Flushed.openStream (h : Flushed w t) {p : Nat} (hp : p ≤ t.count)
    (hcount : t.count + 1 < 2 ^ 31) : Flushed (w.openStream p) (t.openStream p) := by
  obtain ⟨rs, hrs, htells⟩ := h.file
  have hsame : w.flushBuffer = w := if_pos h.empty
  rw [TreeStreamWriter.openStream, hsame]
  refine ⟨h.empty, ?_, hcount, rs ++ [.fork p (t.count + 1)], ?_, htells.fork hp hcount⟩
  · rw [t.openStream_count, h.ids]
    exact Nat.mod_eq_of_lt (by omega)
  · simp only [hrs, h.ids, List.flatMap_append, List.flatMap_singleton, Record.encode]

theorem openStream_flushBuffer (w : TreeStreamWriter) (p : Nat) :
    w.flushBuffer.openStream p = w.openStream p := by
  have hempty : w.flushBuffer.buffer = [] := by
    unfold flushBuffer
    split_ifs with h
    · exact h
    · rfl
  have htwice : w.flushBuffer.flushBuffer = w.flushBuffer := if_pos hempty
  rw [TreeStreamWriter.openStream, htwice]
  rfl

theorem Keeps.openStream (h : Keeps w t) {p : Nat} (hp : p ≤ t.count)
    (hcount : t.count + 1 < 2 ^ 31) : Keeps (w.openStream p) (t.openStream p) := by
  rw [← openStream_flushBuffer]
  exact (h.flush.openStream hp hcount).keeps

/-- A chunk goes to an empty buffer, or past it to the file. -/
theorem Flushed.put (h : Flushed w t) {k : Nat} {bytes : List UInt8} (hk : 1 ≤ k)
    (hk' : k ≤ t.count) (hbytes : bytes.length < 2 ^ 31) :
    Keeps (w.put k bytes) (t.write k bytes) := by
  obtain ⟨rs, hrs, htells⟩ := h.file
  rw [TreeStreamWriter.put, if_neg (not_not.mpr h.empty)]
  split_ifs with hsize
  · exact ⟨h.ids, h.count, hsize.le, fun _ => ⟨hk, hk'⟩, rs, t, hrs, htells, rfl⟩
  · refine Flushed.keeps ⟨h.empty, h.ids, h.count, rs ++ [.chunk k bytes], ?_, ?_⟩
    · simp only [hrs, List.flatMap_append, List.flatMap_singleton, Record.encode]
    · exact htells.chunk hk hk' h.count hbytes

theorem Keeps.write (h : Keeps w t) {k : Nat} {bytes : List UInt8} (hk : 1 ≤ k)
    (hk' : k ≤ t.count) (hbytes : bytes.length < 2 ^ 31) :
    Keeps (w.write k bytes) (t.write k bytes) := by
  unfold TreeStreamWriter.write
  split_ifs with hflush
  · exact h.flush.put hk hk' hbytes
  · by_cases hbuffer : w.buffer = []
    · have hsame : w.flushBuffer = w := if_pos hbuffer
      exact (hsame ▸ h.flush).put hk hk' hbytes
    · -- the chunk joins the buffer
      obtain ⟨rs, t₀, hrs, htells, rfl⟩ := h.file
      simp only [hbuffer, ne_eq, not_false_eq_true, true_and, not_or, not_not, not_lt] at hflush
      obtain ⟨rfl, hsize⟩ := hflush
      rw [TreeStreamWriter.put, if_pos hbuffer]
      refine ⟨h.ids, h.count, ?_, fun _ => ⟨hk, hk'⟩, rs, t₀, hrs, htells, ?_⟩
      · rw [List.length_append, Nat.add_comm]
        exact hsize
      · exact t₀.write_write w.lastID w.buffer bytes

theorem keeps_new : Keeps {} {} :=
  Flushed.keeps ⟨rfl, rfl, by decide, [], rfl, tells_nil⟩

theorem Keeps.perform (h : Keeps w t) {c : Call} (hc : t.Allows c)
    (hcount : (t.perform c).count < 2 ^ 31) : Keeps (w.perform c) (t.perform c) := by
  cases c with
  | openStream parent =>
    have hparent : parent < 2 ^ 32 := by
      have := h.count
      have : parent ≤ t.count := hc
      omega
    rw [TreeStreamWriter.perform, Nat.mod_eq_of_lt hparent]
    exact h.openStream hc hcount
  | write stream bytes =>
    obtain ⟨hk, hk', hbytes⟩ := hc
    have hstream : stream < 2 ^ 32 := by
      have := h.count
      omega
    rw [TreeStreamWriter.perform, Nat.mod_eq_of_lt hstream]
    exact h.write hk hk' hbytes

theorem Keeps.readStream (h : Keeps w t) {k : Nat} (hk : 1 ≤ k) (hk' : k ≤ t.count) :
    w.readStream k = some (t.contents k) := by
  obtain ⟨rs, hrs, htells⟩ := h.flush.file
  obtain ⟨roots, hroots, -, hcollect⟩ := htells.streams k hk hk'
  have hk'' : k < w.ids := h.ids ▸ Nat.lt_succ_of_le hk'
  have hall := hcollect [] nofun
  rw [List.append_nil] at hall
  rw [TreeStreamWriter.readStream, if_pos ⟨hk, hk''⟩]
  simp only [hrs, findRoots_encode k _ htells.fits, hroots, collectAll_encode _ htells.fits, hall,
    Option.bind_eq_bind, Option.bind_some]
  rfl

/-! Runs. -/

/-- The calls are allowed one after the other. -/
def Allowed : StreamTree → List Call → Prop
  | _, [] => True
  | t, c :: calls => t.Allows c ∧ Allowed (t.perform c) calls

/-- After the calls each stream is read back. -/
def ReadsBack (calls : List Call) : Prop :=
  let w := calls.foldl perform {}
  let t := calls.foldl StreamTree.perform {}
  ∀ k, 1 ≤ k → k ≤ t.count → w.readStream (k % 2 ^ 32) = some (t.contents k)

def Call.isOpen : Call → Bool
  | openStream _ => true
  | write _ _ => false

theorem count_foldl (calls : List Call) (t : StreamTree) :
    (calls.foldl StreamTree.perform t).count = t.count + calls.countP Call.isOpen := by
  induction calls generalizing t with
  | nil => rfl
  | cons c calls ih =>
    rw [List.foldl_cons, ih]
    cases c with
    | openStream parent =>
      rw [List.countP_cons_of_pos rfl, StreamTree.perform, t.openStream_count]
      omega
    | write stream bytes =>
      rw [List.countP_cons_of_neg Bool.false_ne_true, StreamTree.perform, t.write_count]

theorem Keeps.run (calls : List Call) (h : Keeps w t) (hcalls : Allowed t calls)
    (hcount : (calls.foldl StreamTree.perform t).count < 2 ^ 31) :
    Keeps (calls.foldl TreeStreamWriter.perform w) (calls.foldl StreamTree.perform t) := by
  induction calls generalizing w t with
  | nil => exact h
  | cons c calls ih =>
    have hstep : (t.perform c).count < 2 ^ 31 := by
      rw [List.foldl_cons, count_foldl] at hcount
      omega
    exact ih (h.perform hcalls.1 hstep) hcalls.2 hcount

/-- The child of a fork record has no bit 31. -/
theorem readRecord_child {input rest : List UInt8} {id child : Nat}
    (h : readRecord input = some (.fork id child, rest)) : child ≠ 2 ^ 31 := by
  rw [readRecord, bind_apply, Option.bind_eq_some_iff] at h
  obtain ⟨r, -, h⟩ := h
  rw [bind_apply, Option.bind_eq_some_iff] at h
  obtain ⟨tag, -, h⟩ := h
  split_ifs at h with htag
  · simp only [pure, StateT.pure, Option.some.injEq, Prod.mk.injEq, Record.fork.injEq] at h
    obtain ⟨⟨-, hchild⟩, -⟩ := h
    intro hbit
    have hclear : (tag.1.toNat ^^^ 2 ^ 31).testBit 31 = false := by
      rw [Nat.testBit_xor, htag, Nat.testBit_two_pow_self]
      rfl
    rw [hchild, hbit, Nat.testBit_two_pow_self] at hclear
    cases hclear
  · cases h

theorem findRootsWithin_eq_none (fuel : Nat) (parents : Nat → Option Nat) (input : List UInt8) :
    findRootsWithin (2 ^ 31) fuel parents input = none := by
  induction fuel generalizing parents input with
  | zero => rfl
  | succ fuel ih =>
    rw [findRootsWithin]
    cases hread : readRecord input with
    | none => rfl
    | some next =>
      obtain ⟨r, rest⟩ := next
      cases r with
      | fork id child =>
        have hne := readRecord_child hread
        simp only [Option.bind_eq_bind, Option.bind_some, if_neg hne]
        exact ih _ _
      | chunk id bytes => exact ih _ _

/-- No fork mark is found for a stream whose id has bit 31. -/
theorem findRoots_eq_none (parents : Nat → Option Nat) (input : List UInt8) :
    findRoots (2 ^ 31) parents input = none :=
  findRootsWithin_eq_none _ parents input

theorem readStream_eq_none (w : TreeStreamWriter) : w.readStream (2 ^ 31) = none := by
  unfold readStream
  split_ifs
  · simp only [findRoots_eq_none, Option.bind_eq_bind, Option.bind_none]
  · rfl

/-- Every stream is read back exactly where fewer than `2^31` streams are opened. -/
theorem readsBack_iff (calls : List Call) (h : Allowed {} calls) :
    ReadsBack calls ↔ calls.countP Call.isOpen < 2 ^ 31 := by
  have hcount := count_foldl calls {}
  rw [Nat.zero_add] at hcount
  constructor
  · intro hreads
    by_contra hlarge
    have hread := hreads (2 ^ 31) (by decide) (by omega)
    rw [Nat.mod_eq_of_lt (by decide), readStream_eq_none] at hread
    cases hread
  · intro hlt k hk hk'
    have hkeeps := keeps_new.run calls h (hcount ▸ hlt)
    have hk'' : k < 2 ^ 32 := by omega
    rw [Nat.mod_eq_of_lt hk'']
    exact hkeeps.readStream hk hk'

/-- A stream that goes on after it was forked. -/
theorem readsBack_forked : ReadsBack [.openStream 0, .write 1 [1, 2], .openStream 1,
    .write 1 [3], .write 2 [4]] := by
  refine (readsBack_iff _ ?_).mpr (by decide)
  simp [Allowed, StreamTree.Allows, StreamTree.perform]

/-- Streams of the root only. -/
theorem allowed_replicate (n : Nat) (t : StreamTree) :
    Allowed t (List.replicate n (.openStream 0)) := by
  induction n generalizing t with
  | zero => trivial
  | succ n ih => exact ⟨Nat.zero_le _, ih _⟩

theorem manyStreams_not_readsBack :
    Allowed {} (List.replicate (2 ^ 31) (.openStream 0)) ∧
      ¬ ReadsBack (List.replicate (2 ^ 31) (.openStream 0)) := by
  have hallowed := allowed_replicate (2 ^ 31) {}
  refine ⟨hallowed, fun hreads => ?_⟩
  have hcount := count_foldl (List.replicate (2 ^ 31) (.openStream 0)) {}
  have hopen : (Call.openStream 0).isOpen = true := rfl
  rw [List.countP_replicate, if_pos hopen, Nat.zero_add] at hcount
  have hread := hreads (2 ^ 31) (by decide) hcount.ge
  rw [Nat.mod_eq_of_lt (by decide), readStream_eq_none] at hread
  cases hread

end TreeStreamWriter

end Encider
