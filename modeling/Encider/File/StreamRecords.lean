import Encider.File.TreeStream

/-! The records of a file of streams tell the contents of each stream. -/

namespace Encider

open Reader

namespace TreeStreamWriter

namespace Record

def encode : Record → List UInt8
  | fork id child => word id ++ word (forkTag child)
  | chunk id bytes => word id ++ word bytes.length ++ bytes

/-- The numbers of a record are below `2^31`. -/
def Fits : Record → Prop
  | fork id child => id < 2 ^ 31 ∧ child < 2 ^ 31
  | chunk id bytes => id < 2 ^ 31 ∧ bytes.length < 2 ^ 31

/-- The stream that a record belongs to. -/
def stream : Record → Nat
  | fork id _ => id
  | chunk id _ => id

end Record

theorem reads_word {n : Nat} (h : n < 2 ^ 32) : ∃ v, Reads readLittle (word n) v ∧ v.toNat = n :=
  ⟨UInt32.ofNat n, reads_readLittle _, UInt32.toNat_ofNat_of_lt' h⟩

theorem testBit_of_lt {n : Nat} (h : n < 2 ^ 31) : n.testBit 31 = false :=
  Nat.testBit_lt_two_pow h

theorem forkTag_testBit (n : Nat) : (forkTag n).testBit 31 = true := by
  rw [forkTag, Nat.testBit_or, Nat.testBit_two_pow_self, Bool.or_true]

theorem forkTag_lt {n : Nat} (h : n < 2 ^ 31) : forkTag n < 2 ^ 32 :=
  Nat.or_lt_two_pow (by omega) (by decide)

theorem forkTag_xor {n : Nat} (h : n < 2 ^ 31) : forkTag n ^^^ 2 ^ 31 = n := by
  apply Nat.eq_of_testBit_eq
  intro i
  rw [forkTag, Nat.testBit_xor, Nat.testBit_or, Nat.testBit_two_pow]
  by_cases hi : 31 = i
  · subst hi
    simp [testBit_of_lt h]
  · simp [hi]

theorem reads_getBytes (bytes : List UInt8) : Reads (getBytes bytes.length) bytes bytes := by
  intro rest
  simp [getBytes]

/-- A record is read back. -/
theorem reads_readRecord {r : Record} (h : r.Fits) : Reads readRecord r.encode r := by
  cases r with
  | fork id child =>
    obtain ⟨v, hv, rfl⟩ := reads_word (h.1.trans (by decide))
    obtain ⟨tag, htag, htoNat⟩ := reads_word (forkTag_lt h.2)
    intro rest
    rw [Record.encode, List.append_assoc, readRecord, hv.run, htag.run, htoNat,
      if_pos (forkTag_testBit child), forkTag_xor h.2]
    rfl
  | chunk id bytes =>
    obtain ⟨v, hv, rfl⟩ := reads_word (h.1.trans (by decide))
    obtain ⟨tag, htag, htoNat⟩ := reads_word (h.2.trans (by decide))
    intro rest
    rw [Record.encode, List.append_assoc, List.append_assoc, readRecord, hv.run, htag.run, htoNat,
      testBit_of_lt h.2, if_neg Bool.false_ne_true, (reads_getBytes bytes).run]
    rfl

theorem readRecord_nil : readRecord [] = none := rfl

/-! The two loops on a file of records. -/

def addParent (parents : Nat → Option Nat) : Record → Nat → Option Nat
  | .fork id child => insertParent parents child id
  | .chunk _ _ => parents

def rootsIn (streamID : Nat) (parents : Nat → Option Nat) : List Record → Option (List Nat)
  | [] => none
  | .fork id child :: rs =>
    if child = streamID then climb parents id [child]
    else rootsIn streamID (insertParent parents child id) rs
  | .chunk _ _ :: rs => rootsIn streamID parents rs

variable {rs : List Record}

theorem findRootsWithin_encode (streamID fuel : Nat) (parents : Nat → Option Nat)
    (h : ∀ r ∈ rs, r.Fits) (hfuel : rs.length < fuel) :
    findRootsWithin streamID fuel parents (rs.flatMap Record.encode) =
      rootsIn streamID parents rs := by
  induction rs generalizing fuel parents with
  | nil =>
    obtain ⟨fuel, rfl⟩ := Nat.exists_eq_succ_of_ne_zero (Nat.ne_zero_of_lt hfuel)
    rw [findRootsWithin, List.flatMap_nil, readRecord_nil]
    rfl
  | cons r rs ih =>
    obtain ⟨fuel, rfl⟩ := Nat.exists_eq_succ_of_ne_zero (Nat.ne_zero_of_lt hfuel)
    rw [List.forall_mem_cons] at h
    rw [findRootsWithin, List.flatMap_cons, reads_readRecord h.1]
    cases r with
    | fork id child =>
      rw [rootsIn, ← ih fuel _ h.2 (Nat.lt_of_succ_lt_succ hfuel)]
      rfl
    | chunk id bytes =>
      rw [rootsIn, ← ih fuel _ h.2 (Nat.lt_of_succ_lt_succ hfuel)]
      rfl

theorem collectWithin_encode (fuel : Nat) (st : List UInt8 × List Nat) (h : ∀ r ∈ rs, r.Fits)
    (hfuel : rs.length < fuel) :
    collectWithin fuel st (rs.flatMap Record.encode) = some (rs.foldl collect st) := by
  induction rs generalizing fuel st with
  | nil =>
    obtain ⟨fuel, rfl⟩ := Nat.exists_eq_succ_of_ne_zero (Nat.ne_zero_of_lt hfuel)
    rw [collectWithin, List.flatMap_nil, readRecord_nil]
    rfl
  | cons r rs ih =>
    obtain ⟨fuel, rfl⟩ := Nat.exists_eq_succ_of_ne_zero (Nat.ne_zero_of_lt hfuel)
    rw [List.forall_mem_cons] at h
    rw [collectWithin, List.flatMap_cons, reads_readRecord h.1, List.foldl_cons]
    exact ih fuel _ h.2 (Nat.lt_of_succ_lt_succ hfuel)

theorem length_le_encode (rs : List Record) : rs.length ≤ (rs.flatMap Record.encode).length := by
  induction rs with
  | nil => exact Nat.le_refl _
  | cons r rs ih =>
    have hpos : 1 ≤ r.encode.length := by
      cases r <;> simp [Record.encode, word, littleEndian, bigEndian]
    rw [List.flatMap_cons, List.length_append, List.length_cons]
    omega

theorem findRoots_encode (streamID : Nat) (parents : Nat → Option Nat)
    (h : ∀ r ∈ rs, r.Fits) :
    findRoots streamID parents (rs.flatMap Record.encode) = rootsIn streamID parents rs :=
  findRootsWithin_encode streamID _ parents h (Nat.lt_succ_of_le (length_le_encode rs))

theorem collectAll_encode (st : List UInt8 × List Nat) (h : ∀ r ∈ rs, r.Fits) :
    collectAll st (rs.flatMap Record.encode) = some (rs.foldl collect st) :=
  collectWithin_encode _ st h (Nat.lt_succ_of_le (length_le_encode rs))

theorem rootsIn_append {streamID : Nat} {parents : Nat → Option Nat} {roots : List Nat}
    (rs' : List Record) (h : rootsIn streamID parents rs = some roots) :
    rootsIn streamID parents (rs ++ rs') = some roots := by
  induction rs generalizing parents with
  | nil => cases h
  | cons r rs ih =>
    cases r with
    | fork id child =>
      rw [rootsIn] at h
      rw [List.cons_append, rootsIn]
      split_ifs at h ⊢
      · exact h
      · exact ih h
    | chunk id bytes => exact ih h

/-- No record opens the stream. -/
def NotOpened (rs : List Record) (child : Nat) : Prop := ∀ id, Record.fork id child ∉ rs

theorem rootsIn_fork {streamID : Nat} (id : Nat) (parents : Nat → Option Nat)
    (h : NotOpened rs streamID) : rootsIn streamID parents (rs ++ [.fork id streamID]) =
      climb (rs.foldl addParent parents) id [streamID] := by
  induction rs generalizing parents with
  | nil => rw [List.nil_append, rootsIn, if_pos rfl]; rfl
  | cons r rs ih =>
    have htail : NotOpened rs streamID := fun id hid => h id (List.mem_cons_of_mem _ hid)
    cases r with
    | fork id' child =>
      have hne : child ≠ streamID := fun hc => h id' (hc ▸ List.mem_cons_self)
      rw [List.cons_append, rootsIn, if_neg hne, ih _ htail]
      rfl
    | chunk id' bytes => exact ih _ htail

theorem addParent_notOpened {parents : Nat → Option Nat} {child : Nat} (h : NotOpened rs child) :
    rs.foldl addParent parents child = parents child := by
  induction rs generalizing parents with
  | nil => rfl
  | cons r rs ih =>
    have htail : NotOpened rs child := fun id hid => h id (List.mem_cons_of_mem _ hid)
    rw [List.foldl_cons, ih htail]
    cases r with
    | fork id c =>
      have hne : child ≠ c := fun hc => h id (hc ▸ List.mem_cons_self)
      exact if_neg hne
    | chunk id bytes => rfl

/-- The streams from the root down to a stream. -/
inductive Climbs (parents : Nat → Option Nat) : Nat → List Nat → Prop where
  | root : Climbs parents 0 []
  | child {k p : Nat} {roots : List Nat} (h : parents k = some p) (hk : p < k)
      (hp : Climbs parents p roots) : Climbs parents k (roots ++ [k])

variable {parents parents' : Nat → Option Nat} {k : Nat} {roots : List Nat}

theorem Climbs.climbWithin (h : Climbs parents k roots) {fuel : Nat} (hfuel : k < fuel)
    (acc : List Nat) : climbWithin parents fuel k acc = some (roots ++ acc) := by
  induction h generalizing fuel acc with
  | root =>
    obtain ⟨fuel, rfl⟩ := Nat.exists_eq_succ_of_ne_zero (Nat.ne_zero_of_lt hfuel)
    rw [TreeStreamWriter.climbWithin, if_pos rfl]
    rfl
  | child hparent hk hp ih =>
    obtain ⟨fuel, rfl⟩ := Nat.exists_eq_succ_of_ne_zero (Nat.ne_zero_of_lt hfuel)
    rw [TreeStreamWriter.climbWithin, if_neg (Nat.ne_zero_of_lt hk), hparent, List.append_assoc]
    exact ih (hk.trans_le (Nat.le_of_lt_succ hfuel)) _

theorem Climbs.climb (h : Climbs parents k roots) (hk : k < 2 ^ 32) (acc : List Nat) :
    climb parents k acc = some (roots ++ acc) :=
  h.climbWithin hk acc

theorem Climbs.mono (h : Climbs parents k roots)
    (hle : ∀ c p, parents c = some p → parents' c = some p) : Climbs parents' k roots := by
  induction h with
  | root => exact .root
  | child hparent hk hp ih => exact .child (hle _ _ hparent) hk ih

/-! What the records tell. -/

/-- Each stream is found, and its contents are collected, whatever streams are still to come. -/
structure Tells (rs : List Record) (t : StreamTree) : Prop where
  fits : ∀ r ∈ rs, r.Fits
  root : t.contents 0 = []
  opened : ∀ c, t.count < c → NotOpened rs c
  stream : ∀ r ∈ rs, r.stream ≤ t.count
  streams : ∀ k, 1 ≤ k → k ≤ t.count → ∃ roots, rootsIn k (fun _ => none) rs = some roots ∧
    Climbs (rs.foldl addParent fun _ => none) k roots ∧
    ∀ tail, (∀ c ∈ tail, t.count < c) →
      rs.foldl collect ([], roots ++ tail) = (t.contents k, k :: tail)

variable {t : StreamTree}

/-- A fork of another stream, or to one that is not next, is passed over. -/
theorem collect_fork {id child back : Nat} {tail : List Nat} (out : List UInt8)
    (h : id ≠ back ∨ ∀ next ∈ tail, child ≠ next) :
    collect (out, back :: tail) (.fork id child) = (out, back :: tail) := by
  cases tail with
  | nil => rfl
  | cons next tail =>
    refine if_neg fun ⟨hid, hchild⟩ => ?_
    obtain hne | hne := h
    · exact hne hid
    · exact hne next List.mem_cons_self hchild

/-- Nothing is collected for a stream to come. -/
theorem Tells.collect_new (h : Tells rs t) {c : Nat} (hc : t.count < c) (tail : List Nat) :
    rs.foldl collect ([], c :: tail) = ([], c :: tail) := by
  have hstream := h.stream
  clear h
  induction rs with
  | nil => rfl
  | cons r rs ih =>
    rw [List.forall_mem_cons] at hstream
    have hkeep : collect ([], c :: tail) r = ([], c :: tail) := by
      cases r with
      | fork id child => exact collect_fork [] (Or.inl (hstream.1.trans_lt hc).ne)
      | chunk id bytes =>
        have hne : id ≠ c := (hstream.1.trans_lt hc).ne
        exact if_neg fun h => hne (Option.some.inj h).symm
    rw [List.foldl_cons, hkeep]
    exact ih hstream.2

theorem tells_nil : Tells [] {} where
  fits := nofun
  root := rfl
  opened _ _ := nofun
  stream := nofun
  streams k hk hk' := absurd (hk.trans hk') (by decide)

theorem Tells.fork (h : Tells rs t) {p : Nat} (hp : p ≤ t.count) (hcount : t.count + 1 < 2 ^ 31) :
    Tells (rs ++ [.fork p (t.count + 1)]) (t.openStream p) where
  fits r hr := by
    obtain hr | hr := List.mem_append.mp hr
    · exact h.fits r hr
    · obtain rfl := List.mem_singleton.mp hr
      exact ⟨by omega, hcount⟩
  root := by
    rw [t.openStream_old p (Nat.zero_le _), h.root]
  opened c hc id hid := by
    obtain hid | hid := List.mem_append.mp hid
    · exact h.opened c (Nat.lt_of_succ_lt hc) id hid
    · rw [List.mem_singleton, Record.fork.injEq] at hid
      exact hc.ne' hid.2
  stream r hr := by
    obtain hr | hr := List.mem_append.mp hr
    · exact (h.stream r hr).trans (Nat.le_succ _)
    · obtain rfl := List.mem_singleton.mp hr
      exact hp.trans (Nat.le_succ _)
  streams k hk hk' := by
    have hnew := h.opened (t.count + 1) (Nat.lt_succ_self _)
    have hparents : (rs ++ [Record.fork p (t.count + 1)]).foldl addParent (fun _ => none) =
        insertParent (rs.foldl addParent fun _ => none) (t.count + 1) p := by
      rw [List.foldl_append]
      rfl
    have hmono : ∀ c q, rs.foldl addParent (fun _ => none) c = some q →
        insertParent (rs.foldl addParent fun _ => none) (t.count + 1) p c = some q := by
      intro c q hq
      unfold insertParent
      split_ifs
      · rw [hq, Option.some_or]
      · exact hq
    rw [hparents]
    simp only [List.foldl_append]
    obtain hlt | rfl := Nat.lt_or_eq_of_le hk'
    · -- a stream that was there
      obtain ⟨roots, hroots, hclimbs, hcollect⟩ := h.streams k hk (Nat.le_of_lt_succ hlt)
      refine ⟨roots, rootsIn_append _ hroots, hclimbs.mono hmono, fun tail htail => ?_⟩
      rw [hcollect tail fun c hc => Nat.lt_of_succ_lt (htail c hc),
        t.openStream_old p (Nat.le_of_lt_succ hlt)]
      exact collect_fork _ (Or.inr fun next hnext => (htail next hnext).ne)
    · -- the new stream
      have hroots := rootsIn_fork p (fun _ => none) hnew
      have hparent : insertParent (rs.foldl addParent fun _ => none) (t.count + 1) p
          (t.count + 1) = some p := by
        rw [insertParent, if_pos rfl, addParent_notOpened hnew, Option.none_or]
      rw [t.openStream_count, t.openStream_new]
      obtain rfl | hp0 := Nat.eq_zero_or_pos p
      · refine ⟨[t.count + 1], ?_, .child hparent (Nat.succ_pos _) .root, fun tail htail => ?_⟩
        · exact hroots.trans (Climbs.root.climb (by decide) _)
        · rw [List.singleton_append, h.collect_new (Nat.lt_succ_self _), h.root]
          exact collect_fork [] (Or.inl (Nat.succ_ne_zero _).symm)
      · obtain ⟨roots, -, hclimbs, hcollect⟩ := h.streams p hp0 hp
        refine ⟨roots ++ [t.count + 1], hroots.trans (hclimbs.climb (by omega) _),
          .child hparent (Nat.lt_succ_of_le hp) (hclimbs.mono hmono), fun tail htail => ?_⟩
        rw [List.append_assoc, List.singleton_append, hcollect]
        · exact if_pos ⟨rfl, rfl⟩
        · intro c hc
          obtain rfl | hc := List.mem_cons.mp hc
          · exact Nat.lt_succ_self _
          · exact Nat.lt_of_succ_lt (htail c hc)

theorem Tells.chunk (h : Tells rs t) {k : Nat} {bytes : List UInt8} (hk : 1 ≤ k)
    (hk' : k ≤ t.count) (hcount : t.count < 2 ^ 31) (hbytes : bytes.length < 2 ^ 31) :
    Tells (rs ++ [.chunk k bytes]) (t.write k bytes) where
  fits r hr := by
    obtain hr | hr := List.mem_append.mp hr
    · exact h.fits r hr
    · obtain rfl := List.mem_singleton.mp hr
      exact ⟨hk'.trans_lt hcount, hbytes⟩
  root := by
    rw [t.write_other k bytes (Nat.ne_of_lt hk), h.root]
  opened c hc id hid := by
    obtain hid | hid := List.mem_append.mp hid
    · exact h.opened c hc id hid
    · cases List.mem_singleton.mp hid
  stream r hr := by
    obtain hr | hr := List.mem_append.mp hr
    · exact h.stream r hr
    · obtain rfl := List.mem_singleton.mp hr
      exact hk'
  streams j hj hj' := by
    obtain ⟨roots, hroots, hclimbs, hcollect⟩ := h.streams j hj hj'
    refine ⟨roots, rootsIn_append _ hroots, ?_, fun tail htail => ?_⟩
    · rw [List.foldl_append]
      exact hclimbs
    · rw [List.foldl_append, hcollect tail htail]
      by_cases hjk : j = k
      · subst hjk
        rw [t.write_self]
        exact if_pos rfl
      · rw [t.write_other k bytes hjk]
        exact if_neg fun h => hjk (Option.some.inj h)

end TreeStreamWriter

end Encider
