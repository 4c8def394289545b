import Encider.Label.Extract
import Encider.Exec.Resolve
import Encider.State.ProgModel

/-! `checkAndRecordSensitiveFlow`: which arguments of the untrusted functions are sensitive. -/

namespace Encider

/-- An argument of a call with the type of its parameter; of a pointer type only the width of what
it points to is used. -/
inductive PassedArgument where
  | scalar (value : Expr)
  | pointer (elementWidth : Width) (value : Pointer)

/-- A call and what the executor finds in its state: the sensitive parts of the arrays, the object
of an address, and what a read of an object gives. -/
structure SensitiveCall where
  function : String
  args : List PassedArgument
  isInSymRegion : String → Expr → Width → Bool
  resolveOne : Pointer → Option ObjectPair
  read : ObjectPair → Expr → Width → Expr

/-- The untrusted functions and the widths of the types given for their parameters. -/
structure UntrustedFunctions where
  untrusted : List String
  funcArgTypeHints : StdMap String (StdMap Nat Width) := fun _ => none

/-- What is recorded of the untrusted functions. -/
structure SensitiveFlows where
  externalFuncsWithSensitiveFlow : StdMap String (StdMap Nat (List Nat)) := fun _ => none
  externalFuncs : StdMap String Nat := fun _ => none
  externalFuncsSig : StdMap String (Finset Nat) := fun _ => none

/-- The name up to a dot with a digit behind it. -/
def removeDotSuffix (name : String) : String :=
  match name.toList.dropWhile (· ≠ '.') with
  | _ :: d :: _ => if d.isDigit then String.ofList (name.toList.takeWhile (· ≠ '.')) else name
  | _ => name

namespace SensitiveCall

variable (U : UntrustedFunctions) (c : SensitiveCall)

def fname : String := removeDotSuffix c.function

/-- The width that is read for a pointer. -/
def pointeeWidth (a : Nat) (elementWidth : Width) : Width :=
  ((U.funcArgTypeHints c.fname).bind fun hints => hints a).getD elementWidth

/-- The expression that is examined for an argument: for a pointer what its object begins with. -/
def examined (a : Nat) : PassedArgument → Option Expr
  | .scalar value => some value
  | .pointer elementWidth value =>
    (c.resolveOne value).map fun mo =>
      c.read mo (Expr.const 0 32) (c.pointeeWidth U a elementWidth)

/-- The value that is passed: for a pointer what is at its address. -/
def passed (a : Nat) : PassedArgument → Option Expr
  | .scalar value => some value
  | .pointer elementWidth value =>
    (c.resolveOne value).map fun mo =>
      c.read mo (mo.getOffsetExpr value) (c.pointeeWidth U a elementWidth)

/-- `sig += pow(2, a)`, defined where an `unsigned` has the sum. -/
def addSignature (sig a : Nat) : Option Nat :=
  if sig + 2 ^ a < 2 ^ 32 then some (sig + 2 ^ a) else none

/-- The loop body for one argument: the indices found so far, and their signature. -/
def examine (acc : List Nat × Nat) (p : PassedArgument × Nat) : Option (List Nat × Nat) :=
  match c.examined U p.2 p.1 with
  | none => some acc
  | some result => do
    if ← exprHasSymRegion c.isInSymRegion result then
      return (acc.1 ++ [p.2], ← addSignature acc.2 p.2)
    else return acc

def highIndices : Option (List Nat × Nat) := c.args.zipIdx.foldlM (c.examine U) ([], 0)

end SensitiveCall

namespace SensitiveFlows

/-- The record of a set of indices that is not empty. -/
def record (σ : SensitiveFlows) (fname : String) (highIndices : List Nat) (sig : Nat) :
    SensitiveFlows :=
  match σ.externalFuncsWithSensitiveFlow fname with
  | none =>
    { externalFuncsWithSensitiveFlow := Function.update σ.externalFuncsWithSensitiveFlow fname
        (some (Function.update (fun _ => none) 0 (some highIndices)))
      externalFuncs := Function.update σ.externalFuncs fname (some 1)
      externalFuncsSig := Function.update σ.externalFuncsSig fname (some {sig}) }
  | some fmap =>
    let sigs := (σ.externalFuncsSig fname).getD ∅
    if sig ∈ sigs then σ
    else
      let index := (σ.externalFuncs fname).getD 0
      { externalFuncsWithSensitiveFlow := Function.update σ.externalFuncsWithSensitiveFlow fname
          (some (Function.update fmap index (some highIndices)))
        externalFuncs := Function.update σ.externalFuncs fname (some (index + 1))
        externalFuncsSig := Function.update σ.externalFuncsSig fname (some (insert sig sigs)) }

def checkAndRecordSensitiveFlow (U : UntrustedFunctions) (σ : SensitiveFlows) (c : SensitiveCall) :
    Option SensitiveFlows :=
  if c.fname ∈ U.untrusted then
    (c.highIndices U).map fun r => if r.1.length > 0 then σ.record c.fname r.1 r.2 else σ
  else some σ

end SensitiveFlows

namespace SensitiveCall

variable (U : UntrustedFunctions) (c : SensitiveCall)

/-- Whether the value that is passed for an argument has a high region. -/
def passesHigh (p : PassedArgument × Nat) : Bool :=
  (c.passed U p.2 p.1).bind (exprHasSymRegion c.isInSymRegion) = some true

/-- The indices of the arguments whose values have a high region. -/
def highArguments : List Nat := (c.args.zipIdx.filter (c.passesHigh U)).map Prod.snd

/-- What is examined for each argument tells as much as the value that is passed, and has a high
region for the first 32 arguments only. -/
structure WellExamined : Prop where
  defined : ∀ p ∈ c.args.zipIdx, ∀ e, c.examined U p.2 p.1 = some e →
    exprHasSymRegion c.isInSymRegion e ≠ none
  same : ∀ p ∈ c.args.zipIdx, (c.examined U p.2 p.1).bind (exprHasSymRegion c.isInSymRegion) =
    (c.passed U p.2 p.1).bind (exprHasSymRegion c.isInSymRegion)
  narrow : ∀ a ∈ c.highArguments U, a < 32

end SensitiveCall

/-- The signature of a set of indices. -/
def signature (highIndices : List Nat) : Nat := (highIndices.map (2 ^ ·)).sum

theorem signature_inj {l l' : List Nat} (h : l.Pairwise (· < ·))
    (h' : l'.Pairwise (· < ·)) (heq : signature l = signature l') : l = l' := by
  rw [← Nat.bitIndices_sum_map_two_pow h.sortedLT, ← Nat.bitIndices_sum_map_two_pow h'.sortedLT]
  exact congrArg Nat.bitIndices heq

theorem signature_lt {l : List Nat} (h : l.Pairwise (· < ·)) (hlt : ∀ a ∈ l, a < 32) :
    signature l < 2 ^ 32 := by
  apply Nat.lt_pow_two_of_testBit
  intro i hi
  rw [← Bool.not_eq_true, ← Nat.mem_bitIndices]
  unfold signature
  rw [Nat.bitIndices_sum_map_two_pow h.sortedLT]
  intro hmem
  have := hlt i hmem
  omega

namespace SensitiveCall

variable {U : UntrustedFunctions} {c : SensitiveCall}

/-- The loop over some arguments finds their high indices and adds up the signature. -/
theorem examine_foldlM {ps : List (PassedArgument × Nat)} {acc : List Nat}
    (hdefined : ∀ p ∈ ps, ∀ e, c.examined U p.2 p.1 = some e →
      exprHasSymRegion c.isInSymRegion e ≠ none)
    (hsame : ∀ p ∈ ps, (c.examined U p.2 p.1).bind (exprHasSymRegion c.isInSymRegion) =
      (c.passed U p.2 p.1).bind (exprHasSymRegion c.isInSymRegion))
    (hsorted : (acc ++ (ps.filter (c.passesHigh U)).map Prod.snd).Pairwise (· < ·))
    (hlt : ∀ a ∈ acc ++ (ps.filter (c.passesHigh U)).map Prod.snd, a < 32) :
    ps.foldlM (c.examine U) (acc, signature acc) =
      some (acc ++ (ps.filter (c.passesHigh U)).map Prod.snd,
        signature (acc ++ (ps.filter (c.passesHigh U)).map Prod.snd)) := by
  induction ps generalizing acc with
  | nil => simp
  | cons p ps ih =>
    have hsame' := hsame p List.mem_cons_self
    have hmore := fun q hq => hdefined q (List.mem_cons_of_mem p hq)
    have hmore' := fun q hq => hsame q (List.mem_cons_of_mem p hq)
    rw [List.foldlM_cons]
    by_cases hhigh : c.passesHigh U p = true
    · rw [List.filter_cons_of_pos hhigh, List.map_cons,
        List.append_cons acc p.2 ((ps.filter (c.passesHigh U)).map Prod.snd)] at hsorted hlt ⊢
      have hpassed := hsame'.trans (decide_eq_true_iff.mp hhigh)
      obtain ⟨e, he, hregion⟩ := Option.bind_eq_some_iff.mp hpassed
      have hfits : signature acc + 2 ^ p.2 < 2 ^ 32 := by
        have hbound := signature_lt (hsorted.sublist (List.sublist_append_left _ _))
          fun a ha => hlt a (List.mem_append_left _ ha)
        simpa [signature] using hbound
      have hnext : c.examine U (acc, signature acc) p =
          some (acc ++ [p.2], signature (acc ++ [p.2])) := by
        unfold examine addSignature
        simp only [he, hregion, Option.bind_eq_bind, Option.bind_some, if_true, if_pos hfits]
        simp [signature]
      rw [hnext]
      exact ih hmore hmore' hsorted hlt
    · rw [List.filter_cons_of_neg hhigh] at hsorted hlt ⊢
      have hnext : c.examine U (acc, signature acc) p = some (acc, signature acc) := by
        unfold examine
        cases he : c.examined U p.2 p.1 with
        | none => rfl
        | some e =>
          obtain ⟨high, hregion⟩ :=
            Option.ne_none_iff_exists'.mp (hdefined p List.mem_cons_self e he)
          have hlow : high = false := by
            rw [he, Option.bind_some, hregion] at hsame'
            rw [← Bool.not_eq_true]
            intro htrue
            exact hhigh (decide_eq_true (by rw [← hsame', htrue]))
          simp [hregion, hlow]
      rw [hnext]
      exact ih hmore hmore' hsorted hlt

/-- The indices of the arguments increase. -/
theorem highArguments_sorted (U : UntrustedFunctions) (c : SensitiveCall) :
    (c.highArguments U).Pairwise (· < ·) := by
  have hindices : (c.args.zipIdx.map Prod.snd).Pairwise (· < ·) := by
    rw [List.zipIdx_map_snd]
    exact List.pairwise_lt_range' ..
  exact hindices.sublist (List.filter_sublist.map _)

theorem highIndices_eq (h : c.WellExamined U) :
    c.highIndices U = some (c.highArguments U, signature (c.highArguments U)) := by
  have hloop := @examine_foldlM U c c.args.zipIdx [] h.defined h.same (highArguments_sorted U c)
    h.narrow
  rwa [List.nil_append] at hloop

end SensitiveCall

/-- One more set, unless it is empty or there already. -/
def addDistinct (sets : List (List Nat)) (s : List Nat) : List (List Nat) :=
  if s = [] ∨ s ∈ sets then sets else sets ++ [s]

/-- The sets of the calls of an untrusted function, each at its first occurrence. -/
def distinctSets (U : UntrustedFunctions) (calls : List SensitiveCall) (f : String) :
    List (List Nat) :=
  ((calls.filter fun c => c.fname = f ∧ f ∈ U.untrusted).map fun c => c.highArguments U).foldl
    addDistinct []

namespace SensitiveFlows

/-- The entries of one function record these sets. -/
structure Recorded (sets : List (List Nat)) (flow : Option (StdMap Nat (List Nat)))
    (count : Option Nat) (sigs : Option (Finset Nat)) : Prop where
  sorted : ∀ s ∈ sets, s.Pairwise (· < ·)
  flow : flow = if sets = [] then none else some fun i => sets[i]?
  counted : sets ≠ [] → count = some sets.length
  signed : sets ≠ [] → ∃ sigs', sigs = some sigs' ∧
    ∀ sig, sig ∈ sigs' ↔ ∃ s ∈ sets, signature s = sig

/-- The state records these sets of each function. -/
def Records (σ : SensitiveFlows) (sets : String → List (List Nat)) : Prop :=
  ∀ f, Recorded (sets f) (σ.externalFuncsWithSensitiveFlow f) (σ.externalFuncs f)
    (σ.externalFuncsSig f)

variable {σ : SensitiveFlows} {sets : String → List (List Nat)} {U : UntrustedFunctions}

theorem Recorded.first {s : List Nat} (hsorted : s.Pairwise (· < ·)) :
    Recorded [s] (some (Function.update (fun _ => none) 0 (some s))) (some 1)
      (some {signature s}) := by
  refine ⟨by simpa using hsorted, ?_, fun _ => rfl, fun _ => ⟨_, rfl, by simp [eq_comm]⟩⟩
  rw [if_neg (List.cons_ne_nil s [])]
  congr 1
  funext i
  cases i with
  | zero => rfl
  | succ i => simp

theorem Recorded.more {sets : List (List Nat)} {fmap : StdMap Nat (List Nat)}
    {count : Option Nat} {sigs : Finset Nat} (h : Recorded sets (some fmap) count (some sigs))
    (hne : sets ≠ []) {s : List Nat} (hsorted : s.Pairwise (· < ·)) :
    Recorded (sets ++ [s]) (some (Function.update fmap (count.getD 0) (some s)))
      (some (count.getD 0 + 1)) (some (insert (signature s) sigs)) := by
  have hcount := h.counted hne
  have hflow := h.flow
  rw [if_neg hne, Option.some.injEq] at hflow
  obtain ⟨sigs', hsigs, hsigned⟩ := h.signed hne
  obtain rfl := Option.some.inj hsigs
  rw [hcount, Option.getD_some]
  refine ⟨?_, ?_, fun _ => by simp, fun _ => ⟨_, rfl, ?_⟩⟩
  · intro t ht
    rcases List.mem_append.mp ht with ht | ht
    · exact h.sorted t ht
    · exact List.mem_singleton.mp ht ▸ hsorted
  · rw [if_neg (by simp), hflow]
    congr 1
    funext i
    by_cases hi : i = sets.length
    · simp [hi]
    · rw [Function.update_of_ne hi]
      by_cases hlt : i < sets.length
      · rw [List.getElem?_append_left hlt]
      · rw [List.getElem?_eq_none (by omega), List.getElem?_eq_none (by simp; omega)]
  · intro sig
    rw [Finset.mem_insert, hsigned]
    simp only [List.mem_append, List.mem_singleton, or_and_right, exists_or, exists_eq_left]
    rw [or_comm, eq_comm (a := sig)]

/-- One more set is recorded with its signature. -/
theorem Records.record (h : σ.Records sets) (fname : String) {s : List Nat} (hs : s ≠ [])
    (hsorted : s.Pairwise (· < ·)) : (σ.record fname s (signature s)).Records
      (Function.update sets fname (addDistinct (sets fname) s)) := by
  have hname := h fname
  unfold SensitiveFlows.record addDistinct
  by_cases hne : sets fname = []
  · have hnone : σ.externalFuncsWithSensitiveFlow fname = none := by
      rw [hname.flow, if_pos hne]
    rw [hnone, hne, if_neg (by simpa using hs)]
    intro f
    by_cases hf : f = fname
    · subst hf
      simpa using Recorded.first hsorted
    · simpa [hf] using h f
  · have hsome := hname.flow
    rw [if_neg hne] at hsome
    obtain ⟨sigs, hsigs, hsigned⟩ := hname.signed hne
    have hknown : signature s ∈ sigs ↔ s ∈ sets fname := by
      rw [hsigned]
      constructor
      · intro hold
        obtain ⟨t, ht, heq⟩ := hold
        rwa [← signature_inj (hname.sorted t ht) hsorted heq]
      · exact fun hold => ⟨s, hold, rfl⟩
    rw [hsome, hsigs]
    dsimp only
    rw [Option.getD_some]
    by_cases hold : s ∈ sets fname
    · rw [if_pos (hknown.mpr hold), if_pos (.inr hold), Function.update_eq_self]
      exact h
    · rw [if_neg fun hmem => hold (hknown.mp hmem), if_neg (by simp [hs, hold])]
      intro f
      by_cases hf : f = fname
      · subst hf
        rw [hsome, hsigs] at hname
        simpa using hname.more hne hsorted
      · simpa [hf] using h f

/-- What a call leaves. -/
theorem Records.call (h : σ.Records sets) {c : SensitiveCall}
    (hc : c.fname ∈ U.untrusted → c.WellExamined U) :
    ∃ σ', σ.checkAndRecordSensitiveFlow U c = some σ' ∧ σ'.Records fun f =>
      if c.fname = f ∧ f ∈ U.untrusted then addDistinct (sets f) (c.highArguments U)
      else sets f := by
  unfold checkAndRecordSensitiveFlow
  by_cases huntrusted : c.fname ∈ U.untrusted
  · have hsets : (fun f => if c.fname = f ∧ f ∈ U.untrusted then
        addDistinct (sets f) (c.highArguments U) else sets f) =
        Function.update sets c.fname (addDistinct (sets c.fname) (c.highArguments U)) := by
      funext f
      by_cases hf : f = c.fname
      · subst hf
        simp [huntrusted]
      · simp [hf, Ne.symm hf]
    rw [if_pos huntrusted, SensitiveCall.highIndices_eq (hc huntrusted), Option.map_some, hsets]
    refine ⟨_, rfl, ?_⟩
    by_cases hempty : c.highArguments U = []
    · rw [hempty, if_neg (by simp), addDistinct, if_pos (.inl rfl), Function.update_eq_self]
      exact h
    · rw [if_pos (List.length_pos_of_ne_nil hempty)]
      exact h.record c.fname hempty (SensitiveCall.highArguments_sorted U c)
  · rw [if_neg huntrusted]
    refine ⟨σ, rfl, ?_⟩
    intro f
    dsimp only
    rw [if_neg fun hand : c.fname = f ∧ f ∈ U.untrusted => huntrusted (hand.1 ▸ hand.2)]
    exact h f

theorem records_empty : Records {} fun _ => [] := fun _ => {
  sorted := fun _ hs => absurd hs List.not_mem_nil
  flow := rfl
  counted := fun h => absurd rfl h
  signed := fun h => absurd rfl h }

end SensitiveFlows

theorem distinctSets_append (U : UntrustedFunctions) (calls : List SensitiveCall)
    (c : SensitiveCall) (f : String) : distinctSets U (calls ++ [c]) f =
      if c.fname = f ∧ f ∈ U.untrusted then
        addDistinct (distinctSets U calls f) (c.highArguments U)
      else distinctSets U calls f := by
  unfold distinctSets
  rw [List.filter_append, List.map_append, List.foldl_append]
  by_cases hc : c.fname = f ∧ f ∈ U.untrusted
  · simp [hc]
  · simp [hc]

/-- These are the sets of the calls that are not empty, each of them once. -/
theorem distinctSets_spec (U : UntrustedFunctions) (calls : List SensitiveCall) (f : String) :
    (distinctSets U calls f).Nodup ∧ ∀ s, s ∈ distinctSets U calls f ↔
      s ≠ [] ∧ f ∈ U.untrusted ∧ ∃ c ∈ calls, c.fname = f ∧ c.highArguments U = s := by
  induction calls using List.reverseRecOn with
  | nil => simp [distinctSets]
  | append_singleton calls c ih =>
    obtain ⟨hnodup, hmem⟩ := ih
    rw [distinctSets_append]
    have hcalls : ∀ s, (s ≠ [] ∧ f ∈ U.untrusted ∧
        ∃ q ∈ calls ++ [c], q.fname = f ∧ q.highArguments U = s) ↔
        s ∈ distinctSets U calls f ∨
          s ≠ [] ∧ f ∈ U.untrusted ∧ c.fname = f ∧ c.highArguments U = s := by
      intro s
      rw [hmem]
      simp only [List.mem_append, List.mem_singleton, or_and_right, exists_or, exists_eq_left,
        and_or_left]
    by_cases hc : c.fname = f ∧ f ∈ U.untrusted
    · rw [if_pos hc]
      unfold addDistinct
      split
      · rename_i hold
        refine ⟨hnodup, fun s => ?_⟩
        rw [hcalls]
        constructor
        · exact .inl
        · intro hs
          rcases hs with hs | ⟨hne, _, _, rfl⟩
          · exact hs
          · exact hold.resolve_left hne
      · rename_i hnew
        obtain ⟨hne, hnew⟩ := not_or.mp hnew
        refine ⟨List.nodup_append.mpr ⟨hnodup, List.nodup_singleton _, ?_⟩, fun s => ?_⟩
        · intro s hs t ht heq
          rw [List.mem_singleton.mp ht] at heq
          exact hnew (heq ▸ hs)
        · rw [hcalls, List.mem_append, List.mem_singleton]
          refine or_congr_right ⟨?_, fun h => h.2.2.2.symm⟩
          intro heq
          exact ⟨heq ▸ hne, hc.2, hc.1, heq.symm⟩
    · rw [if_neg hc]
      refine ⟨hnodup, fun s => ?_⟩
      rw [hcalls]
      exact ⟨.inl, fun hs => hs.resolve_right fun h => hc ⟨h.2.2.1, h.2.1⟩⟩

/-- A function that is not trusted. -/
def sending : UntrustedFunctions := { untrusted := ["send"] }

def buffer : ObjectPair := ⟨4096, 2, false⟩

/-- A byte of the buffer. -/
def bufferByte : Expr → Expr
  | .constant _ v => .read { name := "buffer", size := 2 } .nil (.constant 32 (v.setWidth 32))
  | offset => .read { name := "buffer", size := 2 } .nil (.extract offset 0 32)

/-- A call for the buffer, of which the second byte is sensitive. -/
def send (arg : PassedArgument) : SensitiveCall where
  function := "send"
  args := [arg]
  isInSymRegion := fun _ index _ => index = Expr.const 1 32
  resolveOne := fun _ => some buffer
  read := fun _ offset _ => bufferByte offset

/-- The second byte of the buffer, and its address. -/
def secondValue : PassedArgument := .scalar (bufferByte (Expr.const 1 64))

def secondAddress : PassedArgument := .pointer 8 ⟨Expr.const 4097 64, trivial, rfl⟩

end Encider
