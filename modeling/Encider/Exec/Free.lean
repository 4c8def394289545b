import Encider.Exec.Memory
import Encider.Lib.Fold

/-! `Executor::executeFree`, with the allocations and frees that a state records. A state is told
from the others by its place: `state` of the source is the one at place 0, and a fork leaves the
forked state in its place. -/

namespace Encider

open Encider.Expr

/-- The part of `ExecutionState` that a free reads and writes. -/
structure HeapState where
  path : PathState := {}
  addressSpace : AddressSpace
  alloced : Finset Expr := ∅
  freed : Finset Expr := ∅

namespace HeapState

def recordFree (s : HeapState) (address : Expr) : HeapState :=
  { s with freed := insert address s.freed }

/-- The leaks that `check` reports. -/
def check (s : HeapState) : Finset Expr := s.alloced \ s.freed

/-- An object of the address is bound. -/
def Bound (s : HeapState) (address : Expr) : Prop :=
  ∃ mo ∈ s.addressSpace.objects, mo.getBaseExpr = address

/-- The leak report lists the recorded allocations whose object is bound. -/
def LeaksRight (s : HeapState) : Prop := ∀ a ∈ s.alloced, a ∈ s.check ↔ s.Bound a

end HeapState

/-- `unbindObject`. -/
def AddressSpace.unbindObject (space : AddressSpace) (mo : ObjectPair) : AddressSpace where
  objects := space.objects.filter (· ≠ mo)
  apart := space.apart.sublist List.filter_sublist
  fits := fun other h => space.fits other (List.mem_of_mem_filter h)

/-- What becomes of a state that a free leaves; an error ends it. -/
inductive FreeOutcome where
  | null
  | freed (mo : ObjectPair)
  | freeOfAlloca (mo : ObjectPair)
  | freeOfGlobal (mo : ObjectPair)
  | invalidPointer

/-- The states by their places, `next` of them. -/
structure HeapStates where
  get : Nat → HeapState
  next : Nat

namespace HeapStates

def set (st : HeapStates) (i : Nat) (s : HeapState) : HeapStates :=
  { st with get := Function.update st.get i s }

/-- `Executor::fork` of the state at a place: the places of the successors in which the condition
is true and false. -/
def fork (S : Solver) (o : ForkOptions) (st : HeapStates) (i : Nat) (c : Constraint) :
    Option (HeapStates × Option Nat × Option Nat) :=
  let current := st.get i
  (Encider.fork S o current.path c false).map fun
    | (some t, some f) =>
      ({ (st.set i { current with path := t }).set st.next { current with path := f } with
          next := st.next + 1 }, some i, some st.next)
    | (some t, none) => (st.set i { current with path := t }, some i, none)
    | (none, some f) => (st.set i { current with path := f }, none, some i)
    | (none, none) => (st, none, none)

end HeapStates

/-- `EqExpr::create(p, mo->getBaseExpr())`. -/
def ObjectPair.atBase (mo : ObjectPair) (p : Pointer) : Constraint :=
  Constraint.eqConst p (BitVec.ofNat 64 mo.address)

/-- `Expr::createIsZero(address)`. -/
def nullPointer (p : Pointer) : Constraint :=
  ⟨createIsZero p.val,
    have h := createIsZero_means (fun _ _ => 0) p.2.1
    ⟨h.typed, h.width⟩⟩

/-- The loop of `Executor::resolveExact`: the objects with the places of their states, and the
place of the state that is left. -/
def resolveExactLoop (S : Solver) (o : ForkOptions) (p : Pointer) :
    List ObjectPair → HeapStates → Nat →
      Option (HeapStates × List (ObjectPair × Nat) × Option Nat)
  | [], st, unbound => some (st, [], some unbound)
  | mo :: rl, st, unbound =>
    (st.fork S o unbound (mo.atBase p)).bind fun
      | (st, first, some unbound) =>
        (resolveExactLoop S o p rl st unbound).map fun r =>
          (r.1, first.toList.map (mo, ·) ++ r.2.1, r.2.2)
      | (st, first, none) => some (st, first.toList.map (mo, ·), none)

def resolveExact (S : ValueSolver) (o : ForkOptions) (st : HeapStates) (i : Nat) (p : Pointer) :
    Option (HeapStates × List (ObjectPair × Nat) × Option Nat) :=
  let state := st.get i
  resolveExactLoop S.toSolver o p (state.addressSpace.resolve S state.path.constraints p) st i

/-- The free of an object: it is recorded in `state`, and unbound in the state at place `i`. -/
def HeapStates.free (st : HeapStates) (mo : ObjectPair) (i : Nat) : HeapStates :=
  let st := st.set 0 ((st.get 0).recordFree mo.getBaseExpr)
  let unbound := st.get i
  st.set i { unbound with addressSpace := unbound.addressSpace.unbindObject mo }

section
variable (isLocal isGlobal : ObjectPair → Bool)

/-- The loop over the exact resolutions. -/
def freeObjects : List (ObjectPair × Nat) → HeapStates → HeapStates × List (Nat × FreeOutcome)
  | [], st => (st, [])
  | (mo, i) :: rl, st =>
    if isLocal mo then
      let r := freeObjects rl st
      (r.1, (i, .freeOfAlloca mo) :: r.2)
    else if isGlobal mo then
      let r := freeObjects rl st
      (r.1, (i, .freeOfGlobal mo) :: r.2)
    else
      let r := freeObjects rl (st.free mo i)
      (r.1, (i, .freed mo) :: r.2)

/-- The states with what becomes of each. -/
def executeFree (S : ValueSolver) (o : ForkOptions) (state : HeapState) (address : Pointer) :
    Option (HeapStates × List (Nat × FreeOutcome)) :=
  let st : HeapStates := ⟨fun _ => state.recordFree address.val, 1⟩
  (st.fork S.toSolver o 0 (nullPointer address)).bind fun
    | (st, zero, none) => some (st, zero.toList.map (·, .null))
    | (st, zero, some i) =>
      (resolveExact S o st i address).map fun r =>
        let freed := freeObjects isLocal isGlobal r.2.1 r.1
        (freed.1, zero.toList.map (·, .null) ++ r.2.2.toList.map (·, .invalidPointer) ++ freed.2)

end

theorem nullPointer_holds (σ : Assignment) (p : Pointer) :
    (nullPointer p).Holds σ ↔ p.val.value σ = 0 := by
  have h := createIsZero_means σ p.2.1
  simp only [Constraint.Holds, Expr.Holds, nullPointer]
  rw [h.value, eqBit]
  split <;> simp [*]

theorem atBase_holds (σ : Assignment) {mo : ObjectPair} (hfit : mo.Fits) (p : Pointer) :
    (mo.atBase p).Holds σ ↔ p.val.value σ = mo.address := by
  have hlt : mo.address < 2 ^ 64 := (Nat.le_add_right _ _).trans_lt hfit.2
  rw [ObjectPair.atBase, Constraint.eqConst_holds, ← BitVec.toNat_inj, Expr.bits_toNat p.2.2,
    BitVec.toNat_ofNat, Nat.mod_eq_of_lt hlt]

/-- All the states have the objects, the allocations and the frees of one. -/
def HeapStates.Alike (s : HeapState) (st : HeapStates) : Prop :=
  ∀ k, (st.get k).addressSpace = s.addressSpace ∧ (st.get k).alloced = s.alloced ∧
    (st.get k).freed = s.freed

theorem HeapStates.Alike.set {s : HeapState} {st : HeapStates} (h : st.Alike s) (i : Nat)
    (path : PathState) (n : Nat) :
    HeapStates.Alike s { st.set i { st.get i with path := path } with next := n } := by
  intro k
  by_cases hk : k = i
  · subst hk
    simp only [HeapStates.set, Function.update_self]
    exact h k
  · simp only [HeapStates.set]
    rw [Function.update_of_ne hk]
    exact h k

/-- A fork of the state at place `i`: it keeps its place in the first successor there is. -/
structure HeapStates.Forked (st : HeapStates) (i : Nat) (c : Constraint) (st' : HeapStates)
    (t f : Option Nat) : Prop where
  grows : st.next ≤ st'.next
  alike : ∀ s, st.Alike s → st'.Alike s
  first : ∀ k, t = some k ↔ k = i ∧ ((st.get i).path.models ∩ {σ | c.Holds σ}).Nonempty
  possible : f.isSome ↔ ((st.get i).path.models \ {σ | c.Holds σ}).Nonempty
  second : ∀ k, f = some k → k < st'.next ∧
    (st'.get k).path.models = (st.get i).path.models \ {σ | c.Holds σ}
  stays : ∀ k, f = some k → t = none → k = i ∧ st'.get k = st.get i
  leaves : ∀ k, f = some k → t ≠ none → st.next ≤ k

/-- The addresses that are left once a condition on one of them is false. -/
theorem feasible_sdiff {s t : PathState} {p : Pointer} {c : Constraint} {a : Nat}
    (hc : ∀ σ, c.Holds σ ↔ p.val.value σ = a) (ht : t.models = s.models \ {σ | c.Holds σ}) :
    feasibleValues t.constraints p.val = feasibleValues s.constraints p.val \ {a} := by
  ext b
  have hmem : ∀ σ, (∀ d ∈ t.constraints, d.Holds σ) ↔
      (∀ d ∈ s.constraints, d.Holds σ) ∧ ¬ c.Holds σ := fun σ => Set.ext_iff.mp ht σ
  simp only [feasibleValues, Set.mem_ofPred_eq, Set.mem_sdiff, Set.mem_singleton_iff, hmem, hc]
  constructor
  · intro ⟨σ, ⟨hσ, hne⟩, hb⟩
    exact ⟨⟨σ, hσ, hb⟩, hb ▸ hne⟩
  · intro ⟨⟨σ, hσ, hb⟩, hne⟩
    exact ⟨σ, ⟨hσ, hb ▸ hne⟩, hb⟩

theorem feasible_inter {s : PathState} {p : Pointer} {c : Constraint} {a : Nat}
    (hc : ∀ σ, c.Holds σ ↔ p.val.value σ = a) :
    (s.models ∩ {σ | c.Holds σ}).Nonempty ↔ a ∈ feasibleValues s.constraints p.val := by
  simp only [Set.Nonempty, Set.mem_inter_iff, Set.mem_ofPred_eq, hc]
  rfl

section
variable {S : Solver} {o : ForkOptions} (hs : o.skipFork = none) (hd : o.maxDepth = 0)
include hs hd

theorem fork_none_first {s f : PathState} {c : Constraint} {forBranch : Bool}
    (h : fork S o s c forBranch = some (none, some f)) : f = s := by
  cases he : S.evaluate s.constraints c with
  | valid =>
    rw [fork, he] at h
    cases h
  | invalid =>
    rw [fork, he] at h
    cases h
    rfl
  | unknown =>
    simp only [fork, he, hs, hd] at h
    obtain ⟨t, -, ht⟩ := Option.bind_eq_some_iff.mp h
    obtain ⟨u, -, hu⟩ := Option.map_eq_some_iff.mp ht
    cases hu

theorem HeapStates.fork_forked (st : HeapStates) {i : Nat} (hi : i < st.next) (c : Constraint)
    (hne : (st.get i).path.models.Nonempty) :
    ∃ st' t f, st.fork S o i c = some (st', t, f) ∧ st.Forked i c st' t f := by
  obtain ⟨t, f, hfork, hdiv⟩ := fork_divides (S := S) hs hd (st.get i).path c false
  have hfirst : t.isSome ↔ ((st.get i).path.models ∩ {σ | c.Holds σ}).Nonempty := by
    rw [← hdiv.first]
    cases t with
    | none => exact ⟨nofun, fun h => absurd h Set.not_nonempty_empty⟩
    | some u => exact ⟨fun _ => hdiv.alive hne u (.inl rfl), fun _ => rfl⟩
  have hsecond : f.isSome ↔ ((st.get i).path.models \ {σ | c.Holds σ}).Nonempty := by
    rw [← hdiv.second]
    cases f with
    | none => exact ⟨nofun, fun h => absurd h Set.not_nonempty_empty⟩
    | some u => exact ⟨fun _ => hdiv.alive hne u (.inr rfl), fun _ => rfl⟩
  unfold HeapStates.fork
  simp only [hfork, Option.map_some]
  cases t with
  | some t =>
    cases f with
    | some f =>
      refine ⟨_, _, _, rfl, Nat.le_succ _, ?_, ?_, ?_, ?_, ?_, ?_⟩
      · intro s hal k
        by_cases hk : k = st.next
        · subst hk
          simp only [HeapStates.set, Function.update_self]
          exact hal i
        · simp only [HeapStates.set]
          rw [Function.update_of_ne hk]
          exact hal.set i t 0 k
      · intro k
        simp only [← hfirst, Option.isSome_some, and_true, Option.some.injEq, eq_comm]
      · simp only [← hsecond, Option.isSome_some]
      · intro k hk
        cases hk
        refine ⟨Nat.lt_succ_self _, ?_⟩
        simp only [HeapStates.set, Function.update_self]
        exact hdiv.second
      · intro k _ ht
        cases ht
      · intro k hk _
        cases hk
        exact Nat.le_refl _
    | none =>
      refine ⟨_, _, _, rfl, Nat.le_refl _, fun s hal => hal.set i t _, ?_, ?_,
        (fun _ hk => nomatch hk), (fun _ hk => nomatch hk), (fun _ hk => nomatch hk)⟩
      · intro k
        simp only [← hfirst, Option.isSome_some, and_true, Option.some.injEq, eq_comm]
      · simp only [← hsecond, Option.isSome_none]
  | none =>
    cases f with
    | some f =>
      have hsame := fork_none_first hs hd hfork
      subst hsame
      refine ⟨_, _, _, rfl, Nat.le_refl _, fun s hal => hal.set i _ _, ?_, ?_, ?_, ?_, ?_⟩
      · intro k
        simp only [← hfirst, Option.isSome_none, Bool.false_eq_true, and_false, reduceCtorEq]
      · simp only [← hsecond, Option.isSome_some]
      · intro k hk
        cases hk
        refine ⟨hi, ?_⟩
        simp only [HeapStates.set, Function.update_self]
        exact hdiv.second
      · intro k hk _
        cases hk
        refine ⟨rfl, ?_⟩
        simp only [HeapStates.set, Function.update_self]
      · intro k _ ht
        exact absurd rfl ht
    | none =>
      refine ⟨_, _, _, rfl, Nat.le_refl _, fun s hal => hal, ?_, ?_,
        (fun _ hk => nomatch hk), (fun _ hk => nomatch hk), (fun _ hk => nomatch hk)⟩
      · intro k
        simp only [← hfirst, Option.isSome_none, Bool.false_eq_true, and_false, reduceCtorEq]
      · simp only [← hsecond, Option.isSome_none]

/-- What the exact resolution in the state at place `u` gives: the objects whose base the address
may be, the first of them in that state itself and the others in new ones. -/
structure ExactResolution (p : Pointer) (rl : List ObjectPair) (st : HeapStates) (u : Nat)
    (st' : HeapStates) (res : List (ObjectPair × Nat)) : Prop where
  grows : st.next ≤ st'.next
  alike : ∀ s, st.Alike s → st'.Alike s
  objects : ∀ mo, mo ∈ res.map Prod.fst ↔
    mo ∈ rl ∧ mo.address ∈ feasibleValues (st.get u).path.constraints p.val
  ordered : (res.map Prod.fst).Sublist rl
  places : ∀ q ∈ res, q.2 = u ∨ st.next ≤ q.2
  apart : (res.map Prod.snd).Nodup
  first : ∀ q qs, res = q :: qs → q.2 = u

theorem resolveExactLoop_spec {p : Pointer} {rl : List ObjectPair}
    (hrl : rl.Pairwise fun a b => a.address ≠ b.address) (hfits : ∀ mo ∈ rl, mo.Fits)
    (st : HeapStates) {u : Nat} (hu : u < st.next) (hne : (st.get u).path.models.Nonempty) :
    ∃ st' res left, resolveExactLoop S o p rl st u = some (st', res, left) ∧
      ExactResolution p rl st u st' res := by
  induction rl generalizing st u with
  | nil =>
    exact ⟨st, [], some u, rfl, Nat.le_refl _, fun _ h => h, by simp, List.Sublist.refl _, by simp,
      List.nodup_nil, nofun⟩
  | cons mo rl ih =>
    obtain ⟨hmo, hrl⟩ := List.pairwise_cons.mp hrl
    have hc := fun σ => atBase_holds σ (hfits mo List.mem_cons_self) p
    obtain ⟨st₁, t, f, hfork, hforked⟩ := st.fork_forked (S := S) hs hd hu (mo.atBase p) hne
    have hfirst : ∀ k, t = some k ↔ k = u ∧
        mo.address ∈ feasibleValues (st.get u).path.constraints p.val := by
      intro k
      rw [hforked.first, feasible_inter hc]
    cases f with
    | none =>
      -- the address must be the base of this object
      have hall : ¬ ((st.get u).path.models \ {σ | (mo.atBase p).Holds σ}).Nonempty := by
        rw [← hforked.possible]
        nofun
      have honly : ∀ a ∈ feasibleValues (st.get u).path.constraints p.val, a = mo.address := by
        intro a ⟨σ, hσ, ha⟩
        by_contra hno
        exact hall ⟨σ, hσ, fun h => hno (ha.symm.trans ((hc σ).mp h))⟩
      obtain ⟨σ, hσ⟩ := hne
      have hin : mo.address ∈ feasibleValues (st.get u).path.constraints p.val :=
        ⟨σ, hσ, honly _ ⟨σ, hσ, rfl⟩⟩
      obtain rfl : t = some u := (hfirst u).mpr ⟨rfl, hin⟩
      refine ⟨st₁, [(mo, u)], none, ?_, hforked.grows, hforked.alike, ?_, ?_, ?_, ?_, ?_⟩
      · rw [resolveExactLoop, hfork]
        rfl
      · intro x
        rw [List.map_singleton, List.mem_singleton, List.mem_cons]
        constructor
        · intro hx
          exact ⟨.inl hx, hx ▸ hin⟩
        · intro ⟨hx, hxf⟩
          rcases hx with hx | hx
          · exact hx
          · exact absurd (honly _ hxf).symm (hmo x hx)
      · exact (List.nil_sublist rl).cons_cons mo
      · intro q hq
        rw [List.mem_singleton.mp hq]
        exact .inl rfl
      · exact List.nodup_singleton u
      · intro q qs hq
        cases hq
        rfl
    | some k =>
      obtain ⟨hk, hmodels⟩ := hforked.second k rfl
      have hrest : (st₁.get k).path.models.Nonempty := by
        rw [hmodels]
        exact hforked.possible.mp rfl
      obtain ⟨st₂, res, left, hloop, hres⟩ :=
        ih hrl (fun x hx => hfits x (List.mem_cons_of_mem mo hx)) st₁ hk hrest
      have hobjects : ∀ x, x ∈ res.map Prod.fst ↔
          x ∈ rl ∧ x.address ∈ feasibleValues (st.get u).path.constraints p.val := by
        intro x
        rw [hres.objects, feasible_sdiff hc hmodels]
        constructor
        · intro ⟨hx, hxf⟩
          exact ⟨hx, hxf.1⟩
        · intro ⟨hx, hxf⟩
          exact ⟨hx, hxf, fun he => hmo x hx he.symm⟩
      have hgrows := hforked.grows.trans hres.grows
      have halike := fun s h => hres.alike s (hforked.alike s h)
      have hrun : resolveExactLoop S o p (mo :: rl) st u =
          some (st₂, t.toList.map (mo, ·) ++ res, left) := by
        rw [resolveExactLoop, hfork]
        simp only [Option.bind_some, hloop, Option.map_some]
      refine ⟨st₂, t.toList.map (mo, ·) ++ res, left, hrun, ?_⟩
      cases t with
      | none =>
        have hno : mo.address ∉ feasibleValues (st.get u).path.constraints p.val := by
          intro hin
          cases (hfirst u).mpr ⟨rfl, hin⟩
        obtain ⟨rfl, -⟩ := hforked.stays k rfl rfl
        refine ⟨hgrows, halike, ?_, hres.ordered.cons mo, ?_, hres.apart, hres.first⟩
        · intro x
          refine (hobjects x).trans ⟨fun h => ⟨List.mem_cons_of_mem mo h.1, h.2⟩, ?_⟩
          intro ⟨hx, hxf⟩
          rcases List.mem_cons.mp hx with hx | hx
          · exact absurd (hx ▸ hxf) hno
          · exact ⟨hx, hxf⟩
        · intro q hq
          exact (hres.places q hq).imp_right hforked.grows.trans
      | some i =>
        obtain ⟨rfl, hin⟩ := (hfirst i).mp rfl
        have hnew : st.next ≤ k := hforked.leaves k rfl (Option.some_ne_none _)
        have hlater : ∀ q ∈ res, st.next ≤ q.2 := by
          intro q hq
          rcases hres.places q hq with hqk | hqn
          · exact hqk ▸ hnew
          · exact hforked.grows.trans hqn
        refine ⟨hgrows, halike, ?_, hres.ordered.cons_cons mo, ?_, ?_, ?_⟩
        · intro x
          refine List.mem_cons.trans ((or_congr_right (hobjects x)).trans ?_)
          rw [List.mem_cons, or_and_right]
          refine or_congr_left ⟨fun hx => ⟨hx, hx ▸ hin⟩, And.left⟩
        · intro q hq
          rcases List.mem_cons.mp hq with hq | hq
          · exact .inl (congrArg Prod.snd hq)
          · exact .inr (hlater q hq)
        · refine List.nodup_cons.mpr ⟨?_, hres.apart⟩
          intro hmem
          obtain ⟨q, hq, hqi⟩ := List.mem_map.mp hmem
          have hqi' : q.2 = i := hqi
          exact absurd (hqi' ▸ hlater q hq) (Nat.not_le.mpr hu)
        · intro q qs hq
          cases hq
          rfl

end

section
variable (st : HeapStates) (mo : ObjectPair) (i : Nat)

theorem HeapStates.free_freed (k : Nat) : ((st.free mo i).get k).freed =
    if k = 0 then insert mo.getBaseExpr (st.get 0).freed else (st.get k).freed := by
  unfold free
  simp only [set, Function.update_apply, HeapState.recordFree]
  split
  · rename_i hk
    subst hk
    split <;> rfl
  · split <;> rfl

theorem HeapStates.free_alloced (k : Nat) :
    ((st.free mo i).get k).alloced = (st.get k).alloced := by
  unfold free
  simp only [set, Function.update_apply, HeapState.recordFree]
  split
  · rename_i hk
    subst hk
    split
    · rename_i hi
      rw [hi]
    · rfl
  · split
    · rename_i hk
      rw [hk]
    · rfl

theorem HeapStates.free_addressSpace (k : Nat) : ((st.free mo i).get k).addressSpace =
    if k = i then (st.get i).addressSpace.unbindObject mo else (st.get k).addressSpace := by
  unfold free
  simp only [set, Function.update_apply, HeapState.recordFree]
  split
  · split
    · rename_i hi
      rw [hi]
    · rfl
  · split
    · rename_i hk
      rw [hk]
    · rfl

end

section
variable {isLocal isGlobal : ObjectPair → Bool}

/-- An object of the heap, which may be freed. -/
def OnHeap (isLocal isGlobal : ObjectPair → Bool) (mo : ObjectPair) : Prop :=
  isLocal mo = false ∧ isGlobal mo = false

/-- What the loop over the resolutions leaves: the frees are recorded at place 0 and each object
is unbound in its own state. -/
structure FreedObjects (isLocal isGlobal : ObjectPair → Bool) (res : List (ObjectPair × Nat))
    (st : HeapStates) (r : HeapStates × List (Nat × FreeOutcome)) : Prop where
  freed : ∀ i mo, (i, FreeOutcome.freed mo) ∈ r.2 ↔ (mo, i) ∈ res ∧ OnHeap isLocal isGlobal mo
  null : ∀ i, (i, FreeOutcome.null) ∉ r.2
  recorded : ∀ a, a ∈ (r.1.get 0).freed ↔ a ∈ (st.get 0).freed ∨
    ∃ q ∈ res, OnHeap isLocal isGlobal q.1 ∧ q.1.getBaseExpr = a
  others : ∀ k, k ≠ 0 → (r.1.get k).freed = (st.get k).freed
  alloced : ∀ k, (r.1.get k).alloced = (st.get k).alloced
  bound : ∀ k, k ∉ res.map Prod.snd → (r.1.get k).addressSpace = (st.get k).addressSpace
  unbound : ∀ q ∈ res, OnHeap isLocal isGlobal q.1 →
    (r.1.get q.2).addressSpace = (st.get q.2).addressSpace.unbindObject q.1

/-- An object whose free is an error changes no state. -/
theorem FreedObjects.error {mo : ObjectPair} {i : Nat} {rl : List (ObjectPair × Nat)}
    {st : HeapStates} {r : HeapStates × List (Nat × FreeOutcome)} {out : FreeOutcome}
    (h : FreedObjects isLocal isGlobal rl st r) (hmo : ¬ OnHeap isLocal isGlobal mo)
    (hout : out ≠ .null ∧ ∀ x, out ≠ .freed x) :
    FreedObjects isLocal isGlobal ((mo, i) :: rl) st (r.1, (i, out) :: r.2) := by
  refine ⟨?_, ?_, ?_, h.others, h.alloced, ?_, ?_⟩
  · intro j x
    rw [List.mem_cons, List.mem_cons, h.freed, or_and_right]
    refine (or_iff_right ?_).trans (or_iff_right ?_).symm
    · intro he
      exact hout.2 x (congrArg Prod.snd he).symm
    · intro ⟨he, hx⟩
      cases he
      exact hmo hx
  · intro j hj
    rcases List.mem_cons.mp hj with he | hj
    · exact hout.1 (congrArg Prod.snd he).symm
    · exact h.null j hj
  · intro a
    rw [h.recorded]
    simp only [List.exists_mem_cons_iff, hmo, false_and, false_or]
  · intro k hk
    exact h.bound k fun hin => hk (List.mem_cons_of_mem i hin)
  · intro q hq hheap
    rcases List.mem_cons.mp hq with rfl | hq
    · exact absurd hheap hmo
    · exact h.unbound q hq hheap

theorem freeObjects_spec {res : List (ObjectPair × Nat)} (hres : (res.map Prod.snd).Nodup)
    (st : HeapStates) :
    FreedObjects isLocal isGlobal res st (freeObjects isLocal isGlobal res st) := by
  induction res generalizing st with
  | nil =>
    exact ⟨by simp [freeObjects], by simp [freeObjects], by simp [freeObjects], fun _ _ => rfl,
      fun _ => rfl, fun _ _ => rfl, nofun⟩
  | cons q rl ih =>
    obtain ⟨mo, i⟩ := q
    obtain ⟨hi, hrl⟩ := List.nodup_cons.mp hres
    unfold freeObjects
    cases hl : isLocal mo with
    | true =>
      rw [if_pos rfl]
      exact (ih hrl st).error (fun h => Bool.false_ne_true (h.1.symm.trans hl)) ⟨nofun, nofun⟩
    | false =>
      rw [if_neg Bool.false_ne_true]
      cases hg : isGlobal mo with
      | true =>
        rw [if_pos rfl]
        exact (ih hrl st).error (fun h => Bool.false_ne_true (h.2.symm.trans hg)) ⟨nofun, nofun⟩
      | false =>
        rw [if_neg Bool.false_ne_true]
        have hheap : OnHeap isLocal isGlobal mo := ⟨hl, hg⟩
        have h := ih hrl (st.free mo i)
        refine ⟨?_, ?_, ?_, ?_, ?_, ?_, ?_⟩
        · intro j x
          rw [List.mem_cons, List.mem_cons, h.freed, or_and_right]
          refine or_congr_left ?_
          constructor
          · intro he
            cases he
            exact ⟨rfl, hheap⟩
          · intro ⟨he, _⟩
            cases he
            rfl
        · intro j hj
          rcases List.mem_cons.mp hj with he | hj
          · cases he
          · exact h.null j hj
        · intro a
          rw [h.recorded, HeapStates.free_freed, if_pos rfl, Finset.mem_insert]
          simp only [List.exists_mem_cons_iff, hheap, true_and]
          rw [eq_comm (a := a), or_comm (a := _ = a), or_assoc]
        · intro k hk
          rw [h.others k hk, HeapStates.free_freed, if_neg hk]
        · intro k
          rw [h.alloced, HeapStates.free_alloced]
        · intro k hk
          have hki : k ≠ i := fun he => hk (he ▸ List.mem_cons_self)
          rw [h.bound k fun hin => hk (List.mem_cons_of_mem i hin), HeapStates.free_addressSpace,
            if_neg hki]
        · intro q hq hqheap
          rcases List.mem_cons.mp hq with rfl | hq
          · rw [h.bound i hi, HeapStates.free_addressSpace, if_pos rfl]
          · have hqi : q.2 ≠ i := fun he => hi (List.mem_map.mpr ⟨q, hq, he⟩)
            rw [h.unbound q hq hqheap, HeapStates.free_addressSpace, if_neg hqi]

end

/-- Different objects have different bases. -/
theorem AddressSpace.base_injective {space : AddressSpace} {mo other : ObjectPair}
    (hmo : mo ∈ space.objects) (hother : other ∈ space.objects)
    (h : mo.address = other.address) : mo = other := by
  have hcovers : mo.Covers mo.address := ⟨Nat.le_refl _, by omega⟩
  have hother' : other.Covers mo.address := ⟨h ▸ Nat.le_refl _, by omega⟩
  exact AddressSpace.covers_unique hmo hother hcovers hother'

theorem getBaseExpr_inj {mo other : ObjectPair} (hmo : mo.Fits) (hother : other.Fits) :
    mo.getBaseExpr = other.getBaseExpr ↔ mo.address = other.address := by
  have hlt : mo.address < 2 ^ 64 := (Nat.le_add_right _ _).trans_lt hmo.2
  have hlt' : other.address < 2 ^ 64 := (Nat.le_add_right _ _).trans_lt hother.2
  constructor
  · intro h
    have hv : mo.getBaseExpr.value (fun _ _ => 0) = other.getBaseExpr.value fun _ _ => 0 := by rw [h]
    simp only [ObjectPair.getBaseExpr, const_value] at hv
    rwa [Nat.mod_eq_of_lt hlt, Nat.mod_eq_of_lt hlt'] at hv
  · intro h
    rw [ObjectPair.getBaseExpr, h]
    rfl

/-- Only the unbound object leaves the leak report when exactly its free is recorded. -/
theorem HeapState.LeaksRight.unbind {before after : HeapState} {mo : ObjectPair}
    (h : before.LeaksRight) (hmo : mo ∈ before.addressSpace.objects)
    (hspace : after.addressSpace = before.addressSpace.unbindObject mo)
    (halloced : after.alloced = before.alloced)
    (hfreed : after.freed = insert mo.getBaseExpr before.freed) : after.LeaksRight := by
  have hfits := before.addressSpace.fits
  intro a ha
  rw [halloced] at ha
  have hold := h a ha
  simp only [check, Finset.mem_sdiff, Bound, ha, true_and] at hold
  simp only [check, Finset.mem_sdiff, Bound, hspace, hfreed, halloced, ha, true_and,
    Finset.mem_insert, not_or, hold, AddressSpace.unbindObject, List.mem_filter, decide_eq_true_iff]
  constructor
  · rintro ⟨hne, x, hx, hbase⟩
    refine ⟨x, ⟨hx, ?_⟩, hbase⟩
    intro he
    exact hne (he ▸ hbase.symm)
  · rintro ⟨x, ⟨hx, hne⟩, hbase⟩
    refine ⟨?_, x, hx, hbase⟩
    intro he
    have haddr := (getBaseExpr_inj (hfits x hx) (hfits mo hmo)).mp (hbase.trans he)
    exact hne (AddressSpace.base_injective hx hmo haddr)

section
variable (S : ValueSolver) (isLocal isGlobal : ObjectPair → Bool) (state : HeapState) (p : Pointer)

/-- The values of the address. -/
abbrev HeapState.addresses : Set Nat := feasibleValues state.path.constraints p.val

/-- An object of the heap that the address may be the base of. -/
def HeapState.MayFree (mo : ObjectPair) : Prop :=
  mo ∈ state.addressSpace.objects ∧ OnHeap isLocal isGlobal mo ∧
    mo.address ∈ state.addresses p ∧ mo.address ≠ 0

/-- The first object that `resolve` finds whose base the address may be. -/
def HeapState.FirstFound (mo : ObjectPair) : Prop :=
  ∃ pre post, state.addressSpace.resolve S state.path.constraints p = pre ++ mo :: post ∧
    mo.address ∈ state.addresses p ∧ ∀ x ∈ pre, x.address ∉ state.addresses p

/-- What a free leaves: `res` are the exact resolutions with the places of their states. -/
structure FreeSpec (st : HeapStates) (out : List (Nat × FreeOutcome))
    (res : List (ObjectPair × Nat)) : Prop where
  null : ∀ i, (i, FreeOutcome.null) ∈ out ↔ i = 0 ∧ 0 ∈ state.addresses p
  freed : ∀ i mo, (i, FreeOutcome.freed mo) ∈ out ↔
    (mo, i) ∈ res ∧ OnHeap isLocal isGlobal mo
  objects : ∀ mo, mo ∈ res.map Prod.fst ↔ mo ∈ state.addressSpace.objects ∧
    mo.address ∈ state.addresses p ∧ mo.address ≠ 0
  apart : (res.map Prod.snd).Nodup
  place : ∀ q ∈ res, q.2 = 0 ↔ 0 ∉ state.addresses p ∧ state.FirstFound S p q.1
  recorded : ∀ a, a ∈ (st.get 0).freed ↔ a = p.val ∨ a ∈ state.freed ∨
    ∃ q ∈ res, OnHeap isLocal isGlobal q.1 ∧ q.1.getBaseExpr = a
  others : ∀ k, k ≠ 0 → (st.get k).freed = insert p.val state.freed
  alloced : ∀ k, (st.get k).alloced = state.alloced
  bound : 0 ∈ state.addresses p → (st.get 0).addressSpace = state.addressSpace
  unbound : ∀ q ∈ res, OnHeap isLocal isGlobal q.1 →
    (st.get q.2).addressSpace = state.addressSpace.unbindObject q.1

variable {S isLocal isGlobal state p}

theorem executeFree_spec {o : ForkOptions} (hs : o.skipFork = none) (hd : o.maxDepth = 0)
    (hfeas : state.path.models.Nonempty) :
    ∃ st out res, executeFree isLocal isGlobal S o state p = some (st, out) ∧
      FreeSpec S isLocal isGlobal state p st out res := by
  let start : HeapStates := ⟨fun _ => state.recordFree p.val, 1⟩
  have hstart : start.Alike (state.recordFree p.val) := fun _ => ⟨rfl, rfl, rfl⟩
  have hc := fun σ => nullPointer_holds σ p
  obtain ⟨st₁, t, f, hfork, hforked⟩ :=
    start.fork_forked (S := S.toSolver) hs hd Nat.one_pos (nullPointer p) hfeas
  have halike := hforked.alike _ hstart
  have hnull : ∀ k, t = some k ↔ k = 0 ∧ 0 ∈ state.addresses p := by
    intro k
    rw [hforked.first, feasible_inter hc]
    rfl
  cases f with
  | none =>
    have honly : ∀ a ∈ state.addresses p, a = 0 := by
      intro a ⟨σ, hσ, ha⟩
      by_contra hno
      cases hforked.possible.mpr ⟨σ, hσ, fun h => hno (ha.symm.trans ((hc σ).mp h))⟩
    refine ⟨st₁, t.toList.map (·, .null), [], ?_, ?_⟩
    · unfold executeFree
      dsimp only
      rw [hfork]
      rfl
    · refine ⟨?_, ?_, ?_, List.nodup_nil, nofun, ?_, fun k _ => (halike k).2.2, fun k => (halike k).2.1,
        fun _ => (halike 0).1, nofun⟩
      · intro i
        simp [← hnull]
      · simp
      · intro mo
        simp only [List.map_nil, List.not_mem_nil, false_iff]
        intro ⟨_, hin, hne⟩
        exact hne (honly _ hin)
      · intro a
        rw [(halike 0).2.2, HeapState.recordFree, Finset.mem_insert]
        simp
  | some i =>
    obtain ⟨hi, hmodels⟩ := hforked.second i rfl
    have hleft : feasibleValues (st₁.get i).path.constraints p.val = state.addresses p \ {0} :=
      feasible_sdiff hc hmodels
    have hne : (st₁.get i).path.models.Nonempty := hmodels ▸ hforked.possible.mp rfl
    have hspace : (st₁.get i).addressSpace = state.addressSpace := (halike i).1
    have hmem : ∀ mo, mo ∈ state.addressSpace.resolve S (st₁.get i).path.constraints p ↔
        mo ∈ state.addressSpace.objects ∧
          ∃ a ∈ feasibleValues (st₁.get i).path.constraints p.val, mo.Covers a :=
      fun _ => AddressSpace.mem_resolve hne
    have hnodup : (state.addressSpace.resolve S (st₁.get i).path.constraints p).Nodup :=
      AddressSpace.resolve_nodup hne
    have hapart : (state.addressSpace.resolve S (st₁.get i).path.constraints p).Pairwise
        fun a b => a.address ≠ b.address := by
      refine hnodup.imp_of_mem ?_
      intro a b ha hb hab he
      exact hab (AddressSpace.base_injective ((hmem a).mp ha).1 ((hmem b).mp hb).1 he)
    obtain ⟨st₂, res, left, hloop, hres⟩ := resolveExactLoop_spec (S := S.toSolver) (p := p) hs hd
      hapart (fun mo hmo => state.addressSpace.fits mo ((hmem mo).mp hmo).1) st₁ hi hne
    have halike₂ := hres.alike _ halike
    have hfree : FreedObjects isLocal isGlobal res st₂ (freeObjects isLocal isGlobal res st₂) :=
      freeObjects_spec hres.apart st₂
    refine ⟨(freeObjects isLocal isGlobal res st₂).1, t.toList.map (·, .null) ++
      left.toList.map (·, .invalidPointer) ++ (freeObjects isLocal isGlobal res st₂).2, res, ?_, ?_⟩
    · unfold executeFree resolveExact
      dsimp only
      rw [hfork, Option.bind_some]
      dsimp only
      rw [hspace, hloop]
      rfl
    · have hplace : 0 ∈ state.addresses p → ∀ q ∈ res, q.2 ≠ 0 := by
        intro hzero q hq
        have ht : t ≠ none := by
          rw [(hnull 0).mpr ⟨rfl, hzero⟩]
          exact Option.some_ne_none 0
        have hnew : 1 ≤ i := hforked.leaves i rfl ht
        have hgrows : 1 ≤ st₁.next := hforked.grows
        rcases hres.places q hq with hqi | hqn
        · omega
        · omega
      refine ⟨?_, ?_, ?_, hres.apart, ?_, ?_, ?_, ?_, ?_, ?_⟩
      · intro j
        simp [← hnull, hfree.null]
      · intro j mo
        simp [hfree.freed]
      · intro mo
        rw [hres.objects, hmem, hleft]
        constructor
        · intro ⟨⟨hmo, _⟩, hin, hno⟩
          exact ⟨hmo, hin, hno⟩
        · intro ⟨hmo, hin, hno⟩
          exact ⟨⟨hmo, mo.address, ⟨hin, hno⟩, Nat.le_refl _, by omega⟩, hin, hno⟩
      · intro q hq
        by_cases hzero : 0 ∈ state.addresses p
        · simp only [hplace hzero q hq, hzero, not_true_eq_false, false_and]
        · -- the address is not null, so the search runs in the state itself
          have ht : t = none := by
            cases t with
            | none => rfl
            | some k => exact absurd ((hnull k).mp rfl).2 hzero
          obtain ⟨hi0, hget⟩ := hforked.stays i rfl ht
          have hsame : (st₁.get i).path.constraints = state.path.constraints := by
            rw [hget]
            rfl
          have hfound : ∀ x, x ∈ res.map Prod.fst ↔
              x ∈ state.addressSpace.resolve S state.path.constraints p ∧
                x.address ∈ state.addresses p := by
            intro x
            rw [hres.objects, hsame]
          have hordered : (res.map Prod.fst).Sublist
              (state.addressSpace.resolve S state.path.constraints p) := hsame ▸ hres.ordered
          have hnodup' : (state.addressSpace.resolve S state.path.constraints p).Nodup :=
            hsame ▸ hnodup
          rw [HeapState.FirstFound, ← hordered.head_iff_first hnodup' hfound]
          simp only [hzero, not_false_eq_true, true_and]
          cases res with
          | nil => cases hq
          | cons r rs =>
            have hr : r.2 = 0 := (hres.first r rs rfl).trans hi0
            rw [List.map_cons, List.head?_cons, Option.some.injEq]
            constructor
            · intro hq0
              have hqr : q = r := List.inj_on_of_nodup_map hres.apart hq List.mem_cons_self
                (hq0.trans hr.symm)
              rw [hqr]
            · intro hqr
              have hqr' : q = r := List.inj_on_of_nodup_map (hnodup'.sublist hordered) hq
                List.mem_cons_self hqr.symm
              rw [hqr', hr]
      · intro a
        rw [hfree.recorded, (halike₂ 0).2.2, HeapState.recordFree, Finset.mem_insert, or_assoc]
      · intro k hk
        rw [hfree.others k hk, (halike₂ k).2.2]
        rfl
      · intro k
        rw [hfree.alloced, (halike₂ k).2.1]
        rfl
      · intro hzero
        refine (hfree.bound 0 ?_).trans (halike₂ 0).1
        intro hin
        obtain ⟨q, hq, hq0⟩ := List.mem_map.mp hin
        exact hplace hzero q hq hq0
      · intro q hq hheap
        rw [hfree.unbound q hq hheap, (halike₂ q.2).1]
        rfl

/-- The free is recorded as it should in a state that goes on: the base of the object unbound from
it and nothing else, and a right leak report stays right. -/
def FreeOutcome.Right (before after : HeapState) : FreeOutcome → Prop
  | .null => after.addressSpace = before.addressSpace ∧ after.freed = before.freed ∧
      (before.LeaksRight → after.LeaksRight)
  | .freed mo => mo ∈ before.addressSpace.objects ∧
      after.addressSpace = before.addressSpace.unbindObject mo ∧
      after.freed = insert mo.getBaseExpr before.freed ∧ (before.LeaksRight → after.LeaksRight)
  | _ => True

/-- When all states are right: what is recorded besides the base of the object, namely the address
itself and the frees of the other states at place 0, has been recorded before. -/
structure HeapState.FreesCleanly (S : ValueSolver) (isLocal isGlobal : ObjectPair → Bool)
    (state : HeapState) (p : Pointer) : Prop where
  address : (0 ∈ state.addresses p ∨ ∃ mo, state.MayFree isLocal isGlobal p mo) →
    p.val ∈ state.freed ∨ ∃ mo, state.MayFree isLocal isGlobal p mo ∧ p.val = mo.getBaseExpr
  fresh : ∀ mo, state.MayFree isLocal isGlobal p mo → mo.getBaseExpr ∉ state.freed →
    0 ∉ state.addresses p ∧ state.FirstFound S p mo

/-- A constant address has its value only. -/
theorem addresses_of_base {mo : ObjectPair} (hfit : mo.Fits) (h : p.val = mo.getBaseExpr) {a : Nat}
    (ha : a ∈ state.addresses p) : a = mo.address := by
  have hlt : mo.address < 2 ^ 64 := (Nat.le_add_right _ _).trans_lt hfit.2
  obtain ⟨σ, -, hv⟩ := ha
  rw [h, ObjectPair.getBaseExpr, const_value, Nat.mod_eq_of_lt hlt] at hv
  exact hv.symm

section
variable {st : HeapStates} {out : List (Nat × FreeOutcome)} {res : List (ObjectPair × Nat)}

theorem FreeSpec.mayFree (h : FreeSpec S isLocal isGlobal state p st out res) {mo : ObjectPair} :
    state.MayFree isLocal isGlobal p mo ↔ ∃ q ∈ res, q.1 = mo ∧ OnHeap isLocal isGlobal q.1 := by
  constructor
  · intro ⟨hmo, hheap, hin, hne⟩
    obtain ⟨q, hq, rfl⟩ := List.mem_map.mp ((h.objects mo).mpr ⟨hmo, hin, hne⟩)
    exact ⟨q, hq, rfl, hheap⟩
  · intro ⟨q, hq, he, hheap⟩
    subst he
    obtain ⟨hmo, hin, hne⟩ := (h.objects q.1).mp (List.mem_map_of_mem hq)
    exact ⟨hmo, hheap, hin, hne⟩

/-- A recorded address has been recorded before, or is the base of the object just freed. -/
theorem FreeSpec.address_known (h : FreeSpec S isLocal isGlobal state p st out res)
    (hclean : state.FreesCleanly S isLocal isGlobal p) {q : ObjectPair × Nat} (hq : q ∈ res)
    (hheap : OnHeap isLocal isGlobal q.1) : p.val ∈ state.freed ∨ p.val = q.1.getBaseExpr := by
  obtain ⟨hmo, hin, hne⟩ := (h.objects q.1).mp (List.mem_map_of_mem hq)
  rcases hclean.address (.inr ⟨q.1, hmo, hheap, hin, hne⟩) with hp | ⟨mo, hmay, hp⟩
  · exact .inl hp
  · have hone := addresses_of_base (state.addressSpace.fits mo hmay.1) hp hin
    rw [AddressSpace.base_injective hmo hmay.1 hone]
    exact .inr hp

/-- An object that is not the first of them at place 0 is only recorded there. -/
theorem FreeSpec.recorded_before (h : FreeSpec S isLocal isGlobal state p st out res)
    (hclean : state.FreesCleanly S isLocal isGlobal p) {q : ObjectPair × Nat} (hq : q ∈ res)
    (hheap : OnHeap isLocal isGlobal q.1) (hplace : q.2 ≠ 0) :
    q.1.getBaseExpr ∈ state.freed := by
  by_contra hfresh
  exact hplace ((h.place q hq).mpr (hclean.fresh q.1 (h.mayFree.mpr ⟨q, hq, rfl, hheap⟩) hfresh))

/-- In the state of an object, exactly its base is recorded. -/
theorem FreeSpec.freed_right (h : FreeSpec S isLocal isGlobal state p st out res)
    (hclean : state.FreesCleanly S isLocal isGlobal p) {q : ObjectPair × Nat} (hq : q ∈ res)
    (hheap : OnHeap isLocal isGlobal q.1) :
    (st.get q.2).freed = insert q.1.getBaseExpr state.freed := by
  have hp := h.address_known hclean hq hheap
  ext a
  rw [Finset.mem_insert]
  by_cases hi : q.2 = 0
  · rw [hi, h.recorded]
    constructor
    · intro ha
      rcases ha with rfl | ha | ⟨x, hx, hxheap, rfl⟩
      · exact hp.symm
      · exact .inr ha
      · by_cases hx0 : x.2 = 0
        · rw [List.inj_on_of_nodup_map h.apart hx hq (hx0.trans hi.symm)]
          exact .inl rfl
        · exact .inr (h.recorded_before hclean hx hxheap hx0)
    · intro ha
      rcases ha with rfl | ha
      · exact .inr (.inr ⟨q, hq, hheap, rfl⟩)
      · exact .inr (.inl ha)
  · have hknown := h.recorded_before hclean hq hheap hi
    rw [h.others q.2 hi, Finset.mem_insert]
    constructor
    · intro ha
      rcases ha with rfl | ha
      · exact hp.symm
      · exact .inr ha
    · intro ha
      rcases ha with rfl | ha
      · exact .inr hknown
      · exact .inr ha

/-- In the state whose address is null, nothing is recorded. -/
theorem FreeSpec.null_right (h : FreeSpec S isLocal isGlobal state p st out res)
    (hclean : state.FreesCleanly S isLocal isGlobal p) (hzero : 0 ∈ state.addresses p) :
    (st.get 0).freed = state.freed := by
  have hp : p.val ∈ state.freed := by
    rcases hclean.address (.inl hzero) with hp | ⟨mo, hmay, hp⟩
    · exact hp
    · have hone := addresses_of_base (state.addressSpace.fits mo hmay.1) hp hzero
      exact absurd hone.symm hmay.2.2.2
  ext a
  rw [h.recorded]
  constructor
  · intro ha
    rcases ha with rfl | ha | ⟨q, hq, hheap, rfl⟩
    · exact hp
    · exact ha
    · exact h.recorded_before hclean hq hheap fun h0 => ((h.place q hq).mp h0).1 hzero
  · intro ha
    exact .inr (.inl ha)

theorem FreeSpec.right (h : FreeSpec S isLocal isGlobal state p st out res)
    (hclean : state.FreesCleanly S isLocal isGlobal p) :
    ∀ r ∈ out, r.2.Right state (st.get r.1) := by
  intro r hr
  obtain ⟨i, outcome⟩ := r
  cases outcome with
  | null =>
    obtain ⟨rfl, hzero⟩ := (h.null i).mp hr
    have hfreed := h.null_right hclean hzero
    refine ⟨h.bound hzero, hfreed, ?_⟩
    intro hleaks a ha
    have ha' : a ∈ state.alloced := h.alloced 0 ▸ ha
    simp only [HeapState.check, HeapState.Bound, h.alloced, h.bound hzero, hfreed]
    exact hleaks a ha'
  | freed mo =>
    obtain ⟨hq, hheap⟩ := (h.freed i mo).mp hr
    obtain ⟨hmo, -, -⟩ := (h.objects mo).mp (List.mem_map_of_mem hq)
    have hfreed := h.freed_right hclean hq hheap
    exact ⟨hmo, h.unbound _ hq hheap, hfreed,
      fun hleaks => hleaks.unbind hmo (h.unbound _ hq hheap) (h.alloced i) hfreed⟩
  | _ => trivial

/-- The object at the base of a constant address is the only one that is found. -/
theorem firstFound_of_base (hfeas : state.path.models.Nonempty) {mo : ObjectPair}
    (hmo : mo ∈ state.addressSpace.objects) (hin : mo.address ∈ state.addresses p)
    (hbase : p.val = mo.getBaseExpr) : state.FirstFound S p mo := by
  have hmem : ∀ x, x ∈ state.addressSpace.resolve S state.path.constraints p ↔
      x ∈ state.addressSpace.objects ∧ ∃ a ∈ state.addresses p, x.Covers a :=
    fun _ => AddressSpace.mem_resolve hfeas
  obtain ⟨pre, post, hsplit⟩ :=
    List.append_of_mem ((hmem mo).mpr ⟨hmo, mo.address, hin, Nat.le_refl _, by omega⟩)
  refine ⟨pre, post, hsplit, hin, ?_⟩
  intro x hx hxin
  have hxmo : x ∈ state.addressSpace.objects := by
    refine ((hmem x).mp ?_).1
    rw [hsplit]
    exact List.mem_append_left _ hx
  have hsame := AddressSpace.base_injective hxmo hmo
    (addresses_of_base (state.addressSpace.fits mo hmo) hbase hxin)
  have hnodup : (pre ++ mo :: post).Nodup := hsplit ▸ AddressSpace.resolve_nodup hfeas
  exact (List.nodup_middle.mp hnodup).notMem (List.mem_append_left _ (hsame ▸ hx))

theorem FreeSpec.cleanly (h : FreeSpec S isLocal isGlobal state p st out res)
    (hfeas : state.path.models.Nonempty) (hright : ∀ r ∈ out, r.2.Right state (st.get r.1)) :
    state.FreesCleanly S isLocal isGlobal p := by
  have hnull : 0 ∈ state.addresses p → (st.get 0).freed = state.freed := fun hzero =>
    (hright (0, .null) ((h.null 0).mpr ⟨rfl, hzero⟩)).2.1
  have hfreed : ∀ q ∈ res, OnHeap isLocal isGlobal q.1 →
      (st.get q.2).freed = insert q.1.getBaseExpr state.freed := fun q hq hheap =>
    (hright (q.2, .freed q.1) ((h.freed q.2 q.1).mpr ⟨hq, hheap⟩)).2.2.1
  constructor
  · intro hgoes
    by_cases hzero : 0 ∈ state.addresses p
    · exact .inl (hnull hzero ▸ (h.recorded p.val).mpr (.inl rfl))
    · obtain ⟨mo, hmay⟩ := hgoes.resolve_left hzero
      obtain ⟨q, hq, rfl, hheap⟩ := h.mayFree.mp hmay
      have hp : p.val ∈ (st.get q.2).freed := by
        by_cases hi : q.2 = 0
        · rw [hi]
          exact (h.recorded p.val).mpr (.inl rfl)
        · rw [h.others q.2 hi]
          exact Finset.mem_insert_self _ _
      rw [hfreed q hq hheap, Finset.mem_insert] at hp
      exact hp.symm.imp_right fun hp => ⟨q.1, hmay, hp⟩
  · intro mo hmay hfresh
    obtain ⟨q, hq, rfl, hheap⟩ := h.mayFree.mp hmay
    have hzero : 0 ∉ state.addresses p := by
      intro hzero
      have hrec := (h.recorded q.1.getBaseExpr).mpr (.inr (.inr ⟨q, hq, hheap, rfl⟩))
      exact hfresh (hnull hzero ▸ hrec)
    refine ⟨hzero, ?_⟩
    by_cases hi : q.2 = 0
    · exact ((h.place q hq).mp hi).2
    · -- the free is not recorded in the state of the object, so the address is its base
      have hbase : q.1.getBaseExpr ∈ insert p.val state.freed := by
        rw [← h.others q.2 hi, hfreed q hq hheap]
        exact Finset.mem_insert_self _ _
      have hp := (Finset.mem_insert.mp hbase).resolve_right hfresh
      exact firstFound_of_base hfeas hmay.1 hmay.2.2.1 hp.symm

end

/-- The freed sets and the leak reports of all states that go on are right exactly when the free is
clean. -/
theorem HeapState.executeFree_right_iff {o : ForkOptions} (hs : o.skipFork = none)
    (hd : o.maxDepth = 0) (hfeas : state.path.models.Nonempty) :
    (∃ r, executeFree isLocal isGlobal S o state p = some r ∧
        ∀ x ∈ r.2, x.2.Right state (r.1.get x.1)) ↔
      state.FreesCleanly S isLocal isGlobal p := by
  have hfree : ∃ st out res, executeFree isLocal isGlobal S o state p = some (st, out) ∧
      FreeSpec S isLocal isGlobal state p st out res := executeFree_spec hs hd hfeas
  obtain ⟨st, out, res, hrun, hspec⟩ := hfree
  constructor
  · intro ⟨r, hr, hright⟩
    cases hrun.symm.trans hr
    exact hspec.cleanly hfeas hright
  · intro hclean
    exact ⟨_, hrun, hspec.right hclean⟩

end

/-- Two objects of the heap. -/
def twoBlocks : HeapState where
  addressSpace := twoObjects
  alloced := {Expr.const 4096 64, Expr.const 4224 64}

theorem twoBlocks_feasible : twoBlocks.path.models.Nonempty := ⟨fun _ _ => 0, fun _ h => nomatch h⟩

def firstBlock : Pointer := ⟨Expr.const 4096 64, trivial, rfl⟩

theorem firstBlock_cleanly :
    twoBlocks.FreesCleanly ValueSolver.ideal (fun _ => false) (fun _ => false) firstBlock := by
  have hone : ∀ a, a ∈ twoBlocks.addresses firstBlock ↔ a = 4096 := by
    intro a
    constructor
    · intro ⟨σ, _, ha⟩
      exact ha.symm
    · intro ha
      exact ⟨fun _ _ => 0, fun _ h => (nomatch h), ha.symm⟩
  constructor
  · intro _
    exact .inr ⟨⟨4096, 128, false⟩, ⟨List.mem_cons_self, ⟨rfl, rfl⟩, (hone _).mpr rfl, by decide⟩, rfl⟩
  · intro mo hmay _
    obtain ⟨hmo, -, hin, -⟩ := hmay
    refine ⟨fun h => ?_, firstFound_of_base twoBlocks_feasible hmo hin ?_⟩
    · cases (hone 0).mp h
    · rw [ObjectPair.getBaseExpr, (hone _).mp hin]
      rfl

theorem firstBlock_freed : ∃ r,
    executeFree (fun _ => false) (fun _ => false) ValueSolver.ideal {} twoBlocks firstBlock = some r ∧
      ∀ x ∈ r.2, x.2.Right twoBlocks (r.1.get x.1) :=
  (HeapState.executeFree_right_iff rfl rfl twoBlocks_feasible).mpr firstBlock_cleanly

/-- The free of an address that may be the base of either object records the address itself, and
the base of the second object in the state of the first. -/
theorem indexedFree_misrecorded : ¬ ∃ r,
    executeFree (fun _ => false) (fun _ => false) ValueSolver.ideal {} twoBlocks
        indexedLoad.pointer = some r ∧
      ∀ x ∈ r.2, x.2.Right twoBlocks (r.1.get x.1) := by
  intro ⟨r, hr, hright⟩
  have hfree : ∃ st out res,
      executeFree (fun _ => false) (fun _ => false) ValueSolver.ideal {} twoBlocks
          indexedLoad.pointer = some (st, out) ∧
        FreeSpec ValueSolver.ideal (fun _ => false) (fun _ => false) twoBlocks indexedLoad.pointer
          st out res := executeFree_spec rfl rfl twoBlocks_feasible
  obtain ⟨st, out, res, hrun, hspec⟩ := hfree
  cases hrun.symm.trans hr
  have hmay : twoBlocks.MayFree (fun _ => false) (fun _ => false) indexedLoad.pointer
      ⟨4096, 128, false⟩ :=
    ⟨List.mem_cons_self, ⟨rfl, rfl⟩, (indexedLoad_addresses 4096).mpr (by omega), by decide⟩
  rcases (hspec.cleanly twoBlocks_feasible hright).address (.inr ⟨_, hmay⟩) with hp | ⟨mo, _, hp⟩
  · cases hp
  · cases hp

end Encider
