import Encider.Exec.Resolve
import Encider.Exec.Fork
import Encider.Lib.Parts

/-! `Executor::executeMemoryOperation`: which states a memory access leaves behind,
and which addresses each of them admits. -/

namespace Encider

/-- What an access comes to in one of the states it leaves behind. An error ends the state. -/
inductive AccessResult where
  | access (mo : ObjectPair)
  | readOnly (mo : ObjectPair)
  | outOfBound
deriving DecidableEq, Repr

structure AccessState where
  state : PathState
  result : AccessResult

/-- The bases that `getelementptr` recorded for addresses, and the objects of constant
bases. Both maps are keyed by the state in the source. -/
structure BaseRecords where
  symIndexToMemBase : Expr → Option Expr := fun _ => none
  addressToMemObj : Option (Expr → Option Nat) := none

structure MemoryOptions where
  fork : ForkOptions := {}
  maxForkMulRes : Int := 2147483647
  preferredResolution : Bool := false

/-- A load or a store of a value of width `type`. -/
structure MemoryAccess where
  isWrite : Bool
  type : Width
  address : {e : Expr // e.WellTyped ∧ e.getWidth ≤ 64}

namespace MemoryAccess

/-- `getMinBytesForWidth`. -/
def bytes (a : MemoryAccess) : Nat := (a.type + 7) / 8

/-- The address, extended to the width of pointers. -/
def pointer (a : MemoryAccess) : Pointer :=
  if h : a.address.val.getWidth < 64 then
    ⟨.zext a.address.val 64, ⟨a.address.2.1, h.le⟩, rfl⟩
  else
    ⟨a.address.val, a.address.2.1, Nat.le_antisymm a.address.2.2 (Nat.le_of_not_lt h)⟩

theorem bytes_pos (a : MemoryAccess) (h : 0 < a.type) : 0 < a.bytes := by
  have h8 : 8 ≤ a.type + 7 := Nat.add_le_add_right h 7
  exact Nat.div_pos h8 (by decide)

/-- The end of a state in which the access is in bounds of `mo`. -/
def on (a : MemoryAccess) (mo : ObjectPair) : AccessResult :=
  if a.isWrite && mo.readOnly then .readOnly mo else .access mo

end MemoryAccess

namespace AddressSpace

/-- `findObject`, by the address that orders the map of objects. -/
def findObject (space : AddressSpace) (address : Nat) : Option ObjectPair :=
  space.objects.find? fun mo => mo.address = address

/-- The object that the recorded bases of an address lead to, in as many steps. -/
def followBases (space : AddressSpace) (r : BaseRecords) : Nat → Expr → Option ObjectPair
  | 0, _ => none
  | i + 1, addtocheck =>
    match r.symIndexToMemBase addtocheck with
    | none => none
    | some mobase =>
      if mobase.isConstant then
        match r.addressToMemObj with
        | none => none
        | some m2 =>
          match m2 mobase with
          | some mres => space.findObject mres
          | none => if addtocheck = mobase then none else followBases space r i mobase
      else followBases space r i mobase

/-- The object that `PreferredResolution` settles on. -/
def preferred (space : AddressSpace) (o : MemoryOptions) (r : BaseRecords) (p : Pointer) :
    Option ObjectPair :=
  if o.preferredResolution then space.followBases r 3 p.val else none

end AddressSpace

/-- The loop over the resolution list; `index` counts its forks. -/
def forkOnObjects (S : Solver) (o : MemoryOptions) (a : MemoryAccess) :
    Int → PathState → List ObjectPair → Option (List AccessState)
  | _, unbound, [] => some [⟨unbound, .outOfBound⟩]
  | index, unbound, mo :: rest =>
    (fork S o.fork unbound (mo.getBoundsCheckAccess a.pointer a.bytes) false).bind fun branches =>
      let bound := branches.1.toList.map fun s => ⟨s, a.on mo⟩
      match branches.2 with
      | none => some bound
      | some unbound =>
        if index + 1 > o.maxForkMulRes then some (bound ++ [⟨unbound, .outOfBound⟩])
        else (forkOnObjects S o a (index + 1) unbound rest).map fun out => bound ++ out

/-- `Executor::executeMemoryOperation`. -/
def executeMemoryOperation (S : ValueSolver) (o : MemoryOptions) (space : AddressSpace)
    (r : BaseRecords) (state : PathState) (a : MemoryAccess) : Option (List AccessState) :=
  match (space.resolveOne S state.constraints a.pointer).filter fun mo =>
      S.mustBeTrue state.constraints (mo.getBoundsCheckAccess a.pointer a.bytes) with
  | some mo => some [⟨state, a.on mo⟩]
  | none =>
    let rl := match space.preferred o r a.pointer with
      | some mo => [mo]
      | none => space.resolve S state.constraints a.pointer
    forkOnObjects S.toSolver o a 0 state rl

/-- The addresses in bounds of one of the objects. -/
def inBoundsOf (l : List ObjectPair) (bytes : Nat) : Set Nat :=
  {a | ∃ mo ∈ l, mo.InBounds bytes a}

@[simp] theorem inBoundsOf_nil (bytes : Nat) : inBoundsOf [] bytes = ∅ := by
  ext a
  simp [inBoundsOf]

theorem inBoundsOf_cons (mo : ObjectPair) (l : List ObjectPair) (bytes : Nat) :
    inBoundsOf (mo :: l) bytes = {a | mo.InBounds bytes a} ∪ inBoundsOf l bytes := by
  ext a
  simp [inBoundsOf]

/-- The values of an address in a state. -/
def PathState.addresses (s : PathState) (p : Pointer) : Set Nat := feasibleValues s.constraints p.val

/-- Those in a successor that need not exist. -/
def PathState.addressesOf (p : Pointer) (o : Option PathState) : Set Nat :=
  o.elim ∅ fun s => s.addresses p

namespace PathState

variable {s : PathState} {p : Pointer} {t f : Option PathState}

theorem addresses_eq (s : PathState) (p : Pointer) :
    s.addresses p = (fun σ => p.val.value σ) '' s.models := rfl

theorem addressesOf_eq (o : Option PathState) (p : Pointer) :
    addressesOf p o = (fun σ => p.val.value σ) '' modelsOf o := by
  cases o with
  | none => exact (Set.image_empty _).symm
  | some s => rfl

/-- A condition on the address alone divides the addresses. -/
theorem Divides.addresses {c : Constraint} {C : Set Nat} (h : s.Divides c t f)
    (hc : ∀ σ, c.Holds σ ↔ p.val.value σ ∈ C) :
    addressesOf p t = s.addresses p ∩ C ∧ addressesOf p f = s.addresses p \ C := by
  rw [addressesOf_eq, addressesOf_eq, addresses_eq]
  exact h.image hc

end PathState

/-- What an access leaves of the state `u` when it has tried the objects `tried`. -/
structure Resolved (a : MemoryAccess) (u : PathState) (tried : List ObjectPair)
    (out : List AccessState) : Prop where
  parts : Parts (u.addresses a.pointer) (out.map fun r => r.state.addresses a.pointer)
  object : ∀ r ∈ out, ∀ mo, r.result = .access mo ∨ r.result = .readOnly mo →
    mo ∈ tried ∧ r.state.addresses a.pointer ⊆ {b | mo.InBounds a.bytes b}
  left : ∀ r ∈ out, r.result = .outOfBound →
    r.state.addresses a.pointer = u.addresses a.pointer \ inBoundsOf tried a.bytes ∧
      (r.state.addresses a.pointer).Nonempty
  reported : (u.addresses a.pointer \ inBoundsOf tried a.bytes).Nonempty →
    ∃ r ∈ out, r.result = .outOfBound

namespace Resolved

variable {a : MemoryAccess} {u : PathState} {mo : ObjectPair} {tried : List ObjectPair}
  {out : List AccessState}

/-- The leftover state is reported. -/
theorem stop (hu : u.models.Nonempty) : Resolved a u [] [⟨u, .outOfBound⟩] := by
  refine ⟨Parts.single _, ?_, ?_, fun _ => ⟨_, List.mem_singleton_self _, rfl⟩⟩
  · intro r hr mo hmo
    obtain rfl := List.mem_singleton.mp hr
    rcases hmo with hmo | hmo <;> cases hmo
  · intro r hr _
    obtain rfl := List.mem_singleton.mp hr
    rw [inBoundsOf_nil, Set.sdiff_empty]
    exact ⟨rfl, hu.image _⟩

theorem on_ne (a : MemoryAccess) (mo : ObjectPair) : a.on mo ≠ .outOfBound := by
  unfold MemoryAccess.on
  split <;> exact AccessResult.noConfusion

theorem of_on {mo' : ObjectPair} (h : a.on mo = .access mo' ∨ a.on mo = .readOnly mo') :
    mo' = mo := by
  unfold MemoryAccess.on at h
  split at h <;> rcases h with h | h <;> cases h <;> rfl

/-- An object is tried first: the state in bounds of it is its own, `out` is what
becomes of the other one. -/
theorem cons {t f : Option PathState}
    (ht : PathState.addressesOf a.pointer t = u.addresses a.pointer ∩ {b | mo.InBounds a.bytes b})
    (hf : PathState.addressesOf a.pointer f = u.addresses a.pointer \ {b | mo.InBounds a.bytes b})
    (hout : ∀ u', f = some u' → Resolved a u' tried out) (hnone : f = none → out = []) :
    Resolved a u (mo :: tried) ((t.toList.map fun s => ⟨s, a.on mo⟩) ++ out) := by
  have hleft : u.addresses a.pointer \ inBoundsOf (mo :: tried) a.bytes =
      PathState.addressesOf a.pointer f \ inBoundsOf tried a.bytes := by
    rw [hf, inBoundsOf_cons, Set.sdiff_sdiff]
  have hmem : ∀ r ∈ t.toList.map fun s => (⟨s, a.on mo⟩ : AccessState),
      ∃ s, t = some s ∧ r = ⟨s, a.on mo⟩ := by
    intro r hr
    obtain ⟨s, hs, hr⟩ := List.mem_map.mp hr
    exact ⟨s, Option.mem_toList.mp hs, hr.symm⟩
  refine ⟨?_, ?_, ?_, ?_⟩
  · rw [List.map_append]
    refine Parts.append (C := {b | mo.InBounds a.bytes b}) ?_ ?_
    · rw [← ht]
      cases t with
      | none => exact Parts.empty
      | some s => exact Parts.single _
    · rw [← hf]
      cases f with
      | none =>
        rw [hnone rfl]
        exact Parts.empty
      | some u' => exact (hout u' rfl).parts
  · intro r hr mo' hmo'
    rcases List.mem_append.mp hr with hr | hr
    · obtain ⟨s, hs, rfl⟩ := hmem r hr
      obtain rfl := of_on hmo'
      rw [hs] at ht
      exact ⟨List.mem_cons_self, ht.subset.trans Set.inter_subset_right⟩
    · cases f with
      | none =>
        rw [hnone rfl] at hr
        cases hr
      | some u' =>
        obtain ⟨hm, hin⟩ := (hout u' rfl).object r hr mo' hmo'
        exact ⟨List.mem_cons_of_mem mo hm, hin⟩
  · intro r hr hres
    rcases List.mem_append.mp hr with hr | hr
    · obtain ⟨s, hs, rfl⟩ := hmem r hr
      exact absurd hres (on_ne a mo)
    · cases f with
      | none =>
        rw [hnone rfl] at hr
        cases hr
      | some u' =>
        rw [hleft]
        exact (hout u' rfl).left r hr hres
  · intro hne
    rw [hleft] at hne
    cases f with
    | none =>
      obtain ⟨b, hb, -⟩ := hne
      cases hb
    | some u' =>
      obtain ⟨r, hr, hres⟩ := (hout u' rfl).reported hne
      exact ⟨r, List.mem_append_right _ hr, hres⟩

end Resolved

/-- The loop tries the objects in turn, and one more than `maxForkMulRes` at most. -/
theorem forkOnObjects_resolved {S : Solver} {o : MemoryOptions} {a : MemoryAccess}
    (hs : o.fork.skipFork = none) (hd : o.fork.maxDepth = 0) (hbytes : 0 < a.bytes)
    {l : List ObjectPair} (hl : ∀ mo ∈ l, mo.Fits) (index : Int) {u : PathState}
    (hu : u.models.Nonempty) :
    ∃ out, forkOnObjects S o a index u l = some out ∧
      Resolved a u (l.take ((o.maxForkMulRes - index).toNat + 1)) out := by
  induction l generalizing index u with
  | nil =>
    rw [List.take_nil]
    exact ⟨_, rfl, Resolved.stop hu⟩
  | cons mo rest ih =>
    obtain ⟨t, f, hfork, hdiv⟩ := fork_divides (S := S) hs hd u
      (mo.getBoundsCheckAccess a.pointer a.bytes) false
    obtain ⟨ht, hf⟩ := hdiv.addresses (C := {b | mo.InBounds a.bytes b}) fun σ =>
      mo.getBoundsCheckAccess_holds σ (hl mo List.mem_cons_self) a.pointer hbytes
    rw [forkOnObjects, hfork, Option.bind_some, List.take_succ_cons]
    cases f with
    | none =>
      refine ⟨_, rfl, ?_⟩
      rw [← List.append_nil (List.map _ _)]
      exact Resolved.cons ht hf (fun _ h => by cases h) (fun _ => rfl)
    | some unbound =>
      have hunbound := hdiv.alive hu unbound (.inr rfl)
      dsimp only
      split
      · rename_i hcut
        have hzero : (o.maxForkMulRes - index).toNat = 0 := by omega
        rw [hzero, List.take_zero]
        refine ⟨_, rfl, Resolved.cons ht hf ?_ (fun h => by cases h)⟩
        intro u' hu'
        cases hu'
        exact Resolved.stop hunbound
      · rename_i hgo
        obtain ⟨out, hout, hres⟩ := ih (fun mo h => hl mo (List.mem_cons_of_mem _ h)) (index + 1)
          hunbound
        have hcount : (o.maxForkMulRes - index).toNat = (o.maxForkMulRes - (index + 1)).toNat + 1 := by
          omega
        rw [hout, Option.map_some, hcount]
        refine ⟨_, rfl, Resolved.cons ht hf ?_ (fun h => by cases h)⟩
        intro u' hu'
        cases hu'
        exact hres

/-- What an access must leave behind: its states share out the addresses, each access is
in bounds, and a state is an error only if an address of it is in bounds of no object. -/
structure AccessSound (space : AddressSpace) (state : PathState) (a : MemoryAccess)
    (out : List AccessState) : Prop where
  parts : Parts (state.addresses a.pointer) (out.map fun r => r.state.addresses a.pointer)
  inBounds : ∀ r ∈ out, ∀ mo, r.result = .access mo ∨ r.result = .readOnly mo →
    mo ∈ space.objects ∧ r.state.addresses a.pointer ⊆ {b | mo.InBounds a.bytes b}
  errors : ∀ r ∈ out, r.result = .outOfBound →
    ∃ b ∈ r.state.addresses a.pointer, ∀ mo ∈ space.objects, ¬ mo.InBounds a.bytes b

namespace AddressSpace

variable {S : ValueSolver} {o : MemoryOptions} {space : AddressSpace} {r : BaseRecords}
  {state : PathState} {a : MemoryAccess}

open scoped Classical in
/-- The objects that some value of the address points into, from the one below `b` on. -/
noncomputable def candidates (space : AddressSpace) (state : PathState) (p : Pointer) (b : Nat) :
    List ObjectPair :=
  (space.nearest b).filter fun mo => ∃ c ∈ state.addresses p, mo.Covers c

/-- The objects that the access is tried on: the preferred one, or the first candidates. -/
noncomputable def triedObjects (S : ValueSolver) (o : MemoryOptions) (space : AddressSpace)
    (r : BaseRecords) (state : PathState) (a : MemoryAccess) : List ObjectPair :=
  match space.preferred o r a.pointer with
  | some mo => [mo]
  | none =>
    (space.candidates state a.pointer (S.getValue state.constraints a.pointer.val)).take
      (o.maxForkMulRes.toNat + 1)

theorem resolve_candidates (hfeas : state.models.Nonempty) (p : Pointer) :
    space.resolve S state.constraints p =
      space.candidates state p (S.getValue state.constraints p.val) := by
  classical
  rw [resolve_eq hfeas, candidates]
  refine List.filter_congr ?_
  intro mo hmo
  rw [Bool.eq_iff_iff, mayPoint_iff (mem_nearest.mp hmo), decide_eq_true_iff]
  rfl

theorem followBases_mem {n : Nat} {e : Expr} {mo : ObjectPair}
    (h : space.followBases r n e = some mo) : mo ∈ space.objects := by
  induction n generalizing e with
  | zero => cases h
  | succ n ih =>
    unfold followBases at h
    split at h
    · cases h
    · split at h
      · split at h
        · cases h
        · split at h
          · exact List.mem_of_find?_eq_some h
          · split at h
            · cases h
            · exact ih h
      · exact ih h

theorem preferred_mem {p : Pointer} {mo : ObjectPair} (h : space.preferred o r p = some mo) :
    mo ∈ space.objects := by
  unfold preferred at h
  split at h
  · exact followBases_mem h
  · cases h

theorem candidates_subset {p : Pointer} {b : Nat} {mo : ObjectPair}
    (h : mo ∈ space.candidates state p b) : mo ∈ space.objects :=
  mem_nearest.mp (List.mem_of_mem_filter h)

/-- The state is in bounds of one object as a whole, and stays one. -/
theorem fast_path (hfeas : state.models.Nonempty) (hbytes : 0 < a.bytes) {mo : ObjectPair}
    (hmo : mo ∈ space.objects) :
    (space.resolveOne S state.constraints a.pointer).filter (fun mo =>
      S.mustBeTrue state.constraints (mo.getBoundsCheckAccess a.pointer a.bytes)) = some mo ↔
    state.addresses a.pointer ⊆ {b | mo.InBounds a.bytes b} := by
  have hmust : S.mustBeTrue state.constraints (mo.getBoundsCheckAccess a.pointer a.bytes) = true ↔
      state.addresses a.pointer ⊆ {b | mo.InBounds a.bytes b} := by
    rw [Solver.mustBeTrue_iff]
    simp only [mo.getBoundsCheckAccess_holds _ (space.fits mo hmo) a.pointer hbytes]
    constructor
    · intro h b hb
      obtain ⟨σ, hσ, rfl⟩ := hb
      exact h σ hσ
    · intro h σ hσ
      exact h ⟨σ, hσ, rfl⟩
  rw [Option.filter_eq_some_iff, hmust]
  constructor
  · exact fun h => h.2
  · exact fun h => ⟨resolveOne_of_all hfeas hmo hbytes h, h⟩

/-- Otherwise the state is tried on the objects, and what is left of it is reported. -/
theorem slow_path (hs : o.fork.skipFork = none) (hd : o.fork.maxDepth = 0)
    (hfeas : state.models.Nonempty) (hbytes : 0 < a.bytes)
    (hslow : ∀ mo ∈ space.objects, ¬ state.addresses a.pointer ⊆ {b | mo.InBounds a.bytes b}) :
    ∃ out, executeMemoryOperation S o space r state a = some out ∧
      Resolved a state (space.triedObjects S o r state a) out := by
  have hnone : (space.resolveOne S state.constraints a.pointer).filter (fun mo =>
      S.mustBeTrue state.constraints (mo.getBoundsCheckAccess a.pointer a.bytes)) = none := by
    rw [Option.eq_none_iff_forall_ne_some]
    intro mo hmo
    have hmem := resolveOne_mem (Option.filter_eq_some_iff.mp hmo).1
    exact hslow mo hmem ((fast_path hfeas hbytes hmem).mp hmo)
  unfold executeMemoryOperation triedObjects
  rw [hnone]
  cases hpref : space.preferred o r a.pointer with
  | some mo =>
    have hfit : ∀ x ∈ [mo], x.Fits := by
      intro x hx
      obtain rfl := List.mem_singleton.mp hx
      exact space.fits x (preferred_mem hpref)
    have h := forkOnObjects_resolved (S := S.toSolver) hs hd hbytes hfit 0 hfeas
    rwa [List.take_of_length_le (by simp)] at h
  | none =>
    have hfit : ∀ x ∈ space.resolve S state.constraints a.pointer, x.Fits := by
      intro x hx
      rw [resolve_candidates hfeas] at hx
      exact space.fits x (candidates_subset hx)
    have h := forkOnObjects_resolved (S := S.toSolver) hs hd hbytes hfit 0 hfeas
    rw [Int.sub_zero] at h
    dsimp only
    rwa [resolve_candidates hfeas] at h ⊢

theorem triedObjects_subset {mo : ObjectPair} (h : mo ∈ space.triedObjects S o r state a) :
    mo ∈ space.objects := by
  unfold triedObjects at h
  split at h
  · rename_i x hpref
    obtain rfl := List.mem_singleton.mp h
    exact preferred_mem hpref
  · exact candidates_subset (List.mem_of_mem_take h)

/-- Without a preferred object, and with forks for all candidates, every access is sound. -/
theorem resolution_complete (hs : o.fork.skipFork = none) (hd : o.fork.maxDepth = 0)
    (hfeas : state.models.Nonempty) (htype : 0 < a.type)
    (hpref : space.preferred o r a.pointer = none)
    (hmax : space.objects.length ≤ o.maxForkMulRes.toNat + 1)
    (hslow : ∀ mo ∈ space.objects, ¬ state.addresses a.pointer ⊆ {b | mo.InBounds a.bytes b}) :
    ∃ out, executeMemoryOperation S o space r state a = some out ∧
      ∀ x ∈ out, x.result = .outOfBound →
        x.state.addresses a.pointer = state.addresses a.pointer \ inBoundsOf space.objects a.bytes := by
  obtain ⟨out, hout, hres⟩ := slow_path (S := S) (r := r) hs hd hfeas (a.bytes_pos htype) hslow
  refine ⟨out, hout, ?_⟩
  intro x hx hxr
  rw [(hres.left x hx hxr).1]
  have hlength : (space.candidates state a.pointer
      (S.getValue state.constraints a.pointer.val)).length ≤ o.maxForkMulRes.toNat + 1 := by
    refine (List.length_filter_le _ _).trans ?_
    rw [(space.nearest_perm _).length_eq]
    exact hmax
  ext b
  simp only [Set.mem_sdiff, and_congr_right_iff, not_iff_not]
  intro hb
  constructor
  · intro hin
    obtain ⟨mo, hmo, hin⟩ := hin
    exact ⟨mo, triedObjects_subset hmo, hin⟩
  · intro hin
    obtain ⟨mo, hmo, hin⟩ := hin
    refine ⟨mo, ?_, hin⟩
    unfold triedObjects
    rw [hpref]
    dsimp only
    rw [List.take_of_length_le hlength, candidates, List.mem_filter]
    exact ⟨mem_nearest.mpr hmo, by simpa using ⟨b, hb, hin.covers (a.bytes_pos htype)⟩⟩

end AddressSpace

open Classical in
/-- The solver that decides every query and picks a value by choice. -/
noncomputable def ValueSolver.ideal : ValueSolver where
  toSolver := Solver.ideal
  getValue cs e :=
    if h : ∃ σ : Assignment, ∀ d ∈ cs, d.Holds σ then e.value h.choose else 0
  feasible cs e h := ⟨h.choose, h.choose_spec, by rw [dif_pos h]⟩

/-- Two objects of 128 bytes, next to each other. -/
def twoObjects : AddressSpace where
  objects := [⟨4096, 128, false⟩, ⟨4224, 128, false⟩]
  apart := by simp [ObjectPair.Before]
  fits := by simp [ObjectPair.Fits]

/-- A load of a byte at a fixed address. -/
def fixedLoad : MemoryAccess := ⟨false, 8, ⟨Expr.const 4100 64, trivial, Nat.le_refl _⟩⟩

/-- A load of a byte at a symbolic index from the first object on. -/
def indexedLoad : MemoryAccess where
  isWrite := false
  type := 8
  address := ⟨.binary .add (Expr.const 4096 64) (.zext (.read { name := "i", size := 1 } .nil
    (Expr.const 0 32)) 64), ⟨trivial, ⟨⟨trivial, trivial, rfl⟩, by decide⟩, rfl⟩, Nat.le_refl _⟩

theorem indexedLoad_value (σ : Assignment) : indexedLoad.pointer.val.value σ =
    4096 + (σ { name := "i", size := 1 } 0).toNat := by
  have hlt : (σ { name := "i", size := 1 } 0).toNat < 2 ^ 8 :=
    (σ { name := "i", size := 1 } 0).isLt
  have hvalue : indexedLoad.pointer.val.value σ =
      (BitVec.ofNat 64 (4096 % 2 ^ 64) +
        BitVec.ofNat 64 ((σ { name := "i", size := 1 } 0).toNat % 2 ^ 64)).toNat := rfl
  rw [hvalue, BitVec.toNat_add, BitVec.toNat_ofNat, BitVec.toNat_ofNat]
  omega

/-- The index can be any byte. -/
theorem indexedLoad_addresses (b : Nat) :
    b ∈ PathState.addresses {} indexedLoad.pointer ↔ 4096 ≤ b ∧ b < 4352 := by
  constructor
  · intro h
    obtain ⟨σ, -, rfl⟩ := h
    have hlt : (σ { name := "i", size := 1 } 0).toNat < 2 ^ 8 :=
      (σ { name := "i", size := 1 } 0).isLt
    rw [indexedLoad_value]
    omega
  · intro h
    refine ⟨fun a _ => BitVec.ofNat a.range (b - 4096), fun c hc => ?_, ?_⟩
    · cases hc
    · rw [indexedLoad_value, BitVec.toNat_ofNat]
      have hmod : (b - 4096) % 2 ^ 8 = b - 4096 := by omega
      exact (congrArg (4096 + ·) hmod).trans (by omega)

/-- For a solver that answers every query, `resolve` gives each object that a feasible
address lies in once and no other, and `resolveOne` gives one of them if there is any. -/
theorem AddressSpace.resolution_exact (space : AddressSpace) (S : ValueSolver) (cs : List Constraint)
    (p : Pointer) (hfeas : ∃ σ : Assignment, ∀ d ∈ cs, d.Holds σ) :
    (space.resolve S cs p).Nodup ∧
      (∀ mo, mo ∈ space.resolve S cs p ↔
        mo ∈ space.objects ∧ ∃ a ∈ feasibleValues cs p.val, mo.Covers a) ∧
      (∀ mo, space.resolveOne S cs p = some mo →
        mo ∈ space.objects ∧ ∃ a ∈ feasibleValues cs p.val, mo.Covers a) ∧
      ((∃ mo ∈ space.objects, ∃ a ∈ feasibleValues cs p.val, mo.Covers a) →
        (space.resolveOne S cs p).isSome) := by
  refine ⟨AddressSpace.resolve_nodup hfeas, fun _ => AddressSpace.mem_resolve hfeas,
    fun _ => AddressSpace.resolveOne_covers hfeas, ?_⟩
  intro ⟨mo, hmo, hmay⟩
  exact AddressSpace.resolveOne_isSome hmo hmay

/-- Every address of the indexed load is in one of the two objects, and each is resolved to. -/
theorem indexedLoad_resolved :
    twoObjects.objects ⊆ twoObjects.resolve ValueSolver.ideal [] indexedLoad.pointer := by
  obtain ⟨_, hall, _⟩ := AddressSpace.resolution_exact twoObjects ValueSolver.ideal []
    indexedLoad.pointer ⟨fun _ _ => 0, fun _ h => by cases h⟩
  intro mo hmo
  apply (hall mo).mpr
  refine ⟨hmo, ?_⟩
  have hfirst := (indexedLoad_addresses 4096).mpr (by omega)
  have hsecond := (indexedLoad_addresses 4224).mpr (by omega)
  simp only [twoObjects, List.mem_cons, List.not_mem_nil, or_false] at hmo
  rcases hmo with rfl | rfl
  · exact ⟨4096, hfirst, by simp [ObjectPair.Covers]⟩
  · exact ⟨4224, hsecond, by simp [ObjectPair.Covers]⟩

end Encider
