import Mathlib

/-! `MemoryManager::allocate` with deterministic allocation: objects follow one another in a
reserved region. -/

namespace Encider

/-- The space of deterministic allocation. The region and a red zone after it are in the address
space. -/
structure DeterministicSpace where
  /-- `deterministicSpace`. -/
  start : Nat
  /-- `spaceSize`. -/
  size : Nat
  redZone : Nat
  nullOnZeroMalloc : Bool
  pos : 0 < start
  fits : start + size + redZone < 2 ^ 64

/-- The arguments of `allocate`: a `uint64_t` and a `size_t`. -/
structure AllocRequest where
  size : Nat
  alignment : Nat
  size_lt : size < 2 ^ 64
  alignment_lt : alignment < 2 ^ 64

/-- A `MemoryObject` with the alignment it was allocated with. -/
structure AllocatedObject where
  address : Nat
  size : Nat
  alignment : Nat
deriving DecidableEq

/-- `nextFreeSlot` and the objects, in the order of allocation. -/
structure AllocState where
  nextFreeSlot : Nat
  objects : List AllocatedObject := []

namespace DeterministicSpace

/-- `llvm::isPowerOf2_64`. -/
def IsPowerOf2 (n : Nat) : Prop := ∃ k < 64, n = 2 ^ k

instance (n : Nat) : Decidable (IsPowerOf2 n) := inferInstanceAs (Decidable (∃ k < 64, n = 2 ^ k))

/-- The least multiple of `alignment` that is not below `value`. -/
def nextMultiple (value alignment : Nat) : Nat := (value + (alignment - 1)) / alignment * alignment

variable (alignTo : Nat → Nat → Nat) (space : DeterministicSpace)

/-- What `llvm::alignTo` is documented to give: the next multiple, modulo `2^64`. -/
def AlignsTo : Prop :=
  ∀ value alignment, value < 2 ^ 64 → 0 < alignment →
    alignTo value alignment = nextMultiple value alignment % 2 ^ 64

/-- The size that is reserved. -/
def allocSize (r : AllocRequest) : Nat := max r.size 1

/-- The end of the region. -/
def limit : Nat := space.start + space.size

/-- `allocate`: the address of the object, `none` for a null pointer, and the state after it. -/
def allocate (st : AllocState) (r : AllocRequest) : Option Nat × AllocState :=
  if space.nullOnZeroMalloc = true ∧ r.size = 0 then (none, st)
  else if ¬ IsPowerOf2 r.alignment then (none, st)
  else
    let address := alignTo ((st.nextFreeSlot + r.alignment - 1) % 2 ^ 64) r.alignment
    let accepted := (address + allocSize r) % 2 ^ 64 < space.limit
    let st := if accepted then
      { st with nextFreeSlot := (address + allocSize r + space.redZone) % 2 ^ 64 } else st
    let address := if accepted then address else 0
    if address = 0 then (none, st)
    else (some address, { st with objects := st.objects ++ [⟨address, r.size, r.alignment⟩] })

def initial : AllocState := ⟨space.start, []⟩

def run (st : AllocState) (requests : List AllocRequest) : AllocState :=
  requests.foldl (fun st r => (space.allocate alignTo st r).2) st

/-! What the sums are without a bound on numbers. -/

/-- The place of the next object. -/
def place (st : AllocState) (r : AllocRequest) : Nat :=
  nextMultiple (st.nextFreeSlot + (r.alignment - 1)) r.alignment

def Fits (st : AllocState) (r : AllocRequest) : Prop := place st r + allocSize r < space.limit

/-- No sum beyond the address space comes out below the end of the region. -/
def NoWrap (st : AllocState) (r : AllocRequest) : Prop :=
  (place st r + allocSize r) % 2 ^ 64 < space.limit → place st r + allocSize r < space.limit

/-- Objects are aligned, lie in the region below the next slot, and have a red zone after them. -/
structure Separated (st : AllocState) : Prop where
  aligned : ∀ o ∈ st.objects, o.alignment ∣ o.address
  inside : ∀ o ∈ st.objects, space.start ≤ o.address ∧ o.address + max o.size 1 < space.limit
  below : ∀ o ∈ st.objects, o.address + max o.size 1 + space.redZone ≤ st.nextFreeSlot
  apart : st.objects.Pairwise fun o o' => o.address + max o.size 1 + space.redZone ≤ o'.address
  start : space.start ≤ st.nextFreeSlot
  next : st.nextFreeSlot < 2 ^ 64

variable {alignTo space} {st : AllocState} {r : AllocRequest}

theorem IsPowerOf2.dvd {n : Nat} (h : IsPowerOf2 n) : n ∣ 2 ^ 64 := by
  obtain ⟨k, hk, rfl⟩ := h
  exact Nat.pow_dvd_pow 2 hk.le

theorem IsPowerOf2.pos {n : Nat} (h : IsPowerOf2 n) : 0 < n := by
  obtain ⟨k, -, rfl⟩ := h
  exact Nat.two_pow_pos k

/-- Rounding up respects the bound of numbers, which is a multiple. -/
theorem nextMultiple_mod {a : Nat} (h : a ∣ 2 ^ 64) (ha : 0 < a) (x : Nat) :
    nextMultiple (x % 2 ^ 64) a % 2 ^ 64 = nextMultiple x a % 2 ^ 64 := by
  obtain ⟨m, hm⟩ := h
  have hx : x = a * (m * (x / 2 ^ 64)) + x % 2 ^ 64 := by
    rw [← mul_assoc, ← hm]
    exact (Nat.div_add_mod x (2 ^ 64)).symm
  have hdiv : (x + (a - 1)) / a = m * (x / 2 ^ 64) + (x % 2 ^ 64 + (a - 1)) / a := by
    conv_lhs => rw [hx, add_assoc, Nat.mul_add_div ha]
  rw [nextMultiple, nextMultiple, hdiv, add_mul, mul_right_comm, mul_comm m a, ← hm,
    Nat.mul_add_mod]

theorem le_nextMultiple {a : Nat} (ha : 0 < a) (x : Nat) : x ≤ nextMultiple x a := by
  have hlt := Nat.lt_div_mul_add ha (a := x + (a - 1))
  unfold nextMultiple
  omega

theorem dvd_place (st : AllocState) (r : AllocRequest) : r.alignment ∣ place st r :=
  Dvd.intro_left _ rfl

theorem le_place (h : IsPowerOf2 r.alignment) : st.nextFreeSlot ≤ place st r :=
  (Nat.le_add_right _ _).trans (le_nextMultiple h.pos _)

/-- The address the code computes. -/
theorem alignTo_eq (halign : AlignsTo alignTo) (h : IsPowerOf2 r.alignment) :
    alignTo ((st.nextFreeSlot + r.alignment - 1) % 2 ^ 64) r.alignment = place st r % 2 ^ 64 := by
  rw [halign _ _ (Nat.mod_lt _ (Nat.two_pow_pos 64)) h.pos, nextMultiple_mod h.dvd h.pos, place,
    Nat.add_sub_assoc h.pos]

/-- A request that fits is served at its place. -/
theorem allocate_fits (halign : AlignsTo alignTo) (h : IsPowerOf2 r.alignment)
    (hnull : ¬ (space.nullOnZeroMalloc = true ∧ r.size = 0)) (hst : space.Separated st)
    (hfits : space.Fits st r) :
    space.allocate alignTo st r = (some (place st r),
      ⟨place st r + allocSize r + space.redZone,
        st.objects ++ [⟨place st r, r.size, r.alignment⟩]⟩) := by
  have hlimit : space.limit + space.redZone < 2 ^ 64 := space.fits
  have hfits' : place st r + allocSize r < space.limit := hfits
  have hplace : place st r % 2 ^ 64 = place st r := Nat.mod_eq_of_lt (by omega)
  have hend : (place st r + allocSize r) % 2 ^ 64 = place st r + allocSize r :=
    Nat.mod_eq_of_lt (by omega)
  have hslot : (place st r + allocSize r + space.redZone) % 2 ^ 64 =
      place st r + allocSize r + space.redZone := Nat.mod_eq_of_lt (by omega)
  have hne : place st r ≠ 0 := by
    have := space.pos
    have := hst.start
    have : st.nextFreeSlot ≤ place st r := le_place h
    omega
  rw [allocate, if_neg hnull, if_neg (not_not.mpr h)]
  simp only [alignTo_eq halign h, hplace, hend, hslot, if_pos hfits', if_neg hne]

/-- A request that does not fit changes nothing. -/
theorem allocate_not_fits (halign : AlignsTo alignTo) (hwrap : space.NoWrap st r)
    (hfits : ¬ space.Fits st r) : space.allocate alignTo st r = (none, st) := by
  unfold allocate
  split_ifs with hnull h
  · rfl
  · have hmod : (place st r % 2 ^ 64 + allocSize r) % 2 ^ 64 =
        (place st r + allocSize r) % 2 ^ 64 := Nat.mod_add_mod ..
    have hrejected : ¬ (place st r + allocSize r) % 2 ^ 64 < space.limit := mt hwrap hfits
    simp only [alignTo_eq halign h, hmod, if_neg hrejected, if_true]
  · rfl

/-- A null pointer, or an object at the next place. -/
theorem allocate_cases (halign : AlignsTo alignTo) (hst : space.Separated st)
    (hwrap : space.NoWrap st r) :
    space.allocate alignTo st r = (none, st) ∨ IsPowerOf2 r.alignment ∧ space.Fits st r ∧
      space.allocate alignTo st r = (some (place st r),
        ⟨place st r + allocSize r + space.redZone,
          st.objects ++ [⟨place st r, r.size, r.alignment⟩]⟩) := by
  by_cases hfits : space.Fits st r
  · by_cases hnull : space.nullOnZeroMalloc = true ∧ r.size = 0
    · rw [allocate, if_pos hnull]
      exact Or.inl rfl
    · by_cases h : IsPowerOf2 r.alignment
      · exact Or.inr ⟨h, hfits, allocate_fits halign h hnull hst hfits⟩
      · rw [allocate, if_neg hnull, if_pos h]
        exact Or.inl rfl
  · exact Or.inl (allocate_not_fits halign hwrap hfits)

theorem separated_initial : space.Separated space.initial where
  aligned := nofun
  inside := nofun
  below := nofun
  apart := List.Pairwise.nil
  start := le_rfl
  next := by
    have := space.fits
    have : space.initial.nextFreeSlot = space.start := rfl
    omega

/-- An object at the next place is apart from the others. -/
theorem Separated.append (hst : space.Separated st) (h : IsPowerOf2 r.alignment)
    (hfits : space.Fits st r) :
    space.Separated ⟨place st r + allocSize r + space.redZone,
      st.objects ++ [⟨place st r, r.size, r.alignment⟩]⟩ := by
  have hplace : st.nextFreeSlot ≤ place st r := le_place h
  have hfits' : place st r + allocSize r < space.limit := hfits
  have hlimit : space.limit + space.redZone < 2 ^ 64 := space.fits
  have hstart := hst.start
  have hbelow : ∀ o ∈ st.objects, o.address + max o.size 1 + space.redZone ≤ place st r :=
    fun o ho => (hst.below o ho).trans hplace
  refine ⟨?_, ?_, ?_, ?_, ?_, ?_⟩
  · intro o ho
    obtain ho | rfl := List.mem_append.mp ho |>.imp_right List.mem_singleton.mp
    · exact hst.aligned o ho
    · exact dvd_place st r
  · intro o ho
    obtain ho | rfl := List.mem_append.mp ho |>.imp_right List.mem_singleton.mp
    · exact hst.inside o ho
    · exact ⟨hstart.trans hplace, hfits'⟩
  · intro o ho
    obtain ho | rfl := List.mem_append.mp ho |>.imp_right List.mem_singleton.mp
    · have := hbelow o ho
      simp only
      omega
    · exact le_rfl
  · refine List.pairwise_append.mpr ⟨hst.apart, List.pairwise_singleton _ _, ?_⟩
    intro o ho o' ho'
    obtain rfl := List.mem_singleton.mp ho'
    exact hbelow o ho
  · simp only
    omega
  · simp only
    omega

theorem Separated.allocate (halign : AlignsTo alignTo) (hst : space.Separated st)
    (hwrap : space.NoWrap st r) : space.Separated (space.allocate alignTo st r).2 := by
  obtain h | ⟨hpow, hfits, h⟩ := allocate_cases halign hst hwrap
  · rw [h]
    exact hst
  · rw [h]
    exact hst.append hpow hfits

/-- Each request of the run meets the condition where it is made. -/
def RunNoWrap (alignTo : Nat → Nat → Nat) (space : DeterministicSpace) :
    AllocState → List AllocRequest → Prop
  | _, [] => True
  | st, r :: rs => space.NoWrap st r ∧ RunNoWrap alignTo space (space.allocate alignTo st r).2 rs

theorem runNoWrap_append (rs rs' : List AllocRequest) :
    RunNoWrap alignTo space st (rs ++ rs') ↔
      RunNoWrap alignTo space st rs ∧ RunNoWrap alignTo space (space.run alignTo st rs) rs' := by
  induction rs generalizing st with
  | nil => exact (iff_of_eq (true_and _)).symm
  | cons r rs ih =>
    rw [List.cons_append, RunNoWrap, RunNoWrap, ih, and_assoc]
    rfl

theorem Separated.run (halign : AlignsTo alignTo) (hst : space.Separated st)
    (rs : List AllocRequest) (hrs : RunNoWrap alignTo space st rs) :
    space.Separated (space.run alignTo st rs) := by
  induction rs generalizing st with
  | nil => exact hst
  | cons r rs ih => exact ih (hst.allocate halign hrs.1) hrs.2

/-- In a run without wrapped sums the objects are aligned, in the region and a red zone apart, and
a request that does not fit fails and leaves the next slot. -/
theorem run_separated (alignTo : Nat → Nat → Nat) (halign : AlignsTo alignTo)
    (space : DeterministicSpace) (rs : List AllocRequest)
    (hrs : RunNoWrap alignTo space space.initial rs) :
    space.Separated (space.run alignTo space.initial rs) ∧
      ∀ before r after, rs = before ++ r :: after →
        let st := space.run alignTo space.initial before
        ¬ space.Fits st r → space.allocate alignTo st r = (none, st) := by
  refine ⟨separated_initial.run halign rs hrs, ?_⟩
  rintro before r after rfl
  intro st hfits
  have hstep := (runNoWrap_append before (r :: after)).mp hrs
  exact allocate_not_fits halign hstep.2.1 hfits

/-- The default space. -/
def defaultSpace : DeterministicSpace :=
  ⟨0x7ff30000000, 100 * 2 ^ 20, 10, false, by decide, by decide⟩

theorem run_separated_two :
    defaultSpace.Separated (defaultSpace.run (fun v a => nextMultiple v a % 2 ^ 64)
      defaultSpace.initial [⟨16, 8, by decide, by decide⟩, ⟨0, 1, by decide, by decide⟩]) := by
  refine (run_separated (fun v a => nextMultiple v a % 2 ^ 64) (fun _ _ _ _ => rfl) defaultSpace _
    ?_).1
  simp only [RunNoWrap, NoWrap]
  decide +kernel

/-- A size that wraps around is accepted, and the object leaves the region. -/
theorem wrapped_size_accepted :
    ¬ defaultSpace.Separated (defaultSpace.run (fun v a => nextMultiple v a % 2 ^ 64)
      defaultSpace.initial [⟨2 ^ 64 - 1, 8, by decide, by decide⟩]) := by
  intro h
  have hinside := h.inside ⟨0x7ff30000008, 2 ^ 64 - 1, 8⟩ (by decide +kernel)
  revert hinside
  decide

end DeterministicSpace

end Encider
