import Mathlib
import Encider.Lib.Fold

/-! `AddressSpace`: spaces made from one another by copying share their objects until one of them
writes. Who may write an object in place is decided by two counters. -/

namespace Encider

variable {MO C : Type}

/-- An `ObjectState` as the address spaces use it. -/
structure SharedObject (C : Type) where
  copyOnWriteOwner : Nat := 0
  readOnly : Bool
  contents : C

structure Spaces.AddressSpace (MO : Type) where
  cowKey : Nat
  objects : MO → Option Nat

namespace Spaces.AddressSpace

def new : AddressSpace MO := ⟨1, fun _ => none⟩

/-- What the copy constructor makes of the space it copies; the copy is the same. `cowKey` is an
`unsigned`. -/
def copied (b : AddressSpace MO) : AddressSpace MO := ⟨(b.cowKey + 1) % 2 ^ 32, b.objects⟩

variable [DecidableEq MO]

/-- `objects.replace` and `objects.remove`. -/
def assign (space : AddressSpace MO) (mo : MO) (o : Option Nat) : AddressSpace MO :=
  { space with objects := Function.update space.objects mo o }

@[simp] theorem assign_cowKey (space : AddressSpace MO) (mo : MO) (o : Option Nat) :
    (space.assign mo o).cowKey = space.cowKey := rfl

@[simp] theorem assign_self (space : AddressSpace MO) (mo : MO) (o : Option Nat) :
    (space.assign mo o).objects mo = o := Function.update_self ..

theorem assign_of_ne (space : AddressSpace MO) {mo mo' : MO} (o : Option Nat) (h : mo' ≠ mo) :
    (space.assign mo o).objects mo' = space.objects mo' := Function.update_of_ne h ..

/-- `none` where the assertion that the object has no owner fails. -/
def bindObject (heap : List (SharedObject C)) (space : AddressSpace MO) (mo : MO) (o : Nat) :
    Option (List (SharedObject C) × AddressSpace MO) :=
  heap[o]?.bind fun os =>
    if os.copyOnWriteOwner = 0 then
      some (heap.set o { os with copyOnWriteOwner := space.cowKey }, space.assign mo (some o))
    else none

def unbindObject (space : AddressSpace MO) (mo : MO) : AddressSpace MO :=
  space.assign mo none

def findObject (space : AddressSpace MO) (mo : MO) : Option Nat := space.objects mo

/-- The object to write to; `none` where the assertion that it may be written fails. -/
def getWriteable (heap : List (SharedObject C)) (space : AddressSpace MO) (mo : MO) (o : Nat) :
    Option (List (SharedObject C) × AddressSpace MO × Nat) :=
  heap[o]?.bind fun os =>
    if os.readOnly then none
    else if space.cowKey = os.copyOnWriteOwner then some (heap, space, o)
    else
      some (heap ++ [{ os with copyOnWriteOwner := space.cowKey }],
        space.assign mo (some heap.length), heap.length)

end Spaces.AddressSpace

/-- `made` are the objects that were made to be bound. -/
structure Spaces (MO C : Type) where
  heap : List (SharedObject C) := []
  made : List Nat := []
  spaces : List (Spaces.AddressSpace MO) := []

inductive SpaceOp (MO C : Type) where
  | make (contents : C) (readOnly : Bool)
  | space
  | copy (i : Nat)
  | bind (i : Nat) (mo : MO) (k : Nat)
  | unbind (i : Nat) (mo : MO)
  | write (i : Nat) (mo : MO) (f : C → C)

namespace Spaces

variable [DecidableEq MO]

/-- One operation; the space or the object it names must be there. -/
def step (s : Spaces MO C) : SpaceOp MO C → Option (Spaces MO C)
  | .make contents readOnly =>
    some { s with
      heap := s.heap ++ [{ readOnly := readOnly, contents := contents }]
      made := s.made ++ [s.heap.length] }
  | .space => some { s with spaces := s.spaces ++ [.new] }
  | .copy i =>
    s.spaces[i]?.map fun b => { s with spaces := s.spaces.set i b.copied ++ [b.copied] }
  | .bind i mo k =>
    s.spaces[i]?.bind fun space =>
      s.made[k]?.bind fun o =>
        (space.bindObject s.heap mo o).map fun r =>
          { s with heap := r.1, spaces := s.spaces.set i r.2 }
  | .unbind i mo =>
    s.spaces[i]?.map fun space => { s with spaces := s.spaces.set i (space.unbindObject mo) }
  | .write i mo f =>
    s.spaces[i]?.bind fun space =>
      (space.findObject mo).bind fun o =>
        (space.getWriteable s.heap mo o).map fun r =>
          { s with
            heap := r.1.modify r.2.2 fun os => { os with contents := f os.contents }
            spaces := s.spaces.set i r.2.1 }

def run (ops : List (SpaceOp MO C)) : Option (Spaces MO C) := ops.foldlM step {}

/-- The contents a space maps an object to. -/
def look (s : Spaces MO C) (space : AddressSpace MO) (mo : MO) : Option C :=
  (space.objects mo).bind fun o => s.heap[o]?.map SharedObject.contents

def view (s : Spaces MO C) : List (MO → Option C) := s.spaces.map s.look

end Spaces

/-- Spaces that share nothing, and the contents the objects were made with. -/
structure PlainSpaces (MO C : Type) where
  made : List C := []
  spaces : List (MO → Option C) := []

namespace PlainSpaces

variable [DecidableEq MO]

def step (p : PlainSpaces MO C) : SpaceOp MO C → PlainSpaces MO C
  | .make contents _ => { p with made := p.made ++ [contents] }
  | .space => { p with spaces := p.spaces ++ [fun _ => none] }
  | .copy i => { p with spaces := p.spaces ++ p.spaces[i]?.toList }
  | .bind i mo k => { p with spaces := p.spaces.modify i (Function.update · mo p.made[k]?) }
  | .unbind i mo => { p with spaces := p.spaces.modify i (Function.update · mo none) }
  | .write i mo f =>
    { p with spaces := p.spaces.modify i fun m => Function.update m mo ((m mo).map f) }

def run (ops : List (SpaceOp MO C)) : PlainSpaces MO C := ops.foldl step {}

end PlainSpaces

namespace Spaces

variable {s : Spaces MO C} {p : PlainSpaces MO C}

/-- A space maps some memory object to an object. -/
def Reaches (space : AddressSpace MO) (o : Nat) : Prop := ∃ mo, space.objects mo = some o

def owner (s : Spaces MO C) (o : Nat) : Option Nat := s.heap[o]?.map SharedObject.copyOnWriteOwner

/-- An object's owner is a key that each space that reaches it has had, and one that several spaces
reach was last owned before each of their keys was made. -/
structure Owned (s : Spaces MO C) : Prop where
  key_pos : ∀ space ∈ s.spaces, 0 < space.cowKey
  reached : ∀ space ∈ s.spaces, ∀ o, Reaches space o →
    ∃ n, s.owner o = some n ∧ 0 < n ∧ n ≤ space.cowKey
  shared : ∀ (i j : Nat) (a b : AddressSpace MO), i ≠ j → s.spaces[i]? = some a →
    s.spaces[j]? = some b → ∀ o, Reaches a o → Reaches b o → ∀ n, s.owner o = some n → n < a.cowKey
  single : ∀ space ∈ s.spaces, ∀ mo mo' o, space.objects mo = some o →
    space.objects mo' = some o → mo = mo'

/-- An object without an owner still has the contents it was made with. -/
structure Fresh (s : Spaces MO C) (p : PlainSpaces MO C) : Prop where
  length : s.made.length = p.made.length
  made_lt : ∀ o ∈ s.made, o < s.heap.length
  contents : ∀ (k o : Nat) (os : SharedObject C), s.made[k]? = some o → s.heap[o]? = some os →
    os.copyOnWriteOwner = 0 → p.made[k]? = some os.contents

theorem Owned.lt_length (h : Owned s) {space : AddressSpace MO} (hs : space ∈ s.spaces) {o : Nat}
    (ho : Reaches space o) : o < s.heap.length := by
  obtain ⟨n, hn, _⟩ := h.reached space hs o ho
  obtain ⟨os, hos, _⟩ := Option.map_eq_some_iff.mp hn
  exact (List.getElem?_eq_some_iff.mp hos).1

/-- The owners of the objects that are reached are all that matters of the heap. -/
theorem Owned.heap_congr (h : Owned s) {heap : List (SharedObject C)} {made : List Nat}
    (hheap : ∀ space ∈ s.spaces, ∀ o, Reaches space o →
      owner ⟨heap, made, s.spaces⟩ o = s.owner o) :
    Owned ⟨heap, made, s.spaces⟩ := by
  refine ⟨h.key_pos, ?_, ?_, h.single⟩
  · intro space hs o ho
    rw [hheap space hs o ho]
    exact h.reached space hs o ho
  · intro i j a b hij ha hb o hoa hob n hn
    rw [hheap a (List.mem_of_getElem? ha) o hoa] at hn
    exact h.shared i j a b hij ha hb o hoa hob n hn

/-- A copy reaches what the space reaches, and both have a key that no object has as its owner. -/
theorem Owned.copy (h : Owned s) {i : Nat} {b : AddressSpace MO} (hb : s.spaces[i]? = some b)
    (hkey : b.cowKey + 1 < 2 ^ 32) :
    Owned { s with spaces := s.spaces.set i b.copied ++ [b.copied] } := by
  have hmod : b.copied.cowKey = b.cowKey + 1 := Nat.mod_eq_of_lt hkey
  have hmem := List.mem_of_getElem? hb
  -- every space is an old one or has the objects of `b` and the next key
  have hold : ∀ (j : Nat) (a : AddressSpace MO),
      (s.spaces.set i b.copied ++ [b.copied])[j]? = some a →
      (j ≠ i ∧ s.spaces[j]? = some a) ∨ a = b.copied := by
    intro j a ha
    rw [List.getElem?_append, List.length_set] at ha
    split_ifs at ha with hj
    · rw [List.getElem?_set] at ha
      split_ifs at ha with hij
      · exact Or.inr (Option.some.inj ha).symm
      · exact Or.inl ⟨Ne.symm hij, ha⟩
    · exact Or.inr (List.mem_singleton.mp (List.mem_of_getElem? ha))
  have hmem' : ∀ a ∈ s.spaces.set i b.copied ++ [b.copied], a ∈ s.spaces ∨ a = b.copied := by
    intro a ha
    obtain ⟨j, hj⟩ := List.getElem?_of_mem ha
    rcases hold j a hj with ⟨_, ha⟩ | ha
    · exact Or.inl (List.mem_of_getElem? ha)
    · exact Or.inr ha
  refine ⟨?_, ?_, ?_, ?_⟩
  · intro a ha
    rcases hmem' a ha with ha | rfl
    · exact h.key_pos a ha
    · omega
  · intro a ha o ho
    rcases hmem' a ha with ha | rfl
    · exact h.reached a ha o ho
    · obtain ⟨n, hn, hpos, hle⟩ := h.reached b hmem o ho
      exact ⟨n, hn, hpos, by omega⟩
  · intro j k a c hjk ha hc o hoa hoc n hn
    rcases hold j a ha with ⟨hji, ha⟩ | rfl
    · rcases hold k c hc with ⟨hki, hc⟩ | rfl
      · exact h.shared j k a c hjk ha hc o hoa hoc n hn
      · exact h.shared j i a b hji ha hb o hoa hoc n hn
    · obtain ⟨m, hm, _, hle⟩ := h.reached b hmem o hoa
      obtain rfl : m = n := Option.some.inj (hm.symm.trans hn)
      omega
  · intro a ha mo mo' o hmo hmo'
    rcases hmem' a ha with ha | rfl
    · exact h.single a ha mo mo' o hmo hmo'
    · exact h.single b hmem mo mo' o hmo hmo'

/-- A space may give up an object, or take an object of its own that no space reaches. -/
theorem Owned.assign [DecidableEq MO] (h : Owned s) {i : Nat} {space : AddressSpace MO}
    (hi : s.spaces[i]? = some space) (mo : MO) (new : Option Nat)
    (hown : ∀ o, new = some o →
      (∀ a ∈ s.spaces, ¬ Reaches a o) ∧ s.owner o = some space.cowKey) :
    Owned { s with spaces := s.spaces.set i (space.assign mo new) } := by
  generalize hspace : space.assign mo new = space'
  have hkey : space'.cowKey = space.cowKey := by rw [← hspace, AddressSpace.assign_cowKey]
  have hothers : ∀ mo' o, mo' ≠ mo → space'.objects mo' = some o → space.objects mo' = some o := by
    intro mo' o hne ho
    rwa [← hspace, AddressSpace.assign_of_ne _ _ hne] at ho
  have hown : ∀ o, space'.objects mo = some o →
      (∀ a ∈ s.spaces, ¬ Reaches a o) ∧ s.owner o = some space.cowKey := by
    intro o ho
    rw [← hspace, AddressSpace.assign_self] at ho
    exact hown o ho
  have hmem := List.mem_of_getElem? hi
  have hreach : ∀ o, Reaches space' o → Reaches space o ∨ space'.objects mo = some o := by
    intro o ⟨mo', hmo'⟩
    by_cases heq : mo' = mo
    · exact Or.inr (heq ▸ hmo')
    · exact Or.inl ⟨mo', hothers mo' o heq hmo'⟩
  have hold : ∀ (j : Nat) (a : AddressSpace MO), (s.spaces.set i space')[j]? = some a →
      (j ≠ i ∧ s.spaces[j]? = some a) ∨ (j = i ∧ a = space') := by
    intro j a ha
    rw [List.getElem?_set] at ha
    split_ifs at ha with hij
    · exact Or.inr ⟨hij.symm, (Option.some.inj ha).symm⟩
    · exact Or.inl ⟨Ne.symm hij, ha⟩
  refine ⟨?_, ?_, ?_, ?_⟩
  · intro a ha
    rcases List.mem_or_eq_of_mem_set ha with ha | rfl
    · exact h.key_pos a ha
    · exact hkey ▸ h.key_pos space hmem
  · intro a ha o ho
    rcases List.mem_or_eq_of_mem_set ha with ha | rfl
    · exact h.reached a ha o ho
    · rw [hkey]
      rcases hreach o ho with ho | ho
      · exact h.reached space hmem o ho
      · exact ⟨_, (hown o ho).2, h.key_pos space hmem, Nat.le_refl _⟩
  · intro j k a b hjk ha hb o hoa hob n hn
    rcases hold j a ha with ⟨hji, haj⟩ | ⟨rfl, rfl⟩
    · rcases hold k b hb with ⟨_, hbk⟩ | ⟨rfl, rfl⟩
      · exact h.shared j k a b hjk haj hbk o hoa hob n hn
      · rcases hreach o hob with hob | hob
        · exact h.shared j k a space hjk haj hi o hoa hob n hn
        · exact absurd hoa ((hown o hob).1 a (List.mem_of_getElem? haj))
    · rcases hold k b hb with ⟨_, hbk⟩ | ⟨hk, _⟩
      · rw [hkey]
        rcases hreach o hoa with hoa | hoa
        · exact h.shared j k space b hjk hi hbk o hoa hob n hn
        · exact absurd hob ((hown o hoa).1 b (List.mem_of_getElem? hbk))
      · exact absurd hk.symm hjk
  · intro a ha x y o hx hy
    rcases List.mem_or_eq_of_mem_set ha with ha | rfl
    · exact h.single a ha x y o hx hy
    · by_cases hxm : x = mo
      · by_cases hym : y = mo
        · exact hxm.trans hym.symm
        · exact absurd ⟨y, hothers y o hym hy⟩ ((hown o (hxm ▸ hx)).1 space hmem)
      · by_cases hym : y = mo
        · exact absurd ⟨x, hothers x o hxm hx⟩ ((hown o (hym ▸ hy)).1 space hmem)
        · exact h.single space hmem x y o (hothers x o hxm hx) (hothers y o hym hy)

/-! What the spaces see -/

theorem look_congr {s s' : Spaces MO C} {space : AddressSpace MO}
    (h : ∀ o, Reaches space o →
      s'.heap[o]?.map SharedObject.contents = s.heap[o]?.map SharedObject.contents) :
    s'.look space = s.look space := by
  funext mo
  cases ho : space.objects mo with
  | none => simp [look, ho]
  | some o => simpa [look, ho] using h o ⟨mo, ho⟩

/-- One space changes, and no other sees a difference. -/
theorem view_set {s s' : Spaces MO C} {i : Nat} {space space' : AddressSpace MO}
    {f : (MO → Option C) → MO → Option C} (hi : s.spaces[i]? = some space)
    (hspaces : s'.spaces = s.spaces.set i space')
    (hothers : ∀ (j : Nat) (a : AddressSpace MO), j ≠ i → s.spaces[j]? = some a →
      s'.look a = s.look a)
    (hown : s'.look space' = f (s.look space)) : s'.view = s.view.modify i f := by
  apply List.ext_getElem?
  intro j
  rw [view, view, hspaces, List.getElem?_map, List.getElem?_set, List.getElem?_modify,
    List.getElem?_map]
  by_cases hij : i = j
  · subst hij
    have hlt := (List.getElem?_eq_some_iff.mp hi).1
    rw [if_pos rfl, if_pos hlt, hi]
    simp [hown]
  · rw [if_neg hij]
    cases ha : s.spaces[j]? with
    | none => rfl
    | some a => simp [hij, hothers j a (Ne.symm hij) ha]

theorem view_congr {s s' : Spaces MO C} (hspaces : s'.spaces = s.spaces)
    (h : ∀ a ∈ s.spaces, s'.look a = s.look a) : s'.view = s.view := by
  rw [view, view, hspaces]
  exact List.map_congr_left h

/-! One operation -/

/-- The spaces see what spaces that share nothing would. -/
structure Isolated (s : Spaces MO C) (p : PlainSpaces MO C) : Prop where
  owned : Owned s
  fresh : Fresh s p
  view : s.view = p.spaces

theorem getElem?_push_of_lt {heap : List (SharedObject C)} {o : Nat} (h : o < heap.length)
    (os : SharedObject C) : (heap ++ [os])[o]? = heap[o]? := List.getElem?_append_left h

theorem isolated_empty : Isolated ({} : Spaces MO C) {} :=
  ⟨⟨nofun, nofun, fun _ _ _ _ _ _ => nofun, nofun⟩, ⟨rfl, nofun, nofun⟩, rfl⟩

theorem modify_push (heap : List (SharedObject C)) (os : SharedObject C)
    (g : SharedObject C → SharedObject C) :
    (heap ++ [os]).modify heap.length g = heap ++ [g os] := by
  induction heap with
  | nil => rfl
  | cons a heap ih => exact congrArg (a :: ·) ih

variable [DecidableEq MO]

theorem Isolated.make (h : Isolated s p) (c : C) (readOnly : Bool) {s' : Spaces MO C}
    (hstep : s.step (.make c readOnly) = some s') : Isolated s' (p.step (.make c readOnly)) := by
  obtain rfl := Option.some.inj hstep
  have hkeep : ∀ space ∈ s.spaces, ∀ o, Reaches space o → ∀ os,
      (s.heap ++ [os])[o]? = s.heap[o]? :=
    fun space hs o ho os => getElem?_push_of_lt (h.owned.lt_length hs ho) os
  refine ⟨h.owned.heap_congr ?_, ⟨?_, ?_, ?_⟩, ?_⟩
  · intro space hs o ho
    exact congrArg (Option.map _) (hkeep space hs o ho _)
  · simp [PlainSpaces.step, h.fresh.length]
  · intro o ho
    rw [List.length_append]
    rcases List.mem_append.mp ho with ho | ho
    · exact Nat.lt_succ_of_lt (h.fresh.made_lt o ho)
    · rw [List.mem_singleton.mp ho]
      exact Nat.lt_succ_self _
  · intro k o os hk ho howner
    rw [PlainSpaces.step]
    by_cases hlt : k < s.made.length
    · rw [List.getElem?_append_left hlt] at hk
      rw [getElem?_push_of_lt (h.fresh.made_lt o (List.mem_of_getElem? hk))] at ho
      rw [List.getElem?_append_left (h.fresh.length ▸ hlt)]
      exact h.fresh.contents k o os hk ho howner
    · have hlast : k = s.made.length ∧ o = s.heap.length := by
        rw [List.getElem?_append_right (Nat.le_of_not_lt hlt), List.getElem?_singleton] at hk
        split_ifs at hk with hzero
        exact ⟨by omega, (Option.some.inj hk).symm⟩
      obtain ⟨rfl, rfl⟩ := hlast
      rw [List.getElem?_concat_length] at ho
      obtain rfl := Option.some.inj ho
      rw [h.fresh.length, List.getElem?_concat_length]
  · rw [PlainSpaces.step, ← h.view]
    refine view_congr ?_ ?_
    · rfl
    · intro space hs
      exact look_congr fun o ho => congrArg (Option.map _) (hkeep space hs o ho _)

theorem Isolated.space (h : Isolated s p) {s' : Spaces MO C} (hstep : s.step .space = some s') :
    Isolated s' (p.step .space) := by
  obtain rfl := Option.some.inj hstep
  have hnone : ∀ o, ¬ Reaches (AddressSpace.new : AddressSpace MO) o := by
    intro o ⟨mo, hmo⟩
    cases hmo
  have hold : ∀ (j : Nat) (a : AddressSpace MO) (o : Nat), (s.spaces ++ [.new])[j]? = some a →
      Reaches a o → s.spaces[j]? = some a := by
    intro j a o ha ho
    rw [List.getElem?_append] at ha
    split_ifs at ha with hj
    · exact ha
    · rw [List.mem_singleton.mp (List.mem_of_getElem? ha)] at ho
      exact absurd ho (hnone o)
  refine ⟨⟨?_, ?_, ?_, ?_⟩, ⟨h.fresh.length, h.fresh.made_lt, h.fresh.contents⟩, ?_⟩
  · intro a ha
    rcases List.mem_append.mp ha with ha | ha
    · exact h.owned.key_pos a ha
    · rw [List.mem_singleton.mp ha]
      exact Nat.one_pos
  · intro a ha o ho
    obtain ⟨j, hj⟩ := List.getElem?_of_mem ha
    exact h.owned.reached a (List.mem_of_getElem? (hold j a o hj ho)) o ho
  · intro i j a b hij ha hb o hoa hob
    exact h.owned.shared i j a b hij (hold i a o ha hoa) (hold j b o hb hob) o hoa hob
  · intro a ha mo mo' o hmo hmo'
    obtain ⟨j, hj⟩ := List.getElem?_of_mem ha
    exact h.owned.single a (List.mem_of_getElem? (hold j a o hj ⟨mo, hmo⟩)) mo mo' o hmo hmo'
  · rw [PlainSpaces.step, ← h.view]
    exact List.map_append

theorem Isolated.copy (h : Isolated s p) {i : Nat}
    (hkey : ∀ b, s.spaces[i]? = some b → b.cowKey + 1 < 2 ^ 32) {s' : Spaces MO C}
    (hstep : s.step (.copy i) = some s') : Isolated s' (p.step (.copy i)) := by
  obtain ⟨b, hb, rfl⟩ := Option.map_eq_some_iff.mp hstep
  refine ⟨h.owned.copy hb (hkey b hb), ⟨h.fresh.length, h.fresh.made_lt, h.fresh.contents⟩, ?_⟩
  have hset : (s.spaces.set i b.copied).map s.look = s.spaces.map s.look := by
    apply List.ext_getElem?
    intro j
    rw [List.getElem?_map, List.getElem?_set, List.getElem?_map]
    split_ifs with hij hlt
    · subst hij
      rw [hb]
      rfl
    · rw [List.getElem?_eq_none (Nat.le_of_not_lt (hij ▸ hlt))]
    · rfl
  have hcopy : p.spaces[i]? = some (s.look b) := by
    rw [← h.view, Spaces.view, List.getElem?_map, hb, Option.map_some]
  rw [PlainSpaces.step, hcopy, ← h.view]
  exact List.map_append.trans (congrArg (· ++ _) hset)

theorem Isolated.bind (h : Isolated s p) {i : Nat} {mo : MO} {k : Nat} {s' : Spaces MO C}
    (hstep : s.step (.bind i mo k) = some s') : Isolated s' (p.step (.bind i mo k)) := by
  obtain ⟨space, hi, hstep⟩ := Option.bind_eq_some_iff.mp hstep
  obtain ⟨o, hk, hstep⟩ := Option.bind_eq_some_iff.mp hstep
  obtain ⟨r, hbind, rfl⟩ := Option.map_eq_some_iff.mp hstep
  obtain ⟨os, ho, hbind⟩ := Option.bind_eq_some_iff.mp hbind
  split_ifs at hbind with howner
  obtain rfl := Option.some.inj hbind
  have hmem := List.mem_of_getElem? hi
  have hlt := (List.getElem?_eq_some_iff.mp ho).1
  -- an object without an owner is not reached
  have hunreached : ∀ a ∈ s.spaces, ¬ Reaches a o := by
    intro a ha hreach
    obtain ⟨n, hn, hpos, _⟩ := h.owned.reached a ha o hreach
    rw [owner, ho, Option.map_some, howner] at hn
    cases hn
    exact absurd hpos (Nat.lt_irrefl 0)
  have hkeep : ∀ a ∈ s.spaces, ∀ o', Reaches a o' → ∀ os', (s.heap.set o os')[o']? = s.heap[o']? := by
    intro a ha o' ho' os'
    rw [List.getElem?_set_ne]
    rintro rfl
    exact hunreached a ha ho'
  have hheap : Owned { s with heap := s.heap.set o { os with copyOnWriteOwner := space.cowKey } } :=
    h.owned.heap_congr fun a ha o' ho' => congrArg (Option.map _) (hkeep a ha o' ho' _)
  refine ⟨hheap.assign hi mo (some o) ?_, ⟨h.fresh.length, ?_, ?_⟩, ?_⟩
  · intro o' ho'
    obtain rfl := Option.some.inj ho'
    exact ⟨hunreached, by simp [owner, hlt]⟩
  · intro o' ho'
    rw [List.length_set]
    exact h.fresh.made_lt o' ho'
  · intro k' o' os' hk' ho' howner'
    rw [List.getElem?_set] at ho'
    split_ifs at ho' with heq
    · obtain rfl := Option.some.inj ho'
      exact absurd howner' (h.owned.key_pos space hmem).ne'
    · exact h.fresh.contents k' o' os' hk' ho' howner'
  · rw [PlainSpaces.step, ← h.view, h.fresh.contents k o os hk ho howner]
    refine view_set hi rfl ?_ ?_
    · intro j a _ ha
      exact look_congr fun o' ho' =>
        congrArg (Option.map _) (hkeep a (List.mem_of_getElem? ha) o' ho' _)
    · funext mo'
      by_cases hmo : mo' = mo
      · subst hmo
        simp [look, hlt]
      · rw [Function.update_of_ne hmo, look, look, AddressSpace.assign_of_ne _ _ hmo]
        cases ho' : space.objects mo' with
        | none => rfl
        | some o' => exact congrArg (Option.map _) (hkeep space hmem o' ⟨mo', ho'⟩ _)

theorem Isolated.unbind (h : Isolated s p) {i : Nat} {mo : MO} {s' : Spaces MO C}
    (hstep : s.step (.unbind i mo) = some s') : Isolated s' (p.step (.unbind i mo)) := by
  obtain ⟨space, hi, rfl⟩ := Option.map_eq_some_iff.mp hstep
  refine ⟨h.owned.assign hi mo none nofun,
    ⟨h.fresh.length, h.fresh.made_lt, h.fresh.contents⟩, ?_⟩
  · rw [PlainSpaces.step, ← h.view]
    refine view_set hi rfl (fun _ _ _ _ => rfl) ?_
    funext mo'
    by_cases hmo : mo' = mo
    · subst hmo
      simp [look, AddressSpace.unbindObject]
    · rw [Function.update_of_ne hmo, look, look, AddressSpace.unbindObject,
        AddressSpace.assign_of_ne _ _ hmo]

/-- A write to an object that the space owns, which no other space reaches. -/
theorem Isolated.write_owned (h : Isolated s p) {i : Nat} {mo : MO} {f : C → C} {o : Nat}
    {space : AddressSpace MO} {os : SharedObject C} (hi : s.spaces[i]? = some space)
    (hmo : space.objects mo = some o) (ho : s.heap[o]? = some os)
    (hkey : space.cowKey = os.copyOnWriteOwner) :
    Isolated { s with
        heap := s.heap.modify o fun os => { os with contents := f os.contents }
        spaces := s.spaces.set i space } (p.step (.write i mo f)) := by
  have hmem := List.mem_of_getElem? hi
  have hpos := h.owned.key_pos space hmem
  have hset : s.spaces.set i space = s.spaces := by
    obtain ⟨hlt, hget⟩ := List.getElem?_eq_some_iff.mp hi
    rw [← hget, List.set_getElem_self]
  have hother : ∀ (j : Nat) (a : AddressSpace MO), j ≠ i → s.spaces[j]? = some a →
      ¬ Reaches a o := by
    intro j a hji ha hreach
    have hlt := h.owned.shared i j space a (Ne.symm hji) hi ha o ⟨mo, hmo⟩ hreach
      os.copyOnWriteOwner (by rw [owner, ho, Option.map_some])
    omega
  have hne : ∀ o', o' ≠ o → ∀ g : SharedObject C → SharedObject C,
      (s.heap.modify o g)[o']? = s.heap[o']? := by
    intro o' ho' g
    rw [List.getElem?_modify]
    simp [Ne.symm ho']
  rw [hset]
  refine ⟨h.owned.heap_congr ?_, ⟨h.fresh.length, ?_, ?_⟩, ?_⟩
  · intro a _ o' _
    rw [owner, owner, List.getElem?_modify]
    cases s.heap[o']? with
    | none => rfl
    | some a => by_cases heq : o = o' <;> simp [heq]
  · intro o' ho'
    rw [List.length_modify]
    exact h.fresh.made_lt o' ho'
  · intro k' o' os' hk' ho' howner'
    by_cases heq : o' = o
    · subst heq
      rw [List.getElem?_modify, ho] at ho'
      obtain rfl := Option.some.inj ho'
      simp only [if_true] at howner'
      omega
    · rw [hne o' heq] at ho'
      exact h.fresh.contents k' o' os' hk' ho' howner'
  · rw [PlainSpaces.step, ← h.view]
    refine view_set hi hset.symm ?_ ?_
    · intro j a hji ha
      refine look_congr fun o' ho' => congrArg (Option.map _) (hne o' ?_ _)
      rintro rfl
      exact hother j a hji ha ho'
    · funext mo'
      by_cases hmo' : mo' = mo
      · subst hmo'
        simp [look, hmo, ho]
      · rw [Function.update_of_ne hmo', look, look]
        cases ho' : space.objects mo' with
        | none => rfl
        | some o' =>
          refine congrArg (Option.map _) (hne o' ?_ _)
          rintro rfl
          exact hmo' (h.owned.single space hmem mo' mo o' ho' hmo)

/-- A write to a new copy of an object that the space does not own. -/
theorem Isolated.write_copy (h : Isolated s p) {i : Nat} {mo : MO} {f : C → C} {o : Nat}
    {space : AddressSpace MO} {os : SharedObject C} (hi : s.spaces[i]? = some space)
    (hmo : space.objects mo = some o) (ho : s.heap[o]? = some os) :
    Isolated { s with
        heap := s.heap ++ [{ os with
          copyOnWriteOwner := space.cowKey
          contents := f os.contents }]
        spaces := s.spaces.set i (space.assign mo (some s.heap.length)) }
      (p.step (.write i mo f)) := by
  have hmem := List.mem_of_getElem? hi
  have hkeep : ∀ a ∈ s.spaces, ∀ o, Reaches a o → ∀ os,
      (s.heap ++ [os])[o]? = s.heap[o]? :=
    fun a ha o ho os => getElem?_push_of_lt (h.owned.lt_length ha ho) os
  have hheap : ∀ os, Owned { s with heap := s.heap ++ [os] } := fun os =>
    h.owned.heap_congr fun a ha o ho => congrArg (Option.map _) (hkeep a ha o ho os)
  refine ⟨(hheap _).assign hi mo (some s.heap.length) ?_, ⟨h.fresh.length, ?_, ?_⟩, ?_⟩
  · intro o' ho'
    obtain rfl := Option.some.inj ho'
    refine ⟨?_, by simp [owner]⟩
    intro a ha hreach
    exact absurd (h.owned.lt_length ha hreach) (Nat.lt_irrefl _)
  · intro o' ho'
    rw [List.length_append]
    exact Nat.lt_succ_of_lt (h.fresh.made_lt o' ho')
  · intro k' o' os' hk' ho' howner'
    rw [getElem?_push_of_lt (h.fresh.made_lt o' (List.mem_of_getElem? hk'))] at ho'
    exact h.fresh.contents k' o' os' hk' ho' howner'
  · rw [PlainSpaces.step, ← h.view]
    refine view_set hi rfl ?_ ?_
    · intro j a _ ha
      exact look_congr fun o' ho' =>
        congrArg (Option.map _) (hkeep a (List.mem_of_getElem? ha) o' ho' _)
    · funext mo'
      by_cases hmo' : mo' = mo
      · subst hmo'
        simp [look, hmo, ho]
      · rw [Function.update_of_ne hmo', look, look, AddressSpace.assign_of_ne _ _ hmo']
        cases ho' : space.objects mo' with
        | none => rfl
        | some o' => exact congrArg (Option.map _) (hkeep space hmem o' ⟨mo', ho'⟩ _)

theorem Isolated.write (h : Isolated s p) {i : Nat} {mo : MO} {f : C → C} {s' : Spaces MO C}
    (hstep : s.step (.write i mo f) = some s') : Isolated s' (p.step (.write i mo f)) := by
  obtain ⟨space, hi, hstep⟩ := Option.bind_eq_some_iff.mp hstep
  obtain ⟨o, hmo, hstep⟩ := Option.bind_eq_some_iff.mp hstep
  obtain ⟨r, hwriteable, rfl⟩ := Option.map_eq_some_iff.mp hstep
  obtain ⟨os, ho, hwriteable⟩ := Option.bind_eq_some_iff.mp hwriteable
  split_ifs at hwriteable with hread hkey
  · obtain rfl := Option.some.inj hwriteable
    exact h.write_owned hi hmo ho hkey
  · obtain rfl := Option.some.inj hwriteable
    have hlast : (s.heap ++ [{ os with copyOnWriteOwner := space.cowKey }]).modify s.heap.length
        (fun os => { os with contents := f os.contents }) =
        s.heap ++ [{ os with copyOnWriteOwner := space.cowKey, contents := f os.contents }] :=
      modify_push ..
    have hcopy := h.write_copy (f := f) hi hmo ho
    rw [← hlast] at hcopy
    exact hcopy

/-- A copy is not of a space whose key is the last one. -/
def BelowWrap (s : Spaces MO C) : SpaceOp MO C → Prop
  | .copy i => ∀ b, s.spaces[i]? = some b → b.cowKey + 1 < 2 ^ 32
  | _ => True

/-- Every operation of a run is one whose copy is not of a space with the last key. -/
def RunsBelowWrap (s : Spaces MO C) : List (SpaceOp MO C) → Prop
  | [] => True
  | op :: ops => BelowWrap s op ∧ ∀ s', s.step op = some s' → RunsBelowWrap s' ops

theorem Isolated.step (h : Isolated s p) {op : SpaceOp MO C} (hop : BelowWrap s op)
    {s' : Spaces MO C} (hstep : s.step op = some s') : Isolated s' (p.step op) := by
  cases op with
  | make c readOnly => exact h.make c readOnly hstep
  | space => exact h.space hstep
  | copy i => exact h.copy hop hstep
  | bind i mo k => exact h.bind hstep
  | unbind i mo => exact h.unbind hstep
  | write i mo f => exact h.write hstep

theorem Isolated.run (h : Isolated s p) {ops : List (SpaceOp MO C)} (hops : RunsBelowWrap s ops)
    {s' : Spaces MO C} (hrun : ops.foldlM Spaces.step s = some s') :
    Isolated s' (ops.foldl PlainSpaces.step p) := by
  induction ops generalizing s p with
  | nil =>
    obtain rfl := Option.some.inj hrun
    exact h
  | cons op ops ih =>
    rw [List.foldlM_cons] at hrun
    obtain ⟨t, hstep, hrun⟩ := Option.bind_eq_some_iff.mp hrun
    exact ih (h.step hops.1 hstep) (hops.2 t hstep) hrun

/-- In a run that copies no space with the last key, every space maps the memory objects to what it
would if each copy had objects of its own. -/
theorem spaces_isolated {ops : List (SpaceOp MO C)} {s : Spaces MO C} (hrun : run ops = some s)
    (hops : RunsBelowWrap {} ops) : s.view = (PlainSpaces.run ops).spaces :=
  (isolated_empty.run hops hrun).view

/-- Two spaces that write the object they share. -/
theorem spaces_isolated_two :
    (run [.space, .make 0 false, .bind 0 () 0, .copy 0, .write 0 () (· + 1),
        .write 1 () (· + 2)]).map view =
      some (PlainSpaces.run [.space, .make 0 false, .bind 0 () 0, .copy 0, .write 0 () (· + 1),
        .write 1 () (· + 2)]).spaces := by
  cases hrun : run [.space, .make 0 false, .bind 0 () 0, .copy 0, .write 0 () (· + 1),
      .write 1 () (· + 2)] with
  | none => cases hrun
  | some s =>
    refine congrArg some (spaces_isolated hrun ?_)
    simp [RunsBelowWrap, BelowWrap, step, AddressSpace.new, AddressSpace.bindObject]

/-! What a key that comes round again does -/

/-- Many copies of one space. -/
theorem run_copies {MO C : Type} [DecidableEq MO] (heap : List (SharedObject C)) (made : List Nat)
    (key : Nat) (objects : MO → Option Nat) (n : Nat) (hkey : key < 2 ^ 32) :
    ∃ rest : List (AddressSpace MO), rest.length = n ∧ (∀ b ∈ rest, b.objects = objects) ∧
      (List.replicate n (SpaceOp.copy 0)).foldlM step
          (⟨heap, made, [⟨key, objects⟩]⟩ : Spaces MO C) =
        some ⟨heap, made, ⟨(key + n) % 2 ^ 32, objects⟩ :: rest⟩ := by
  induction n with
  | zero => exact ⟨[], rfl, nofun, by rw [Nat.add_zero, Nat.mod_eq_of_lt hkey]; rfl⟩
  | succ n ih =>
    obtain ⟨rest, hlength, hrest, hrun⟩ := ih
    refine ⟨rest ++ [⟨(key + (n + 1)) % 2 ^ 32, objects⟩], ?_, ?_, ?_⟩
    · rw [List.length_append, hlength]
      rfl
    · intro b hb
      rcases List.mem_append.mp hb with hb | hb
      · exact hrest b hb
      · rw [List.mem_singleton.mp hb]
    · rw [List.replicate_succ', List.foldlM_append, hrun]
      simp [step, AddressSpace.copied, Nat.add_assoc]

theorem plainRun_copies {MO C : Type} [DecidableEq MO] (made : List C) (m : MO → Option C)
    (n : Nat) : (List.replicate n (SpaceOp.copy 0)).foldl PlainSpaces.step ⟨made, [m]⟩ =
      ⟨made, List.replicate (n + 1) m⟩ := by
  induction n with
  | zero => rfl
  | succ n ih =>
    rw [List.replicate_succ', List.foldl_append, ih]
    simp [PlainSpaces.step, List.replicate_succ' (n := n + 1)]

/-- A space binds an object, is copied as often as `n` says, and then writes to the object. -/
def copiedRun (n : Nat) : List (SpaceOp Unit Nat) :=
  [.space, .make 0 false, .bind 0 () 0] ++ List.replicate n (.copy 0) ++ [.write 0 () (· + 1)]

/-- When the key of the space is that of its object again, the first copy sees the write. -/
theorem copied_write_visible {n : Nat} (hpos : 0 < n) (hkey : (1 + n) % 2 ^ 32 = 1) :
    ((run (copiedRun n)).bind fun s => s.view[1]?.map (· ())) = some (some 1) ∧
      (PlainSpaces.run (copiedRun n)).spaces[1]?.map (· ()) = some (some 0) := by
  have hfirst : [SpaceOp.space, .make 0 false, .bind 0 () 0].foldlM step
      ({} : Spaces Unit Nat) =
      some ⟨[⟨1, false, 0⟩], [0], [⟨1, Function.update (fun _ => none) () (some 0)⟩]⟩ := rfl
  have hplain : [SpaceOp.space, .make 0 false, .bind 0 () 0].foldl PlainSpaces.step
      ({} : PlainSpaces Unit Nat) = ⟨[0], [Function.update (fun _ => none) () (some 0)]⟩ := rfl
  obtain ⟨rest, hlength, hrest, hcopies⟩ := run_copies [⟨1, false, 0⟩] [0] 1
    (Function.update (fun _ : Unit => none) () (some 0)) n (by omega)
  obtain ⟨b, rest, rfl⟩ := List.exists_cons_of_length_pos (hlength ▸ hpos)
  have hb := hrest b List.mem_cons_self
  constructor
  · rw [run, copiedRun, List.foldlM_append, List.foldlM_append, hfirst, Option.bind_eq_bind,
      Option.bind_some, hcopies, hkey]
    simp [step, AddressSpace.findObject, AddressSpace.getWriteable, view, look, hb]
  · obtain ⟨m, rfl⟩ := Nat.exists_eq_succ_of_ne_zero hpos.ne'
    rw [PlainSpaces.run, copiedRun, List.foldl_append, List.foldl_append, hplain,
      plainRun_copies]
    simp [PlainSpaces.step, List.replicate_succ]

/-- After `2 ^ 32` copies a space writes in place to an object that all of them share. -/
theorem wrapped_write_visible :
    ((run (copiedRun (2 ^ 32))).bind fun s => s.view[1]?.map (· ())) = some (some 1) ∧
      (PlainSpaces.run (copiedRun (2 ^ 32))).spaces[1]?.map (· ()) = some (some 0) :=
  copied_write_visible (by omega) (by omega)

end Spaces

end Encider
