import Mathlib

/-! The names that the solver builders give to arrays. -/

namespace Encider

/-- The character that ends a C string. -/
def nul : Char := Char.ofNat 0

/-- An `Array` object at its address. Names are C strings. -/
structure ArrayObject where
  address : Nat
  name : List Char
  noNul : nul ∉ name

/-- `llvm::itostr` of a counter. -/
def itostr (n : Nat) : List Char := Nat.toDigits 10 n

/-- `_array_hash`: the arrays in the order of their insertion, with the names of their variables. -/
abbrev ArrayExprHash := List (ArrayObject × List Char)

namespace ArrayExprHash

/-- Arrays are looked up by their addresses. -/
def lookupArrayExpr (h : ArrayExprHash) (root : ArrayObject) : Option (List Char) :=
  (h.find? fun e => e.1.address == root.address).map Prod.snd

def hashArrayExpr (h : ArrayExprHash) (root : ArrayObject) (name : List Char) : ArrayExprHash :=
  h ++ [(root, name)]

end ArrayExprHash

/-- The name that is meant to be unique, for `count` arrays in the hash. -/
def uniqueName (name : List Char) (count : Nat) : List Char :=
  let unique_id := itostr count
  let uid_length := unique_id.length
  let space := if name.length > 32 - uid_length then 32 - uid_length else name.length
  name.take space ++ unique_id

/-- `buildArray(unique_name.c_str(), ..)`: the variable has the name up to the first null. -/
def buildArray (name : List Char) : List Char := name.takeWhile (· ≠ nul)

/-- What the builders have in common: the hash and the name of the variable. -/
def initialArray (h : ArrayExprHash) (root : ArrayObject) : ArrayExprHash × List Char :=
  match h.lookupArrayExpr root with
  | some name => (h, name)
  | none =>
    let name := buildArray (uniqueName root.name h.length)
    (h.hashArrayExpr root name, name)

/-- Constant arrays get assertions besides. -/
def Z3Builder.getInitialArray (h : ArrayExprHash) (root : ArrayObject) :
    ArrayExprHash × List Char :=
  initialArray h root

/-- Constant arrays are written over the variable. -/
def STPBuilder.getInitialArray (h : ArrayExprHash) (root : ArrayObject) :
    ArrayExprHash × List Char :=
  initialArray h root

/-- The names that a sequence of calls generates. -/
def arrayNames (getInitialArray : ArrayExprHash → ArrayObject → ArrayExprHash × List Char)
    (calls : List ArrayObject) : List (List Char) :=
  (calls.foldl (fun h root => (getInitialArray h root).1) []).map Prod.snd

/-- The arrays that are called for, each at its first call. -/
def firstCalls (calls : List ArrayObject) : List ArrayObject :=
  calls.foldl (fun seen root =>
    if seen.any fun a => a.address == root.address then seen else seen ++ [root]) []

/-- What is left of a name in front of the counter. -/
def cut (name : List Char) (count : Nat) : List Char :=
  name.take (32 - (itostr count).length)

/-- The later counter is the earlier one behind some further digits, and where the earlier
name is cut it is the later one with these digits. -/
def Clash (name : List Char) (i : Nat) (name' : List Char) (j : Nat) : Prop :=
  ∃ q ≠ [], itostr j = q ++ itostr i ∧ cut name i = cut name' j ++ q

theorem itostr_injective {i j : Nat} (h : itostr i = itostr j) : i = j := by
  have hi : Nat.ofDigitChars 10 (itostr i) 0 = i := Nat.ofDigitChars_ten_toDigits
  have hj : Nat.ofDigitChars 10 (itostr j) 0 = j := Nat.ofDigitChars_ten_toDigits
  rw [← hi, h, hj]

theorem itostr_length_le {i j : Nat} (h : i ≤ j) : (itostr i).length ≤ (itostr j).length := by
  have hpos : 0 < (itostr j).length := Nat.length_toDigits_pos
  apply (Nat.length_toDigits_le_iff (by omega) hpos).mpr
  have hj := (Nat.length_toDigits_le_iff (n := j) (b := 10) (by omega) hpos).mp (Nat.le_refl _)
  omega

theorem nul_notMem_itostr (n : Nat) : nul ∉ itostr n := by
  intro h
  have hdigit := Nat.isDigit_of_mem_toDigits (by omega) (by omega) h
  exact absurd hdigit (by decide)

theorem uniqueName_eq (name : List Char) (count : Nat) :
    uniqueName name count = cut name count ++ itostr count := by
  unfold uniqueName cut
  dsimp only
  split
  · rfl
  · rename_i h
    rw [List.take_of_length_le (Nat.le_refl _), List.take_of_length_le (Nat.le_of_not_lt h)]

/-- The variable has the whole name. -/
theorem buildArray_uniqueName (root : ArrayObject) (count : Nat) :
    buildArray (uniqueName root.name count) = cut root.name count ++ itostr count := by
  rw [uniqueName_eq, buildArray, List.takeWhile_eq_self_iff]
  intro c hc
  have hne : c ≠ nul := by
    intro he
    rw [he] at hc
    rcases List.mem_append.mp hc with hc | hc
    · exact root.noNul (List.mem_of_mem_take hc)
    · exact nul_notMem_itostr count hc
  simpa using hne

/-- Two names are the same exactly where they clash. -/
theorem names_eq_iff {name name' : List Char} {i j : Nat} (h : i < j) :
    cut name i ++ itostr i = cut name' j ++ itostr j ↔ Clash name i name' j := by
  have hlength := itostr_length_le h.le
  have hne : itostr i ≠ itostr j := fun he => absurd (itostr_injective he) (Nat.ne_of_lt h)
  constructor
  · intro heq
    rcases List.append_eq_append_iff.mp heq with ⟨q, _, hq⟩ | ⟨q, hcut, hq⟩
    · have hnil : q = [] := by
        have := congrArg List.length hq
        rw [List.length_append] at this
        exact List.length_eq_zero_iff.mp (by omega)
      rw [hnil, List.nil_append] at hq
      exact absurd hq hne
    · refine ⟨q, ?_, hq, hcut⟩
      intro hnil
      rw [hnil, List.nil_append] at hq
      exact hne hq.symm
  · intro ⟨q, _, hq, hcut⟩
    rw [hcut, hq, List.append_assoc]

theorem lookupArrayExpr_isSome (h : ArrayExprHash) (root : ArrayObject) :
    (h.lookupArrayExpr root).isSome =
      (h.map Prod.fst).any fun a => a.address == root.address := by
  unfold ArrayExprHash.lookupArrayExpr
  rw [Option.isSome_map]
  induction h with
  | nil => rfl
  | cons e h ih =>
    rw [List.find?_cons, List.map_cons, List.any_cons]
    cases e.1.address == root.address with
    | true => rfl
    | false => exact ih

/-- The arrays with the names that they get in this order. -/
def named (seen : List ArrayObject) : ArrayExprHash :=
  seen.mapIdx fun i root => (root, cut root.name i ++ itostr i)

theorem named_fst (seen : List ArrayObject) : (named seen).map Prod.fst = seen := by
  apply List.ext_getElem
  · simp [named]
  · intro i h1 h2
    simp [named]

theorem firstCalls_concat (calls : List ArrayObject) (root : ArrayObject) :
    firstCalls (calls ++ [root]) =
      if (firstCalls calls).any fun a => a.address == root.address then firstCalls calls
      else firstCalls calls ++ [root] := by
  unfold firstCalls
  rw [List.foldl_append, List.foldl_cons, List.foldl_nil]

/-- The hash holds the arrays in the order of their first calls, each with its name. -/
theorem hash_eq (calls : List ArrayObject) :
    calls.foldl (fun h root => (initialArray h root).1) [] = named (firstCalls calls) := by
  induction calls using List.reverseRecOn with
  | nil => rfl
  | append_singleton calls root ih =>
    have hlookup := lookupArrayExpr_isSome (named (firstCalls calls)) root
    rw [named_fst] at hlookup
    rw [List.foldl_append, List.foldl_cons, List.foldl_nil, ih, firstCalls_concat, initialArray]
    cases hfound : ArrayExprHash.lookupArrayExpr (named (firstCalls calls)) root with
    | some name =>
      rw [hfound, Option.isSome_some] at hlookup
      rw [← hlookup]
      rfl
    | none =>
      rw [hfound, Option.isSome_none] at hlookup
      have hlength : (named (firstCalls calls)).length = (firstCalls calls).length := by
        simp [named]
      rw [← hlookup]
      simp only [Bool.false_eq_true, if_false, ArrayExprHash.hashArrayExpr, hlength,
        buildArray_uniqueName]
      rw [named, named, List.mapIdx_concat]

/-- The names are distinct exactly if no two arrays clash at their places. -/
theorem array_names_distinct_iff (calls : List ArrayObject) :
    ((arrayNames Z3Builder.getInitialArray calls).Nodup ↔
      ∀ i j a b, i < j → (firstCalls calls)[i]? = some a → (firstCalls calls)[j]? = some b →
        ¬ Clash a.name i b.name j) ∧
    ((arrayNames STPBuilder.getInitialArray calls).Nodup ↔
      ∀ i j a b, i < j → (firstCalls calls)[i]? = some a → (firstCalls calls)[j]? = some b →
        ¬ Clash a.name i b.name j) := by
  have hall : ((named (firstCalls calls)).map Prod.snd).Nodup ↔
      ∀ i j a b, i < j → (firstCalls calls)[i]? = some a → (firstCalls calls)[j]? = some b →
        ¬ Clash a.name i b.name j := by
    unfold List.Nodup
    rw [List.pairwise_iff_getElem]
    constructor
    · intro h i j a b hij ha hb hclash
      obtain ⟨hi, rfl⟩ := List.getElem?_eq_some_iff.mp ha
      obtain ⟨hj, rfl⟩ := List.getElem?_eq_some_iff.mp hb
      have hne := h i j (by simpa [named] using hi) (by simpa [named] using hj) hij
      apply hne
      simpa [named] using (names_eq_iff hij).mpr hclash
    · intro h i j hi hj hij heq
      have hi' : i < (firstCalls calls).length := by simpa [named] using hi
      have hj' : j < (firstCalls calls).length := by simpa [named] using hj
      apply h i j _ _ hij (List.getElem?_eq_getElem hi') (List.getElem?_eq_getElem hj')
      apply (names_eq_iff hij).mp
      simpa [named] using heq
  have hz3 : arrayNames Z3Builder.getInitialArray calls =
      (named (firstCalls calls)).map Prod.snd := by
    rw [← hash_eq]
    rfl
  have hstp : arrayNames STPBuilder.getInitialArray calls =
      (named (firstCalls calls)).map Prod.snd := by
    rw [← hash_eq]
    rfl
  rw [hz3, hstp]
  exact ⟨hall, hall⟩

/-- The first of eleven arrays is called a1 and the last one a. -/
def elevenArrays : List ArrayObject :=
  (List.range 11).map fun i => ⟨i, if i = 0 then ['a', '1'] else ['a'], by split <;> decide⟩

theorem eleventh_name_taken : ¬ ∀ calls : List ArrayObject,
    (arrayNames Z3Builder.getInitialArray calls).Nodup ∧
      (arrayNames STPBuilder.getInitialArray calls).Nodup := by
  intro h
  exact absurd (h elevenArrays).1 (by decide)

end Encider
