import Encider.Exec.SeedInfo

/-! When `patchSeed` leaves a seed that satisfies the constraints of the state. -/

namespace Encider

open Encider.Expr

/-- A symbolic array of bytes, as states make them. -/
structure Array.OfBytes (a : Array) : Prop where
  domain : a.domain = 32
  range : a.range = 8
  size : a.size < 2 ^ 32
  symbolic : a.constantValues = []

namespace Seed

/-- Every array of the seed has all its bytes. -/
structure Full (s : Seed) : Prop where
  keys : (s.map Prod.fst).Nodup
  length : ∀ p ∈ s, p.2.length = p.1.size
  bytes : ∀ p ∈ s, p.1.OfBytes

variable {s : Seed} {a b : Array} {i j : Nat} {bytes : List (BitVec 8)} {byte : BitVec 8}

theorem mem_of_find (h : s.find a = some bytes) : (a, bytes) ∈ s := by
  obtain ⟨⟨x, y⟩, hp, rfl⟩ := Option.map_eq_some_iff.mp h
  have hx : x = a := by simpa using List.find?_some hp
  exact hx ▸ List.mem_of_find?_eq_some hp

theorem find_eq_none : s.find a = none ↔ a ∉ s.map Prod.fst := by
  simp only [find, Option.map_eq_none_iff, List.find?_eq_none, decide_eq_true_eq, List.mem_map,
    not_exists, not_and]

theorem find_isSome (h : a ∈ s.map Prod.fst) : ∃ bytes, s.find a = some bytes := by
  rw [← Option.ne_none_iff_exists']
  exact fun hno => find_eq_none.mp hno h

theorem find_set : (s.set a i byte).find b =
    (s.find b).map fun bytes => if b = a then bytes.set i byte else bytes := by
  induction s with
  | nil => rfl
  | cons p s ih =>
    unfold set find at ih ⊢
    rw [List.map_cons, List.find?_cons, List.find?_cons]
    by_cases hp : p.1 = b
    · by_cases hpa : p.1 = a
      · simp [hp, ← hpa]
      · simp [hp, show b ≠ a from hp ▸ hpa]
    · by_cases hpa : p.1 = a
      · simp only [hpa, ↓reduceIte, show a ≠ b from hpa ▸ hp, decide_false] at ih ⊢
        exact ih
      · simp only [hpa, hp, ↓reduceIte, decide_false] at ih ⊢
        exact ih

theorem set_keys : (s.set a i byte).map Prod.fst = s.map Prod.fst := by
  unfold set
  rw [List.map_map]
  refine List.map_congr_left fun p _ => ?_
  change (if p.1 = a then _ else p).1 = p.1
  split <;> rfl

theorem Full.set (h : s.Full) : (s.set a i byte).Full := by
  refine ⟨?_, ?_, ?_⟩
  · rw [set_keys]
    exact h.keys
  · intro p hp
    obtain ⟨q, hq, rfl⟩ := List.mem_map.mp hp
    have hlen := h.length q hq
    split
    · simpa using hlen
    · exact hlen
  · intro p hp
    obtain ⟨q, hq, rfl⟩ := List.mem_map.mp hp
    have hbytes := h.bytes q hq
    split
    · exact hbytes
    · exact hbytes

/-- The byte of the seed, and zero where it has none. -/
theorem assignment_eq (s : Seed) (a : Array) (i : Nat) : s.assignment a i =
    (((s.find a).bind (·[i]?)).map fun byte => BitVec.ofNat a.range byte.toNat).getD 0 := by
  have hfind : s.toBindings.bindings a = s.find a := rfl
  unfold assignment Bindings.assignment
  rw [hfind]
  cases (s.find a).bind (·[i]?) with
  | none => rfl
  | some byte => rfl

theorem assignment_of_find (h : s.find a = some bytes) (hb : bytes[i]? = some byte) :
    s.assignment a i = BitVec.ofNat a.range byte.toNat := by
  rw [assignment_eq, h, Option.bind_some, hb]
  rfl

theorem assignment_toNat (hs : s.Full) (h : s.find a = some bytes) (hb : bytes[i]? = some byte) :
    (s.assignment a i).toNat = byte.toNat := by
  rw [assignment_of_find h hb, BitVec.toNat_ofNat, (hs.bytes _ (mem_of_find h)).range,
    Nat.mod_eq_of_lt byte.isLt]

theorem assignment_set_same (h : s.find a = some bytes) (hi : i < bytes.length) :
    (s.set a i byte).assignment a i = BitVec.ofNat a.range byte.toNat := by
  have hf : (s.set a i byte).find a = some (bytes.set i byte) := by
    rw [find_set, h, Option.map_some, if_pos rfl]
  refine assignment_of_find hf ?_
  rw [List.getElem?_set_self hi]

theorem assignment_set_other (h : (b, j) ≠ (a, i)) :
    (s.set a i byte).assignment b j = s.assignment b j := by
  rw [assignment_eq, assignment_eq, find_set]
  cases hf : s.find b with
  | none => rfl
  | some bytes =>
    rw [Option.map_some, Option.bind_some, Option.bind_some]
    by_cases hb : b = a
    · have hj : i ≠ j := fun hij => h (by rw [hb, hij])
      rw [if_pos hb, List.getElem?_set_ne hj]
    · rw [if_neg hb]

/-- A full seed gives nothing past the end of its arrays. -/
theorem Full.bounded (h : s.Full) : s.assignment.Bounded := by
  intro a i hout
  rw [assignment_eq]
  cases hf : s.find a with
  | none => rfl
  | some bytes =>
    have hp := mem_of_find hf
    rcases hout with hc | hi
    · exact absurd (h.bytes _ hp).symbolic hc
    · have hnone : bytes[i]? = none := List.getElem?_eq_none (by rwa [h.length _ hp])
      rw [Option.bind_some, hnone]
      rfl

end Seed

namespace SeedInfo

variable {S : SeedSolver} {s s' : Seed} {a : Array} {i : Nat} {tmp tmp' cs : List Expr}
  {x : Array × Nat} {xs : List (Array × Nat)} {σ : Assignment}

theorem models_append {e : Expr} : σ ∈ Models (tmp ++ [e]) ↔ σ ∈ Models tmp ∧ e.Holds σ := by
  change _ ∧ _ ↔ (_ ∧ _) ∧ _
  rw [List.forall_mem_append, List.forall_mem_singleton, and_assoc]

theorem readByte_eq (ha : a.OfBytes) : readByte a i = .read a .nil (const i 32) := by
  unfold readByte ReadExpr.create
  simp [ReadExpr.rollback, const, ha.symbolic]

theorem readByte_value (ha : a.OfBytes) (hi : i < a.size) :
    (readByte a i).value σ = (σ a i).toNat := by
  have hlt : i < 2 ^ 32 := hi.trans ha.size
  rw [readByte_eq ha, Expr.value, UpdateList.contents, const_value, Nat.mod_eq_of_lt hlt,
    Array.initial, ha.symbolic]
  rfl

theorem isByte_holds (ha : a.OfBytes) (hi : i < a.size) (byte : BitVec 8) :
    (isByte a i byte).Holds σ ↔ (σ a i).toNat = byte.toNat := by
  have ht : (readByte a i).WellTyped := by
    rw [readByte_eq ha]
    exact ⟨trivial, trivial, ha.domain.symm⟩
  have hw : (readByte a i).getWidth = (const byte.toNat 8).getWidth := by
    rw [readByte_eq ha]
    exact ha.range
  have hm := EqExpr.create_means σ ht (const_typed byte.toNat 8) hw
  unfold Expr.Holds isByte
  rw [hm.value, eq_value_iff hw, readByte_value ha hi, const_value,
    Nat.mod_eq_of_lt byte.isLt]

/-- A byte that a loop may come to: of the seed, or of a constant array. -/
def Listed (s : Seed) (x : Array × Nat) : Prop :=
  (x.1 ∈ s.map Prod.fst ∧ x.2 < x.1.size) ∨ (x.1 ∉ s.map Prod.fst ∧ x.1.constantValues ≠ [])

/-- What one round does. -/
structure Patched (S : SeedSolver) (x : Array × Nat) (tmp : List Expr) (s : Seed)
    (tmp' : List Expr) (s' : Seed) : Prop where
  models : ∀ σ, σ ∈ Models tmp' ↔ σ ∈ Models tmp ∧ σ x.1 x.2 = s'.assignment x.1 x.2
  nonempty : (Models tmp').Nonempty
  full : s'.Full
  keys : s'.map Prod.fst = s.map Prod.fst
  other : ∀ y, y ≠ x → s'.assignment y.1 y.2 = s.assignment y.1 y.2
  kept : (∃ σ ∈ Models tmp, σ x.1 x.2 = s.assignment x.1 x.2) →
    s'.assignment x.1 x.2 = s.assignment x.1 x.2
  chosen : (¬ ∃ σ ∈ Models tmp, σ x.1 x.2 = s.assignment x.1 x.2) →
    x.1.OfBytes ∧ x.2 < x.1.size ∧
      (s'.assignment x.1 x.2).toNat = S.getValue tmp (readByte x.1 x.2)

theorem patchByte_spec (hs : s.Full) (hx : Listed s x) (hT : (Models tmp).Nonempty) :
    ∃ tmp' s', patchByte S x tmp s = some (tmp', s') ∧ Patched S x tmp s tmp' s' := by
  rcases hx with ⟨hkey, hi⟩ | ⟨hkey, hconst⟩
  · obtain ⟨bytes, hf⟩ := Seed.find_isSome hkey
    have hp := Seed.mem_of_find hf
    have ha := hs.bytes _ hp
    have hlen : x.2 < bytes.length := (hs.length _ hp).symm ▸ hi
    have hb : bytes[x.2]? = some bytes[x.2] := List.getElem?_eq_getElem hlen
    have hseed := Seed.assignment_toNat hs hf hb
    have hfeasible : S.mayBeTrue tmp (isByte x.1 x.2 bytes[x.2]) = true ↔
        ∃ σ ∈ Models tmp, σ x.1 x.2 = s.assignment x.1 x.2 := by
      rw [S.exact]
      refine exists_congr fun σ => and_congr_right fun _ => ?_
      rw [isByte_holds ha hi, ← hseed, BitVec.toNat_inj]
    unfold patchByte
    rw [hf]
    simp only [hb, Option.bind_eq_bind, Option.bind_some]
    split
    · rename_i hmay
      have hmodels : ∀ σ, σ ∈ Models (tmp ++ [isByte x.1 x.2 bytes[x.2]]) ↔
          σ ∈ Models tmp ∧ σ x.1 x.2 = s.assignment x.1 x.2 := by
        intro σ
        rw [models_append, isByte_holds ha hi, ← hseed, BitVec.toNat_inj]
      obtain ⟨σ, hσ, heq⟩ := hfeasible.mp hmay
      exact ⟨_, _, rfl, hmodels, ⟨σ, (hmodels σ).mpr ⟨hσ, heq⟩⟩, hs, rfl, fun _ _ => rfl,
        fun _ => rfl, fun hno => absurd ⟨σ, hσ, heq⟩ hno⟩
    · rename_i hmay
      have hw : (readByte x.1 x.2).getWidth ≤ 8 := by
        rw [readByte_eq ha]
        exact ha.range.le
      rw [if_pos hw]
      obtain ⟨σ, hσ, hvalue⟩ := S.value tmp (readByte x.1 x.2) hT
      have hlt : S.getValue tmp (readByte x.1 x.2) < 2 ^ 8 := by
        rw [hvalue]
        exact ((readByte x.1 x.2).value_lt σ).trans_le (Nat.pow_le_pow_right (by omega) hw)
      have hnew : ((s.set x.1 x.2 (BitVec.ofNat 8
          (S.getValue tmp (readByte x.1 x.2)))).assignment x.1 x.2).toNat =
            S.getValue tmp (readByte x.1 x.2) := by
        rw [Seed.assignment_set_same hf hlen, BitVec.toNat_ofNat, BitVec.toNat_ofNat, ha.range,
          Nat.mod_eq_of_lt hlt, Nat.mod_eq_of_lt hlt]
      have hmodels : ∀ τ, τ ∈ Models (tmp ++ [isByte x.1 x.2 (BitVec.ofNat 8
          (S.getValue tmp (readByte x.1 x.2)))]) ↔ τ ∈ Models tmp ∧ τ x.1 x.2 =
            (s.set x.1 x.2 (BitVec.ofNat 8
              (S.getValue tmp (readByte x.1 x.2)))).assignment x.1 x.2 := by
        intro τ
        rw [models_append, isByte_holds ha hi, ← BitVec.toNat_inj, hnew, BitVec.toNat_ofNat,
          Nat.mod_eq_of_lt hlt]
      refine ⟨_, _, rfl, hmodels, ⟨σ, (hmodels σ).mpr ⟨hσ, ?_⟩⟩, hs.set, Seed.set_keys, ?_, ?_, ?_⟩
      · rw [← BitVec.toNat_inj, hnew, hvalue, readByte_value ha hi]
      · exact fun y hy => Seed.assignment_set_other hy
      · exact fun h => absurd (hfeasible.mpr h) hmay
      · exact fun _ => ⟨ha, hi, hnew⟩
  · have hf : s.find x.1 = none := Seed.find_eq_none.mpr hkey
    have hzero : ∀ σ ∈ Models tmp, σ x.1 x.2 = s.assignment x.1 x.2 := by
      intro σ hσ
      rw [hσ.1 x.1 x.2 (.inl hconst), hs.bounded x.1 x.2 (.inl hconst)]
    unfold patchByte
    rw [hf]
    obtain ⟨σ, hσ⟩ := hT
    exact ⟨_, _, rfl, fun τ => ⟨fun h => ⟨h, hzero τ h⟩, fun h => h.1⟩, ⟨σ, hσ⟩, hs, rfl,
      fun _ _ => rfl, fun _ => rfl, fun hno => absurd ⟨σ, hσ, hzero σ hσ⟩ hno⟩

theorem Patched.listed {y : Array × Nat} (h : Patched S x tmp s tmp' s') (hy : Listed s y) :
    Listed s' y := by
  unfold Listed
  rw [h.keys]
  exact hy

/-- The bytes get values of which each is that of the seed, where some model that has the values
before it has that one too. -/
def LeastPatch (seed τ : Assignment) : Set Assignment → List (Array × Nat) → Prop
  | _, [] => True
  | T, x :: xs =>
    ((∃ σ ∈ T, σ x.1 x.2 = seed x.1 x.2) → τ x.1 x.2 = seed x.1 x.2) ∧
      LeastPatch seed τ {σ ∈ T | σ x.1 x.2 = τ x.1 x.2} xs

theorem LeastPatch.congr {seed seed' τ : Assignment} {T : Set Assignment}
    (h : LeastPatch seed τ T xs) (heq : ∀ x ∈ xs, seed' x.1 x.2 = seed x.1 x.2) :
    LeastPatch seed' τ T xs := by
  induction xs generalizing T with
  | nil => trivial
  | cons x xs ih =>
    rw [List.forall_mem_cons] at heq
    refine ⟨?_, ih h.2 heq.2⟩
    rw [heq.1]
    exact h.1

theorem Patched.models_eq (h : Patched S x tmp s tmp' s') {τ : Assignment}
    (hτ : τ x.1 x.2 = s'.assignment x.1 x.2) :
    {σ ∈ Models tmp | σ x.1 x.2 = τ x.1 x.2} = Models tmp' := by
  ext σ
  rw [h.models, hτ]
  rfl

/-- What a loop does. -/
structure AllPatched (xs : List (Array × Nat)) (tmp : List Expr) (s : Seed) (tmp' : List Expr)
    (s' : Seed) : Prop where
  models : ∀ σ, σ ∈ Models tmp' ↔ σ ∈ Models tmp ∧ ∀ x ∈ xs, σ x.1 x.2 = s'.assignment x.1 x.2
  nonempty : (Models tmp').Nonempty
  full : s'.Full
  keys : s'.map Prod.fst = s.map Prod.fst
  other : ∀ y ∉ xs, s'.assignment y.1 y.2 = s.assignment y.1 y.2
  least : LeastPatch s.assignment s'.assignment (Models tmp) xs

theorem patchBytes_spec (hnd : xs.Nodup) (hs : s.Full) (hxs : ∀ x ∈ xs, Listed s x)
    (hT : (Models tmp).Nonempty) :
    ∃ tmp' s', patchBytes S xs tmp s = some (tmp', s') ∧ AllPatched xs tmp s tmp' s' := by
  induction xs generalizing tmp s with
  | nil => exact ⟨tmp, s, rfl, by simp, hT, hs, rfl, fun _ _ => rfl, trivial⟩
  | cons x xs ih =>
    rw [List.nodup_cons] at hnd
    rw [List.forall_mem_cons] at hxs
    obtain ⟨tmp₁, s₁, hrun₁, h₁⟩ := patchByte_spec (S := S) hs hxs.1 hT
    obtain ⟨tmp₂, s₂, hrun₂, h₂⟩ :=
      ih hnd.2 h₁.full (fun y hy => h₁.listed (hxs.2 y hy)) h₁.nonempty
    have hx : s₂.assignment x.1 x.2 = s₁.assignment x.1 x.2 := h₂.other x hnd.1
    refine ⟨tmp₂, s₂, ?_, ?_, h₂.nonempty, h₂.full, h₂.keys.trans h₁.keys, ?_, ?_, ?_⟩
    · rw [patchBytes, hrun₁]
      exact hrun₂
    · intro σ
      rw [h₂.models, h₁.models, List.forall_mem_cons, hx, and_assoc]
    · intro y hy
      rw [List.mem_cons, not_or] at hy
      exact (h₂.other y hy.2).trans (h₁.other y hy.1)
    · intro hfeasible
      rw [hx]
      exact h₁.kept hfeasible
    · rw [h₁.models_eq hx]
      refine h₂.least.congr fun y hy => (h₁.other y ?_).symm
      rintro rfl
      exact hnd.1 hy

/-- The solver picks the values that an assignment has, where it can. -/
def Follows (S : SeedSolver) (τ : Assignment) : Prop :=
  ∀ cs e, (∃ σ ∈ Models cs, e.value σ = e.value τ) → S.getValue cs e = e.value τ

/-- So the loop ends with these, if they are a least patch. -/
theorem patchBytes_follows {τ : Assignment} (hS : Follows S τ) (hnd : xs.Nodup) (hs : s.Full)
    (hxs : ∀ x ∈ xs, Listed s x) (hleast : LeastPatch s.assignment τ (Models tmp) xs)
    (hτ : ∃ σ ∈ Models tmp, ∀ x ∈ xs, σ x.1 x.2 = τ x.1 x.2)
    (hrun : patchBytes S xs tmp s = some (tmp', s')) :
    ∀ x ∈ xs, s'.assignment x.1 x.2 = τ x.1 x.2 := by
  induction xs generalizing tmp s with
  | nil => nofun
  | cons x xs ih =>
    obtain ⟨σ, hσ, hall⟩ := hτ
    rw [List.nodup_cons] at hnd
    rw [List.forall_mem_cons] at hxs hall ⊢
    obtain ⟨tmp₁, s₁, hrun₁, h₁⟩ := patchByte_spec (S := S) hs hxs.1 ⟨σ, hσ⟩
    have hx : s₁.assignment x.1 x.2 = τ x.1 x.2 := by
      by_cases hfeasible : ∃ σ ∈ Models tmp, σ x.1 x.2 = s.assignment x.1 x.2
      · rw [h₁.kept hfeasible, hleast.1 hfeasible]
      · obtain ⟨ha, hi, hvalue⟩ := h₁.chosen hfeasible
        rw [← BitVec.toNat_inj, hvalue, hS _ _ ⟨σ, hσ, ?_⟩, readByte_value ha hi]
        rw [readByte_value ha hi, readByte_value ha hi, hall.1]
    rw [patchBytes, hrun₁] at hrun
    have hrest : ∀ y ∈ xs, y ≠ x := by
      rintro y hy rfl
      exact hnd.1 hy
    have hlisted : ∀ y ∈ xs, Listed s₁ y := fun y hy => h₁.listed (hxs.2 y hy)
    obtain ⟨tmp₂, s₂, hrun₂, h₂⟩ := patchBytes_spec (S := S) hnd.2 h₁.full hlisted h₁.nonempty
    have hsame : (tmp', s') = (tmp₂, s₂) := Option.some.inj (hrun.symm.trans hrun₂)
    refine ⟨?_, ih hnd.2 h₁.full hlisted ?_ ⟨σ, ?_, hall.2⟩ hrun⟩
    · rw [(Prod.mk.inj hsame).2, h₂.other x hnd.1, hx]
    · rw [← h₁.models_eq hx.symm]
      exact hleast.2.congr fun y hy => h₁.other y (hrest y hy)
    · rw [h₁.models, hx]
      exact ⟨hσ, hall.1⟩

/-- A byte past the end of its array ends the loop. -/
theorem patchBytes_inRange (hs : s.Full) (hrun : patchBytes S xs tmp s = some (tmp', s')) :
    ∀ x ∈ xs, x.1 ∈ s.map Prod.fst → x.2 < x.1.size := by
  induction xs generalizing tmp s with
  | nil => nofun
  | cons x xs ih =>
    obtain ⟨⟨tmp₁, s₁⟩, hrun₁, hrest⟩ := Option.bind_eq_some_iff.mp hrun
    suffices h : (x.1 ∈ s.map Prod.fst → x.2 < x.1.size) ∧ s₁.Full ∧
        s₁.map Prod.fst = s.map Prod.fst by
      rw [List.forall_mem_cons]
      exact ⟨h.1, h.2.2 ▸ ih h.2.1 hrest⟩
    unfold patchByte at hrun₁
    split at hrun₁
    · rename_i hnone
      cases hrun₁
      exact ⟨fun hkey => absurd hkey (Seed.find_eq_none.mp hnone), hs, rfl⟩
    · rename_i bytes hf
      obtain ⟨byte, hbyte, hrun₁⟩ := Option.bind_eq_some_iff.mp hrun₁
      have hlt : x.2 < x.1.size := by
        rw [← hs.length _ (Seed.mem_of_find hf)]
        exact (List.getElem?_eq_some_iff.mp hbyte).1
      split at hrun₁
      · cases hrun₁
        exact ⟨fun _ => hlt, hs, rfl⟩
      · split at hrun₁
        · cases hrun₁
          exact ⟨fun _ => hlt, hs.set, Seed.set_keys⟩
        · cases hrun₁

/-! The whole of `patchSeed` -/

/-- What the seed, the constraints and the condition have to be. -/
structure Given (cs : List Expr) (condition : Expr) (order : List (Array × Nat)) (s : Seed) :
    Prop where
  full : s.Full
  typed : ∀ c ∈ cs ++ [condition], c.WellTyped ∧ c.getWidth = 1
  /-- All arrays involved are bound, or constant. -/
  bound : ∀ c ∈ cs ++ [condition], ∀ r ∈ c.reads,
    r.1 ∈ s.map Prod.fst ∨ r.1 ∉ s.map Prod.fst ∧ r.1.constantValues ≠ []
  listed : ∀ x ∈ order, x ∈ directReads condition
  all : ∀ x ∈ directReads condition, x ∈ order
  nodup : order.Nodup
  /-- The condition evaluates to its value, whatever the bytes. -/
  evaluates : ∀ s' : Seed, s'.Full → s'.map Prod.fst = s.map Prod.fst →
    ExprEvaluator.GivesValue s'.toBindings condition
  satisfiable : (Models (cs ++ [condition])).Nonempty
  holds : ∀ c ∈ cs, c.Holds s.assignment

/-- The patch succeeds, and the seed satisfies the constraints and the condition. -/
def Patches (S : SeedSolver) (cs : List Expr) (condition : Expr) (order : List (Array × Nat))
    (s : Seed) : Prop :=
  ∃ s', patchSeed S cs condition order s = some s' ∧ ∀ c ∈ cs ++ [condition], c.Holds s'.assignment

variable {condition : Expr} {order : List (Array × Nat)}

theorem mayHold_eq {s' : Seed} (h : Given cs condition order s) (hs : s'.Full)
    (hk : s'.map Prod.fst = s.map Prod.fst) :
    ∃ r, mayHold S cs condition s' = some r ∧ (r = true ↔ condition.Holds s'.assignment) := by
  obtain ⟨visited, hv⟩ := h.evaluates s' hs hk [] .start
  have hw := (h.typed condition (List.mem_append_right _ (List.mem_singleton.mpr rfl))).2
  refine ⟨S.mayBeTrue cs (const (condition.value s'.assignment) 1), ?_, ?_⟩
  · unfold mayHold
    rw [hv, hw]
    rfl
  · have hlt := condition.value_lt s'.assignment
    rw [hw] at hlt
    have hvalue : ∀ σ, (const (condition.value s'.assignment) 1).Holds σ ↔
        condition.Holds s'.assignment := by
      intro σ
      rw [Expr.Holds, const_value, Nat.mod_eq_of_lt hlt]
      rfl
    rw [S.exact]
    simp only [hvalue]
    exact ⟨fun ⟨σ, _, hc⟩ => hc, fun hc => ⟨s.assignment,
      ⟨h.full.bounded, h.holds⟩, hc⟩⟩

/-- All the bytes of a seed. -/
def allBytes (s : Seed) : List (Array × Nat) :=
  s.flatMap fun p => (List.range p.1.size).map (p.1, ·)

theorem mem_allBytes : x ∈ allBytes s ↔ x.1 ∈ s.map Prod.fst ∧ x.2 < x.1.size := by
  simp only [allBytes, List.mem_flatMap, List.mem_map, List.mem_range]
  constructor
  · rintro ⟨p, hp, i, hi, rfl⟩
    exact ⟨⟨p, hp, rfl⟩, hi⟩
  · rintro ⟨⟨p, hp, hx⟩, hi⟩
    exact ⟨p, hp, x.2, hx ▸ hi, by rw [hx]⟩

theorem allBytes_nodup (h : s.Full) : (allBytes s).Nodup := by
  have hkeys := h.keys
  unfold allBytes
  rw [List.nodup_flatMap]
  refine ⟨fun p _ => List.nodup_range.map fun i j hij => (Prod.mk.inj hij).2, ?_⟩
  rw [List.nodup_iff_pairwise_ne, List.pairwise_map] at hkeys
  refine hkeys.imp fun hpq => ?_
  rintro ⟨a, i⟩ hx hy
  obtain ⟨j, -, hj⟩ := List.mem_map.mp hx
  obtain ⟨k, -, hk⟩ := List.mem_map.mp hy
  exact hpq ((Prod.mk.inj hj).1.trans (Prod.mk.inj hk).1.symm)

/-- Assignments that agree on the bytes of a seed agree on what only involves its arrays. -/
theorem holds_congr {e : Expr} (hbound : ∀ r ∈ e.reads,
      r.1 ∈ s.map Prod.fst ∨ r.1 ∉ s.map Prod.fst ∧ r.1.constantValues ≠ [])
    {σ τ : Assignment} (hσ : σ.Bounded) (hτ : τ.Bounded)
    (heq : ∀ x ∈ allBytes s, σ x.1 x.2 = τ x.1 x.2) : e.Holds σ ↔ e.Holds τ := by
  unfold Expr.Holds
  rw [Expr.value_congr hσ hτ]
  rintro r hr ⟨a, i⟩ ⟨ha, -⟩
  obtain rfl : r.1 = a := ha
  rcases hbound r hr with hkey | ⟨-, hconst⟩
  · by_cases hi : i < r.1.size
    · exact heq (r.1, i) (mem_allBytes.mpr ⟨hkey, hi⟩)
    · rw [hσ r.1 i (.inr (Nat.not_lt.mp hi)), hτ r.1 i (.inr (Nat.not_lt.mp hi))]
  · rw [hσ r.1 i (.inl hconst), hτ r.1 i (.inl hconst)]

/-- After the first loop it matters only whether the condition holds too early. -/
theorem patches_iff_first (S : SeedSolver) (h : Given cs condition order s)
    (hlisted : ∀ x ∈ order, Listed s x) :
    ∃ tmp s₁, AllPatched order (cs ++ [condition]) s tmp s₁ ∧
      patchBytes S order (cs ++ [condition]) s = some (tmp, s₁) ∧
      (Patches S cs condition order s ↔
        (condition.Holds s₁.assignment → ∀ c ∈ cs, c.Holds s₁.assignment)) := by
  obtain ⟨tmp, s₁, hrun, h₁⟩ := patchBytes_spec (S := S) h.nodup h.full hlisted h.satisfiable
  refine ⟨tmp, s₁, h₁, hrun, ?_⟩
  obtain ⟨r, hmay, hr⟩ := mayHold_eq (S := S) h h₁.full h₁.keys
  cases r with
  | true =>
    have hc : condition.Holds s₁.assignment := hr.mp rfl
    have hpatch : patchSeed S cs condition order s = some s₁ := by
      unfold patchSeed
      rw [hrun]
      simp only [Option.bind_eq_bind, Option.bind_some, hmay]
      rfl
    constructor
    · rintro ⟨s', hs', hall⟩ - c hcs
      cases hpatch.symm.trans hs'
      exact hall c (List.mem_append_left _ hcs)
    · intro hcs
      refine ⟨s₁, hpatch, fun c hmem => ?_⟩
      rcases List.mem_append.mp hmem with hmem | hmem
      · exact hcs hc c hmem
      · cases List.mem_singleton.mp hmem
        exact hc
  | false =>
    have hno : ¬ condition.Holds s₁.assignment := fun hc => Bool.noConfusion (hr.mpr hc)
    refine ⟨fun _ hc => absurd hc hno, fun _ => ?_⟩
    have hlisted₁ : ∀ x ∈ allBytes s₁, Listed s₁ x := fun x hx => .inl (mem_allBytes.mp hx)
    obtain ⟨tmp₂, s₂, hrun₂, h₂⟩ :=
      patchBytes_spec (S := S) (allBytes_nodup h₁.full) h₁.full hlisted₁ h₁.nonempty
    have hkeys := h₂.keys.trans h₁.keys
    have hall : ∀ c ∈ cs ++ [condition], c.Holds s₂.assignment := by
      intro c hc
      obtain ⟨σ, hσ⟩ := h₂.nonempty
      have hσ₂ := (h₂.models σ).mp hσ
      have hσ₁ := (h₁.models σ).mp hσ₂.1
      rw [← holds_congr (s := s₁) ?_ hσ₁.1.1 h₂.full.bounded hσ₂.2]
      · exact hσ₁.1.2 c hc
      · rw [h₁.keys]
        exact h.bound c hc
    obtain ⟨r₂, hmay₂, hr₂⟩ := mayHold_eq (S := S) h h₂.full hkeys
    have hr₂ : r₂ = true := hr₂.mpr (hall condition (List.mem_append_right _ (by simp)))
    refine ⟨s₂, ?_, hall⟩
    unfold patchSeed
    rw [hrun]
    unfold allBytes at hrun₂
    simp only [Option.bind_eq_bind, Option.bind_some, hmay, Bool.false_eq_true, ↓reduceIte, hrun₂,
      hmay₂, hr₂]
    rfl

theorem reads_of_findReads {e : Expr} {r : Array × Expr} (h : r ∈ findReads e) :
    ∃ us, (r.1, us, r.2) ∈ e.reads := by
  induction e using Expr.rec (motive_2 := fun _ => True) with
  | constant w v => cases h
  | notOptimized e ih | extract e off w ih | zext e w ih | sext e w ih | not e ih => exact ih h
  | read a us i _ ih =>
    rcases List.mem_cons.mp h with rfl | h
    · exact ⟨us, List.mem_cons_self⟩
    · obtain ⟨vs, hr⟩ := ih h
      exact ⟨vs, List.mem_cons_of_mem _ (List.mem_append_left _ hr)⟩
  | select c t f hc ht hf =>
    rcases List.mem_append.mp h with h | h
    · rcases List.mem_append.mp h with h | h
      · obtain ⟨us, hr⟩ := hc h
        exact ⟨us, List.mem_append_left _ (List.mem_append_left _ hr)⟩
      · obtain ⟨us, hr⟩ := ht h
        exact ⟨us, List.mem_append_left _ (List.mem_append_right _ hr)⟩
    · obtain ⟨us, hr⟩ := hf h
      exact ⟨us, List.mem_append_right _ hr⟩
  | concat l r hl hr | binary k l r hl hr =>
    rcases List.mem_append.mp h with h | h
    · obtain ⟨us, hread⟩ := hl h
      exact ⟨us, List.mem_append_left _ hread⟩
    · obtain ⟨us, hread⟩ := hr h
      exact ⟨us, List.mem_append_right _ hread⟩
  | nil => trivial
  | cons => trivial

theorem Given.inRange (h : Given cs condition order s)
    (hrange : ∀ x ∈ order, x.1 ∈ s.map Prod.fst → x.2 < x.1.size) : ∀ x ∈ order, Listed s x := by
  intro x hx
  obtain ⟨⟨a, i⟩, hr, hdirect⟩ := List.mem_filterMap.mp (h.listed x hx)
  obtain ⟨us, hread⟩ := reads_of_findReads hr
  have ha : x.1 = a := by
    cases i with
    | constant w c =>
      cases hdirect
      rfl
    | _ => cases hdirect
  rcases h.bound condition (List.mem_append_right _ (by simp)) _ hread with hkey | hconst
  · rw [← ha] at hkey
    exact .inl ⟨hkey, hrange x hx hkey⟩
  · rw [← ha] at hconst
    exact .inr hconst

open Classical in
/-- The solver that picks the values of an assignment, where it can. -/
noncomputable def following (τ : Assignment) : SeedSolver where
  mayBeTrue cs e := decide (∃ σ ∈ Models cs, e.Holds σ)
  exact _ _ := decide_eq_true_iff
  getValue cs e :=
    if ∃ σ ∈ Models cs, e.value σ = e.value τ then e.value τ
    else if h : (Models cs).Nonempty then e.value h.some else 0
  value cs e h := by
    split
    · rename_i hτ
      obtain ⟨σ, hσ, heq⟩ := hτ
      exact ⟨σ, hσ, heq.symm⟩
    · exact ⟨h.some, h.some_mem, rfl⟩

theorem following_follows (τ : Assignment) : Follows (following τ) τ := fun _ _ h => if_pos h

/-- What has to hold of the values that the directly read bytes can get. -/
def Separate (cs : List Expr) (condition : Expr) (order : List (Array × Nat)) (s : Seed) : Prop :=
  (∀ x ∈ order, x.1 ∈ s.map Prod.fst → x.2 < x.1.size) ∧
    ∀ τ : Assignment, (∀ x ∉ order, τ x.1 x.2 = s.assignment x.1 x.2) →
      LeastPatch s.assignment τ (Models (cs ++ [condition])) order →
      (∃ σ ∈ Models (cs ++ [condition]), ∀ x ∈ order, σ x.1 x.2 = τ x.1 x.2) →
      condition.Holds τ → ∀ c ∈ cs, c.Holds τ

theorem separate_of_patches (h : Given cs condition order s)
    (hall : ∀ S, Patches S cs condition order s) : Separate cs condition order s := by
  have hrange : ∀ x ∈ order, x.1 ∈ s.map Prod.fst → x.2 < x.1.size := by
    obtain ⟨s', hrun, -⟩ := hall (following s.assignment)
    obtain ⟨⟨tmp, s₁⟩, hfirst, -⟩ := Option.bind_eq_some_iff.mp hrun
    exact patchBytes_inRange h.full hfirst
  refine ⟨hrange, fun τ hoff hleast hfeasible hτ => ?_⟩
  have hlisted := h.inRange hrange
  obtain ⟨tmp, s₁, h₁, hrun, hiff⟩ := patches_iff_first (following τ) h hlisted
  have hon := patchBytes_follows (following_follows τ) h.nodup h.full hlisted hleast hfeasible hrun
  have heq : s₁.assignment = τ := by
    funext a i
    by_cases hx : (a, i) ∈ order
    · exact hon _ hx
    · exact (h₁.other _ hx).trans (hoff _ hx).symm
  have hcs := hiff.mp (hall (following τ))
  rw [heq] at hcs
  exact hcs hτ

theorem patches_of_separate (h : Given cs condition order s) (hsep : Separate cs condition order s)
    (S : SeedSolver) : Patches S cs condition order s := by
  obtain ⟨tmp, s₁, h₁, -, hiff⟩ := patches_iff_first S h (h.inRange hsep.1)
  refine hiff.mpr (hsep.2 s₁.assignment h₁.other h₁.least ?_)
  obtain ⟨σ, hσ⟩ := h₁.nonempty
  exact ⟨σ, (h₁.models σ).mp hσ⟩

def key : Array := { name := "key", size := 2 }

def keyByte (i : Nat) : Expr := .read key .nil (const i 32)

def firstIsFive : Expr := .binary .eq (const 5 8) (keyByte 0)

def bytesEqual : Expr := .binary .eq (keyByte 0) (keyByte 1)

/-- The seed with two bytes for the key. -/
def keySeed (x y : BitVec 8) : Seed := [(key, [x, y])]

theorem keySeed_full (x y : BitVec 8) : (keySeed x y).Full := by
  refine ⟨List.nodup_singleton _, ?_, ?_⟩
  · intro p hp
    cases List.mem_singleton.mp hp
    rfl
  · intro p hp
    cases List.mem_singleton.mp hp
    exact ⟨rfl, rfl, (by decide : 2 < 2 ^ 32), rfl⟩

theorem firstIsFive_evaluates {s : Seed} (hs : s.Full) (hk : s.map Prod.fst = [key]) :
    ExprEvaluator.GivesValue s.toBindings firstIsFive := by
  have hbinds : s.toBindings.Binds key := by
    have hmem : key ∈ s.map Prod.fst := hk ▸ List.mem_singleton.mpr rfl
    obtain ⟨bytes, hf⟩ := Seed.find_isSome hmem
    exact ⟨by decide, nofun, fun _ => ⟨bytes, hf, hs.length _ (Seed.mem_of_find hf)⟩⟩
  refine ExprEvaluator.Fit.givesValue ⟨⟨trivial, ⟨trivial, trivial, rfl⟩, rfl⟩, ?_, ?_⟩
  · exact ⟨nofun, trivial, ⟨(by decide : 0 % 2 ^ 32 < 2), hbinds⟩, trivial, trivial⟩
  · exact ⟨trivial, trivial, (by decide : 32 ≤ 64), trivial, trivial⟩

theorem given_firstIsFive {cs : List Expr} {x y : BitVec 8}
    (ht : ∀ c ∈ cs, c.WellTyped ∧ c.getWidth = 1) (hr : ∀ c ∈ cs, ∀ r ∈ c.reads, r.1 = key)
    (hsat : (Models (cs ++ [firstIsFive])).Nonempty)
    (hc : ∀ c ∈ cs, c.Holds (keySeed x y).assignment) :
    Given cs firstIsFive [(key, 0)] (keySeed x y) where
  full := keySeed_full x y
  typed := by
    rw [List.forall_mem_append, List.forall_mem_singleton]
    exact ⟨ht, ⟨trivial, ⟨trivial, trivial, rfl⟩, rfl⟩, rfl⟩
  bound := by
    rw [List.forall_mem_append, List.forall_mem_singleton]
    refine ⟨fun c hc r hread => .inl ?_, fun r hread => .inl ?_⟩
    · rw [hr c hc r hread]
      exact List.mem_singleton.mpr rfl
    · cases List.mem_singleton.mp hread
      exact List.mem_singleton.mpr rfl
  listed _ hx := hx
  all _ hx := hx
  nodup := List.nodup_singleton _
  evaluates _ hs hk := firstIsFive_evaluates hs hk
  satisfiable := hsat
  holds := hc

end SeedInfo

end Encider
