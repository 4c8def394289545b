import Encider.Expr.Over
import Encider.Lib.Guarded
import Encider.Smtlib.Values
import Encider.Solver.Z3Builder

/-! What is in the caches of `Z3Builder`: terms that have the values of their expressions in every
model that gives the arrays their contents. -/

namespace Encider

open Z3 Z3.Handle Z3Builder

/-- Arrays of booleans are not read; the elements of a constant array have an index each. -/
structure Array.Buildable (a : Array) : Prop where
  domain : 1 < a.domain
  range : 1 < a.range
  size : a.isConstantArray = true → a.constantValues.length = a.size
  indices : a.isConstantArray = true → a.size ≤ 2 ^ a.domain ∧ a.size ≤ 2 ^ 32

/-- What the builder asserts: the operations on words are not on booleans, and some comparisons do
not occur. A constant amount to shift by is not cut off below the width. -/
def BinaryKind.Buildable (l r : Expr) : BinaryKind → Prop
  | .and | .or | .xor | .eq => True
  | .shl | .lshr | .ashr => l.getWidth ≠ 1 ∧ l.getWidth < 2 ^ 32 ∧
      ∀ w v, r = .constant w v → l.getWidth ≤ v.toNat → l.getWidth ≤ limitedValue v
  | .ne | .ugt | .uge | .sgt | .sge => False
  | _ => l.getWidth ≠ 1

mutual
def Expr.Buildable : Expr → Prop
  | .constant w _ => 0 < w
  | .notOptimized e => e.Buildable
  | .read a us i => a.Buildable ∧ us.Buildable ∧ i.Buildable
  | .select c t f => c.Buildable ∧ t.Buildable ∧ f.Buildable
  | .concat l r => l.Buildable ∧ r.Buildable ∧ l.getWidth ≠ 1 ∧ r.getWidth ≠ 1
  | .extract e _ _ => e.Buildable ∧ e.getWidth ≠ 1
  | .zext e w => e.Buildable ∧ e.getWidth < w
  | .sext e w => e.Buildable ∧ w ≠ 1
  | .not e => e.Buildable
  | .binary k l r => l.Buildable ∧ r.Buildable ∧ k.Buildable l r

def UpdateList.Buildable : UpdateList → Prop
  | .nil => True
  | .cons i v next => i.Buildable ∧ v.Buildable ∧ next.Buildable
end

theorem Expr.Buildable.pos {e : Expr} (h : e.Buildable) (ht : e.WellTyped) : 0 < e.getWidth := by
  induction e using Expr.rec (motive_2 := fun _ => True) with
  | constant w v => exact h
  | notOptimized e ih => exact ih h ht
  | read a us i => exact Nat.zero_lt_of_lt h.1.range
  | select c t f hc htr hf => exact htr h.2.1 ht.2.1
  | concat l r hl hr => exact Nat.add_pos_left (hl h.1 ht.1) _
  | extract e o w ih => exact ht.2.1
  | zext e w ih => exact Nat.zero_lt_of_lt h.2
  | sext e w ih => exact (ih h.1 ht.1).trans_le ht.2
  | not e ih => exact ih h ht
  | binary k l r hl hr =>
    simp only [getWidth]
    split
    · exact Nat.one_pos
    · exact hl h.1 ht.1
  | nil => trivial
  | cons => trivial

namespace Z3Builder

section

variable {W V : Set Model} {a : Handle} {w n m : ℕ}

theorem Shows.bits (h : Shows W w n a) (hw : w ≠ 1) : a.Bits W w n := by
  rwa [Shows, if_neg hw] at h

theorem Shows.truth (h : Shows W w n a) (hw : w = 1) : a.Truth W (n = 1) := by
  rwa [Shows, if_pos hw] at h

theorem Bits.shows (h : a.Bits W w n) (hw : w ≠ 1) : Shows W w n a := by
  rwa [Shows, if_neg hw]

theorem Truth.shows (h : a.Truth W (n = 1)) (hw : w = 1) : Shows W w n a := by
  rwa [Shows, if_pos hw]

theorem Shows.mono (h : Shows W w n a) (hW : V ⊆ W) : Shows V w n a := by
  unfold Shows at h ⊢
  split_ifs at h ⊢
  · exact Truth.mono h hW
  · exact Handle.Bits.mono h hW

theorem Shows.congr (h : Shows W w n a) (hnm : W.Nonempty → n = m) : Shows W w m a := by
  unfold Shows at h ⊢
  split_ifs at h ⊢
  · exact Truth.congr h fun hW => by rw [hnm hW]
  · exact Handle.Bits.congr h hnm

end

namespace State

/-- The variable of an array, if it has one, has the initial contents of the array. -/
def Reads (s : State) (σ : Assignment) (ρ : Model) (a : Array) : Prop :=
  ∀ h, s.arrays.lookup a = some h →
    h.Contents {ρ} a.domain a.range fun i => (a.initial σ i).toNat

/-- The models in which the arrays of an expression have their contents, if it divides by nothing
that is zero. -/
def models (s : State) (σ : Assignment) (e : Expr) : Set Model :=
  {ρ | e.NoZeroDivisor σ ∧ e.Over (s.Reads σ ρ)}

def writeModels (s : State) (σ : Assignment) (a : Array) (us : UpdateList) : Set Model :=
  {ρ | us.NoZeroDivisor σ ∧ us.Over (s.Reads σ ρ) ∧ s.Reads σ ρ a}

/-- The array has a variable. -/
def Has (s : State) (a : Array) : Prop := (s.arrays.lookup a).isSome = true

/-- What the term with a width says of the expression. -/
def Means (σ : Assignment) (e : Expr) (s : State) (r : Handle × ℕ) : Prop :=
  r.2 = e.getWidth ∧ Shows (s.models σ e) e.getWidth (e.value σ) r.1

def Built (σ : Assignment) (e : Expr) (s : State) (r : Handle × ℕ) : Prop :=
  e.Over s.Has ∧ s.Means σ e r

def BuiltArray (σ : Assignment) (a : Array) (us : UpdateList) (s : State) (h : Handle) : Prop :=
  (us.Over s.Has ∧ s.Has a) ∧ h.Contents (s.writeModels σ a us) a.domain a.range
    fun i => (us.contents σ a i).toNat

/-- No array loses its variable. -/
def Extends (s s' : State) : Prop :=
  ∀ a h, s.arrays.lookup a = some h → s'.arrays.lookup a = some h

/-- The assertions are that the elements of a constant array are in its variable. -/
def Asserts (a : Array) (h : Handle) (assertions : List Handle) : Prop :=
  ∀ ρ f, h.Contents {ρ} a.domain a.range f →
    ((∀ c ∈ assertions, c.Truth {ρ} True) ↔ ∀ i v, a.constantValues[i]? = some v → f i = v.toNat)

/-- The variable that an array gets when there are `count` others. -/
def variableOf (a : Array) (count : ℕ) : Handle :=
  ⟨.const (String.ofList (buildArray (uniqueName a.name.toList count))) (.array a.domain a.range)⟩

/-- The arrays in the hash, the newest first. -/
inductive Named : List (Array × Handle) → Prop where
  | nil : Named []
  | cons {l : List (Array × Handle)} (a : Array) (h : Named l) :
      Named ((a, variableOf a l.length) :: l)

structure Sound (s : State) (σ : Assignment) : Prop where
  constructed : ∀ p ∈ s.constructed, Built σ p.1 s p.2
  updates : ∀ p ∈ s.updates, BuiltArray σ p.1.1 p.1.2 s p.2
  named : Named s.arrays
  assertions : ∀ a h, s.arrays.lookup a = some h → a.isConstantArray = true →
    ∃ assertions, s.constantArrayAssertions.lookup a = some assertions ∧ Asserts a h assertions
  fresh : ∀ a, s.arrays.lookup a = none → s.constantArrayAssertions.lookup a = none

theorem Named.lookup {l : List (Array × Handle)} (hl : Named l) {a : Array} {h : Handle}
    (ha : l.lookup a = some h) : ∃ i < l.length, h = variableOf a i := by
  induction hl with
  | nil => cases ha
  | @cons l b hl ih =>
    by_cases hab : a = b
    · subst hab
      rw [List.lookup_cons_self] at ha
      exact ⟨l.length, Nat.lt_succ_self _, (Option.some.inj ha).symm⟩
    · rw [List.lookup_cons, beq_eq_false_iff_ne.mpr hab] at ha
      obtain ⟨i, hi, heq⟩ := ih ha
      exact ⟨i, Nat.lt_succ_of_lt hi, heq⟩

theorem Sound.isConst {s : State} {σ : Assignment} (hs : s.Sound σ) {a : Array} {h : Handle}
    (ha : s.arrays.lookup a = some h) : ∃ name, h = ⟨.const name (.array a.domain a.range)⟩ := by
  obtain ⟨i, -, heq⟩ := hs.named.lookup ha
  exact ⟨_, heq⟩

theorem Extends.refl (s : State) : s.Extends s := fun _ _ h => h

theorem Extends.trans {s s' s'' : State} (h : s.Extends s') (h' : s'.Extends s'') :
    s.Extends s'' := fun a t ha => h' a t (h a t ha)

section

variable {s s' : State} {σ : Assignment} {ρ : Model} {a : Array} {us : UpdateList} {e : Expr}

theorem Extends.reads (h : s.Extends s') (hr : s'.Reads σ ρ a) : s.Reads σ ρ a :=
  fun t ht => hr t (h a t ht)

theorem Extends.models (h : s.Extends s') : s'.models σ e ⊆ s.models σ e :=
  fun _ hρ => ⟨hρ.1, over_mono (fun _ => h.reads) hρ.2⟩

theorem Extends.writeModels (h : s.Extends s') : s'.writeModels σ a us ⊆ s.writeModels σ a us :=
  fun _ hρ => ⟨hρ.1, writes_over_mono (fun _ => h.reads) hρ.2.1, h.reads hρ.2.2⟩

theorem Extends.has (h : s.Extends s') (ha : s.Has a) : s'.Has a := by
  obtain ⟨t, ht⟩ := Option.isSome_iff_exists.mp ha
  rw [Has, h a t ht]
  rfl

theorem Extends.built (h : s.Extends s') {r : Handle × ℕ} (hr : Built σ e s r) : Built σ e s' r :=
  ⟨over_mono (fun _ => h.has) hr.1, hr.2.1, hr.2.2.mono h.models⟩

theorem Extends.builtArray (h : s.Extends s') {t : Handle} (ht : BuiltArray σ a us s t) :
    BuiltArray σ a us s' t :=
  ⟨⟨writes_over_mono (fun _ => h.has) ht.1.1, h.has ht.1.2⟩, ht.2.mono h.writeModels⟩

theorem Sound.empty : ({} : State).Sound σ where
  constructed := List.forall_mem_nil _
  updates := List.forall_mem_nil _
  named := .nil
  assertions a h ha := by cases ha
  fresh _ _ := rfl

theorem Sound.addConstructed (h : s.Sound σ) {r : Handle × ℕ} (hr : Built σ e s r) :
    ({ s with constructed := (e, r) :: s.constructed } : State).Sound σ where
  constructed := List.forall_mem_cons.mpr ⟨hr, h.constructed⟩
  updates := h.updates
  named := h.named
  assertions := h.assertions
  fresh := h.fresh

theorem Sound.addUpdate (h : s.Sound σ) {t : Handle} (ht : BuiltArray σ a us s t) :
    ({ s with updates := ((a, us), t) :: s.updates } : State).Sound σ where
  constructed := h.constructed
  updates := List.forall_mem_cons.mpr ⟨ht, h.updates⟩
  named := h.named
  assertions := h.assertions
  fresh := h.fresh

theorem Sound.clear (h : s.Sound σ) : ({ s with constructed := [] } : State).Sound σ where
  constructed := List.forall_mem_nil _
  updates := h.updates
  named := h.named
  assertions := h.assertions
  fresh := h.fresh

end

end State

instance : IsPreorder State State.Extends where
  refl := .refl
  trans _ _ _ := .trans

/-- From a sound state the computation returns, keeps the state sound, and has the property. -/
abbrev Builds {α : Type} (σ : Assignment) (s : State) (m : Construct α) (Q : State → α → Prop) :
    Prop :=
  Guarded.Advances (fun s => s.Sound σ) State.Extends s m Q

section arrays

variable {σ : Assignment} {W : Set Model} {a : Array} {h : Handle} {f : ℕ → ℕ} {i : ℕ}

theorem Truth.iff {ρ : Model} {p q : Prop} (hp : h.Truth {ρ} p) (hq : h.Truth {ρ} q) : p ↔ q := by
  obtain ⟨t, rfl, ht⟩ := hp
  obtain ⟨u, hu, hq⟩ := hq
  cases hu
  exact (ht ρ rfl).symm.trans (hq ρ rfl)

theorem elementAssertion_gives (ha : a.Buildable) (hc : a.isConstantArray = true)
    (hi : i < a.size) (hh : h.Contents W a.domain a.range f) :
    Gives (elementAssertion a h i)
      (Truth W (∀ v, a.constantValues[i]? = some v → f i = v.toNat)) := by
  have hlt : i < a.constantValues.length := (ha.size hc).symm ▸ hi
  have hindices := ha.indices hc
  unfold elementAssertion
  rw [List.getElem?_eq_getElem hlt]
  refine (constructConstant_shows (W := W) (Nat.zero_lt_of_lt ha.range) _).bind
    fun value hvalue => ?_
  have hvalue := hvalue.bits (Nat.ne_of_gt ha.range)
  refine (bvConst32_bits W (Nat.zero_lt_of_lt ha.domain) (by omega) (by omega)).bind
    fun index hindex => ?_
  refine (mkSelect_bits hh hindex).bind fun element helement => ?_
  refine (mkEq_bits helement hvalue).imp fun _ heq => heq.congr fun _ => ?_
  simp

/-- The assertion says the same in every model. -/
theorem elementAssertion_asserts (ha : a.Buildable) (hc : a.isConstantArray = true)
    (hi : i < a.size) (name : String) :
    Gives (elementAssertion a ⟨.const name (.array a.domain a.range)⟩ i) fun c => ∀ ρ f,
      Contents {ρ} a.domain a.range f ⟨.const name (.array a.domain a.range)⟩ →
      c.Truth {ρ} (∀ v, a.constantValues[i]? = some v → f i = v.toNat) := by
  have hnone : Contents ∅ a.domain a.range (fun _ => 0)
      ⟨.const name (.array a.domain a.range)⟩ :=
    ⟨_, rfl, fun _ hρ => absurd hρ (Set.notMem_empty _)⟩
  obtain ⟨c, hrun, -⟩ := elementAssertion_gives ha hc hi hnone
  refine ⟨c, hrun, fun ρ f hf => ?_⟩
  obtain ⟨c', hrun', hc'⟩ := elementAssertion_gives ha hc hi hf
  rw [hrun] at hrun'
  cases hrun'
  exact hc'

/-- What is built for every element of a list. -/
theorem mapM_gives {l : List ℕ} {g : ℕ → Option Handle} {P : ℕ → Handle → Prop}
    (hg : ∀ i ∈ l, Gives (g i) (P i)) :
    Gives (l.mapM g) fun cs => (∀ c ∈ cs, ∃ i ∈ l, P i c) ∧ ∀ i ∈ l, ∃ c ∈ cs, P i c := by
  induction l with
  | nil => exact ⟨[], rfl, List.forall_mem_nil _, List.forall_mem_nil _⟩
  | cons i l ih =>
    rw [List.forall_mem_cons] at hg
    obtain ⟨c, hrun, hc⟩ := hg.1
    obtain ⟨cs, hruns, hcs, hl⟩ := ih hg.2
    refine ⟨c :: cs, by simp [List.mapM_cons, hrun, hruns], ?_, ?_⟩
    · rw [List.forall_mem_cons]
      refine ⟨⟨i, List.mem_cons_self, hc⟩, fun c' hc' => ?_⟩
      obtain ⟨j, hj, hp⟩ := hcs c' hc'
      exact ⟨j, List.mem_cons_of_mem _ hj, hp⟩
    · rw [List.forall_mem_cons]
      refine ⟨⟨c, List.mem_cons_self, hc⟩, fun j hj => ?_⟩
      obtain ⟨c', hc', hp⟩ := hl j hj
      exact ⟨c', List.mem_cons_of_mem _ hc', hp⟩

theorem assertions_gives (ha : a.Buildable) (hc : a.isConstantArray = true) (name : String) :
    Gives ((List.range a.size).mapM
        (elementAssertion a ⟨.const name (.array a.domain a.range)⟩))
      (State.Asserts a ⟨.const name (.array a.domain a.range)⟩) := by
  refine (mapM_gives fun i hi =>
    elementAssertion_asserts ha hc (List.mem_range.mp hi) name).imp fun cs hcs ρ f hf => ?_
  constructor
  · intro hall i v hv
    have hi : i < a.size := (ha.size hc) ▸ (List.getElem?_eq_some_iff.mp hv).1
    obtain ⟨c, hmem, hp⟩ := hcs.2 i (List.mem_range.mpr hi)
    exact (Truth.iff (hp ρ f hf) (hall c hmem)).mpr trivial v hv
  · intro hall c hmem
    obtain ⟨i, -, hp⟩ := hcs.1 c hmem
    exact (hp ρ f hf).congr fun _ => iff_of_true (hall i) trivial

/-- A new array comes into the hash, with its assertions if it is constant. -/
theorem Sound.addArray {s : State} (hs : s.Sound σ) (hnew : s.arrays.lookup a = none)
    (assertions : List (Array × List Handle))
    (hsame : ∀ b, b ≠ a → assertions.lookup b = s.constantArrayAssertions.lookup b)
    (hown : a.isConstantArray = true → ∃ cs, assertions.lookup a = some cs ∧
      State.Asserts a (State.variableOf a s.arrays.length) cs) :
    s.Extends { s with
      arrays := (a, State.variableOf a s.arrays.length) :: s.arrays,
      constantArrayAssertions := assertions } ∧
    ({ s with
      arrays := (a, State.variableOf a s.arrays.length) :: s.arrays,
      constantArrayAssertions := assertions } : State).Sound σ := by
  have hother : ∀ b t, b ≠ a → List.lookup b ((a, t) :: s.arrays) = s.arrays.lookup b := by
    intro b t hb
    rw [List.lookup_cons, beq_eq_false_iff_ne.mpr hb]
  have hext : s.Extends { s with
      arrays := (a, State.variableOf a s.arrays.length) :: s.arrays,
      constantArrayAssertions := assertions } := by
    intro b t ht
    have hb : b ≠ a := by
      rintro rfl
      rw [hnew] at ht
      cases ht
    exact (hother b _ hb).trans ht
  refine ⟨hext, fun p hp => hext.built (hs.constructed p hp),
    fun p hp => hext.builtArray (hs.updates p hp), .cons a hs.named, fun b t ht hb => ?_,
    fun b hb => ?_⟩
  · by_cases hba : b = a
    · subst hba
      rw [List.lookup_cons_self] at ht
      cases ht
      exact hown hb
    · rw [hother b _ hba] at ht
      rw [hsame b hba]
      exact hs.assertions b t ht hb
  · have hba : b ≠ a := by
      rintro rfl
      rw [List.lookup_cons_self] at hb
      cases hb
    rw [hother b _ hba] at hb
    exact (hsame b hba).trans (hs.fresh b hb)

/-- The variable of an array has its contents where it is read so. -/
theorem variable_built {s : State} (name : String)
    (hlookup : s.arrays.lookup a = some ⟨.const name (.array a.domain a.range)⟩) :
    State.BuiltArray σ a .nil s ⟨.const name (.array a.domain a.range)⟩ := by
  refine ⟨⟨trivial, by simp [State.Has, hlookup]⟩, _, rfl, fun ρ hρ i => ?_⟩
  obtain ⟨t, ht, hcontents⟩ := hρ.2.2 _ hlookup
  cases ht
  exact hcontents ρ rfl i

theorem getInitialArray_builds (ha : a.Buildable) (s : State) :
    Builds σ s (State.getInitialArray a) (State.BuiltArray σ a .nil) := by
  intro hs
  cases hlookup : s.arrays.lookup a with
  | some h =>
    obtain ⟨name, rfl⟩ := hs.isConst hlookup
    exact ⟨_, s, by simp [State.getInitialArray, hlookup], hs, .refl s, variable_built name hlookup⟩
  | none =>
    have hterm : arrayTerm a s.arrays.length = some (State.variableOf a s.arrays.length) :=
      if_pos ⟨Nat.zero_lt_of_lt ha.domain, Nat.zero_lt_of_lt ha.range⟩
    cases hc : a.isConstantArray with
    | true =>
      obtain ⟨cs, hrun, hcs⟩ := assertions_gives ha hc
        (String.ofList (buildArray (uniqueName a.name.toList s.arrays.length)))
      have hsame : ∀ b, b ≠ a → List.lookup b ((a, cs) :: s.constantArrayAssertions) =
          s.constantArrayAssertions.lookup b := by
        intro b hb
        rw [List.lookup_cons, beq_eq_false_iff_ne.mpr hb]
      obtain ⟨hext, hs'⟩ := Sound.addArray hs hlookup _ hsame fun _ =>
        ⟨cs, List.lookup_cons_self, hcs⟩
      refine ⟨_, _, ?_, hs', hext, variable_built _ List.lookup_cons_self⟩
      change _ = some (State.variableOf a s.arrays.length, _)
      simp [State.getInitialArray, hlookup, hterm, hc, hs.fresh a hlookup, State.variableOf, hrun]
    | false =>
      obtain ⟨hext, hs'⟩ := Sound.addArray hs hlookup s.constantArrayAssertions
        (fun _ _ => rfl) fun h => by rw [hc] at h; cases h
      refine ⟨_, _, ?_, hs', hext, variable_built _ List.lookup_cons_self⟩
      change _ = some (State.variableOf a s.arrays.length, _)
      simp [State.getInitialArray, hlookup, hterm, hc]

end arrays

end Z3Builder

end Encider
