import Encider.Solver.Z3Constructs
import Encider.Solver.Z3Solver

/-! Whatever it has been asked before, the solver answers a query as Z3's answer allows. -/

namespace Encider

open Z3 Z3.Handle Z3Builder Guarded Encider.Expr

/-- What holds of every array that is read, and may use that a constant one is found. -/
theorem over_of_found {P P' : Array → Prop} {e : Expr} (he : e.Over P)
    (h : ∀ a, P a → (a.isConstantArray = true → a ∈ e.constantArrays) → P' a) : e.Over P' := by
  induction e using Expr.rec (motive_2 := fun us => us.Over P →
    (∀ a, P a → (a.isConstantArray = true → a ∈ us.constantArrays) → P' a) → us.Over P') with
  | constant w v => trivial
  | notOptimized e ih | extract e _ _ ih | zext e _ ih | sext e _ ih | not e ih => exact ih he h
  | read a us i hus hi =>
    simp only [Expr.constantArrays, List.mem_append] at h
    refine ⟨h a he.1 fun hc => by simp [hc], hus he.2.1 fun b hb hfound => ?_,
      hi he.2.2 fun b hb hfound => ?_⟩
    · exact h b hb fun hc => .inl (.inl (hfound hc))
    · exact h b hb fun hc => .inr (hfound hc)
  | select c t f hc ht hf =>
    simp only [Expr.constantArrays, List.mem_append] at h
    refine ⟨hc he.1 fun b hb hfound => ?_, ht he.2.1 fun b hb hfound => ?_,
      hf he.2.2 fun b hb hfound => ?_⟩
    · exact h b hb fun hc => .inl (.inl (hfound hc))
    · exact h b hb fun hc => .inl (.inr (hfound hc))
    · exact h b hb fun hc => .inr (hfound hc)
  | concat l r hl hr | binary k l r hl hr =>
    simp only [Expr.constantArrays, List.mem_append] at h
    refine ⟨hl he.1 fun b hb hfound => ?_, hr he.2 fun b hb hfound => ?_⟩
    · exact h b hb fun hc => .inl (hfound hc)
    · exact h b hb fun hc => .inr (hfound hc)
  | nil => trivial
  | cons i v next hi hv hnext =>
    rename_i hover h
    simp only [UpdateList.constantArrays, List.mem_append] at h
    refine ⟨hi hover.1 fun b hb hfound => ?_, hv hover.2.1 fun b hb hfound => ?_,
      hnext hover.2.2 fun b hb hfound => ?_⟩
    · exact h b hb fun hc => .inl (.inl (hfound hc))
    · exact h b hb fun hc => .inl (.inr (hfound hc))
    · exact h b hb fun hc => .inr (hfound hc)

theorem isConstantArray_of_found {e : Expr} {P : Array → Prop} (he : e.Over P) {a : Array}
    (ha : a ∈ e.constantArrays) : a.isConstantArray = true ∧ P a := by
  induction e using Expr.rec (motive_2 := fun us => us.Over P → a ∈ us.constantArrays →
    a.isConstantArray = true ∧ P a) with
  | constant w v => cases ha
  | notOptimized e ih | extract e _ _ ih | zext e _ ih | sext e _ ih | not e ih => exact ih he ha
  | read b us i hus hi =>
    simp only [Expr.constantArrays, List.mem_append] at ha
    obtain (ha | ha) | ha := ha
    · exact hus he.2.1 ha
    · split at ha
      · rename_i hb
        obtain rfl := List.mem_singleton.mp ha
        exact ⟨hb, he.1⟩
      · cases ha
    · exact hi he.2.2 ha
  | select c t f hc ht hf =>
    simp only [Expr.constantArrays, List.mem_append] at ha
    obtain (ha | ha) | ha := ha
    · exact hc he.1 ha
    · exact ht he.2.1 ha
    · exact hf he.2.2 ha
  | concat l r hl hr | binary k l r hl hr =>
    simp only [Expr.constantArrays, List.mem_append] at ha
    obtain ha | ha := ha
    · exact hl he.1 ha
    · exact hr he.2 ha
  | nil =>
    rename_i ha
    cases ha
  | cons i v next hi hv hnext =>
    rename_i hover ha
    simp only [UpdateList.constantArrays, List.mem_append] at ha
    obtain (ha | ha) | ha := ha
    · exact hi hover.1 ha
    · exact hv hover.2.1 ha
    · exact hnext hover.2.2 ha

namespace Z3SolverImpl

open State

section

variable {σ : Assignment} {s s' : State} {q : Query} {options : Options} {assertions : List Handle}

/-- All arrays of the query have their contents in the model. -/
def ReadsAll (s : State) (σ : Assignment) (ρ : Model) (q : Query) : Prop :=
  ∀ c ∈ q.parts, c.val.Over (s.Reads σ ρ)

/-- All assertions are true in the model. -/
def Models (ρ : Model) (assertions : List Handle) : Prop := ∀ a ∈ assertions, a.Truth {ρ} True

/-- What the assertions say of the query. -/
structure Asserted (σ : Assignment) (q : Query) (s : State) (assertions : List Handle) : Prop where
  has : ∀ c ∈ q.parts, c.val.Over s.Has
  constraints : ∀ ρ, ReadsAll s σ ρ q → Models ρ assertions →
    ∀ c ∈ q.constraints, c.val.NoZeroDivisor σ → c.Holds σ
  negated : ∀ ρ, ReadsAll s σ ρ q → Models ρ assertions →
    q.expr.val.NoZeroDivisor σ → ¬ q.expr.Holds σ
  elements : ∀ ρ, Models ρ assertions → ∀ a ∈ q.constantArrays, ∀ h f,
    s.arrays.lookup a = some h → h.Contents {ρ} a.domain a.range f →
      ∀ i v, a.constantValues[i]? = some v → f i = v.toNat
  complete : ∀ ρ, ReadsAll s σ ρ q → (∀ c ∈ q.parts, c.val.NoZeroDivisor σ) → q.Falsified σ →
    Models ρ assertions

/-- Every element has its partner. -/
theorem mem_of_forall₂ {α β : Type} {R : α → β → Prop} {l : List α} {l' : List β}
    (h : List.Forall₂ R l l') : (∀ x ∈ l, ∃ y ∈ l', R x y) ∧ ∀ y ∈ l', ∃ x ∈ l, R x y := by
  induction h with
  | nil => exact ⟨List.forall_mem_nil _, List.forall_mem_nil _⟩
  | @cons x y l l' hxy _ ih =>
    simp only [List.forall_mem_cons]
    refine ⟨⟨⟨y, List.mem_cons_self, hxy⟩, fun z hz => ?_⟩,
      ⟨⟨x, List.mem_cons_self, hxy⟩, fun z hz => ?_⟩⟩
    · obtain ⟨y', hy', h⟩ := ih.1 z hz
      exact ⟨y', List.mem_cons_of_mem _ hy', h⟩
    · obtain ⟨x', hx', h⟩ := ih.2 z hz
      exact ⟨x', List.mem_cons_of_mem _ hx', h⟩

theorem mem_parts {c : Constraint} : c ∈ q.parts ↔ c ∈ q.constraints ∨ c = q.expr := by
  rw [Query.parts, List.mem_append, List.mem_singleton]

theorem mem_constantArrays {a : Array} :
    a ∈ q.constantArrays ↔ ∃ c ∈ q.parts, a ∈ c.val.constantArrays := by
  rw [Query.constantArrays, List.mem_eraseDups, List.mem_flatMap]

/-- A boolean of the query has its value in the models that read its arrays right. -/
theorem truth_of_built {c : Constraint} {r : Handle × ℕ} (h : Built σ c.val s r) :
    r.1.Truth (s.models σ c.val) (c.Holds σ) := by
  have hshows := h.2.2
  rw [c.2.2] at hshows
  exact hshows.truth rfl

theorem asserted {constraints : List (Handle × ℕ)} {constants : List (List Handle)}
    {negated : Handle}
    (hhas : ∀ c ∈ q.parts, c.val.Over s.Has)
    (hconstraints : List.Forall₂ (fun c r => Built σ c.val s r) q.constraints constraints)
    (hconstants : List.Forall₂ (fun a cs => ∃ h, s.arrays.lookup a = some h ∧
      State.Asserts a h cs) q.constantArrays constants)
    (hnegated : negated.Truth (s.models σ q.expr.val) (¬ q.expr.Holds σ)) :
    Asserted σ q s (constraints.map Prod.fst ++ constants.flatten ++ [negated]) := by
  have hmodels : ∀ ρ, Models ρ (constraints.map Prod.fst ++ constants.flatten ++ [negated]) ↔
      (∀ r ∈ constraints, r.1.Truth {ρ} True) ∧
      (∀ cs ∈ constants, ∀ c ∈ cs, c.Truth {ρ} True) ∧ negated.Truth {ρ} True := by
    intro ρ
    simp only [Models, List.forall_mem_append, List.forall_mem_map, List.forall_mem_singleton,
      List.forall_mem_flatten, and_assoc]
  have hin : ∀ {ρ c}, ReadsAll s σ ρ q → c ∈ q.parts → c.val.NoZeroDivisor σ →
      {ρ} ⊆ s.models σ c.val := by
    rintro ρ c hreads hc hz _ rfl
    exact ⟨hz, hreads c hc⟩
  have hparts : ∀ c ∈ q.constraints, c ∈ q.parts := fun c hc => mem_parts.mpr (.inl hc)
  have hexpr : q.expr ∈ q.parts := mem_parts.mpr (.inr rfl)
  refine ⟨hhas, fun ρ hreads hm c hc hz => ?_, fun ρ hreads hm hz => ?_,
    fun ρ hm a ha h f hlookup hf => ?_, fun ρ hreads hz hfalse => (hmodels ρ).mpr ⟨?_, ?_, ?_⟩⟩
  · obtain ⟨r, hr, hbuilt⟩ := (mem_of_forall₂ hconstraints).1 c hc
    have htruth := (truth_of_built hbuilt).mono (hin hreads (hparts c hc) hz)
    exact (Truth.iff htruth (((hmodels ρ).mp hm).1 r hr)).mpr trivial
  · have htruth := hnegated.mono (hin hreads hexpr hz)
    exact (Truth.iff htruth ((hmodels ρ).mp hm).2.2).mpr trivial
  · obtain ⟨cs, hcs, h', hlookup', hasserts⟩ := (mem_of_forall₂ hconstants).1 a ha
    obtain rfl : h = h' := Option.some.inj (hlookup.symm.trans hlookup')
    exact (hasserts ρ f hf).mp (((hmodels ρ).mp hm).2.1 cs hcs)
  · intro r hr
    obtain ⟨c, hc, hbuilt⟩ := (mem_of_forall₂ hconstraints).2 r hr
    have htruth := (truth_of_built hbuilt).mono (hin hreads (hparts c hc) (hz c (hparts c hc)))
    exact htruth.congr fun _ => iff_of_true (hfalse.1 c hc) trivial
  · intro cs hcs
    obtain ⟨a, ha, h, hlookup, hasserts⟩ := (mem_of_forall₂ hconstants).2 cs hcs
    obtain ⟨c, hc, hmem⟩ := mem_constantArrays.mp ha
    have hread := (isConstantArray_of_found (hreads c hc) hmem).2 h hlookup
    refine (hasserts ρ _ hread).mpr fun i v hv => ?_
    rw [Array.initial, hv, Option.getD_some]
  · have htruth := hnegated.mono (hin hreads hexpr (hz _ hexpr))
    exact htruth.congr fun _ => iff_of_true hfalse.2 trivial

theorem assertionsOf_builds (hq : ∀ c ∈ q.parts, c.val.Buildable) :
    Builds σ s (assertionsOf options q) (Asserted σ q) := by
  have hparts : ∀ c ∈ q.constraints, c ∈ q.parts := fun c hc => mem_parts.mpr (.inl hc)
  have hexpr : q.expr ∈ q.parts := mem_parts.mpr (.inr rfl)
  unfold assertionsOf
  refine (Advances.inTurn (R := fun s' (c : Constraint) r => Built σ c.val s' r)
    (fun hext h => hext.built h)
    fun c hc s' _ => construct_builds _ σ c.val c.2.1 (hq c (hparts c hc)) s').bind
    fun s₁ constraints _ hconstraints => ?_
  refine (construct_builds _ σ q.expr.val q.expr.2.1 (hq _ hexpr) s₁).bind
    fun s₂ query hext hquery => ?_
  replace hconstraints := hconstraints.imp fun _ _ h => hext.built h
  have hhas : ∀ c ∈ q.parts, c.val.Over s₂.Has := by
    intro c hc
    obtain hc | rfl := mem_parts.mp hc
    · obtain ⟨r, -, hr⟩ := (mem_of_forall₂ hconstraints).1 c hc
      exact hr.1
    · exact hquery.1
  refine (Advances.inTurn (R := fun s' (a : Array) cs => ∃ h, s'.arrays.lookup a = some h ∧
      State.Asserts a h cs) ?_ ?_).bind fun s₃ constants hext₃ hconstants => ?_
  · rintro s s' a cs hext ⟨h, hlookup, hcs⟩
    exact ⟨h, hext a h hlookup, hcs⟩
  · intro a ha s' hext hs'
    obtain ⟨c, hc, hmem⟩ := mem_constantArrays.mp ha
    obtain ⟨hconst, hhasa⟩ := isConstantArray_of_found (hhas c hc) hmem
    obtain ⟨h, hlookup⟩ := Option.isSome_iff_exists.mp (hext.has hhasa)
    obtain ⟨cs, hcs, hasserts⟩ := hs'.assertions a h hlookup hconst
    exact ⟨cs, s', by simp [arrayAssertions, hcs], hs', .refl s', h, hlookup, hasserts⟩
  replace hconstraints := hconstraints.imp fun _ _ h => hext₃.built h
  replace hquery := hext₃.built hquery
  replace hhas := fun c hc => over_mono (fun _ => hext₃.has) (hhas c hc)
  refine Advances.lift (mkNot_truth (truth_of_built hquery)) fun negated hnegated => ?_
  exact .pure (asserted hhas hconstraints hconstants hnegated)

end

/-! The contents that a model gives the arrays, and a model that gives them their contents. -/

/-- An element of the array that a term stands for. -/
def element (ρ : Model) (w i : ℕ) : Handle → BitVec w
  | @Handle.mk (.array d _) t => BitVec.ofNat w (t.eval ρ (BitVec.ofNat d i)).toNat
  | _ => 0

def assignmentOf (s : State) (ρ : Model) : Assignment := fun a i =>
  (s.arrays.lookup a).elim 0 (element ρ a.range i)

/-- No two arrays have one variable. -/
def Distinct (s : State) : Prop :=
  ∀ a b h, s.arrays.lookup a = some h → s.arrays.lookup b = some h → a = b

def nameOf : Handle → String
  | @Handle.mk _ (.const name _) => name
  | _ => ""

/-- Where the counts have one digit the names end differently. -/
theorem variableOf_injective {a b : Array} {i j : ℕ} (ha : nul ∉ a.name.toList)
    (hb : nul ∉ b.name.toList) (hij : i < j) (hj : j < 10) : variableOf a i ≠ variableOf b j := by
  intro h
  have hname := String.ofList_injective (congrArg nameOf h)
  have hcut := (buildArray_uniqueName ⟨0, _, ha⟩ i).symm.trans
    (hname.trans (buildArray_uniqueName ⟨0, _, hb⟩ j))
  obtain ⟨q, hq, hdigits, -⟩ := (names_eq_iff hij).mp hcut
  have hone : (itostr j).length ≤ 1 := (Nat.length_toDigits_le_iff (by omega) Nat.one_pos).mpr hj
  have hpos : 0 < (itostr i).length := Nat.length_toDigits_pos
  have hlength := List.length_pos_iff.mpr hq
  rw [hdigits, List.length_append] at hone
  omega

/-- The first ten arrays get variables of their own. -/
theorem distinct_of_few {l : List (Array × Handle)} (hl : Named l) (hfew : l.length ≤ 10)
    (hnul : ∀ p ∈ l, nul ∉ p.1.name.toList) {a b : Array} {h : Handle}
    (ha : l.lookup a = some h) (hb : l.lookup b = some h) : a = b := by
  induction hl with
  | nil => cases ha
  | @cons l c hl ih =>
    rw [List.length_cons] at hfew
    rw [List.forall_mem_cons] at hnul
    have hmem : ∀ {d}, l.lookup d = some h → nul ∉ d.name.toList := fun hd =>
      hnul.2 _ (mem_of_lookup_some hd)
    rw [List.lookup_cons] at ha hb
    by_cases hac : a = c
    · by_cases hbc : b = c
      · rw [hac, hbc]
      · rw [beq_iff_eq.mpr hac] at ha
        rw [beq_eq_false_iff_ne.mpr hbc] at hb
        obtain ⟨i, hi, heq⟩ := hl.lookup hb
        rw [← Option.some.inj ha] at heq
        exact absurd heq.symm (variableOf_injective (hmem hb) hnul.1 hi (by omega))
    · rw [beq_eq_false_iff_ne.mpr hac] at ha
      by_cases hbc : b = c
      · rw [beq_iff_eq.mpr hbc] at hb
        obtain ⟨i, hi, heq⟩ := hl.lookup ha
        rw [← Option.some.inj hb] at heq
        exact absurd heq.symm (variableOf_injective (hmem ha) hnul.1 hi (by omega))
      · rw [beq_eq_false_iff_ne.mpr hbc] at hb
        exact ih (by omega) hnul.2 ha hb

open Classical in
noncomputable def modelOf (s : State) (σ : Assignment) : Model := fun name sort =>
  match sort with
  | .bool => false
  | .bitVec w => 0#w
  | .array d r => fun i =>
    if h : ∃ a : Array, s.arrays.lookup a = some ⟨.const name (.array d r)⟩ then
      BitVec.ofNat r (h.choose.initial σ i.toNat).toNat
    else 0

section

variable {σ : Assignment} {s s' : State} {ρ : Model} {a : Array}

theorem isConstantArray_of_value {i : ℕ} {v : BitVec a.range} (h : a.constantValues[i]? = some v) :
    a.isConstantArray = true := by
  unfold Array.isConstantArray
  cases hc : a.constantValues with
  | nil => simp [hc] at h
  | cons => rfl

/-- A constant array must have its elements in the model. -/
theorem reads_assignmentOf (hs : s.Sound σ)
    (hc : a.isConstantArray = true → ∀ h f, s.arrays.lookup a = some h →
      h.Contents {ρ} a.domain a.range f → ∀ i v, a.constantValues[i]? = some v → f i = v.toNat) :
    s.Reads (assignmentOf s ρ) ρ a := by
  intro h hlookup
  obtain ⟨name, rfl⟩ := hs.isConst hlookup
  refine ⟨_, rfl, fun ρ' hρ i => ?_⟩
  obtain rfl : ρ' = ρ := hρ
  dsimp only
  cases hv : a.constantValues[i.toNat]? with
  | some v =>
    rw [Array.initial, hv, Option.getD_some]
    have helement := hc (isConstantArray_of_value hv) _
      (fun n => (ρ' name (.array a.domain a.range) (BitVec.ofNat a.domain n)).toNat) hlookup
      ⟨_, rfl, fun ρ'' hρ j => ?_⟩ i.toNat v hv
    · rw [BitVec.ofNat_toNat, BitVec.setWidth_eq] at helement
      exact helement
    · obtain rfl : ρ'' = ρ' := hρ
      dsimp only
      rw [BitVec.ofNat_toNat, BitVec.setWidth_eq]
      rfl
  | none =>
    rw [Array.initial, hv, Option.getD_none, assignmentOf, hlookup, Option.elim_some, element,
      BitVec.ofNat_toNat, BitVec.setWidth_eq, BitVec.ofNat_toNat, BitVec.setWidth_eq]

theorem reads_modelOf (hs : s.Sound σ) (hd : Distinct s) : s.Reads σ (modelOf s σ) a := by
  intro h hlookup
  obtain ⟨name, rfl⟩ := hs.isConst hlookup
  refine ⟨_, rfl, fun ρ' hρ i => ?_⟩
  obtain rfl : ρ' = modelOf s σ := hρ
  have hex : ∃ b : Array, s.arrays.lookup b = some ⟨.const name (.array a.domain a.range)⟩ :=
    ⟨a, hlookup⟩
  have hsame : hex.choose = a := hd _ _ _ hex.choose_spec hlookup
  simp only [Ast.eval, modelOf]
  rw [dif_pos hex, hsame, BitVec.ofNat_toNat, BitVec.setWidth_eq]

theorem Distinct.of_extends (hext : s.Extends s') (h : Distinct s') : Distinct s :=
  fun a b t ha hb => h a b t (hext a t ha) (hext b t hb)

end

/-- The constraints that divide by no zero see to it that nothing in the query does. -/
def Guarded (q : Query) : Prop :=
  ∀ σ, (∀ c ∈ q.constraints, c.val.NoZeroDivisor σ → c.Holds σ) →
    ∀ c ∈ q.parts, c.val.NoZeroDivisor σ

section

variable {σ : Assignment} {s s' : State} {ρ : Model} {q : Query} {assertions : List Handle}

/-- What is read off a model of the assertions is a solution. -/
theorem solution (hs : ∀ σ, s'.Sound σ) (hasserted : ∀ σ, Asserted σ q s assertions)
    (hguarded : Guarded q) (hext : s.Extends s') (hm : Models ρ assertions) :
    q.Falsified (assignmentOf s' ρ) := by
  have hreads : ReadsAll s (assignmentOf s' ρ) ρ q := by
    intro c hc
    refine over_of_found ((hasserted fun _ _ => 0).has c hc) fun a ha hfound => hext.reads ?_
    refine reads_assignmentOf (hs fun _ _ => 0) fun hconst h f hlookup hf => ?_
    obtain ⟨t, ht⟩ := Option.isSome_iff_exists.mp ha
    obtain rfl : t = h := Option.some.inj ((hext a t ht).symm.trans hlookup)
    exact (hasserted fun _ _ => 0).elements ρ hm a (mem_constantArrays.mpr ⟨c, hc, hfound hconst⟩)
      t f ht hf
  have hconstraints := (hasserted _).constraints ρ hreads hm
  have hz := hguarded _ hconstraints
  exact ⟨fun c hc => hconstraints c hc (hz c (mem_parts.mpr (.inl hc))),
    (hasserted _).negated ρ hreads hm (hz _ (mem_parts.mpr (.inr rfl)))⟩

/-- A solution gives a model of the assertions, if the variables are told apart. -/
theorem noSolution (hs : ∀ σ, s.Sound σ) (hasserted : ∀ σ, Asserted σ q s assertions)
    (hguarded : Guarded q) (hd : Distinct s) (hnone : ¬ ∃ ρ, Models ρ assertions) :
    ¬ ∃ σ, q.Falsified σ := by
  rintro ⟨σ, hσ⟩
  refine hnone ⟨modelOf s σ, (hasserted σ).complete _ (fun c hc => ?_)
    (hguarded σ fun c hc _ => hσ.1 c hc) hσ⟩
  exact over_mono (fun _ _ => reads_modelOf (hs σ) hd) ((hasserted σ).has c hc)

end

/-- The arrays whose initial values are asked for. -/
structure Object (a : Array) : Prop where
  buildable : a.Buildable
  domain : a.domain = 32
  range : a.range = 8
  size : a.size ≤ 2 ^ 32

/-- Bytes that are read of a symbolic array. -/
def ReadOf (ρ : Model) (s : State) (a : Array) (i : ℕ) (byte : BitVec 8) : Prop :=
  ∀ σ, s.Reads σ ρ a → (a.initial σ i).toNat = byte.toNat

def ReadsOf (ρ : Model) (s : State) (a : Array) (bytes : List (BitVec 8)) : Prop :=
  List.Forall₂ (ReadOf ρ s a) (List.range a.size) bytes

section

variable {s s' : State} {ρ : Model} {a : Array} {i : ℕ} {o : Option Handle}

theorem ReadsOf.mono {bytes : List (BitVec 8)} (hext : s.Extends s') (h : ReadsOf ρ s a bytes) :
    ReadsOf ρ s' a bytes :=
  h.imp fun _ _ hread σ hσ => hread σ (hext.reads hσ)

theorem readElement_builds (ha : Object a) (hi : i < a.size) :
    Advances (fun s => ∀ σ, s.Sound σ) State.Extends s (readElement ρ a i)
      fun s' => ReadOf ρ s' a i := by
  refine (Advances.all fun σ => getInitialRead_builds ha.buildable ha.domain
    (hi.trans_le ha.size)).bind fun s₁ t hext ht => ?_
  obtain ⟨u, rfl, -⟩ := (ht fun _ _ => 0).2
  have hlt : (u.eval ρ).toNat < 2 ^ 8 := (u.eval ρ).isLt.trans_eq (congrArg (2 ^ ·) ha.range)
  have hbyte : byteOf ρ ⟨u⟩ = some (BitVec.ofNat 8 (u.eval ρ).toNat) := if_pos (by omega)
  refine fun hs => ⟨_, s₁, by rw [hbyte]; rfl, hs, .refl s₁, fun σ hσ => ?_⟩
  obtain ⟨u', hu, hvalue⟩ := (ht σ).2
  cases hu
  rw [← hvalue ρ hσ, BitVec.toNat_ofNat, Nat.mod_eq_of_lt hlt]

theorem readValues_builds {objects : List Array} (h : ∀ a ∈ objects, Object a) :
    Advances (fun s => ∀ σ, s.Sound σ) State.Extends s (readValues ρ objects)
      fun s' => List.Forall₂ (ReadsOf ρ s') objects :=
  Advances.inTurn (fun hext hreads => ReadsOf.mono hext hreads) fun a ha _ _ =>
    Advances.inTurn (fun hext hread σ hσ => hread σ (hext.reads hσ)) fun _ hi _ _ =>
      readElement_builds (h a ha) (List.mem_range.mp hi)

/-- The bytes are those of the contents that the model gives. -/
theorem ReadsOf.hasBytes (hs : ∀ σ, s.Sound σ) {bytes : List (BitVec 8)}
    (h : ReadsOf ρ s a bytes) (hsym : a.constantValues = []) :
    (assignmentOf s ρ).HasBytes a bytes := by
  have hreads : s.Reads (assignmentOf s ρ) ρ a := by
    refine reads_assignmentOf (hs fun _ _ => 0) fun hconst => ?_
    rw [Array.isConstantArray, hsym] at hconst
    cases hconst
  refine ⟨by rw [← h.length_eq, List.length_range], fun i byte hi => ?_⟩
  obtain ⟨hlt, rfl⟩ := List.getElem?_eq_some_iff.mp hi
  have hread := h.get (i := i) (by rw [h.length_eq]; exact hlt) hlt _ hreads
  rw [List.get_eq_getElem, List.getElem_range, List.get_eq_getElem] at hread
  rw [← hread, Array.initial, hsym, List.getElem?_nil, Option.getD_none, BitVec.ofNat_toNat,
    BitVec.setWidth_eq]

end

/-- What a run is to give. It fails only where Z3 does not decide. -/
def Outcome.Right (z3 : Checker) (q : Query) (objects : List Array) (s : State) : Outcome → Prop
  | .solvable values => ∃ σ, q.Falsified σ ∧
      List.Forall₂ (fun a bytes => a.constantValues = [] → σ.HasBytes a bytes) objects values
  | .unsolvable => Distinct s → ¬ ∃ σ, q.Falsified σ
  | .timeout | .failure => ∃ assertions reason, z3.check assertions = .undefined reason

section

variable {s s' : State} {q : Query} {options : Options} {z3 : Checker} {objects : List Array}

theorem Outcome.Right.mono {o : Outcome} (hext : s.Extends s') (h : o.Right z3 q objects s) :
    o.Right z3 q objects s' := by
  cases o with
  | solvable values => exact h
  | unsolvable => exact fun hd => h (hd.of_extends hext)
  | timeout => exact h
  | failure => exact h

/-- A model that Z3 gives is valid. -/
theorem validateZ3Model_of_models {ρ : Model} {assertions : List Handle}
    (h : Models ρ assertions) : validateZ3Model ρ assertions = true := by
  refine List.all_eq_true.mpr fun a ha => ?_
  obtain ⟨t, rfl, ht⟩ := h a ha
  exact (ht ρ rfl).mpr trivial

/-- The reasons that Z3 has for not deciding are those that are expected. -/
def Explains (z3 : Checker) : Prop :=
  ∀ assertions reason, z3.check assertions = .undefined reason →
    isTimeout reason = true ∨ reason = "unknown"

/-- What a query may be: its constraints keep it from dividing by zero. -/
structure Askable (q : Query) : Prop where
  buildable : ∀ c ∈ q.parts, c.val.Buildable
  guarded : Guarded q

theorem handleSolverResponse_builds (hz3 : Explains z3) (hq : Askable q)
    {objects : Option (List Array)} (hobjects : ∀ a ∈ objects.getD [], Object a)
    {assertions : List Handle} (hasserted : ∀ σ, Asserted σ q s assertions) :
    Advances (fun s => ∀ σ, s.Sound σ) State.Extends s
      (handleSolverResponse options assertions objects (z3.check assertions))
      fun s' => Outcome.Right z3 q (objects.getD []) s' := by
  intro hs
  cases hcheck : z3.check assertions with
  | sat ρ =>
    have hm := z3.sat assertions ρ hcheck
    cases objects with
    | none => exact Advances.pure ⟨_, solution hs hasserted hq.guarded (.refl s) hm, .nil⟩ hs
    | some objects =>
      obtain ⟨values, s₁, hrun, hs₁, hext, hvalues⟩ := readValues_builds (ρ := ρ) hobjects hs
      refine ⟨.solvable values, s₁, ?_, hs₁, hext, _, solution hs₁ hasserted hq.guarded hext hm,
        hvalues.imp fun a bytes h => ReadsOf.hasBytes hs₁ h⟩
      refine bind_some.mpr ⟨values, s₁, hrun, ?_⟩
      rw [validateZ3Model_of_models hm, Bool.not_true, Bool.and_false, if_neg Bool.false_ne_true]
      rfl
  | unsat =>
    have hnone := z3.unsat assertions hcheck
    exact Advances.pure (fun hd => noSolution hs hasserted hq.guarded hd hnone) hs
  | undefined reason =>
    rw [handleSolverResponse]
    obtain ht | hu := hz3 assertions reason hcheck
    · rw [if_pos ht]
      exact Advances.pure ⟨assertions, reason, hcheck⟩ hs
    · have ht : ¬ isTimeout reason = true := by
        rw [hu]
        decide
      rw [if_neg ht, if_pos hu]
      exact Advances.pure ⟨assertions, reason, hcheck⟩ hs

theorem internalRunSolver_builds (hz3 : Explains z3) (hq : Askable q)
    (objects : Option (List Array)) (hobjects : ∀ a ∈ objects.getD [], Object a) :
    Advances (fun s => ∀ σ, s.Sound σ) State.Extends s (internalRunSolver options z3 q objects)
      fun s' => Outcome.Right z3 q (objects.getD []) s' := by
  refine (Advances.all fun σ => assertionsOf_builds hq.buildable).bind
    fun s₁ assertions _ hasserted => ?_
  refine (handleSolverResponse_builds hz3 hq hobjects hasserted).bind fun s₂ outcome _ hright => ?_
  refine (Advances.all fun σ => Call.perform_builds (c := .clearConstructCache) trivial s₂).bind
    fun s₃ _ hext _ => ?_
  exact .pure (hright.mono hext)

end

/-- The queries that are asked, and the objects that are read. -/
def Request.Allowed : Request → Prop
  | .truth q => Askable q
  | .initialValues q objects => Askable q ∧ ∀ a ∈ objects, Object a

/-- What an answer says, if the variables are told apart where there is to be no solution. -/
def Request.Right (z3 : Checker) (s : State) : Request → Answer → Prop
  | _, .failed => ∃ assertions reason, z3.check assertions = .undefined reason
  | .truth q, .truth isValid =>
      (isValid = false → ¬ q.Valid) ∧ (isValid = true → Distinct s → q.Valid)
  | .initialValues q objects, .initialValues (some values) => ∃ σ, q.Falsified σ ∧
      List.Forall₂ (fun a bytes => a.constantValues = [] → σ.HasBytes a bytes) objects values
  | .initialValues q _, .initialValues none => Distinct s → q.Valid
  | _, _ => False

section

variable {s s' : State} {options : Options} {z3 : Checker} {r : Request}

theorem valid_iff {q : Query} : q.Valid ↔ ¬ ∃ σ, q.Falsified σ := by
  simp only [Query.Valid, Query.Falsified, not_exists, not_and, not_not]

theorem Request.Right.mono {a : Answer} (hext : s.Extends s') (h : r.Right z3 s a) :
    r.Right z3 s' a := by
  cases r with
  | truth q =>
    cases a with
    | failed => exact h
    | truth isValid => exact ⟨h.1, fun ht hd => h.2 ht (hd.of_extends hext)⟩
    | initialValues values => cases values <;> exact False.elim h
  | initialValues q objects =>
    cases a with
    | failed => exact h
    | truth isValid => exact False.elim h
    | initialValues values =>
      cases values with
      | none => exact fun hd => h (hd.of_extends hext)
      | some values => exact h

theorem answer_builds (options : Options) (hz3 : Explains z3) (hr : r.Allowed) :
    Advances (fun s => ∀ σ, s.Sound σ) State.Extends s (answer options z3 r)
      fun s' => r.Right z3 s' := by
  cases r with
  | truth q =>
    simp only [answer, computeTruth, bind_assoc, pure_bind]
    refine (internalRunSolver_builds hz3 hr none (List.forall_mem_nil _)).bind
      fun s₁ outcome _ hright => .pure ?_
    cases outcome with
    | solvable values =>
      obtain ⟨σ, hσ, -⟩ := hright
      exact ⟨fun _ => fun hv => valid_iff.mp hv ⟨σ, hσ⟩, fun h => by cases h⟩
    | unsolvable => exact ⟨fun h => (by cases h), fun _ hd => valid_iff.mpr (hright hd)⟩
    | timeout => exact hright
    | failure => exact hright
  | initialValues q objects =>
    simp only [answer, computeInitialValues, bind_assoc, pure_bind]
    refine (internalRunSolver_builds hz3 hr.1 (some objects) hr.2).bind
      fun s₁ outcome _ hright => .pure ?_
    cases outcome with
    | solvable values => exact hright
    | unsolvable => exact fun hd => valid_iff.mpr (hright hd)
    | timeout => exact hright
    | failure => exact hright

end

theorem trying_sat {model ρ : Model} {assertions : List Handle}
    (h : (if assertions.all (trueIn model) then Response.sat model else .undefined "unknown") =
      .sat ρ) : ∀ a ∈ assertions, a.Truth {ρ} True := by
  split at h
  · rename_i hall
    cases h
    intro a ha
    have htrue := List.all_eq_true.mp hall a ha
    unfold trueIn at htrue
    split at htrue
    · rename_i t
      refine ⟨t, rfl, fun ρ' hρ => ?_⟩
      obtain rfl : ρ' = model := hρ
      exact iff_of_true htrue trivial
    · cases htrue
  · cases h

theorem trying_unsat {model : Model} {assertions : List Handle}
    (h : (if assertions.all (trueIn model) then Response.sat model else .undefined "unknown") =
      .unsat) : ¬ ∃ ρ, ∀ a ∈ assertions, a.Truth {ρ} True := by
  split at h <;> cases h

/-- A checker that tries one model. -/
def Checker.trying (model : Model) : Checker where
  check assertions := if assertions.all (trueIn model) then .sat model else .undefined "unknown"
  sat _ _ h := trying_sat h
  unsat _ h := trying_unsat h

/-- One symbolic byte. -/
def letter : Array := { name := "letter", size := 1 }

def letterIs (n : ℕ) : Constraint :=
  ⟨.binary .eq (const n 8) (.read letter .nil (const 0 32)),
    ⟨trivial, ⟨trivial, trivial, rfl⟩, rfl⟩, rfl⟩

theorem letter_object : Object letter where
  buildable := ⟨by decide, by decide, fun h => absurd h (by decide), fun h => absurd h (by decide)⟩
  domain := rfl
  range := rfl
  size := by decide

theorem letter_askable (m n : ℕ) : Askable ⟨[letterIs m], letterIs n⟩ where
  buildable c hc := by
    have h : ∀ n, (letterIs n).val.Buildable := fun n =>
      ⟨Nat.succ_pos 7, ⟨letter_object.buildable, trivial, Nat.succ_pos 31⟩, trivial⟩
    obtain hc | rfl := mem_parts.mp hc
    · rw [List.mem_singleton.mp hc]
      exact h m
    · exact h n
  guarded σ _ c hc := by
    have h : ∀ n, (letterIs n).val.NoZeroDivisor σ := fun n =>
      ⟨trivial, ⟨trivial, trivial⟩, fun h => by cases h⟩
    obtain hc | rfl := mem_parts.mp hc
    · rw [List.mem_singleton.mp hc]
      exact h m
    · exact h n

/-- Every byte is a seven. -/
def sevens : Model := fun _ sort =>
  match sort with
  | .bool => false
  | .bitVec w => 0#w
  | .array _ r => fun _ => BitVec.ofNat r 7

end Z3SolverImpl

end Encider
