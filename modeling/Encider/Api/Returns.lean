import Encider.Api.Handle

/-! When each value of a modelled API's result has one successor, with the actions whose
return condition it meets. -/

namespace Encider

variable {w : Nat}

/-- The values of an expression in a state, as signed numbers. -/
def PathState.returned (s : PathState) (e : Word w) : Set Int := (fun σ => e.signed σ) '' s.models

/-- What a call must leave behind: its successors share out the values of the result, and
each has exactly the actions whose condition its values meet. -/
structure HandledExactly (actions : List ModelAction) (state : PathState) (e : Word w)
    (out : List HandledState) : Prop where
  parts : Parts (state.returned e) (out.map fun h => h.state.returned e)
  pushed : ∀ h ∈ out, ∀ v ∈ h.state.returned e,
    ∀ a, a ∈ h.pushed ↔ a ∈ actions ∧ a.returnCondition.Holds v

/-- The classes of values that `handle` forks into, with the conditions it files each under. -/
def returnClasses (conds : RetCond → Bool) : List (Set Int × List RetCond) :=
  if (conds .ltZero && conds .gtZero) || (conds .ltEqZero && conds .gtEqZero) ||
      ((conds .zero || conds .notZero) &&
        (conds .ltZero || conds .ltEqZero || conds .gtZero || conds .gtEqZero)) then
    [({v | v = 0}, [.zero, .ltEqZero, .gtEqZero]), ({v | v < 0}, [.ltZero, .notZero, .ltEqZero]),
      ({v | 0 < v}, [.gtZero, .notZero, .gtEqZero])]
  else if conds .zero || conds .notZero then [({v | v = 0}, [.zero]), ({v | v ≠ 0}, [.notZero])]
  else if conds .ltEqZero then [({v | v ≤ 0}, [.ltEqZero]), ({v | 0 < v}, [.gtZero])]
  else if conds .gtEqZero then [({v | 0 ≤ v}, [.gtEqZero]), ({v | v < 0}, [.ltZero])]
  else [(Set.univ, [.always])]

/-- The successors are those of the classes that have a value in `V`. -/
def SplitsInto (e : Word w) (V : Set Int) : List (Set Int × List RetCond) → List Filed → Prop
  | [], l => l = []
  | (K, cs) :: rest, l => ∃ (t : Option PathState) (l' : List Filed),
      l = (t.toList.map fun s => ⟨s, cs⟩) ++ l' ∧
      (fun σ => e.signed σ) '' PathState.modelsOf t = V ∩ K ∧ SplitsInto e V rest l'

namespace SplitsInto

variable {e : Word w} {V : Set Int} {table : List (Set Int × List RetCond)} {l : List Filed}

theorem forall_iff (h : SplitsInto e V table l) (P : List RetCond → Int → Prop) :
    (∀ f ∈ l, ∀ v ∈ f.state.returned e, P f.conds v) ↔ ∀ p ∈ table, ∀ v ∈ V ∩ p.1, P p.2 v := by
  induction table generalizing l with
  | nil =>
    rw [show l = [] from h]
    simp
  | cons p rest ih =>
    obtain ⟨t, l', rfl, ht, hrest⟩ := h
    rw [List.forall_mem_cons, ← ih hrest, ← ht]
    simp only [List.forall_mem_append]
    refine and_congr_left fun _ => ?_
    cases t with
    | none => simp [PathState.modelsOf]
    | some s =>
      simp only [Option.toList_some, List.map_cons, List.map_nil, List.forall_mem_singleton]
      rfl

theorem parts {W : Set Int} (h : SplitsInto e V table l)
    (hp : Parts W (table.map fun p => V ∩ p.1)) : Parts W (l.map fun f => f.state.returned e) := by
  induction table generalizing l W with
  | nil =>
    rw [show l = [] from h]
    exact hp
  | cons p rest ih =>
    obtain ⟨t, l', rfl, ht, hrest⟩ := h
    have hp : Parts W ((V ∩ p.1) :: rest.map fun p => V ∩ p.1) := hp
    have hsub : V ∩ p.1 ⊆ W := hp.subset List.mem_cons_self
    have htail := ih hrest hp.tail
    rw [← ht] at hsub htail
    cases t with
    | none =>
      rw [PathState.modelsOf, Option.elim_none, Set.image_empty, Set.sdiff_empty] at htail
      exact htail
    | some s => exact Parts.cons_of_subset hsub htail

end SplitsInto

/-- The classes are disjoint and make up all values. -/
theorem returnClasses_parts (conds : RetCond → Bool) :
    Parts Set.univ ((returnClasses conds).map Prod.fst) := by
  have hthree : Parts (Set.univ : Set Int) [{v | v = 0}, {v | v < 0}, {v | 0 < v}] := by
    refine ⟨?_, fun v => ?_⟩
    · simp only [List.pairwise_cons, List.forall_mem_cons, Set.disjoint_left, Set.mem_ofPred_eq,
        List.not_mem_nil, IsEmpty.forall_iff, implies_true, and_true, List.Pairwise.nil]
      refine ⟨⟨?_, ?_⟩, ?_⟩
      all_goals
        intro v hv
        omega
    · simp only [Set.mem_univ, List.mem_cons, List.not_mem_nil, or_false, exists_eq_or_imp,
        exists_eq_left, Set.mem_ofPred_eq, true_iff]
      omega
  have htwo : ∀ {P Q : Int → Prop}, (∀ v, Q v ↔ ¬ P v) →
      Parts (Set.univ : Set Int) [{v | P v}, {v | Q v}] := by
    intro P Q h
    have hcut : {v | Q v} = Set.univ \ {v | P v} := by
      ext v
      simpa using h v
    refine Parts.cons_of_subset (Set.subset_univ _) ?_
    rw [← hcut]
    exact Parts.single _
  unfold returnClasses
  split
  · exact hthree
  · split
    · exact htwo fun v => Iff.rfl
    · split
      · exact htwo fun v => not_le.symm
      · split
        · exact htwo fun v => not_le.symm
        · exact Parts.single _

section Forks

variable {S : Solver} {o : ForkOptions} {s : PathState} {e : Word w}

/-- A fork on the value divides the values. -/
theorem fork_returned (hs : o.skipFork = none) (hd : o.maxDepth = 0) {c : Constraint}
    {C : Int → Prop} (hc : ∀ σ, c.Holds σ ↔ C (e.signed σ)) :
    ∃ t f, fork S o s c false = some (t, f) ∧
      (fun σ => e.signed σ) '' PathState.modelsOf t = s.returned e ∩ {v | C v} ∧
      (fun σ => e.signed σ) '' PathState.modelsOf f = s.returned e \ {v | C v} := by
  obtain ⟨t, f, hfork, hdiv⟩ := fork_divides (S := S) hs hd s c false
  obtain ⟨ht, hf⟩ := hdiv.image (f := fun σ => e.signed σ) (C := {v | C v}) hc
  exact ⟨t, f, hfork, ht, hf⟩

/-- Two slots that share the values of a state. -/
theorem SplitsInto.pair {V : Set Int} {K L : Set Int} {cs ds : List RetCond}
    {t f : Option PathState} (ht : (fun σ => e.signed σ) '' PathState.modelsOf t = V ∩ K)
    (hf : (fun σ => e.signed σ) '' PathState.modelsOf f = V ∩ L) :
    SplitsInto e V [(K, cs), (L, ds)]
      ((t.toList.map fun s => Filed.mk s cs) ++ (f.toList.map fun s => Filed.mk s ds)) :=
  ⟨t, _, rfl, ht, f, [], (List.append_nil _).symm, hf, rfl⟩

theorem diff_eq_inter {V : Set Int} {C D : Int → Prop} (h : ∀ v, D v ↔ ¬ C v) :
    V \ {v | C v} = V ∩ {v | D v} := by
  ext v
  simp [h]

/-- The cascade of forks, for a result that need not be zero. -/
theorem partitionReturn_splits (hs : o.skipFork = none) (hd : o.maxDepth = 0)
    (conds : RetCond → Bool) (hnonzero : ∃ v ∈ s.returned e, v ≠ 0) :
    ∃ l, partitionReturn S o conds s e = some l ∧
      SplitsInto e (s.returned e) (returnClasses conds) l := by
  unfold partitionReturn returnClasses
  split
  · have hsplit := fork_returned (S := S) (s := s) (C := (· = 0)) hs hd e.eqZero_holds
    obtain ⟨t, f, hfork, ht, hf⟩ := hsplit
    cases f with
    | none =>
      obtain ⟨v, hv, hne⟩ := hnonzero
      have hmem : v ∈ s.returned e \ {v | v = 0} := ⟨hv, hne⟩
      rw [← hf] at hmem
      simp [PathState.modelsOf] at hmem
    | some second =>
      have hsecond : second.returned e = s.returned e \ {v | v = 0} := hf
      obtain ⟨t2, f2, hfork2, ht2, hf2⟩ := fork_returned (S := S) (s := second) (C := (· < 0)) hs hd
        e.sltZero_holds
      rw [hsecond] at ht2 hf2
      simp only [hfork, hfork2, Option.bind_some, Option.map_some, Option.some.injEq,
        exists_eq_left']
      rw [List.append_assoc]
      refine ⟨t, _, rfl, ht, SplitsInto.pair (ht2.trans ?_) (hf2.trans ?_)⟩
      · ext v
        simp only [Set.mem_inter_iff, Set.mem_sdiff, Set.mem_ofPred_eq]
        constructor
        · exact fun h => ⟨h.1.1, h.2⟩
        · exact fun h => ⟨⟨h.1, h.2.ne⟩, h.2⟩
      · ext v
        simp only [Set.mem_inter_iff, Set.mem_sdiff, Set.mem_ofPred_eq]
        constructor
        · exact fun h => ⟨h.1.1, by omega⟩
        · exact fun h => ⟨⟨h.1, by omega⟩, by omega⟩
  · split
    · have hsplit := fork_returned (S := S) (s := s) (C := (· = 0)) hs hd e.eqZero_holds
      obtain ⟨t, f, hfork, ht, hf⟩ := hsplit
      simp only [hfork, Option.map_some, Option.some.injEq, exists_eq_left']
      exact SplitsInto.pair ht (hf.trans (diff_eq_inter fun v => Iff.rfl))
    · split
      · have hsplit := fork_returned (S := S) (s := s) (C := (· ≤ 0)) hs hd e.sleZero_holds
        obtain ⟨t, f, hfork, ht, hf⟩ := hsplit
        simp only [hfork, Option.map_some, Option.some.injEq, exists_eq_left']
        exact SplitsInto.pair ht (hf.trans (diff_eq_inter fun v => not_le.symm))
      · split
        · have hsplit := fork_returned (S := S) (s := s) (C := (0 ≤ ·)) hs hd e.sgeZero_holds
          obtain ⟨t, f, hfork, ht, hf⟩ := hsplit
          simp only [hfork, Option.map_some, Option.some.injEq, exists_eq_left']
          exact SplitsInto.pair ht (hf.trans (diff_eq_inter fun v => not_le.symm))
        · refine ⟨_, rfl, some s, [], rfl, ?_, rfl⟩
          rw [Set.inter_univ]
          rfl

end Forks

/-- The conditions of an API's actions. -/
def hasCond (actions : List ModelAction) (c : RetCond) : Bool :=
  actions.any fun a => a.returnCondition = c

/-- The conditions that the forks tell apart: no action is unconditional, and a strict
condition comes with one that separates its values from zero. On one bit nothing is positive. -/
structure Separated (w : Nat) (has : RetCond → Bool) : Prop where
  always : has .always → w = 1 ∧ ∀ c, has c → c = .always ∨ c = .gtZero
  negative : has .ltZero → has .gtZero ∨ has .gtEqZero ∨ has .zero ∨ has .notZero
  positive : 1 < w → has .gtZero → has .ltZero ∨ has .ltEqZero ∨ has .zero ∨ has .notZero

/-- The values that a result of `w` bits takes: those of every sign that the width allows. -/
structure AllSigns (w : Nat) (V : Set Int) : Prop where
  width : 0 < w
  zero : 0 ∈ V
  negative : -1 ∈ V
  positive : 1 < w → 1 ∈ V
  bit : w = 1 → ∀ v ∈ V, v ≤ 0

section Filing

variable {V : Set Int} {has : RetCond → Bool}

/-- Each class has the conditions that its values meet. -/
def FilesExactly (V : Set Int) (has : RetCond → Bool) (table : List (Set Int × List RetCond)) :
    Prop :=
  ∀ p ∈ table, ∀ v ∈ V ∩ p.1, ∀ c, has c → (c ∈ p.2 ↔ c.Holds v)

theorem not_has {c d : RetCond} (hd : has d = false) (hc : has c = true) : c ≠ d := by
  intro h
  rw [h, hd] at hc
  cases hc

/-- An unconditional action is filed under no class of a fork. -/
theorem FilesExactly.always {table : List (Set Int × List RetCond)} (h : FilesExactly V has table)
    {p : Set Int × List RetCond} (hp : p ∈ table) {v : Int} (hv : v ∈ V ∩ p.1)
    (hno : RetCond.always ∉ p.2) : has .always = false := by
  rw [← Bool.not_eq_true]
  intro ha
  exact hno ((h p hp v hv .always ha).mpr trivial)

theorem files_three (hV : AllSigns w V) :
    FilesExactly V has [({v | v = 0}, [.zero, .ltEqZero, .gtEqZero]),
      ({v | v < 0}, [.ltZero, .notZero, .ltEqZero]), ({v | 0 < v}, [.gtZero, .notZero, .gtEqZero])] ↔
    has .always = false := by
  constructor
  · intro h
    exact h.always List.mem_cons_self ⟨hV.zero, rfl⟩ (by simp)
  · intro hno p hp v hv c hc
    have hne := not_has hno hc
    simp only [List.mem_cons, List.not_mem_nil, or_false] at hp
    obtain rfl | rfl | rfl := hp
    all_goals
      have hsign := hv.2
      simp only [Set.mem_ofPred_eq] at hsign
      cases c <;> simp [RetCond.Holds] at hne ⊢ <;> omega

theorem files_zero (hV : AllSigns w V) (hlt : has .ltZero = false) (hle : has .ltEqZero = false)
    (hgt : has .gtZero = false) (hge : has .gtEqZero = false) :
    FilesExactly V has [({v | v = 0}, [.zero]), ({v | v ≠ 0}, [.notZero])] ↔
    has .always = false := by
  constructor
  · intro h
    exact h.always List.mem_cons_self ⟨hV.zero, rfl⟩ (by simp)
  · intro hno p hp v hv c hc
    have hnes : c ≠ .always ∧ c ≠ .ltZero ∧ c ≠ .ltEqZero ∧ c ≠ .gtZero ∧ c ≠ .gtEqZero :=
      ⟨not_has hno hc, not_has hlt hc, not_has hle hc, not_has hgt hc, not_has hge hc⟩
    simp only [List.mem_cons, List.not_mem_nil, or_false] at hp
    obtain rfl | rfl := hp
    all_goals
      have hsign := hv.2
      simp only [Set.mem_ofPred_eq] at hsign
      cases c <;> simp [RetCond.Holds] at hnes ⊢ <;> omega

theorem files_ltEq (hV : AllSigns w V) (hz : has .zero = false) (hnz : has .notZero = false)
    (hge : has .gtEqZero = false) :
    FilesExactly V has [({v | v ≤ 0}, [.ltEqZero]), ({v | 0 < v}, [.gtZero])] ↔
    has .always = false ∧ has .ltZero = false := by
  constructor
  · intro h
    refine ⟨h.always List.mem_cons_self ⟨hV.zero, Int.le_refl 0⟩ (by simp), ?_⟩
    rw [← Bool.not_eq_true]
    intro hlt
    -- a negative value is in the class of the values up to zero
    have hfiled := (h _ List.mem_cons_self (-1) ⟨hV.negative, by simp⟩ .ltZero hlt).mpr
    simp [RetCond.Holds] at hfiled
  · intro hno p hp v hv c hc
    have hnes : c ≠ .always ∧ c ≠ .ltZero ∧ c ≠ .zero ∧ c ≠ .notZero ∧ c ≠ .gtEqZero :=
      ⟨not_has hno.1 hc, not_has hno.2 hc, not_has hz hc, not_has hnz hc, not_has hge hc⟩
    simp only [List.mem_cons, List.not_mem_nil, or_false] at hp
    obtain rfl | rfl := hp
    all_goals
      have hsign := hv.2
      simp only [Set.mem_ofPred_eq] at hsign
      cases c <;> simp [RetCond.Holds] at hnes ⊢ <;> omega

theorem files_gtEq (hV : AllSigns w V) (hz : has .zero = false) (hnz : has .notZero = false)
    (hle : has .ltEqZero = false) :
    FilesExactly V has [({v | 0 ≤ v}, [.gtEqZero]), ({v | v < 0}, [.ltZero])] ↔
    has .always = false ∧ (1 < w → has .gtZero = false) := by
  constructor
  · intro h
    refine ⟨h.always List.mem_cons_self ⟨hV.zero, Int.le_refl 0⟩ (by simp), ?_⟩
    intro hw
    rw [← Bool.not_eq_true]
    intro hgt
    have hfiled := (h _ List.mem_cons_self 1 ⟨hV.positive hw, by simp⟩ .gtZero hgt).mpr
    simp [RetCond.Holds] at hfiled
  · intro hno p hp v hv c hc
    have hnes : c ≠ .always ∧ c ≠ .zero ∧ c ≠ .notZero ∧ c ≠ .ltEqZero :=
      ⟨not_has hno.1 hc, not_has hz hc, not_has hnz hc, not_has hle hc⟩
    have hgt : c = .gtZero → v ≤ 0 := by
      rintro rfl
      have hbit : w = 1 := by
        have hpos := hV.width
        by_contra hne
        rw [hno.2 (by omega)] at hc
        cases hc
      exact hV.bit hbit v hv.1
    simp only [List.mem_cons, List.not_mem_nil, or_false] at hp
    obtain rfl | rfl := hp
    all_goals
      have hsign := hv.2
      simp only [Set.mem_ofPred_eq] at hsign
      cases c <;> simp [RetCond.Holds] at hnes hgt ⊢ <;> omega

theorem files_none (hV : AllSigns w V) (hz : has .zero = false) (hnz : has .notZero = false)
    (hle : has .ltEqZero = false) (hge : has .gtEqZero = false) :
    FilesExactly V has [(Set.univ, [.always])] ↔
    has .ltZero = false ∧ (1 < w → has .gtZero = false) := by
  constructor
  · intro h
    refine ⟨?_, fun hw => ?_⟩
    · rw [← Bool.not_eq_true]
      intro hlt
      have hfiled := (h _ List.mem_cons_self (-1) ⟨hV.negative, trivial⟩ .ltZero hlt).mpr
      simp [RetCond.Holds] at hfiled
    · rw [← Bool.not_eq_true]
      intro hgt
      have hfiled := (h _ List.mem_cons_self 1 ⟨hV.positive hw, trivial⟩ .gtZero hgt).mpr
      simp [RetCond.Holds] at hfiled
  · intro hno p hp v hv c hc
    have hnes : c ≠ .ltZero ∧ c ≠ .zero ∧ c ≠ .notZero ∧ c ≠ .ltEqZero ∧ c ≠ .gtEqZero :=
      ⟨not_has hno.1 hc, not_has hz hc, not_has hnz hc, not_has hle hc, not_has hge hc⟩
    have hgt : c = .gtZero → v ≤ 0 := by
      rintro rfl
      have hbit : w = 1 := by
        have hpos := hV.width
        by_contra hne
        rw [hno.2 (by omega)] at hc
        cases hc
      exact hV.bit hbit v hv.1
    obtain rfl := List.mem_singleton.mp hp
    cases c <;> simp [RetCond.Holds] at hnes hgt ⊢
    omega

/-- An unconditional action goes with positive values on one bit only. -/
theorem Separated.no_always (h : Separated w has) {c : RetCond} (hc : has c = true)
    (hne : c ≠ .always) (hgt : c ≠ .gtZero) : has .always = false := by
  rw [← Bool.not_eq_true]
  intro ha
  exact ((h.always ha).2 c hc).elim hne hgt

theorem Separated.of_no_always (ha : has .always = false)
    (hneg : has .ltZero → has .gtZero ∨ has .gtEqZero ∨ has .zero ∨ has .notZero)
    (hpos : 1 < w → has .gtZero → has .ltZero ∨ has .ltEqZero ∨ has .zero ∨ has .notZero) :
    Separated w has := by
  refine ⟨?_, hneg, hpos⟩
  intro h
  rw [ha] at h
  cases h

/-- The forks file the actions exactly where their conditions are separated. -/
theorem files_iff_separated (hV : AllSigns w V) (hbranch : ∃ c, c ≠ .always ∧ has c = true) :
    FilesExactly V has (returnClasses has) ↔ Separated w has := by
  unfold returnClasses
  split
  · rename_i hthree
    rw [files_three hV]
    simp only [Bool.or_eq_true, Bool.and_eq_true] at hthree
    constructor
    · intro hno
      refine Separated.of_no_always hno ?_ ?_
      · intro _
        tauto
      · intro _ _
        tauto
    · intro h
      have hother : has .ltZero ∨ has .ltEqZero ∨ has .zero ∨ has .notZero := by tauto
      rcases hother with hc | hc | hc | hc
      all_goals exact h.no_always hc (by decide) (by decide)
  · rename_i hthree
    simp only [Bool.or_eq_true, Bool.and_eq_true, not_or, not_and, Bool.not_eq_true] at hthree
    split
    · rename_i hzero
      rw [Bool.or_eq_true] at hzero
      have hnone := hthree.2 hzero
      rw [files_zero hV hnone.1.1.1 hnone.1.1.2 hnone.1.2 hnone.2]
      constructor
      · intro hno
        exact Separated.of_no_always hno (fun _ => .inr (.inr hzero)) fun _ _ => .inr (.inr hzero)
      · intro h
        rcases hzero with hc | hc
        all_goals exact h.no_always hc (by decide) (by decide)
    · rename_i hzero
      simp only [Bool.or_eq_true, not_or, Bool.not_eq_true] at hzero
      obtain ⟨hz, hnz⟩ := hzero
      split
      · rename_i hle
        have hge := hthree.1.2 hle
        rw [files_ltEq hV hz hnz hge]
        constructor
        · intro h
          refine Separated.of_no_always h.1 (fun hlt => ?_) fun _ _ => .inr (.inl hle)
          rw [h.2] at hlt
          cases hlt
        · intro h
          refine ⟨h.no_always hle (by decide) (by decide), ?_⟩
          rw [← Bool.not_eq_true]
          intro hlt
          have hgt := hthree.1.1 hlt
          have hneg := h.negative hlt
          simp [hgt, hge, hz, hnz] at hneg
      · rename_i hle
        rw [Bool.not_eq_true] at hle
        split
        · rename_i hge
          rw [files_gtEq hV hz hnz hle]
          constructor
          · intro h
            refine Separated.of_no_always h.1 (fun _ => .inr (.inl hge)) fun hw hgt => ?_
            rw [h.2 hw] at hgt
            cases hgt
          · intro h
            refine ⟨h.no_always hge (by decide) (by decide), fun hw => ?_⟩
            rw [← Bool.not_eq_true]
            intro hgt
            have hpos := h.positive hw hgt
            have hlt : has .ltZero = false := by
              rw [← Bool.not_eq_true]
              intro hlt
              rw [hthree.1.1 hlt] at hgt
              cases hgt
            simp [hlt, hle, hz, hnz] at hpos
        · rename_i hge
          rw [Bool.not_eq_true] at hge
          rw [files_none hV hz hnz hle hge]
          constructor
          · intro h
            have honly : ∀ c, has c = true → c = .always ∨ c = .gtZero := by
              intro c hc
              have hnes := And.intro (not_has h.1 hc) (And.intro (not_has hz hc)
                (And.intro (not_has hnz hc) (And.intro (not_has hle hc) (not_has hge hc))))
              cases c <;> simp at hnes ⊢
            refine ⟨fun _ => ⟨?_, honly⟩, fun hlt => ?_, fun hw hgt => ?_⟩
            · obtain ⟨c, hne, hc⟩ := hbranch
              obtain rfl := (honly c hc).resolve_left hne
              have hwidth := hV.width
              by_contra hone
              rw [h.2 (by omega)] at hc
              cases hc
            · rw [h.1] at hlt
              cases hlt
            · rw [h.2 hw] at hgt
              cases hgt
          · intro h
            refine ⟨?_, fun hw => ?_⟩
            · rw [← Bool.not_eq_true]
              intro hlt
              have hneg := h.negative hlt
              simp [hthree.1.1 hlt, hge, hz, hnz] at hneg
            · rw [← Bool.not_eq_true]
              intro hgt
              have hlt : has .ltZero = false := by
                rw [← Bool.not_eq_true]
                intro hlt
                rw [hthree.1.1 hlt] at hgt
                cases hgt
              have hpos := h.positive hw hgt
              simp [hlt, hle, hz, hnz] at hpos

end Filing

/-- The result is fresh: it takes any value, whatever a pointer points to. -/
def SymbolicReturn.Fresh (r : SymbolicReturn w) (s : PathState) : Prop :=
  ∀ x y : BitVec w, ∃ σ, s.Admits σ ∧ r.value.val.bits σ w = x ∧
    ∀ e, r.pointee = some e → e.val.bits σ w = y

theorem SymbolicReturn.Fresh.allSigns {r : SymbolicReturn w} {s : PathState} (h : r.Fresh s)
    (hw : 0 < w) : AllSigns w (s.returned r.value) := by
  have hval : ∀ x : BitVec w, x.toInt ∈ s.returned r.value := by
    intro x
    obtain ⟨σ, hσ, hx, -⟩ := h x 0
    exact ⟨σ, hσ, congrArg BitVec.toInt hx⟩
  refine ⟨hw, ?_, ?_, ?_, ?_⟩
  · have hzero := hval 0#w
    rwa [BitVec.toInt_zero] at hzero
  · have hneg := hval (BitVec.allOnes w)
    rwa [BitVec.toInt_allOnes, if_pos hw] at hneg
  · intro hpos
    have hone := hval 1#w
    rwa [BitVec.toInt_one hpos] at hone
  · intro hbit v hv
    obtain ⟨σ, -, rfl⟩ := hv
    subst hbit
    have hle : ∀ x : BitVec 1, x.toInt ≤ 0 := by decide
    exact hle _

section Handle

variable {S : Solver} {o : ForkOptions} {apiModel : StdMap String (List ModelAction)}
  {fname : String} {actions : List ModelAction} {state : PathState} {r : SymbolicReturn w}

/-- The actions that a successor gets from the conditions it is filed under. -/
def Filed.handled (actions : List ModelAction) (f : Filed) : HandledState :=
  ⟨f.state, actions.filter fun a => a.returnCondition ∈ f.conds⟩

theorem handle_branching (hact : apiModel fname = some actions)
    (hbranch : ∃ a ∈ actions, a.returnCondition ≠ .always)
    (hret : ∀ a ∈ actions, a.action.assignsRetValue = false) :
    handle S o apiModel fname state (some r) =
      (r.symbolize S o state).bind fun p =>
        (partitionReturn S o (hasCond actions) p.1 r.retexpr).map fun l =>
          .handled ((l.map fun f => f.handled actions) ++ p.2.map fun s => ⟨s, []⟩) := by
  have hok : (actions.all fun a => !a.action.assignsRetValue) = true := by
    simpa using hret
  have hany : (actions.any fun a => a.returnCondition ≠ .always) = true := by
    simpa using hbranch
  unfold handle
  simp only [hact, hok, hany, Bool.not_true, Bool.or_self, Bool.false_eq_true, if_false]
  rfl

theorem hasCond_iff {c : RetCond} :
    hasCond actions c = true ↔ ∃ a ∈ actions, a.returnCondition = c := by
  simp [hasCond]

/-- For a result that is no pointer the successors are those of the classes. -/
theorem handled_integer (hs : o.skipFork = none) (hd : o.maxDepth = 0) (hw : 0 < w)
    (hact : apiModel fname = some actions) (hbranch : ∃ a ∈ actions, a.returnCondition ≠ .always)
    (hret : ∀ a ∈ actions, a.action.assignsRetValue = false) (hfresh : r.Fresh state)
    (hint : r.pointee = none) :
    (∃ out, handle S o apiModel fname state (some r) = some (.handled out) ∧
      HandledExactly actions state r.value out) ↔ Separated w (hasCond actions) := by
  have hsigns := hfresh.allSigns hw
  obtain ⟨l, hl, hsplits⟩ := partitionReturn_splits (S := S) hs hd (hasCond actions)
    ⟨-1, hsigns.negative, by decide⟩
  have hhandle : handle S o apiModel fname state (some r) =
      some (.handled (l.map fun f => f.handled actions)) := by
    rw [handle_branching hact hbranch hret]
    simp [SymbolicReturn.symbolize, SymbolicReturn.retexpr, hint, hl]
  have hparts : Parts (state.returned r.value) (l.map fun f => f.state.returned r.value) := by
    refine hsplits.parts ?_
    have h := (returnClasses_parts (hasCond actions)).inter (state.returned r.value)
    rwa [Set.inter_univ, List.map_map] at h
  have hconds : ∃ c, c ≠ .always ∧ hasCond actions c = true := by
    obtain ⟨a, ha, hne⟩ := hbranch
    exact ⟨a.returnCondition, hne, hasCond_iff.mpr ⟨a, ha, rfl⟩⟩
  rw [hhandle, ← files_iff_separated hsigns hconds]
  simp only [Option.some.injEq, HandleResult.handled.injEq, exists_eq_left']
  have hiff := hsplits.forall_iff fun cs v =>
    ∀ c, hasCond actions c → (c ∈ cs ↔ c.Holds v)
  constructor
  · intro h
    refine hiff.mp ?_
    intro f hf v hv c hc
    obtain ⟨a, ha, rfl⟩ := hasCond_iff.mp hc
    have hpushed := h.pushed (f.handled actions) (List.mem_map_of_mem hf) v hv a
    simpa [Filed.handled, ha] using hpushed
  · intro h
    refine ⟨by rwa [List.map_map], ?_⟩
    intro x hx v hv a
    obtain ⟨f, hf, rfl⟩ := List.mem_map.mp hx
    have hfiles := hiff.mpr h f hf v hv a.returnCondition
    rw [Filed.handled, List.mem_filter]
    refine and_congr_right fun ha => ?_
    rw [decide_eq_true_iff]
    exact hfiles (hasCond_iff.mpr ⟨a, ha, rfl⟩)

/-- Both sides of a fork on a condition that some assignment meets and some other does not. -/
theorem fork_both (hs : o.skipFork = none) (hd : o.maxDepth = 0) {s : PathState} {c : Constraint}
    (hyes : ∃ σ, s.Admits σ ∧ c.Holds σ) (hno : ∃ σ, s.Admits σ ∧ ¬ c.Holds σ) :
    ∃ t f, fork S o s c false = some (some t, some f) ∧
      (∀ σ, t.Admits σ ↔ s.Admits σ ∧ c.Holds σ) ∧ ∀ σ, f.Admits σ ↔ s.Admits σ ∧ ¬ c.Holds σ := by
  obtain ⟨t, f, hfork, hdiv⟩ := fork_divides (S := S) hs hd s c false
  obtain ⟨σ, hσ, hc⟩ := hyes
  obtain ⟨τ, hτ, hn⟩ := hno
  cases t with
  | none =>
    have hmem : σ ∈ s.models ∩ {σ | c.Holds σ} := ⟨hσ, hc⟩
    rw [← hdiv.first] at hmem
    cases hmem
  | some t =>
    cases f with
    | none =>
      have hmem : τ ∈ s.models \ {σ | c.Holds σ} := ⟨hτ, hn⟩
      rw [← hdiv.second] at hmem
      cases hmem
    | some f =>
      exact ⟨t, f, hfork, fun σ => Set.ext_iff.mp hdiv.first σ,
        fun σ => Set.ext_iff.mp hdiv.second σ⟩

/-- Only the comparison with zero is missed by both a negative and a positive value. -/
theorem RetCond.eq_zero {c : RetCond} (hneg : ¬ c.Holds (-1)) (hpos : ¬ c.Holds 1) : c = .zero := by
  cases c <;> simp [RetCond.Holds] at hneg hpos ⊢

/-- A returned pointer has been forked on already: the state in which it is not null gets no
action, and the forks on what it points to share the null pointer. -/
theorem pointer_not_exact (hs : o.skipFork = none) (hd : o.maxDepth = 0)
    (hact : apiModel fname = some actions) (hbranch : ∃ a ∈ actions, a.returnCondition ≠ .always)
    (hret : ∀ a ∈ actions, a.action.assignsRetValue = false) (hfresh : r.Fresh state) {e : Word w}
    (hptr : r.pointee = some e) {out : List HandledState}
    (hout : handle S o apiModel fname state (some r) = some (.handled out)) :
    ¬ HandledExactly actions state r.value out := by
  intro h
  have hw : w = 64 := r.pointerWidth (by rw [hptr]; rfl)
  subst hw
  obtain ⟨first, second, hfork, hfirst, hsecond⟩ := fork_both (S := S) (s := state)
    (c := r.value.eqZero) hs hd
    (by
      obtain ⟨σ, hσ, hx, -⟩ := hfresh 0 0
      exact ⟨σ, hσ, (r.value.eqZero_holds σ).mpr (by rw [Word.signed, hx]; rfl)⟩)
    (by
      obtain ⟨σ, hσ, hx, -⟩ := hfresh 1 0
      refine ⟨σ, hσ, fun hc => ?_⟩
      have hzero := (r.value.eqZero_holds σ).mp hc
      rw [Word.signed, hx] at hzero
      exact absurd hzero (by decide))
  have hsymbolize : r.symbolize S o state = some (first, [second]) := by
    simp [SymbolicReturn.symbolize, hptr, hfork]
  have hretexpr : r.retexpr = e := by
    simp [SymbolicReturn.retexpr, hptr]
  rw [handle_branching hact hbranch hret, hsymbolize, Option.bind_some, hretexpr] at hout
  obtain ⟨l, hl, hout⟩ := Option.map_eq_some_iff.mp hout
  obtain rfl := HandleResult.handled.inj hout
  have hmem : ∀ x : BitVec 64, x ≠ 0 → x.toInt ∈ second.returned r.value := by
    intro x hx
    obtain ⟨σ, hσ, hv, -⟩ := hfresh x 0
    refine ⟨σ, (hsecond σ).mpr ⟨hσ, fun hc => hx ?_⟩, congrArg BitVec.toInt hv⟩
    have hzero := (r.value.eqZero_holds σ).mp hc
    rw [Word.signed, hv] at hzero
    exact BitVec.eq_of_toInt_eq (hzero.trans rfl)
  -- the state of the other pointers has no action, so all conditions are `zero`
  have hzero : ∀ a ∈ actions, a.returnCondition = .zero := by
    have hnot : ∀ x : BitVec 64, x ≠ 0 → ∀ a ∈ actions, ¬ a.returnCondition.Holds x.toInt := by
      intro x hx a ha hc
      have hpushed := (h.pushed ⟨second, []⟩ (by simp) x.toInt (hmem x hx) a).mpr ⟨ha, hc⟩
      cases hpushed
    intro a ha
    exact RetCond.eq_zero (hnot (-1) (by decide) a ha) (hnot 1 (by decide) a ha)
  have hconds : hasCond actions = fun c => decide (c = .zero) := by
    funext c
    rw [Bool.eq_iff_iff, hasCond_iff, decide_eq_true_iff]
    constructor
    · intro hc
      obtain ⟨a, ha, rfl⟩ := hc
      exact hzero a ha
    · intro hc
      obtain ⟨a, ha, -⟩ := hbranch
      exact ⟨a, ha, (hzero a ha).trans hc.symm⟩
  -- the null pointer goes with anything that the object may hold
  have hnull : ∀ y : BitVec 64, ∃ σ, first.Admits σ ∧ r.value.signed σ = 0 ∧
      e.signed σ = y.toInt := by
    intro y
    obtain ⟨σ, hσ, hx, hy⟩ := hfresh 0 y
    have hv : r.value.signed σ = 0 := by
      rw [Word.signed, hx]
      rfl
    exact ⟨σ, (hfirst σ).mpr ⟨hσ, (r.value.eqZero_holds σ).mpr hv⟩, hv,
      congrArg BitVec.toInt (hy e hptr)⟩
  obtain ⟨σ, hσ, hv, hσy⟩ := hnull 0
  obtain ⟨τ, hτ, hu, hτy⟩ := hnull 1
  have hyes : e.eqZero.Holds σ := (e.eqZero_holds σ).mpr (hσy.trans rfl)
  have hno : ¬ e.eqZero.Holds τ := by
    intro hc
    exact absurd (hτy.symm.trans ((e.eqZero_holds τ).mp hc)) (by decide)
  obtain ⟨t, f, hfork2, ht, hf⟩ := fork_both (S := S) hs hd ⟨σ, hσ, hyes⟩ ⟨τ, hτ, hno⟩
  have hpartition : partitionReturn S o (hasCond actions) first e =
      some [⟨t, [.zero]⟩, ⟨f, [.notZero]⟩] := by
    rw [hconds]
    simp [partitionReturn, hfork2]
  cases hl.symm.trans hpartition
  have hin : (0 : Int) ∈ t.returned r.value := ⟨σ, (ht σ).mpr ⟨hσ, hyes⟩, hv⟩
  have hout : (0 : Int) ∈ f.returned r.value := ⟨τ, (hf τ).mpr ⟨hτ, hno⟩, hu⟩
  have hsame := h.parts.eq_of_mem (i := 0) (j := 1) rfl rfl hin hout
  cases hsame

/-- Every value of the result has one successor, with the actions whose condition it meets,
exactly where the result is no pointer and the forks separate the conditions. -/
theorem handle_exact_iff (hs : o.skipFork = none) (hd : o.maxDepth = 0) (hw : 0 < w)
    (hact : apiModel fname = some actions) (hbranch : ∃ a ∈ actions, a.returnCondition ≠ .always)
    (hret : ∀ a ∈ actions, a.action.assignsRetValue = false) (hfresh : r.Fresh state) :
    (∃ out, handle S o apiModel fname state (some r) = some (.handled out) ∧
      HandledExactly actions state r.value out) ↔
    r.pointee = none ∧ Separated w (hasCond actions) := by
  cases hp : r.pointee with
  | none =>
    rw [handled_integer hs hd hw hact hbranch hret hfresh hp]
    simp
  | some e =>
    constructor
    · intro h
      obtain ⟨out, hout, hexact⟩ := h
      exact absurd hexact (pointer_not_exact hs hd hact hbranch hret hfresh hp hout)
    · intro h
      cases h.1

end Handle

/-- A fresh result of eight bits. -/
def byteReturn : SymbolicReturn 8 where
  value := ⟨.read { name := "ret", size := 1 } .nil (Expr.const 0 32), ⟨trivial, trivial, rfl⟩, rfl⟩

theorem byteReturn_fresh : byteReturn.Fresh {} := by
  intro x y
  refine ⟨fun a _ => x.setWidth a.range, fun c hc => ?_, ?_, fun e he => ?_⟩
  · cases hc
  · have hvalue : byteReturn.value.val.value (fun a _ => x.setWidth a.range) =
        (x.setWidth 8).toNat := rfl
    rw [Expr.bits, hvalue, BitVec.setWidth_eq, BitVec.ofNat_toNat, BitVec.setWidth_eq]
  · cases he

/-- One block for results up to zero, and one for positive results. -/
def signedModel : StdMap String (List ModelAction) := fun fname =>
  if fname = "probe" then
    some [⟨.block [⟨"ignore", ["probe"]⟩], .ltEqZero⟩, ⟨.block [⟨"callback", ["probe", "f"]⟩], .gtZero⟩]
  else none

theorem signedModel_exact : ∃ out,
    handle Solver.ideal {} signedModel "probe" {} (some byteReturn) = some (.handled out) ∧
      HandledExactly [⟨.block [⟨"ignore", ["probe"]⟩], .ltEqZero⟩,
        ⟨.block [⟨"callback", ["probe", "f"]⟩], .gtZero⟩] {} byteReturn.value out :=
  (handle_exact_iff rfl rfl (by decide) rfl ⟨_, List.mem_cons_self, by decide⟩ (by decide)
    byteReturn_fresh).mpr ⟨rfl, fun h => absurd h (by decide), by decide, by decide⟩

/-- One block for failures only. -/
def failureModel : StdMap String (List ModelAction) := fun fname =>
  if fname = "probe" then some [⟨.block [⟨"ignore", ["probe"]⟩], .ltZero⟩] else none

/-- The state is not forked, and the block is not executed for a negative result. -/
theorem failure_never_handled : ¬ ∃ out,
    handle Solver.ideal {} failureModel "probe" {} (some byteReturn) = some (.handled out) ∧
      HandledExactly [⟨.block [⟨"ignore", ["probe"]⟩], .ltZero⟩] {} byteReturn.value out := by
  rw [handled_integer rfl rfl (by decide) rfl ⟨_, List.mem_cons_self, by decide⟩ (by decide)
    byteReturn_fresh rfl]
  intro h
  exact absurd (h.negative rfl) (by decide)

end Encider
