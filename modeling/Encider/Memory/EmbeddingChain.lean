import Encider.Memory.Embedding
import Mathlib.Data.Fintype.EquivFin
import Mathlib.Data.List.GetD
import Mathlib.Tactic.Common

/-!
The chain of embedding types a request follows. It depends on the tables alone: an object is only
ever made for a type at the top of a chain, so no cache cuts a chain short. The address of a
request is made at the lowest step, from the base of the object and one offset; the offsets of
the steps above are lost.
-/

namespace Encider.Embedding

variable {τ : Type} [DecidableEq τ]

namespace Layout

variable (p : Layout τ)

/-- The embedding type that is asked first. -/
def chosen (t : τ) : Option τ := (p.embeddingTypes t).find? fun et => !p.skips t et

theorem depth_chosen {t et : τ} (h : p.chosen t = some et) : p.depth et < p.depth t :=
  p.acyclic (List.mem_of_find?_eq_some h)

/-- The top of the chain from a type. -/
def root (t : τ) : τ :=
  match h : p.chosen t with
  | none => t
  | some et =>
    have := p.depth_chosen h
    root et
termination_by p.depth t

/-- The sum of the field offsets along the chain from its top down to a type. -/
def rootOffset (t : τ) : ℕ :=
  match h : p.chosen t with
  | none => 0
  | some et =>
    have := p.depth_chosen h
    (p.elementOffset et t).getD 0 + rootOffset et
termination_by p.depth t

variable {p}

theorem root_top {t : τ} (h : p.chosen t = none) : p.root t = t := by
  unfold root
  split
  · rfl
  · simp_all

theorem root_step {t et : τ} (h : p.chosen t = some et) : p.root t = p.root et := by
  conv_lhs => unfold root
  split
  · simp_all
  · simp_all

theorem rootOffset_top {t : τ} (h : p.chosen t = none) : p.rootOffset t = 0 := by
  unfold rootOffset
  split
  · rfl
  · simp_all

theorem rootOffset_step {t et : τ} (h : p.chosen t = some et) :
    p.rootOffset t = (p.elementOffset et t).getD 0 + p.rootOffset et := by
  conv_lhs => unfold rootOffset
  split
  · simp_all
  · simp_all

/-- Induction along the chain from a type to its top. -/
theorem chain_induction {motive : τ → Prop} (top : ∀ t, p.chosen t = none → motive t)
    (step : ∀ t et, p.chosen t = some et → motive et → motive t) (t : τ) : motive t := by
  induction hd : p.depth t using Nat.strongRecOn generalizing t with
  | ind d ih =>
    cases h : p.chosen t with
    | none => exact top t h
    | some et => exact step t et h (ih _ (hd ▸ p.depth_chosen h) et rfl)

theorem chosen_root (t : τ) : p.chosen (p.root t) = none := by
  induction t using chain_induction (p := p) with
  | top t h => rw [root_top h, h]
  | step t et h ih => rw [root_step h, ih]

/-- The first element of a type that has one lies inside the struct. -/
theorem elementOffset_mem {et t : τ} (h : t ∈ (p.elements et).map Prod.fst) :
    ∃ offset, p.elementOffset et t = some offset ∧ offset + p.allocSize t ≤ p.allocSize et := by
  obtain ⟨e, he, rfl⟩ := List.mem_map.mp h
  cases hfind : (p.elements et).find? (·.1 = e.1) with
  | none =>
    have := List.find?_eq_none.mp hfind e he
    simp at this
  | some e' =>
    have htype : e'.1 = e.1 := by simpa using List.find?_some hfind
    refine ⟨e'.2, by simp [elementOffset, hfind], ?_⟩
    rw [← htype]
    exact p.element_fits (List.mem_of_find?_eq_some hfind)

theorem elementOffset_chosen {t et : τ} (h : p.chosen t = some et) :
    ∃ offset, p.elementOffset et t = some offset ∧ offset + p.allocSize t ≤ p.allocSize et :=
  elementOffset_mem (p.mem_embeddingTypes.mp (List.mem_of_find?_eq_some h))

/-- A range of the type at its offset lies inside the top of its chain. -/
theorem rootOffset_fits (t : τ) :
    p.rootOffset t + p.allocSize t ≤ p.allocSize (p.root t) := by
  induction t using chain_induction (p := p) with
  | top t h => simp [rootOffset_top h, root_top h]
  | step t et h ih =>
    obtain ⟨offset, hoffset, hfits⟩ := elementOffset_chosen h
    rw [rootOffset_step h, root_step h, hoffset, Option.getD_some]
    omega

theorem isEmbedded_of_chosen {t et : τ} (h : p.chosen t = some et) : p.isEmbeddedType t = true := by
  have hmem := List.mem_of_find?_eq_some h
  unfold isEmbeddedType
  cases hset : p.embeddingTypes t with
  | nil => simp [hset] at hmem
  | cons => rfl

end Layout

/-! ### States -/

/-- What holds of the caches in a state reached by requests: they name objects of their type, and
only for types at the top of a chain. -/
structure Inv (p : Layout τ) (st : LazyState τ) : Prop where
  bases : (st.objects.map MemoryObject.base).Nodup
  single : ∀ {t mo}, st.lazyInitSingleInstances t = some mo →
    mo ∈ st.objects ∧ mo.type = t ∧ p.chosen t = none
  address : ∀ {t a}, st.typeToAddr t = some a →
    (∃ mo ∈ st.objects, mo.base = a ∧ mo.type = t) ∧ p.chosen t = none

theorem Inv.empty (p : Layout τ) : Inv p LazyState.empty := by
  constructor <;> simp [LazyState.empty]

theorem Inv.resolveOne {p : Layout τ} {st : LazyState τ} (h : Inv p st) {mo : MemoryObject τ}
    (hmo : mo ∈ st.objects) : st.resolveOne mo.base = some mo := by
  cases hfind : st.objects.find? (·.base = mo.base) with
  | none =>
    have := List.find?_eq_none.mp hfind mo hmo
    simp at this
  | some mo' =>
    have hbase : mo'.base = mo.base := by simpa using List.find?_some hfind
    have heq : mo' = mo :=
      List.inj_on_of_nodup_map h.bases (List.mem_of_find?_eq_some hfind) hmo hbase
    rw [LazyState.resolveOne, hfind, heq]

/-- An address at which no object begins. -/
def Free (st : LazyState τ) (address : ℕ) : Prop := address ∉ st.objects.map MemoryObject.base

omit [DecidableEq τ] in
theorem exists_free (st : LazyState τ) : ∃ address, Free st address := by
  obtain ⟨address, h⟩ :=
    Infinite.exists_notMem_finset (st.objects.map MemoryObject.base).toFinset
  exact ⟨address, mt List.mem_toFinset.mpr h⟩

theorem Inv.create {p : Layout τ} {st : LazyState τ} (h : Inv p st) {address : ℕ}
    (hfree : Free st address) {t : τ} (ht : p.chosen t = none) (isSingle : Bool) (count : ℕ) :
    Inv p (p.createInstance st address t isSingle count).st where
  bases := by
    simp only [Layout.createInstance, List.map_append, List.map_cons, List.map_nil]
    apply h.bases.append (List.nodup_singleton address)
    intro a hold hnew
    rw [List.mem_singleton] at hnew
    exact hfree (hnew ▸ hold)
  single := by
    intro t' mo hmo
    simp only [Layout.createInstance] at hmo ⊢
    by_cases hnew : isSingle = true ∧ t' = t
    · obtain ⟨hs, rfl⟩ := hnew
      simp only [if_pos hs, Function.update_self, Option.some.injEq] at hmo
      subst hmo
      exact ⟨by simp, rfl, ht⟩
    · have hold : st.lazyInitSingleInstances t' = some mo := by
        split at hmo
        · rename_i hs
          rwa [Function.update_of_ne fun he => hnew ⟨hs, he⟩] at hmo
        · exact hmo
      obtain ⟨hmem, htype, htop⟩ := h.single hold
      exact ⟨List.mem_append_left _ hmem, htype, htop⟩
  address := by
    intro t' a ha
    simp only [Layout.createInstance] at ha ⊢
    by_cases hnew : t' = t
    · subst hnew
      simp only [Function.update_self, Option.some.injEq] at ha
      exact ⟨⟨⟨address, p.allocSize t' * count, t'⟩, by simp, ha, rfl⟩, ht⟩
    · rw [Function.update_of_ne hnew] at ha
      obtain ⟨⟨mo, hmem, hmo⟩, htop⟩ := h.address ha
      exact ⟨⟨mo, List.mem_append_left _ hmem, hmo⟩, htop⟩

end Encider.Embedding
