import Encider.Memory.EmbeddingRequests
import Mathlib.Data.Fin.VecNotation

/-!
Histories of requests in one state, and exactly when a request in such a history gets the address
of its type inside the object, now and whenever it is repeated.
-/

namespace Encider.Embedding

variable {τ : Type} [DecidableEq τ] {p : Layout τ} {st st' : LazyState τ}

/-- A call of `allocateLazyForTypeOrEmbedding`; a new object is to go to `address`. -/
structure Request (τ : Type) where
  type : τ
  isSingle : Bool
  count : ℕ
  address : ℕ

namespace Layout

variable (p : Layout τ)

def step (st : LazyState τ) (q : Request τ) : Option (Response τ) :=
  p.allocateLazyForTypeOrEmbedding st q.address q.type q.type q.isSingle q.count

/-- Whether the type at the top of the chain counts as single: as the request says when it is the
requested type, and as the tables say otherwise. -/
def rootSingle (q : Request τ) : Bool :=
  if p.chosen q.type = none then q.isSingle else (p.lazyInit (p.root q.type)).1

def rootCount (q : Request τ) : ℕ :=
  if p.chosen q.type = none then q.count else (p.lazyInit (p.root q.type)).2

/-- The one offset that shows in the address. -/
def lowOffset (t : τ) : ℕ :=
  match p.chosen t with
  | none => 0
  | some et => (p.elementOffset et t).getD 0

variable {p}

/-- The offset that shows is the whole offset exactly when the first embedder begins its top. -/
theorem lowOffset_eq_iff (t : τ) :
    p.lowOffset t = p.rootOffset t ↔ ∀ et, p.chosen t = some et → p.rootOffset et = 0 := by
  unfold lowOffset
  cases h : p.chosen t with
  | none => simp [rootOffset_top h]
  | some et => simp [rootOffset_step h]

end Layout

/-- How one level at the top of a chain answers: by the cached object, by the object recorded for
the type when it has an element of the original type, or by a new object. -/
inductive Answered (p : Layout τ) (st : LazyState τ) (address : ℕ) (orig t : τ)
    (isSingle : Bool) (count : ℕ) : Option (Response τ) → Prop where
  | cached (mo : MemoryObject τ) (single : isSingle = true)
      (found : st.lazyInitSingleInstances t = some mo) :
      Answered p st address orig t isSingle count
        (some ⟨some ⟨mo, t, mo.base, false⟩, false, st⟩)
  | recorded (mo : MemoryObject τ) (single : isSingle = true)
      (missing : st.lazyInitSingleInstances t = none) (embedded : p.isEmbeddedType orig = true)
      (found : st.typeToAddr t = some mo.base) (alloc : mo ∈ st.objects) (type : mo.type = t)
      (has : orig = t ∨ orig ∈ (p.elements t).map Prod.fst) (a : Answer τ) (object : a.mo = mo)
      (old : a.sym = false) (base : orig = t → a.resaddr = mo.base) :
      Answered p st address orig t isSingle count (some ⟨some a, false, st⟩)
  | lost (single : isSingle = true) (missing : st.lazyInitSingleInstances t = none)
      (embedded : p.isEmbeddedType orig = true) (found : st.typeToAddr t ≠ none)
      (hasNot : ¬ (orig = t ∨ orig ∈ (p.elements t).map Prod.fst)) :
      Answered p st address orig t isSingle count none
  | created (missing : isSingle = true → st.lazyInitSingleInstances t = none ∧
      (p.isEmbeddedType orig = true → st.typeToAddr t = none)) :
      Answered p st address orig t isSingle count
        (some (p.createInstance st address t isSingle count))

theorem elementOffset_none {set t : τ} (h : t ∉ (p.elements set).map Prod.fst) :
    p.elementOffset set t = none := by
  have hfind : (p.elements set).find? (·.1 = t) = none := by
    apply List.find?_eq_none.mpr
    intro e he
    simp only [decide_eq_true_eq]
    rintro rfl
    exact h (List.mem_map_of_mem he)
  rw [Layout.elementOffset, hfind, Option.map_none]

theorem simple_answered (h : Inv p st) (address : ℕ) (orig t : τ) (isSingle : Bool)
    (count : ℕ) :
    Answered p st address orig t isSingle count
      (p.allocateLazyForTypeOrEmbeddingSimple st address orig t isSingle count) := by
  unfold Layout.allocateLazyForTypeOrEmbeddingSimple
  by_cases hs : isSingle = true
  · rw [if_pos hs]
    cases hlazy : st.lazyInitSingleInstances t with
    | some mo => exact .cached mo hs hlazy
    | none =>
      cases hrecorded : p.recordedAddress st orig t with
      | none =>
        apply Answered.created
        intro _
        refine ⟨hlazy, fun hemb => ?_⟩
        simpa [Layout.recordedAddress, hemb] using hrecorded
      | some recorded =>
        obtain ⟨mo, hmo, hbase, htype, hresolve⟩ := recorded_resolves h hrecorded
        obtain ⟨hemb, haddr⟩ : p.isEmbeddedType orig = true ∧ st.typeToAddr t = some mo.base := by
          rw [hbase]
          simpa [Layout.recordedAddress] using hrecorded
        simp only [hresolve]
        subst hbase
        by_cases hsame : orig = t
        · have ha : p.ancestorInstance orig t mo.base mo = some ⟨mo, t, mo.base, false⟩ :=
            if_pos hsame
          rw [ha]
          exact .recorded mo hs hlazy hemb haddr hmo htype (Or.inl hsame) _ rfl rfl fun _ => rfl
        · by_cases hhas : orig ∈ (p.elements t).map Prod.fst
          · obtain ⟨offset, hoffset, _⟩ := Layout.elementOffset_mem hhas
            have ha : p.ancestorInstance orig t mo.base mo =
                some ⟨mo, t, offset + mo.base, false⟩ := by
              rw [Layout.ancestorInstance, if_neg hsame, hoffset]
              rfl
            rw [ha]
            exact .recorded mo hs hlazy hemb haddr hmo htype (Or.inr hhas) _ rfl rfl
              fun he => absurd he hsame
          · have ha : p.ancestorInstance orig t mo.base mo = none := by
              rw [Layout.ancestorInstance, if_neg hsame, elementOffset_none hhas]
              rfl
            rw [ha]
            exact .lost hs hlazy hemb (by simp [haddr]) (not_or.mpr ⟨hsame, hhas⟩)
  · rw [if_neg hs]
    exact .created fun hs' => absurd hs' hs

/-- What the chain below its top does to an answer. -/
def Layout.relayChain (p : Layout τ) (t : τ) (r : Response τ) : Response τ :=
  match p.chosen t with
  | none => r
  | some et => p.relay et t r

theorem step_eq (h : Inv p st) (q : Request τ) :
    p.step st q =
      (p.allocateLazyForTypeOrEmbeddingSimple st q.address q.type (p.root q.type)
        (p.rootSingle q) (p.rootCount q)).map (p.relayChain q.type) := by
  unfold Layout.step Layout.relayChain Layout.rootSingle Layout.rootCount
  cases ht : p.chosen q.type with
  | none => simp [request_top h ht, Layout.root_top ht]
  | some et => simp [request_chosen h ht]

theorem relayChain_st (t : τ) (r : Response τ) : (p.relayChain t r).st = r.st := by
  unfold Layout.relayChain
  split <;> rfl

/-- The object and `sym` of an answer come from the top of the chain. -/
theorem relayChain_object {t : τ} {r : Response τ} {a : Answer τ}
    (ha : (p.relayChain t r).answer = some a) :
    ∃ a₀, r.answer = some a₀ ∧ a.mo = a₀.mo ∧ a.sym = a₀.sym := by
  unfold Layout.relayChain at ha
  split at ha
  · exact ⟨a, ha, rfl, rfl⟩
  · obtain ⟨a₀, ha₀, rfl⟩ := Option.map_eq_some_iff.mp ha
    exact ⟨a₀, ha₀, rfl, rfl⟩

theorem relayChain_answer {t : τ} {r : Response τ} {a : Answer τ} (ha : r.answer = some a)
    (hbase : t = p.root t → a.resaddr = a.mo.base) :
    ∃ a', (p.relayChain t r).answer = some a' ∧ a'.mo = a.mo ∧ a'.sym = a.sym ∧
      a'.resaddr = p.lowOffset t + a.mo.base := by
  unfold Layout.relayChain Layout.lowOffset
  cases ht : p.chosen t with
  | none => exact ⟨a, ha, rfl, rfl, by simp [hbase (Layout.root_top ht).symm]⟩
  | some et =>
    exact ⟨{ a with resaddr := (p.elementOffset et t).getD 0 + a.mo.base },
      by simp [Layout.relay, ha], rfl, rfl, rfl⟩

/-- A request as a whole, in the terms of the level at the top of its chain. -/
theorem step_answered (h : Inv p st) (q : Request τ) :
    ∃ o, p.step st q = o.map (p.relayChain q.type) ∧
      Answered p st q.address q.type (p.root q.type) (p.rootSingle q) (p.rootCount q) o :=
  ⟨_, step_eq h q, simple_answered h _ _ _ _ _⟩

/-- An answer names an object of the top type, and its address shows one offset. -/
theorem step_answer (h : Inv p st) {q : Request τ} {r : Response τ} (hr : p.step st q = some r) :
    ∃ a, r.answer = some a ∧ a.mo ∈ r.st.objects ∧ a.mo.type = p.root q.type ∧
      a.resaddr = p.lowOffset q.type + a.mo.base := by
  obtain ⟨o, hstep, ho⟩ := step_answered h q
  rw [hstep] at hr
  obtain ⟨r₀, rfl, rfl⟩ := Option.map_eq_some_iff.mp hr
  rw [relayChain_st]
  cases ho with
  | cached mo hs hlazy =>
    obtain ⟨hmo, htype, _⟩ := h.single hlazy
    obtain ⟨a', ha', hobject, _, haddr⟩ :=
      relayChain_answer (p := p) (t := q.type)
        (r := ⟨some ⟨mo, p.root q.type, mo.base, false⟩, false, st⟩) rfl fun _ => rfl
    exact ⟨a', ha', hobject ▸ hmo, hobject ▸ htype, hobject ▸ haddr⟩
  | recorded mo hs hlazy hemb hfound hmo htype hhas a hobject hold hbase =>
    obtain ⟨a', ha', hobject', _, haddr⟩ :=
      relayChain_answer (p := p) (t := q.type) (r := ⟨some a, false, st⟩) rfl
        fun he => hobject ▸ hbase he
    rw [hobject] at hobject'
    exact ⟨a', ha', hobject' ▸ hmo, hobject' ▸ htype, by rw [haddr, hobject', hobject]⟩
  | created hmissing =>
    obtain ⟨a', ha', hobject, _, haddr⟩ :=
      relayChain_answer (p := p) (t := q.type)
        (r := p.createInstance st q.address (p.root q.type) (p.rootSingle q) (p.rootCount q)) rfl
        fun _ => rfl
    refine ⟨a', ha', ?_, ?_, ?_⟩
    · rw [hobject]
      simp [Layout.createInstance]
    · rw [hobject]
    · rw [haddr, hobject]

/-! ### Histories -/

/-- The states that further requests lead to. -/
inductive Later (p : Layout τ) (st : LazyState τ) : LazyState τ → Prop where
  | refl : Later p st st
  | step {st' : LazyState τ} {q : Request τ} {r : Response τ} (h : Later p st st')
      (free : Free st' q.address) (run : p.step st' q = some r) : Later p st r.st

theorem Inv.step (h : Inv p st) {q : Request τ} {r : Response τ} (hfree : Free st q.address)
    (hr : p.step st q = some r) : Inv p r.st := by
  obtain ⟨o, hstep, ho⟩ := step_answered h q
  rw [hstep] at hr
  obtain ⟨r₀, rfl, rfl⟩ := Option.map_eq_some_iff.mp hr
  rw [relayChain_st]
  cases ho with
  | cached => exact h
  | recorded => exact h
  | created => exact h.create hfree (Layout.chosen_root _) _ _

theorem Later.inv (h : Inv p st) (hl : Later p st st') : Inv p st' := by
  induction hl with
  | refl => exact h
  | step _ hfree hrun ih => exact ih.step hfree hrun

/-- A cached single instance stays. -/
theorem step_single (h : Inv p st) {q : Request τ} {r : Response τ}
    (hr : p.step st q = some r) {t : τ} {mo : MemoryObject τ}
    (hmo : st.lazyInitSingleInstances t = some mo) :
    r.st.lazyInitSingleInstances t = some mo := by
  obtain ⟨o, hstep, ho⟩ := step_answered h q
  rw [hstep] at hr
  obtain ⟨r₀, rfl, rfl⟩ := Option.map_eq_some_iff.mp hr
  rw [relayChain_st]
  cases ho with
  | cached => exact hmo
  | recorded => exact hmo
  | created hmissing =>
    simp only [Layout.createInstance]
    split
    · rename_i hs
      have hne : t ≠ p.root q.type := by
        rintro rfl
        rw [(hmissing hs).1] at hmo
        cases hmo
      rw [Function.update_of_ne hne, hmo]
    · exact hmo

theorem Later.single (h : Inv p st) (hl : Later p st st') {t : τ} {mo : MemoryObject τ}
    (hmo : st.lazyInitSingleInstances t = some mo) :
    st'.lazyInitSingleInstances t = some mo := by
  induction hl with
  | refl => exact hmo
  | step hl _ hrun ih => exact step_single (hl.inv h) hrun ih

/-! ### Served requests -/

/-- The object is one of the type at the top of the chain, the address is its base plus all the
offsets of the chain, the requested type fits there, and a request that repeats a single-instance
one later in the state gets the same address, not to be made symbolic again. -/
def Served (p : Layout τ) (st : LazyState τ) (q : Request τ) : Prop :=
  ∃ r a, p.step st q = some r ∧ r.answer = some a ∧
    a.mo ∈ r.st.objects ∧ a.mo.type = p.root q.type ∧
    a.resaddr = a.mo.base + p.rootOffset q.type ∧
    p.rootOffset q.type + p.allocSize q.type ≤ p.allocSize a.mo.type ∧
    (q.isSingle = true → ∀ st', Later p r.st st' → ∀ q' : Request τ, q'.type = q.type →
      q'.isSingle = true → Free st' q'.address →
        ∃ r' a', p.step st' q' = some r' ∧ r'.answer = some a' ∧ a'.resaddr = a.resaddr ∧
          a'.sym = false)

/-- `offset`: the first embedder of the type, when there is one, begins the type at its top.
`single`: a single-instance type has a single-instance top. `recorded`: where the top is single
and was so far only allocated by requests for many instances, a type below it is an element of it
and is not itself requested as single. -/
structure Meets (p : Layout τ) (st : LazyState τ) (q : Request τ) : Prop where
  offset : ∀ et, p.chosen q.type = some et → p.rootOffset et = 0
  single : q.isSingle = true → p.rootSingle q = true
  recorded : p.rootSingle q = true → p.isEmbeddedType q.type = true →
    st.typeToAddr (p.root q.type) ≠ none → st.lazyInitSingleInstances (p.root q.type) = none →
      q.isSingle = false ∧ q.type ∈ (p.elements (p.root q.type)).map Prod.fst

theorem rootSingle_again {q : Request τ} (hs : q.isSingle = true) (count address : ℕ) :
    p.rootSingle ⟨q.type, true, count, address⟩ = p.rootSingle q := by
  rw [Layout.rootSingle, Layout.rootSingle, hs]

theorem Served.offset (h : Inv p st) {q : Request τ} (hserved : Served p st q) :
    ∀ et, p.chosen q.type = some et → p.rootOffset et = 0 := by
  obtain ⟨r, a, hr, ha, _, _, haddr, _, _⟩ := hserved
  obtain ⟨a', ha', _, _, hlow⟩ := step_answer h hr
  obtain rfl : a = a' := Option.some.inj (ha.symm.trans ha')
  apply (Layout.lowOffset_eq_iff q.type).mp
  omega

/-- Two answers for one type with one address are about objects at one base. -/
theorem Served.again (h : Inv p st) {q : Request τ} (hfree : Free st q.address)
    (hserved : Served p st q) (hs : q.isSingle = true) :
    ∃ r a, p.step st q = some r ∧ r.answer = some a ∧ a.mo ∈ r.st.objects ∧
      ∀ st', Later p r.st st' → ∀ address, Free st' address →
        ∃ r' a', p.step st' ⟨q.type, true, q.count, address⟩ = some r' ∧ r'.answer = some a' ∧
          a'.mo.base = a.mo.base := by
  obtain ⟨r, a, hr, ha, hmo, _, _, _, hagain⟩ := hserved
  refine ⟨r, a, hr, ha, hmo, ?_⟩
  intro st' hlater address hfree'
  obtain ⟨r', a', hr', ha', hsame, _⟩ :=
    hagain hs st' hlater ⟨q.type, true, q.count, address⟩ rfl rfl hfree'
  refine ⟨r', a', hr', ha', ?_⟩
  obtain ⟨_, ha₁, _, _, hlow⟩ := step_answer h hr
  obtain rfl := Option.some.inj (ha.symm.trans ha₁)
  obtain ⟨_, ha₂, _, _, hlow'⟩ := step_answer (hlater.inv (h.step hfree hr)) hr'
  obtain rfl := Option.some.inj (ha'.symm.trans ha₂)
  rw [hlow', hlow] at hsame
  exact Nat.add_left_cancel hsame

/-- A top that is not single gets a new object each time. -/
theorem Served.single (h : Inv p st) {q : Request τ} (hfree : Free st q.address)
    (hserved : Served p st q) (hs : q.isSingle = true) : p.rootSingle q = true := by
  by_contra hroot
  obtain ⟨r, a, hr, _, hmo, hagain⟩ := hserved.again h hfree hs
  obtain ⟨address, hfree'⟩ := exists_free r.st
  obtain ⟨r', a', hr', ha', hbase⟩ := hagain r.st .refl address hfree'
  have hroot' : ¬ p.rootSingle ⟨q.type, true, q.count, address⟩ = true := by
    rwa [rootSingle_again hs]
  obtain ⟨o, hstep, ho⟩ := step_answered (h.step hfree hr) ⟨q.type, true, q.count, address⟩
  rw [hstep] at hr'
  obtain ⟨r₀, rfl, rfl⟩ := Option.map_eq_some_iff.mp hr'
  cases ho with
  | cached _ hs' => exact hroot' hs'
  | recorded _ hs' => exact hroot' hs'
  | created =>
    obtain ⟨_, ha₃, hobject, _⟩ := relayChain_object ha'
    obtain rfl := Option.some.inj ha₃
    rw [hobject] at hbase
    exact hfree' (List.mem_map.mpr ⟨a.mo, hmo, hbase.symm⟩)

/-- A request for many instances of a type at the top of a chain records a new address for it. -/
theorem step_many (h : Inv p st) {t : τ} (ht : p.chosen t = none) (address : ℕ) :
    p.step st ⟨t, false, 1, address⟩ = some (p.createInstance st address t false 1) := by
  unfold Layout.step
  rw [request_top h ht]
  rfl

/-- An address that was recorded for the top changes with the next object made for it. -/
theorem Served.recorded (h : Inv p st) {q : Request τ} (hfree : Free st q.address)
    (hserved : Served p st q)
    (hroot : p.rootSingle q = true) (hemb : p.isEmbeddedType q.type = true)
    (hfound : st.typeToAddr (p.root q.type) ≠ none)
    (hlazy : st.lazyInitSingleInstances (p.root q.type) = none) :
    q.isSingle = false ∧ q.type ∈ (p.elements (p.root q.type)).map Prod.fst := by
  have hmany : q.isSingle = false := by
    by_contra hs
    rw [Bool.not_eq_false] at hs
    obtain ⟨r, a, hr, _, hmo, hagain⟩ := hserved.again h hfree hs
    obtain ⟨address₁, hfree₁⟩ := exists_free st
    let st₁ := (p.createInstance st address₁ (p.root q.type) false 1).st
    have hlater : Later p st st₁ :=
      .step .refl hfree₁ (step_many h (p.chosen_root q.type) address₁)
    obtain ⟨address₂, hfree₂⟩ := exists_free st₁
    have hsame : r.st = st := by
      obtain ⟨o, hstep, ho⟩ := step_answered h q
      rw [hstep] at hr
      obtain ⟨r₀, rfl, rfl⟩ := Option.map_eq_some_iff.mp hr
      rw [relayChain_st]
      cases ho with
      | cached => rfl
      | recorded => rfl
      | created hmissing => exact absurd ((hmissing hroot).2 hemb) hfound
    rw [hsame] at hmo hagain
    obtain ⟨r', a', hr', ha', hbase⟩ := hagain st₁ hlater address₂ hfree₂
    have hroot₂ : p.rootSingle ⟨q.type, true, q.count, address₂⟩ = true := by
      rwa [rootSingle_again hs]
    have hfound₁ : st₁.typeToAddr (p.root q.type) = some address₁ := by
      simp [st₁, Layout.createInstance]
    obtain ⟨o, hstep, ho⟩ :=
      step_answered (hlater.inv h) ⟨q.type, true, q.count, address₂⟩
    rw [hstep] at hr'
    obtain ⟨r₀, rfl, rfl⟩ := Option.map_eq_some_iff.mp hr'
    cases ho with
    | cached mo _ hcached =>
      have hnone : st₁.lazyInitSingleInstances (p.root q.type) = none := hlazy
      rw [hnone] at hcached
      cases hcached
    | recorded mo _ _ _ hrecorded _ _ _ b hobject =>
      obtain ⟨_, ha₃, hobject', _⟩ := relayChain_object ha'
      obtain rfl := Option.some.inj ha₃
      rw [hfound₁] at hrecorded
      rw [hobject', hobject, ← Option.some.inj hrecorded] at hbase
      exact hfree₁ (List.mem_map.mpr ⟨a.mo, hmo, hbase.symm⟩)
    | created hmissing =>
      have := (hmissing hroot₂).2 hemb
      rw [hfound₁] at this
      cases this
  refine ⟨hmany, ?_⟩
  obtain ⟨r, a, hr, _⟩ := hserved
  obtain ⟨o, hstep, ho⟩ := step_answered h q
  rw [hstep] at hr
  obtain ⟨r₀, rfl, rfl⟩ := Option.map_eq_some_iff.mp hr
  cases ho with
  | cached mo _ hcached =>
    rw [hlazy] at hcached
    cases hcached
  | recorded mo _ _ _ _ _ _ hhas =>
    obtain htop | hhas := hhas
    · exfalso
      have hchosen : p.chosen q.type = none := htop ▸ p.chosen_root q.type
      simp [Layout.rootSingle, hchosen, hmany] at hroot
    · exact hhas
  | created hmissing => exact absurd ((hmissing hroot).2 hemb) hfound

/-- A single top that was not recorded before the request has its cached object afterwards. -/
theorem step_caches (h : Inv p st) {q : Request τ} {r : Response τ} {a : Answer τ}
    (hr : p.step st q = some r) (ha : r.answer = some a) (hroot : p.rootSingle q = true)
    (hnew : p.isEmbeddedType q.type = true → st.typeToAddr (p.root q.type) ≠ none →
      st.lazyInitSingleInstances (p.root q.type) ≠ none) :
    r.st.lazyInitSingleInstances (p.root q.type) = some a.mo := by
  obtain ⟨o, hstep, ho⟩ := step_answered h q
  rw [hstep] at hr
  obtain ⟨r₀, rfl, rfl⟩ := Option.map_eq_some_iff.mp hr
  obtain ⟨a₀, ha₀, hobject, _⟩ := relayChain_object ha
  rw [relayChain_st, hobject]
  cases ho with
  | cached mo _ hcached =>
    obtain rfl := Option.some.inj ha₀
    exact hcached
  | recorded mo _ hmissing hemb hfound =>
    exact absurd hmissing (hnew hemb (by simp [hfound]))
  | created =>
    obtain rfl := Option.some.inj ha₀
    simp [Layout.createInstance, hroot]

/-- A cached top answers. -/
theorem step_cached (h : Inv p st) {q : Request τ} {mo : MemoryObject τ}
    (hroot : p.rootSingle q = true)
    (hmo : st.lazyInitSingleInstances (p.root q.type) = some mo) :
    ∃ r a, p.step st q = some r ∧ r.answer = some a ∧ a.mo = mo ∧ a.sym = false := by
  obtain ⟨o, hstep, ho⟩ := step_answered h q
  cases ho with
  | cached mo' _ hcached =>
    obtain rfl : mo' = mo := Option.some.inj (hcached.symm.trans hmo)
    obtain ⟨a, ha, _⟩ := step_answer h hstep
    obtain ⟨a₀, ha₀, hobject, hsym⟩ := relayChain_object ha
    obtain rfl := Option.some.inj ha₀
    exact ⟨_, a, hstep, ha, hobject, hsym⟩
  | recorded _ _ hmissing =>
    rw [hmissing] at hmo
    cases hmo
  | lost _ hmissing =>
    rw [hmissing] at hmo
    cases hmo
  | created hmissing =>
    rw [(hmissing hroot).1] at hmo
    cases hmo

theorem Meets.served (h : Inv p st) {q : Request τ} (hfree : Free st q.address)
    (hmeets : Meets p st q) : Served p st q := by
  obtain ⟨r, hr⟩ : ∃ r, p.step st q = some r := by
    obtain ⟨o, hstep, ho⟩ := step_answered h q
    cases ho with
    | cached => exact ⟨_, hstep⟩
    | recorded => exact ⟨_, hstep⟩
    | created => exact ⟨_, hstep⟩
    | lost hs hmissing hemb hfound hhasNot =>
      exact absurd (Or.inr (hmeets.recorded hs hemb hfound hmissing).2) hhasNot
  obtain ⟨a, ha, hmo, htype, hlow⟩ := step_answer h hr
  have hoffset : p.lowOffset q.type = p.rootOffset q.type :=
    (Layout.lowOffset_eq_iff q.type).mpr hmeets.offset
  refine ⟨r, a, hr, ha, hmo, htype, by omega, htype ▸ Layout.rootOffset_fits q.type, ?_⟩
  intro hs st' hlater q' ht hs' hfree'
  have hroot : p.rootSingle q = true := hmeets.single hs
  have hnew : p.isEmbeddedType q.type = true → st.typeToAddr (p.root q.type) ≠ none →
      st.lazyInitSingleInstances (p.root q.type) ≠ none := by
    intro hemb hfound hmissing
    have := (hmeets.recorded hroot hemb hfound hmissing).1
    rw [hs] at this
    cases this
  have hcached := step_caches h hr ha hroot hnew
  have hinv : Inv p r.st := h.step hfree hr
  obtain ⟨_, single', count', address'⟩ := q'
  obtain rfl : _ = q.type := ht
  obtain rfl : single' = true := hs'
  obtain ⟨r', a', hr', ha', hobject, hsym⟩ :=
    step_cached (q := ⟨q.type, true, count', address'⟩) (hlater.inv hinv)
      (by rwa [rootSingle_again hs]) (hlater.single hinv hcached)
  refine ⟨r', a', hr', ha', ?_, hsym⟩
  obtain ⟨_, ha₂, _, _, hlow'⟩ := step_answer (hlater.inv hinv) hr'
  obtain rfl := Option.some.inj (ha'.symm.trans ha₂)
  rw [hlow', hlow, hobject]

/-- A struct at offset 16 of one that is itself at offset 8 of a third. -/
def nested : Layout (Fin 3) where
  elements := ![[], [(0, 16)], [(1, 8)]]
  embeddingTypes := ![[1], [2], []]
  typeName := !["struct.a", "struct.b", "struct.c"]
  inferenceClue _ := none
  lazyInit _ := (true, 1)
  allocSize := ![8, 24, 32]
  mem_embeddingTypes := by decide
  element_fits := by decide
  depth := ![2, 1, 0]
  acyclic := by decide

end Encider.Embedding
