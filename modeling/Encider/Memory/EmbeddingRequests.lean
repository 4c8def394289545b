import Encider.Memory.EmbeddingChain

/-!
A request as a whole: it reaches the top of the chain, is answered there from a cache or by a new
object, and the address is remade on the way back. From this, exactly when a request is served as
its caller needs it.
-/

namespace Encider.Embedding

variable {τ : Type} [DecidableEq τ] {p : Layout τ} {st : LazyState τ} {address : ℕ}

/-- What a step of the chain does to an answer. -/
def Layout.relay (p : Layout τ) (et t : τ) (r : Response τ) : Response τ :=
  { r with answer := r.answer.map fun a =>
      { a with resaddr := (p.elementOffset et t).getD 0 + a.mo.base } }

/-! ### One level -/

theorem recorded_resolves (h : Inv p st) {orig t : τ} {recorded : ℕ}
    (hr : p.recordedAddress st orig t = some recorded) :
    ∃ mo ∈ st.objects, mo.base = recorded ∧ mo.type = t ∧ st.resolveOne recorded = some mo := by
  have haddr : st.typeToAddr t = some recorded := by
    unfold Layout.recordedAddress at hr
    split at hr
    · exact hr
    · cases hr
  obtain ⟨⟨mo, hmo, hbase, htype⟩, _⟩ := h.address haddr
  exact ⟨mo, hmo, hbase, htype, hbase ▸ h.resolveOne hmo⟩

/-- A level that fails no assertion gives an object, and no abort. -/
theorem simple_answers (h : Inv p st) {orig t : τ} {isSingle : Bool} {count : ℕ} {r : Response τ}
    (hr : p.allocateLazyForTypeOrEmbeddingSimple st address orig t isSingle count = some r) :
    ∃ a, r.answer = some a ∧ r.abort = false := by
  unfold Layout.allocateLazyForTypeOrEmbeddingSimple at hr
  split at hr
  · split at hr
    · obtain rfl := Option.some.inj hr
      exact ⟨_, rfl, rfl⟩
    · split at hr
      · rename_i recorded hrecorded
        obtain ⟨mo, _, _, _, hresolve⟩ := recorded_resolves h hrecorded
        simp only [hresolve] at hr
        obtain ⟨a, _, ha⟩ := Option.bind_eq_some_iff.mp hr
        obtain rfl := Option.some.inj ha
        exact ⟨a, rfl, rfl⟩
      · obtain rfl := Option.some.inj hr
        exact ⟨_, rfl, rfl⟩
  · obtain rfl := Option.some.inj hr
    exact ⟨_, rfl, rfl⟩

theorem askEmbedders_none {orig t : τ} {isSingle : Bool} {count : ℕ} {embset : List τ}
    (hsub : ∀ et ∈ embset, et ∈ p.embeddingTypes t)
    (hskip : ∀ et ∈ embset, p.skips t et = true) :
    p.askEmbedders st address orig t isSingle count embset hsub false =
      p.allocateLazyForTypeOrEmbeddingSimple st address orig t isSingle count := by
  induction embset with
  | nil =>
    unfold Layout.askEmbedders
    cases p.allocateLazyForTypeOrEmbeddingSimple st address orig t isSingle count <;> rfl
  | cons et rest ih =>
    unfold Layout.askEmbedders
    rw [if_pos (hskip et List.mem_cons_self)]
    exact ih _ fun et' h => hskip et' (List.mem_cons_of_mem _ h)

/-- The loop passes over the embedders that are skipped and relays the answer of the next. -/
theorem askEmbedders_chosen {orig t et : τ} {isSingle : Bool} {count : ℕ} {embset : List τ}
    (hsub : ∀ et ∈ embset, et ∈ p.embeddingTypes t)
    (hfind : embset.find? (fun et => !p.skips t et) = some et)
    (hanswers : ∀ r, p.allocateLazyForTypeOrEmbedding st address orig et (p.lazyInit et).1
      (p.lazyInit et).2 = some r → ∃ a, r.answer = some a ∧ r.abort = false) :
    p.askEmbedders st address orig t isSingle count embset hsub false =
      (p.allocateLazyForTypeOrEmbedding st address orig et (p.lazyInit et).1
        (p.lazyInit et).2).map (p.relay et t) := by
  induction embset with
  | nil => simp at hfind
  | cons et' rest ih =>
    unfold Layout.askEmbedders
    by_cases hskip : p.skips t et' = true
    · rw [if_pos hskip]
      apply ih
      simpa [List.find?_cons, hskip] using hfind
    · obtain rfl : et' = et := by simpa [List.find?_cons, hskip] using hfind
      rw [if_neg hskip]
      cases hrun : p.allocateLazyForTypeOrEmbedding st address orig et' (p.lazyInit et').1
          (p.lazyInit et').2 with
      | none => rfl
      | some r =>
        obtain ⟨a, ha, habort⟩ := hanswers r hrun
        obtain ⟨offset, hoffset, _⟩ :=
          Layout.elementOffset_mem (p.mem_embeddingTypes.mp (hsub et' List.mem_cons_self))
        simp only [ha, hoffset, Option.map_some, Layout.relay, Option.getD_some]
        simp [habort]

/-! ### The whole chain -/

/-- At the top of a chain the two functions do the same. -/
theorem request_top (h : Inv p st) {orig t : τ} (ht : p.chosen t = none) (isSingle : Bool)
    (count : ℕ) :
    p.allocateLazyForTypeOrEmbedding st address orig t isSingle count =
      p.allocateLazyForTypeOrEmbeddingSimple st address orig t isSingle count := by
  have hask : p.askEmbedders st address orig t isSingle count (p.embeddingTypes t)
      (fun _ h => h) false =
      p.allocateLazyForTypeOrEmbeddingSimple st address orig t isSingle count :=
    askEmbedders_none _ (by simpa [Layout.chosen] using ht)
  unfold Layout.allocateLazyForTypeOrEmbedding
  by_cases hemb : p.isEmbeddedType t = true
  · rw [if_pos hemb]
    by_cases hs : isSingle = true
    · rw [if_pos hs]
      cases hlazy : st.lazyInitSingleInstances t with
      | some mo => simp [Layout.allocateLazyForTypeOrEmbeddingSimple, hs, hlazy]
      | none =>
        cases hrecorded : p.recordedAddress st orig t with
        | some recorded =>
          obtain ⟨mo, _, _, _, hresolve⟩ := recorded_resolves h hrecorded
          simp [Layout.allocateLazyForTypeOrEmbeddingSimple, hs, hlazy, hrecorded, hresolve]
        | none => exact hask
    · rw [if_neg hs]
      exact hask
  · rw [if_neg hemb]

/-- Below the top no cache answers, so a request asks the embedder. -/
theorem request_step (h : Inv p st) {orig t et : τ} (ht : p.chosen t = some et)
    (hanswers : ∀ r, p.allocateLazyForTypeOrEmbedding st address orig et (p.lazyInit et).1
      (p.lazyInit et).2 = some r → ∃ a, r.answer = some a ∧ r.abort = false)
    (isSingle : Bool) (count : ℕ) :
    p.allocateLazyForTypeOrEmbedding st address orig t isSingle count =
      (p.allocateLazyForTypeOrEmbedding st address orig et (p.lazyInit et).1
        (p.lazyInit et).2).map (p.relay et t) := by
  have hlazy : st.lazyInitSingleInstances t = none := by
    rw [Option.eq_none_iff_forall_not_mem]
    intro mo hmo
    have htop := (h.single hmo).2.2
    rw [ht] at htop
    cases htop
  have hrecorded : p.recordedAddress st orig t = none := by
    unfold Layout.recordedAddress
    split
    · rw [Option.eq_none_iff_forall_not_mem]
      intro a ha
      have htop := (h.address ha).2
      rw [ht] at htop
      cases htop
    · rfl
  have hask : p.askEmbedders st address orig t isSingle count (p.embeddingTypes t)
      (fun _ h => h) false =
      (p.allocateLazyForTypeOrEmbedding st address orig et (p.lazyInit et).1
        (p.lazyInit et).2).map (p.relay et t) :=
    askEmbedders_chosen _ ht hanswers
  conv_lhs => unfold Layout.allocateLazyForTypeOrEmbedding
  rw [if_pos (Layout.isEmbedded_of_chosen ht)]
  simp only [hlazy, hrecorded]
  split <;> exact hask

/-- Only the lowest step of a chain shows in the answer. -/
theorem request_chosen (h : Inv p st) {orig t et : τ} (ht : p.chosen t = some et)
    (isSingle : Bool) (count : ℕ) :
    p.allocateLazyForTypeOrEmbedding st address orig t isSingle count =
      (p.allocateLazyForTypeOrEmbeddingSimple st address orig (p.root t)
        (p.lazyInit (p.root t)).1 (p.lazyInit (p.root t)).2).map (p.relay et t) := by
  induction t using Layout.chain_induction (p := p) generalizing et isSingle count with
  | top t htop =>
    rw [htop] at ht
    cases ht
  | step t et' ht' ih =>
    obtain rfl : et' = et := Option.some.inj (ht'.symm.trans ht)
    have hbelow : ∃ f : Response τ → Response τ,
        (∀ r, (p.relay et' t) (f r) = p.relay et' t r ∧ (f r).abort = r.abort ∧
          ((f r).answer.isSome = r.answer.isSome)) ∧
        p.allocateLazyForTypeOrEmbedding st address orig et' (p.lazyInit et').1
          (p.lazyInit et').2 =
          (p.allocateLazyForTypeOrEmbeddingSimple st address orig (p.root et')
            (p.lazyInit (p.root et')).1 (p.lazyInit (p.root et')).2).map f := by
      cases hnext : p.chosen et' with
      | none =>
        refine ⟨id, fun r => ⟨rfl, rfl, rfl⟩, ?_⟩
        rw [request_top h hnext, Layout.root_top hnext, Option.map_id]
        rfl
      | some et₂ =>
        refine ⟨p.relay et₂ et', ?_, ih hnext _ _⟩
        intro r
        simp [Layout.relay, Function.comp_def]
    obtain ⟨f, hf, hrun⟩ := hbelow
    have hanswers : ∀ r, p.allocateLazyForTypeOrEmbedding st address orig et' (p.lazyInit et').1
        (p.lazyInit et').2 = some r → ∃ a, r.answer = some a ∧ r.abort = false := by
      intro r hr
      rw [hrun] at hr
      obtain ⟨r₀, hr₀, rfl⟩ := Option.map_eq_some_iff.mp hr
      obtain ⟨a, ha, habort⟩ := simple_answers h hr₀
      obtain ⟨_, hfabort, hfanswer⟩ := hf r₀
      rw [ha, Option.isSome_some, Option.isSome_iff_exists] at hfanswer
      obtain ⟨a', ha'⟩ := hfanswer
      exact ⟨a', ha', hfabort.trans habort⟩
    rw [request_step h ht' hanswers, hrun, Option.map_map, Layout.root_step ht']
    congr 1
    funext r
    exact (hf r).1

end Encider.Embedding
