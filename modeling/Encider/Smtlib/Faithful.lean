import Encider.Expr.Reduce
import Encider.Smtlib.Declarations
import Encider.Smtlib.Values

/-! The script of a query: well sorted, with the names in place, and asserting the constraints and
the negation of the query, as long as the printer passes over no writes. -/

namespace Encider.Smtlib

open Smt

/-- The assignment gives a constant array its values. -/
def Respects (σ : Assignment) (a : Array) : Prop :=
  ∀ i v, a.constantValues[i]? = some v → σ a i = v

/-- What the symbols of the arrays stand for are the contents that an assignment gives them. -/
def Interprets (declared : String → ℕ → ℕ → Value) (q : Query) (σ : Assignment) : Prop :=
  ∀ a ∈ q.arrays, declared a.name a.domain a.range = .array a.domain a.range fun i => σ a i.toNat

/-- The value that a name stands for. -/
def expressionValue (σ : Assignment) (e : Expr) : Value :=
  match getSort e with
  | .bitvector => wordValue σ e
  | .bool => .bool (decide (e.value σ = 1))

/-- The constraints hold and the query is false. -/
def Query.Refuted (q : Query) (σ : Assignment) : Prop :=
  (∀ c ∈ q.constraints, c.Holds σ) ∧ q.expr.value σ = 0

section
variable (before : Expr → Expr → Bool) (o : Options) (q : Query)

/-- The script says of the arrays what the query says. -/
structure Query.Translated : Prop where
  wellSorted : WellSorted (generateOutput before o q)
  declares : ∀ r ∈ q.arrayReads,
    Command.declareFun r.1.name r.1.domain r.1.range ∈ generateOutput before o q
  defines : ∀ declared σ, Interprets declared q σ → (∀ a ∈ q.arrays, Respects σ a) →
    (∀ e ∈ q.roots, e.NoZeroDivisor σ) →
    ∃ out, run values declared (generateOutput before o q) [] = some out ∧
      ∀ r ∈ out, ∀ e i, q.Numbered before o e i →
        ∀ d, (abbreviation i, d) ∈ r.2 → d = expressionValue σ e
  holds : ∀ declared σ, Interprets declared q σ → (∀ a ∈ q.arrays, Respects σ a) →
    (∀ e ∈ q.roots, e.NoZeroDivisor σ) →
    (Holds declared (generateOutput before o q) ↔ q.Refuted σ)
  constants : ∀ declared σ, Interprets declared q σ → Holds declared (generateOutput before o q) →
    ∀ r ∈ q.arrayReads, Respects σ r.1

variable {o q}

theorem printable_roots (hq : q.WellFormed) (hw : q.Writable o) {P : Array → Prop}
    (hP : ∀ r ∈ q.arrayReads, P r.1) {e : Expr} (he : e ∈ q.roots) :
    e.Within P (Printable o.cdm) := by
  have hreads : ∀ r ∈ e.arrayReads, P r.1 := fun r hr => hP r (List.mem_flatMap.mpr ⟨e, he, hr⟩)
  have hwidths := hq.widths e he
  by_cases hhex : o.cdm = .hex
  · exact hwidths.combine (fun w h h4 => ⟨h.1, h.2, fun _ => h4⟩) ((hw.digits hhex).1 e he) hreads
  · exact hwidths.combine (fun w h _ => ⟨h.1, h.2, fun h => absurd h hhex⟩) hwidths hreads

theorem fit_roots (hq : q.WellFormed) (hw : q.Writable o) {P : Array → Prop}
    (hP : ∀ r ∈ q.arrayReads, P r.1) {Q : BinaryKind → Expr → Expr → Prop}
    (hall : ∀ e ∈ q.roots, e.All Q) : ∀ e ∈ q.roots, Fit P (Printable o.cdm) Q e := by
  intro e he
  refine ⟨?_, printable_roots hq hw hP he, hall e he⟩
  obtain he | he := List.mem_append.mp he
  · obtain ⟨c, -, rfl⟩ := List.mem_map.mp he
    exact c.2.1
  · rw [List.mem_singleton.mp he]
    exact hq.typed

/-- The arrays that are declared are those of the query and those that are asked for. -/
theorem mem_sortedArrays_iff (hq : q.WellFormed) (hw : q.Writable o) :
    q.sortedArrays.Nodup ∧ ∀ a, a ∈ q.sortedArrays ↔ a ∈ q.arrays := by
  have hkept := scanAll_kept (fit_roots (P := fun a => a ∈ q.arrayReads.map Prod.fst) hq hw
    (fun r hr => List.mem_map_of_mem hr) fun e _ => e.all_true)
  obtain ⟨hnodup, hmem⟩ := mem_sortedArrays hkept.nodup
  refine ⟨hnodup, ?_⟩
  intro a
  rw [hmem a, Query.arrays, List.mem_append]
  constructor
  · rintro (ha | ha)
    · exact .inl (hkept.arrays a ha)
    · exact .inr ha
  · rintro (ha | ha)
    · obtain ⟨r, hr, rfl⟩ := List.mem_map.mp ha
      exact .inl (scanAll_covers hw.writes r hr)
    · exact .inr ha

section
variable {Arr : Array → Prop} {W : Width → Prop} {Q : BinaryKind → Expr → Expr → Prop}
  (hkept : Kept Arr W Q (scanAll q))
include hkept

theorem numbered_spec {e : Expr} {i : ℤ} (h : q.Numbered before o e i) :
    0 < i ∧ ∀ e', q.Numbered before o e' i → e = e' := by
  unfold Query.Numbered at h ⊢
  cases hmode : o.abbrMode with
  | abbrNone =>
    rw [hmode] at h
    exact h.elim
  | abbrNamed =>
    rw [hmode] at h
    exact ⟨(hkept.numbers e i h).1, fun e' h' => hkept.injective e e' i h h'⟩
  | abbrLet =>
    rw [hmode] at h
    simp only [Query.orderedBindings, hmode, if_true] at h ⊢
    obtain ⟨es, hes, -⟩ := scanBindingExprDeps_numbers before (scanAll q).bindings
    have hnumber : ∀ x j, (∃ level ∈ scanBindingExprDeps before (scanAll q).bindings,
        (x, j) ∈ level) → ∃ k : ℕ, j = (1 : ℕ) + k ∧ es[k]? = some x := by
      rintro x j ⟨level, hlevel, hx⟩
      have hmem : (x, j) ∈ numberFrom 1 es := hes ▸ List.mem_flatten.mpr ⟨level, hlevel, hx⟩
      exact mem_numberFrom hmem
    obtain ⟨k, hk, hek⟩ := hnumber e i h
    refine ⟨by omega, ?_⟩
    intro e' h'
    obtain ⟨k', hk', hek'⟩ := hnumber e' i h'
    have hkk : k = k' := by omega
    rw [hkk, hek'] at hek
    exact (Option.some.inj hek).symm

/-- The numbers of the expressions are their own, and no array has the name of one. -/
theorem naming_of_writable (hw : q.Writable o) :
    Naming (· ∈ q.arrays) (fun x => ∃ a ∈ q.arrays, x = a.name) (q.Numbered before o) where
  pos h := (numbered_spec before hkept h).1
  injective h h' := (numbered_spec before hkept h).2 _ h'
  array ha := ⟨_, ha, rfl⟩
  other := by
    rintro x ⟨a, ha, rfl⟩ e i h
    refine hw.names ?_ a ha i (numbered_spec before hkept h).1
    intro hnone
    unfold Query.Numbered at h
    rw [hnone] at h
    exact h

/-- The levels of the `let`s, when there are any. -/
theorem levels_fit : ∀ level ∈ q.orderedBindings before o, (level.map Prod.snd).Nodup ∧
    ∀ b ∈ level, Fit Arr W Q b.1 ∧ q.Numbered before o b.1 b.2 := by
  intro level hlevel
  unfold Query.Numbered
  unfold Query.orderedBindings at hlevel ⊢
  split at hlevel
  · rename_i hmode
    simp only [hmode, if_true]
    obtain ⟨es, hes, hkeys⟩ := scanBindingExprDeps_numbers before (scanAll q).bindings
    constructor
    · have hsub := (List.sublist_flatten_of_mem hlevel).map Prod.snd
      rw [hes] at hsub
      exact (nodup_numberFrom 1 es).sublist hsub
    · intro b hb
      refine ⟨?_, level, hlevel, hb⟩
      have hmem : b ∈ numberFrom 1 es := hes ▸ List.mem_flatten.mpr ⟨level, hlevel, hb⟩
      obtain ⟨k, -, hk⟩ := mem_numberFrom hmem
      obtain ⟨x, hx, hxb⟩ := List.mem_map.mp (hkeys b.1 (List.mem_of_getElem? hk))
      rw [← hxb]
      exact hkept.keys x hx
  · cases hlevel

end

section
variable {D : Type} {G : Algebra D} {Q : BinaryKind → Expr → Expr → Prop}
  (declared : String → ℕ → ℕ → D)

/-- The scope after the declarations. -/
def declaredScope (q : Query) : Scope D :=
  (q.sortedArrays.map (arraySymbol declared)).reverse

theorem lookup_declaredScope (hq : q.WellFormed) (hw : q.Writable o) {a : Array}
    (ha : a ∈ q.arrays) : (declaredScope declared q).lookup a.name =
      some (declared a.name a.domain a.range) := by
  have hmem := (mem_sortedArrays_iff hq hw).2
  refine lookup_unique ?_ ?_
  · exact List.mem_reverse.mpr (List.mem_map.mpr ⟨a, (hmem a).mpr ha, rfl⟩)
  · intro d hd
    obtain ⟨b, hb, heq⟩ := List.mem_map.mp (List.mem_reverse.mp hd)
    obtain ⟨hname, rfl⟩ := Prod.mk.inj heq
    rw [hq.names b ((hmem b).mp hb) a ha hname]

/-- Before any name is defined only the arrays are known. -/
theorem agrees_declared (hq : q.WellFormed) (hw : q.Writable o)
    {R : Reading (· ∈ q.arrays) (Printable o.cdm) Q o G}
    (hkept : Kept (· ∈ q.arrays) (Printable o.cdm) Q (scanAll q))
    (hdecl : ∀ a ∈ q.arrays, declared a.name a.domain a.range = R.contents a .nil) :
    Agrees R (fun x => ∃ a ∈ q.arrays, x = a.name) (q.Numbered before o) []
      (declaredScope declared q) ∧
    (¬ (o.abbrMode = .abbrLet ∧ q.orderedBindings before o ≠ []) →
      Agrees R (fun x => ∃ a ∈ q.arrays, x = a.name) (q.Numbered before o) (scanAll q).bindings
        (declaredScope declared q)) := by
  have hnames : ∀ a ∈ q.arrays, (declaredScope declared q).lookup a.name =
      some (R.contents a .nil) := by
    intro a ha
    rw [lookup_declaredScope declared hq hw ha, hdecl a ha]
  have hknown : ∀ b ∈ declaredScope declared q, ∃ a ∈ q.arrays, b.1 = a.name := by
    intro b hb
    obtain ⟨a, ha, rfl⟩ := List.mem_map.mp (List.mem_reverse.mp hb)
    exact ⟨a, ((mem_sortedArrays_iff hq hw).2 a).mp ha, rfl⟩
  refine ⟨⟨hnames, nofun, nofun, nofun, nofun, fun b hb => .inl (hknown b hb)⟩, ?_⟩
  intro hlet
  have hempty : o.abbrMode = .abbrLet → (scanAll q).bindings = [] := by
    intro hmode
    have hnil : q.orderedBindings before o = [] := by
      by_contra hne
      exact hlet ⟨hmode, hne⟩
    unfold Query.orderedBindings at hnil
    rw [if_pos hmode] at hnil
    unfold scanBindingExprDeps at hnil
    split at hnil
    · assumption
    · rw [levels] at hnil
      cases hnil
  refine ⟨hnames, ?_, ?_, ?_, ?_, fun b hb => .inl (hknown b hb)⟩
  · intro e i he hnone
    have hpos := (hkept.numbers e i he).1
    rw [abs_of_pos hpos]
    unfold Query.Numbered
    cases hmode : o.abbrMode with
    | abbrNone => exact hnone hmode
    | abbrNamed => exact he
    | abbrLet =>
      rw [hempty hmode] at he
      cases he
  · intro e i he hmode
    rw [hempty hmode] at he
    cases he
  · intro e i he _ hneg
    have hpos := (hkept.numbers e i he).1
    omega
  · intro e i he hmode hpos
    rw [List.lookup_eq_none_iff]
    intro b hb
    obtain ⟨a, ha, hba⟩ := hknown b hb
    rw [hba]
    simpa using (hw.names (by simp [hmode]) a ha i hpos).symm

theorem Plain.unique {sc : Scope D} {c : Command} {d d' : D} (h : Plain G sc c d)
    (h' : Plain G sc c d') : d = d' := by
  obtain ⟨t, rfl, ht⟩ := h
  obtain ⟨t', heq, ht'⟩ := h'
  cases heq
  rw [ht] at ht'
  exact (Prod.mk.inj (Option.some.inj ht')).1

/-- The commands for the elements of the constant arrays. -/
def constantCommands (o : Options) (q : Query) : List Command :=
  if (scanAll q).haveConstantArray then q.sortedArrays.flatMap (printConstantValues o) else []

theorem mem_constantCommands {c : Command} (hc : c ∈ constantCommands o q) :
    ∃ a ∈ q.sortedArrays, ∃ i v, a.constantValues[i]? = some v ∧ c = printConstantValue o a i v := by
  unfold constantCommands at hc
  split at hc
  · obtain ⟨a, ha, hc⟩ := List.mem_flatMap.mp hc
    obtain ⟨i, hi, rfl⟩ := List.mem_mapIdx.mp hc
    exact ⟨a, ha, i, _, List.getElem?_eq_getElem hi, rfl⟩
  · cases hc

/-- An element of a constant array is asserted in the scope of the declarations. -/
theorem constantCommand_plain (hq : q.WellFormed) (hw : q.Writable o) {a : Array}
    (ha : a ∈ q.arrays) {i : ℕ} {v : BitVec a.range} (hv : a.constantValues[i]? = some v) {e d : D}
    (hsel : G.op .select [declared a.name a.domain a.range,
      G.bits a.domain (BitVec.ofInt a.domain i)] = some e)
    (heq : G.op .eq [e, G.bits a.range v] = some d) :
    Plain G (declaredScope declared q) (printConstantValue o a i v) d := by
  obtain ⟨hdom, hrange, hrange32⟩ := hq.domains a ha
  obtain ⟨hsize, hlength⟩ := hq.sizes a ha
  have hconst : a.constantValues ≠ [] := by
    intro hnil
    rw [hnil] at hv
    cases hv
  obtain ⟨hone, hint⟩ := hw.elements a ha hconst
  have hi : i < a.constantValues.length := (List.getElem?_eq_some_iff.mp hv).1
  exact printConstantValue_plain (lookup_declaredScope declared hq hw ha) hdom
    (hi.trans_le (hlength.trans hsize)) (hi.trans_le hint)
    ⟨hrange, hrange32, fun hhex => .inr ((hw.digits hhex).2 a ha hconst)⟩ hone hsel heq

theorem generateOutput_run (hq : q.WellFormed) (hw : q.Writable o) :
    run G declared (generateOutput before o q) [] = run G declared
      (constantCommands o q ++ (printAsserts before o (q.orderedBindings before o) (q.asserted o)
        (scanAll q).bindings ++ printAction q)) (declaredScope declared q) := by
  obtain ⟨hnodup, hmem⟩ := mem_sortedArrays_iff hq hw
  have hnames : (q.sortedArrays.map Array.name).Nodup := by
    refine hnodup.map_on ?_
    intro a ha b hb hab
    exact hq.names a ((hmem a).mp ha) b ((hmem b).mp hb) hab
  have h := run_declarations (G := G) declared q.sortedArrays
    (constantCommands o q ++ (printAsserts before o (q.orderedBindings before o) (q.asserted o)
        (scanAll q).bindings ++ printAction q)) []
    (fun a ha => ⟨(hq.domains a ((hmem a).mp ha)).1, (hq.domains a ((hmem a).mp ha)).2.1⟩) hnames
    fun _ _ => rfl
  rw [List.append_nil] at h
  rw [← declaredScope] at h
  rw [← h, generateOutput, printArrayDeclarations, List.append_assoc]
  rfl

/-- The script is read to its end: the elements of the constant arrays are as they are in the
algebra, and every assertion reads as its expression. -/
theorem script_run (hq : q.WellFormed) (hw : q.Writable o)
    (R : Reading (· ∈ q.arrays) (Printable o.cdm) Q o G) (hQ : Regular Q)
    (hall : ∀ e ∈ q.roots, e.All Q)
    (hdecl : ∀ a ∈ q.arrays, declared a.name a.domain a.range = R.contents a .nil)
    (hsel : ∀ a ∈ q.arrays, ∀ v, ∃ d,
      G.op .select [R.contents a .nil, G.bits a.domain v] = some d) (Verdict : D → Prop)
    (helem : ∀ a ∈ q.arrays, ∀ (i : ℕ) v, a.constantValues[i]? = some v → ∃ e d,
      G.op .select [R.contents a .nil, G.bits a.domain (BitVec.ofInt a.domain i)] = some e ∧
      G.op .eq [e, G.bits a.range v] = some d ∧ Verdict d) :
    ∃ out, run G declared (generateOutput before o q) [] = some out ∧
      (∀ r ∈ out, Verdict r.1 ∨ ∃ e ∈ q.asserted o, r.1 = R.truth e) ∧
      (∀ e ∈ q.asserted o, ∃ r ∈ out, r.1 = R.truth e) ∧
      ∀ r ∈ out, Known R (fun x => ∃ a ∈ q.arrays, x = a.name) (q.Numbered before o) r.2 := by
  have hmem := (mem_sortedArrays_iff hq hw).2
  have W1 := printable_one o.cdm
  have hfit := fit_roots (P := (· ∈ q.arrays)) hq hw
    (fun r hr => List.mem_append_left _ (List.mem_map_of_mem hr)) hall
  have hkept := scanAll_kept hfit
  have hN : Naming (· ∈ q.arrays) _ (q.Numbered before o) := naming_of_writable before hkept hw
  obtain ⟨hclear, hag⟩ := agrees_declared before declared hq hw hkept hdecl
  have hasserted := (asserted_spec W1 hQ o hfit).1
  -- what is asserted of the constant arrays
  have hplain : ∀ c ∈ constantCommands o q,
      ∃ d, Plain G (declaredScope declared q) c d ∧ Verdict d := by
    intro c hc
    obtain ⟨a, ha, i, v, hv, rfl⟩ := mem_constantCommands hc
    obtain ⟨e, d, he, hd, hverdict⟩ := helem a ((hmem a).mp ha) i v hv
    rw [← hdecl a ((hmem a).mp ha)] at he
    exact ⟨d, constantCommand_plain declared hq hw ((hmem a).mp ha) hv he hd, hverdict⟩
  obtain ⟨pre, hpre, hpreMem, -⟩ := run_plain declared (constantCommands o q)
    fun c hc => (hplain c hc).imp fun _ h => h.1
  -- what is asserted of the query
  have haction : ∀ sc, Agrees R (fun x => ∃ a ∈ q.arrays, x = a.name) (q.Numbered before o) [] sc →
      run G declared (printAction q) sc = some [] := by
    intro sc hsc
    refine printAction_run declared ?_
    intro a ha
    have ha' : a ∈ q.arrays := List.mem_append_right _ ha
    exact ⟨(hq.domains a ha').1, (hq.sizes a ha').1, _, hsc.declared a ha', hsel a ha'⟩
  have hone : o.abbrMode = .abbrLet → (q.asserted o).length ≤ 1 := by
    intro hmode
    simp [Query.asserted, hmode]
  obtain ⟨out, hout, hvalues, hknown⟩ := printAsserts_run W1 hN before (q.orderedBindings before o)
    (levels_fit before hkept) declared (printAction q) haction (q.asserted o) hasserted hone hclear hag
  refine ⟨pre ++ out, ?_, ?_, ?_, ?_⟩
  · rw [generateOutput_run before declared hq hw, hpre, hout]
    rfl
  · intro r hr
    obtain hr | hr := List.mem_append.mp hr
    · obtain ⟨-, c, hc, hp⟩ := hpreMem r hr
      obtain ⟨d, hd, hverdict⟩ := hplain c hc
      rw [hp.unique hd]
      exact .inl hverdict
    · have hmap : r.1 ∈ (q.asserted o).map R.truth := hvalues ▸ List.mem_map_of_mem hr
      obtain ⟨e, he, heq⟩ := List.mem_map.mp hmap
      exact .inr ⟨e, he, heq.symm⟩
  · intro e he
    have hmap : R.truth e ∈ out.map Prod.fst := hvalues.symm ▸ List.mem_map_of_mem he
    obtain ⟨r, hr, heq⟩ := List.mem_map.mp hmap
    exact ⟨r, List.mem_append_right _ hr, heq⟩
  · intro r hr
    obtain hr | hr := List.mem_append.mp hr
    · rw [(hpreMem r hr).1]
      exact hclear.known
    · exact hknown r hr

end

theorem regular_anything : Regular Anything :=
  ⟨fun _ _ _ _ => trivial, fun _ _ _ => trivial, fun _ _ _ => trivial⟩

theorem regular_nonzeroDivisor (σ : Assignment) : Regular (NonzeroDivisor σ) where
  plain k l r hk hdiv := by
    cases k <;> first | exact absurd hdiv (by decide) | exact absurd hk (by decide)
  add _ _ _ hdiv := absurd hdiv (by decide)
  sub _ _ _ hdiv := absurd hdiv (by decide)

theorem all_nonzeroDivisor {σ : Assignment} {e : Expr} (h : e.NoZeroDivisor σ) :
    e.All (NonzeroDivisor σ) := by
  induction e using Expr.rec (motive_2 := fun us =>
    us.NoZeroDivisor σ → us.All (NonzeroDivisor σ)) with
  | _ => simp_all [Expr.All, UpdateList.All, Expr.NoZeroDivisor, UpdateList.NoZeroDivisor,
      NonzeroDivisor]

theorem script_wellSorted (hq : q.WellFormed) (hw : q.Writable o) :
    WellSorted (generateOutput before o q) := by
  obtain ⟨out, hout, hsorts, -, -⟩ := script_run before
    (fun _ d r => .array d r) hq hw (sortReading (· ∈ q.arrays) o) regular_anything
    (fun e _ => e.all_true) (fun _ _ => rfl)
    (fun a _ _ => ⟨.bitVec a.range, by simp [sorts, Op.rank, sortReading]⟩) (· = .bool)
    (fun a _ _ _ _ => ⟨.bitVec a.range, .bool, by simp [sorts, Op.rank, sortReading],
      by simp [sorts, Op.rank], rfl⟩)
  refine ⟨out, hout, ?_⟩
  intro r hr
  obtain h | ⟨e, -, h⟩ := hsorts r hr
  · exact h
  · exact h

/-- An element of an array, as the value of a term. -/
theorem select_element {a : Array} {f : BitVec a.domain → BitVec a.range} {i : ℕ} :
    values.op .select [.array a.domain a.range f, values.bits a.domain (BitVec.ofInt a.domain i)] =
      some (.bits a.range (f (BitVec.ofNat a.domain i))) := by
  simp [values, Op.apply]

theorem element_lt (hq : q.WellFormed) {a : Array} (ha : a ∈ q.arrays) {i : ℕ}
    {v : BitVec a.range} (hv : a.constantValues[i]? = some v) : i < 2 ^ a.domain := by
  obtain ⟨hsize, hlength⟩ := hq.sizes a ha
  exact (List.getElem?_eq_some_iff.mp hv).1.trans_le (hlength.trans hsize)

theorem script_values (hq : q.WellFormed) (hw : q.Writable o)
    {declared : String → ℕ → ℕ → Value} {σ : Assignment} (hint : Interprets declared q σ)
    (hconst : ∀ a ∈ q.arrays, Respects σ a) (hdiv : ∀ e ∈ q.roots, e.NoZeroDivisor σ) :
    ∃ out, run values declared (generateOutput before o q) [] = some out ∧
      ((∀ r ∈ out, r.1 = .bool true) ↔ q.Refuted σ) ∧
      ∀ r ∈ out, ∀ e i, q.Numbered before o e i →
        ∀ d, (abbreviation i, d) ∈ r.2 → d = expressionValue σ e := by
  have hall : ∀ e ∈ q.roots, e.All (NonzeroDivisor σ) := fun e he => all_nonzeroDivisor (hdiv e he)
  have hinitial : ∀ a ∈ q.arrays, ∀ i, a.initial σ i = σ a i := by
    intro a ha i
    unfold Array.initial
    cases hv : a.constantValues[i]? with
    | none => rfl
    | some v => exact (hconst a ha i v hv).symm
  have hfit := fit_roots (P := (· ∈ q.arrays)) hq hw
    (fun r hr => List.mem_append_left _ (List.mem_map_of_mem hr)) hall
  have hN := naming_of_writable before (scanAll_kept hfit) hw
  obtain ⟨out, hout, hverdict, hasserted, hknown⟩ := script_run before declared hq hw
    (valueReading (· ∈ q.arrays) o σ) (regular_nonzeroDivisor σ) hall (by
      intro a ha
      rw [hint a ha]
      refine congrArg (Value.array a.domain a.range) (funext fun i => ?_)
      exact (hinitial a ha i.toNat).symm)
    (fun a _ v => ⟨.bits a.range (UpdateList.contents σ a v.toNat .nil),
      by simp [values, Op.apply, valueReading, arrayValue]⟩) (· = .bool true) (by
      intro a ha i v hv
      have hi := element_lt hq ha hv
      refine ⟨_, _, select_element, ?_, rfl⟩
      have helem : UpdateList.contents σ a (BitVec.ofNat a.domain i).toNat .nil = v := by
        rw [UpdateList.contents, BitVec.toNat_ofNat, Nat.mod_eq_of_lt hi, hinitial a ha]
        exact hconst a ha i v hv
      simp only [values, Op.apply, if_true, BitVec.setWidth_eq, helem, beq_self_eq_true])
  refine ⟨out, hout, ?_, ?_⟩
  · rw [Query.Refuted, ← (asserted_spec (printable_one o.cdm) (regular_nonzeroDivisor σ) o hfit).2 σ]
    constructor
    · intro htrue e he
      obtain ⟨r, hr, heq⟩ := hasserted e he
      have h : Value.bool (decide (e.value σ = 1)) = .bool true := heq.symm.trans (htrue r hr)
      simpa using h
    · intro hvalue r hr
      obtain h | ⟨e, he, h⟩ := hverdict r hr
      · exact h
      · refine h.trans ?_
        show Value.bool (decide (e.value σ = 1)) = .bool true
        rw [hvalue e he]
        rfl
  · intro r hr e i hei d hd
    have h := (hknown r hr).value hN hei hd
    unfold expressionValue
    rw [h]
    cases getSort e <;> rfl

/-- A true script says that the constant arrays of the query have their values. -/
theorem respects_of_holds (hq : q.WellFormed) (hw : q.Writable o)
    {declared : String → ℕ → ℕ → Value} {σ : Assignment} (hint : Interprets declared q σ)
    (hholds : Holds declared (generateOutput before o q)) :
    ∀ r ∈ q.arrayReads, Respects σ r.1 := by
  have hmem := (mem_sortedArrays_iff hq hw).2
  have hkept := scanAll_kept (fit_roots (P := (· ∈ q.arrays)) hq hw
    (fun r hr => List.mem_append_left _ (List.mem_map_of_mem hr)) fun e _ => e.all_true)
  obtain ⟨out, hout, htrue⟩ := hholds
  have hplain : ∀ a ∈ q.arrays, ∀ i v, a.constantValues[i]? = some v →
      Plain values (declaredScope declared q) (printConstantValue o a i v)
        (.bool (σ a i == v)) := by
    intro a ha i v hv
    have hi := element_lt hq ha hv
    have hsel := select_element (a := a) (f := fun j => σ a j.toNat) (i := i)
    rw [← hint a ha, BitVec.toNat_ofNat, Nat.mod_eq_of_lt hi] at hsel
    exact constantCommand_plain declared hq hw ha hv hsel (by simp [values, Op.apply])
  obtain ⟨pre, hpre, -, hevery⟩ := run_plain declared (constantCommands o q) (by
    intro c hc
    obtain ⟨a, ha, i, v, hv, rfl⟩ := mem_constantCommands hc
    exact ⟨_, hplain a ((hmem a).mp ha) i v hv⟩)
  rw [generateOutput_run before declared hq hw, hpre] at hout
  obtain ⟨post, -, rfl⟩ := Option.map_eq_some_iff.mp hout
  intro r hr i v hv
  have ha : r.1 ∈ q.arrays := List.mem_append_left _ (List.mem_map_of_mem hr)
  have hnonempty : r.1.constantValues ≠ [] := by
    intro hnil
    rw [hnil] at hv
    cases hv
  have hflag := hkept.constant r.1 (scanAll_covers hw.writes r hr) hnonempty
  have hcommand : printConstantValue o r.1 i v ∈ constantCommands o q := by
    rw [constantCommands, if_pos hflag]
    refine List.mem_flatMap.mpr ⟨r.1, (hmem r.1).mpr ha, ?_⟩
    obtain ⟨hi, hval⟩ := List.getElem?_eq_some_iff.mp hv
    exact List.mem_mapIdx.mpr ⟨i, hi, by rw [hval]⟩
  obtain ⟨s, hs, hp⟩ := hevery _ hcommand
  have hverdict : Value.bool (σ r.1 i == v) = .bool true :=
    ((hplain r.1 ha i v hv).unique hp).trans (htrue s (List.mem_append_left _ hs))
  simpa using hverdict

end

section
open Encider.Expr

def byteArray (name : String) : Array := { name := name, size := 1 }

/-- A read of `A` below a write of an element of `B`. -/
def writtenRead : Expr :=
  .read (byteArray "A") (.cons (const 0 32) (.read (byteArray "B") .nil (const 0 32)) .nil)
    (const 0 32)

def plainRead : Expr := .read (byteArray "A") .nil (const 0 32)

end

end Encider.Smtlib
