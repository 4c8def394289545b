import Encider.Smtlib.Asserts
import Encider.Smtlib.Sorts

/-! The commands around the assertions of a query: the declarations, the elements of the constant
arrays, and the values that are asked for. -/

namespace Encider.Smtlib

open Smt

/-- The arrays of a query, and those that are asked for. -/
def Query.arrays (q : Query) : List Array :=
  q.arrayReads.map Prod.fst ++ q.arraysToCallGetValueOn

/-- A query as the constructors build it: widths and domains are positive and fit an `unsigned`, a
constant array has no more values than elements, and an array is known by its name. -/
structure Query.WellFormed (q : Query) : Prop where
  typed : q.expr.WellTyped
  widths : ∀ e ∈ q.roots, e.Within (fun _ => True) fun w => 0 < w ∧ w < 2 ^ 32
  domains : ∀ a ∈ q.arrays, 0 < a.domain ∧ 0 < a.range ∧ a.range < 2 ^ 32
  sizes : ∀ a ∈ q.arrays, a.size ≤ 2 ^ a.domain ∧ a.constantValues.length ≤ a.size
  names : ∀ a ∈ q.arrays, ∀ b ∈ q.arrays, a.name = b.name → a = b

/-- What the printer relies on: no writes are passed over, arrays are not named like abbreviations,
the elements of constant arrays are not booleans and have an index that is an `int`, and
hexadecimal literals are of whole digits. -/
structure Query.Writable (o : Options) (q : Query) : Prop where
  writes : WritesScanned q.arrayReads
  names : o.abbrMode ≠ .abbrNone → ∀ a ∈ q.arrays, ∀ i, 0 < i → a.name ≠ abbreviation i
  elements : ∀ a ∈ q.arrays, a.constantValues ≠ [] →
    a.range ≠ 1 ∧ a.constantValues.length ≤ 2 ^ 31
  digits : o.cdm = .hex → (∀ e ∈ q.roots, e.Within (fun _ => True) fun w => w = 1 ∨ 4 ∣ w) ∧
    ∀ a ∈ q.arrays, a.constantValues ≠ [] → 4 ∣ a.range

theorem foldl_insert (as : List Array) (used : List Array) (hused : used.Nodup) :
    (as.foldl (fun as a => if a ∈ as then as else a :: as) used).Nodup ∧
      ∀ a, a ∈ as.foldl (fun as a => if a ∈ as then as else a :: as) used ↔
        a ∈ used ∨ a ∈ as := by
  induction as generalizing used with
  | nil => simp [hused]
  | cons b as ih =>
    rw [List.foldl_cons]
    split
    · rename_i hb
      obtain ⟨hnodup, hmem⟩ := ih used hused
      refine ⟨hnodup, ?_⟩
      intro a
      rw [hmem a, List.mem_cons]
      constructor
      · tauto
      · rintro (ha | rfl | ha)
        · exact .inl ha
        · exact .inl hb
        · exact .inr ha
    · rename_i hb
      obtain ⟨hnodup, hmem⟩ := ih (b :: used) (List.nodup_cons.mpr ⟨hb, hused⟩)
      refine ⟨hnodup, ?_⟩
      intro a
      rw [hmem a, List.mem_cons, List.mem_cons]
      tauto

theorem mem_sortedArrays {q : Query} (hused : (scanAll q).usedArrays.Nodup) :
    q.sortedArrays.Nodup ∧ ∀ a, a ∈ q.sortedArrays ↔
      a ∈ (scanAll q).usedArrays ∨ a ∈ q.arraysToCallGetValueOn := by
  obtain ⟨hnodup, hmem⟩ := foldl_insert q.arraysToCallGetValueOn _ hused
  have hperm := List.perm_insertionSort (fun a b : Array => a.name ≤ b.name)
    (q.arraysToCallGetValueOn.foldl (fun as a => if a ∈ as then as else a :: as)
      (scanAll q).usedArrays)
  exact ⟨hperm.nodup_iff.mpr hnodup, fun a => hperm.mem_iff.trans (hmem a)⟩

section
variable {D : Type} {G : Algebra D} (declared : String → ℕ → ℕ → D)

/-- The symbol of an array with what it stands for. -/
def arraySymbol (a : Array) : String × D :=
  (a.name, declared a.name a.domain a.range)

theorem lookup_unique {l : Scope D} {x : String} {d : D} (hmem : (x, d) ∈ l)
    (hone : ∀ d', (x, d') ∈ l → d' = d) : l.lookup x = some d := by
  cases hl : l.lookup x with
  | none =>
    have := List.lookup_eq_none_iff.mp hl _ hmem
    simp at this
  | some d' => rw [hone d' (mem_of_lookup hl)]

/-- Declarations of arrays with names of their own. -/
theorem run_declarations (as : List Array) (cs : List Command) (sc : Scope D)
    (hpos : ∀ a ∈ as, 0 < a.domain ∧ 0 < a.range) (hnodup : (as.map Array.name).Nodup)
    (hnew : ∀ a ∈ as, sc.lookup a.name = none) :
    run G declared (as.map (fun a => .declareFun a.name a.domain a.range) ++ cs) sc =
      run G declared cs ((as.map (arraySymbol declared)).reverse ++ sc) := by
  induction as generalizing sc with
  | nil => rfl
  | cons a as ih =>
    obtain ⟨hd, hr⟩ := hpos a List.mem_cons_self
    obtain ⟨hna, hnas⟩ := List.nodup_cons.mp hnodup
    have hnew' : ∀ b ∈ as, (arraySymbol declared a :: sc).lookup b.name = none := by
      intro b hb
      have hne : (b.name == a.name) = false := by
        simp only [beq_eq_false_iff_ne, ne_eq]
        intro h
        exact hna (h ▸ List.mem_map_of_mem hb)
      simp only [arraySymbol, List.lookup, hne]
      exact hnew b (List.mem_cons_of_mem a hb)
    have hrest := ih (arraySymbol declared a :: sc)
      (fun b hb => hpos b (List.mem_cons_of_mem a hb)) hnas hnew'
    simp only [List.map_cons, List.cons_append, run]
    rw [if_pos ⟨hd, hr, hnew a List.mem_cons_self⟩, List.reverse_cons, List.append_assoc]
    exact hrest

/-- An assertion without names. -/
def Plain (G : Algebra D) (sc : Scope D) (c : Command) (d : D) : Prop :=
  ∃ t, c = .assert ⟨[], t⟩ ∧ t.run G sc = some (d, sc)

theorem run_plain (cs : List Command) {sc : Scope D} (h : ∀ c ∈ cs, ∃ d, Plain G sc c d) :
    ∃ pre : List (D × Scope D),
      (∀ rest, run G declared (cs ++ rest) sc = (run G declared rest sc).map (pre ++ ·)) ∧
      (∀ r ∈ pre, r.2 = sc ∧ ∃ c ∈ cs, Plain G sc c r.1) ∧
      ∀ c ∈ cs, ∃ r ∈ pre, Plain G sc c r.1 := by
  induction cs with
  | nil => exact ⟨[], fun rest => by simp, nofun, nofun⟩
  | cons c cs ih =>
    obtain ⟨pre, hrun, hpre, hall⟩ := ih fun x hx => h x (List.mem_cons_of_mem c hx)
    obtain ⟨d, t, rfl, ht⟩ := h c List.mem_cons_self
    have hplain : Plain G sc (.assert ⟨[], t⟩) d := ⟨t, rfl, ht⟩
    refine ⟨(d, sc) :: pre, ?_, ?_, ?_⟩
    · intro rest
      have hbody : Assertion.run G ⟨[], t⟩ sc = some (d, sc) := ht
      simp only [List.cons_append, run, hbody, hrun rest, if_true, Option.bind_eq_bind,
        Option.bind_some]
      cases run G declared rest sc <;> rfl
    · intro r hr
      obtain rfl | hr := List.mem_cons.mp hr
      · exact ⟨rfl, _, List.mem_cons_self, hplain⟩
      · obtain ⟨hsc, c, hc, hp⟩ := hpre r hr
        exact ⟨hsc, c, List.mem_cons_of_mem _ hc, hp⟩
    · intro c hc
      obtain rfl | hc := List.mem_cons.mp hc
      · exact ⟨_, List.mem_cons_self, hplain⟩
      · obtain ⟨r, hr, hp⟩ := hall c hc
        exact ⟨r, List.mem_cons_of_mem _ hr, hp⟩

/-- One element of a constant array. -/
theorem printConstantValue_plain {o : Options} {a : Array} {sc : Scope D} {s e d : D} {i : ℕ}
    {v : BitVec a.range} (hname : sc.lookup a.name = some s) (hdom : 0 < a.domain)
    (hi : i < 2 ^ a.domain) (hint : i < 2 ^ 31) (hrange : Printable o.cdm a.range)
    (hone : a.range ≠ 1)
    (hsel : G.op .select [s, G.bits a.domain (BitVec.ofInt a.domain i)] = some e)
    (heq : G.op .eq [e, G.bits a.range v] = some d) :
    Plain G sc (printConstantValue o a i v) d := by
  have hindex : (BitVec.ofNat 32 i).toInt = i := by
    rw [BitVec.toInt_eq_toNat_of_lt] <;> rw [BitVec.toNat_ofNat, Nat.mod_eq_of_lt] <;> omega
  have hlit : G.literal a.domain i = some (G.bits a.domain (BitVec.ofInt a.domain i)) := by
    rw [Algebra.literal, if_pos]
    exact ⟨hdom, by omega, by exact_mod_cast hi⟩
  have hv : (printConstant o.cdm v).run G sc = some (G.bits a.range v, sc) := by
    rw [printConstant_run G v hrange sc, if_neg hone]
  have helem : (Term.app2 .select (.symbol a.name) (.numeral (BitVec.ofNat 32 i).toInt a.domain)).run
      G sc = some (e, sc) := by
    refine Term.run_app2 G (Term.run_symbol G hname) ?_ hsel
    simp only [Term.run, hindex, hlit, Option.map_some]
  exact ⟨_, rfl, Term.run_app2 G helem hv heq⟩

/-- What is asked for asserts nothing. -/
theorem printAction_run {q : Query} {sc : Scope D}
    (h : ∀ a ∈ q.arraysToCallGetValueOn, 0 < a.domain ∧ a.size ≤ 2 ^ a.domain ∧
      ∃ s, sc.lookup a.name = some s ∧ ∀ v, ∃ d, G.op .select [s, G.bits a.domain v] = some d) :
    run G declared (printAction q) sc = some [] := by
  have hgets : ∀ (cs : List Command), (∀ c ∈ cs, ∃ t d, c = .getValue t ∧
      t.run G sc = some (d, sc)) → run G declared (cs ++ [.exit]) sc = some [] := by
    intro cs hcs
    induction cs with
    | nil => rfl
    | cons c cs ih =>
      obtain ⟨t, d, rfl, ht⟩ := hcs c List.mem_cons_self
      simp only [List.cons_append, run, ht, Option.bind_eq_bind, Option.bind_some]
      exact ih fun x hx => hcs x (List.mem_cons_of_mem _ hx)
  rw [printAction, List.cons_append, run]
  refine hgets _ ?_
  intro c hc
  obtain ⟨a, ha, hc⟩ := List.mem_flatMap.mp hc
  obtain ⟨index, hindex, rfl⟩ := List.mem_map.mp hc
  obtain ⟨hdom, hsize, s, hs, hsel⟩ := h a ha
  have hlt : index < 2 ^ a.domain := (List.mem_range.mp hindex).trans_le hsize
  obtain ⟨d, hd⟩ := hsel (BitVec.ofInt a.domain index)
  refine ⟨_, d, rfl, Term.run_app2 G (Term.run_symbol G hs) ?_ hd⟩
  have hcast : (index : ℤ) < 2 ^ a.domain := by exact_mod_cast hlt
  simp [Term.run, Algebra.literal, hdom, hcast]

end

end Encider.Smtlib
