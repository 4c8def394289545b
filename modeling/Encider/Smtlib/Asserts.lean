import Encider.Smtlib.Bindings
import Encider.Smtlib.Prints

/-! How the assertions of a query are read: level by level of the `let`s, or one after the other with
the names that the earlier ones define. -/

namespace Encider.Smtlib

open Smt

section
variable {Arr : Array → Prop} {W : Width → Prop} {Q : BinaryKind → Expr → Expr → Prop}
  {o : Options} {D : Type} {G : Algebra D} {R : Reading Arr W Q o G}
  {Declared : String → Prop} {N : Expr → ℤ → Prop}

variable (R Declared N) in
/-- Every symbol of the scope is declared, or stands for the expression with its number. -/
def Known (sc : Scope D) : Prop :=
  ∀ b ∈ sc, Declared b.1 ∨ ∃ e i, N e i ∧ b = (abbreviation i, R.den (getSort e) e)

/-- A name has the value of its expression wherever it is defined. -/
theorem Known.value (hN : Naming Arr Declared N) {sc : Scope D} (h : Known R Declared N sc)
    {e : Expr} {i : ℤ} (he : N e i) {d : D} (hd : (abbreviation i, d) ∈ sc) :
    d = R.den (getSort e) e := by
  obtain hdecl | ⟨e', j, hj, heq⟩ := h _ hd
  · exact absurd rfl (hN.other hdecl he)
  · obtain ⟨hname, hval⟩ := Prod.mk.inj heq
    have hij := abbreviation_injective (hN.pos he) (hN.pos hj) hname
    subst hij
    rw [hval, hN.injective he hj]

theorem Known.lookup (hN : Naming Arr Declared N) {sc : Scope D} (h : Known R Declared N sc)
    {e : Expr} {i : ℤ} (he : N e i) {d : D} (hd : (abbreviation i, d) ∈ sc) :
    sc.lookup (abbreviation i) = some (R.den (getSort e) e) := by
  cases hl : sc.lookup (abbreviation i) with
  | none =>
    have := List.lookup_eq_none_iff.mp hl _ hd
    simp at this
  | some d' =>
    obtain ⟨l₁, l₂, hsplit, -⟩ := List.lookup_eq_some_iff.mp hl
    have hd' : (abbreviation i, d') ∈ sc := by
      rw [hsplit]
      simp
    rw [h.value hN he hd']

theorem mem_of_lookup {α β : Type} [BEq α] [LawfulBEq α] {l : List (α × β)} {x : α} {y : β}
    (h : l.lookup x = some y) : (x, y) ∈ l := by
  obtain ⟨l₁, l₂, rfl, -⟩ := List.lookup_eq_some_iff.mp h
  simp

variable (R) in
/-- What the names of a level stand for. -/
def levelScope (level : BindingMap) : Scope D :=
  level.map fun b => (abbreviation b.2, R.den (getSort b.1) b.1)

variable (W1 : W 1)
include W1

/-- The terms of a level are read in the scope around them. -/
theorem readAll_level (hN : Naming Arr Declared N) {bindings : BindingMap} {sc : Scope D}
    (hag : Agrees R Declared N bindings sc) (level : BindingMap)
    (hfit : ∀ b ∈ level, Fit Arr W Q b.1) :
    readAll G sc (level.map fun b => (abbreviation b.2,
      (printExpression o b.1 (printFullExpression o b.1) (getSort b.1) bindings).1)) =
      some (levelScope R level) := by
  induction level with
  | nil => rfl
  | cons b level ih =>
    obtain ⟨sc', hrun, -⟩ := printExpression_prints W1 hN (hfit b List.mem_cons_self)
      width_of_bool bindings sc hag
    have hrest := ih fun x hx => hfit x (List.mem_cons_of_mem b hx)
    simp only [List.map_cons, readAll, hrun, hrest, Option.bind_eq_bind, Option.bind_some]
    rfl

omit W1 in
/-- With a level the numbers and the names grow together. -/
theorem Agrees.level (hN : Naming Arr Declared N) (hmode : o.abbrMode = .abbrLet)
    {bindings level ordered : BindingMap} {sc : Scope D} (hag : Agrees R Declared N bindings sc)
    (hnum : ∀ b ∈ level, N b.1 b.2) (hperm : ∀ b, b ∈ ordered ↔ b ∈ level) :
    Agrees R Declared N (bindings ++ level) (levelScope R ordered ++ sc) := by
  have hknown : Known R Declared N (levelScope R ordered ++ sc) := by
    intro b hb
    obtain hb | hb := List.mem_append.mp hb
    · obtain ⟨x, hx, rfl⟩ := List.mem_map.mp hb
      exact .inr ⟨x.1, x.2, hnum x ((hperm x).mp hx), rfl⟩
    · exact hag.known b hb
  have hlookup : ∀ e i, (bindings ++ level).lookup e = some i →
      bindings.lookup e = some i ∨ (e, i) ∈ level := by
    intro e i he
    rw [List.lookup_append] at he
    cases hb : bindings.lookup e with
    | some j =>
      rw [hb] at he
      exact .inl he
    | none =>
      rw [hb, Option.none_or] at he
      exact .inr (mem_of_lookup he)
  have hnamed : ∀ e i, (bindings ++ level).lookup e = some i → 0 < i ∧ N e i := by
    intro e i he
    obtain he | he := hlookup e i he
    · have hpos := (hag.visible e i he hmode).1
      have hn := hag.numbered e i he (by simp [hmode])
      rw [abs_of_pos hpos] at hn
      exact ⟨hpos, hn⟩
    · exact ⟨hN.pos (hnum _ he), hnum _ he⟩
  constructor
  · intro a ha
    rw [List.lookup_append]
    have hnone : (levelScope R ordered).lookup a.name = none := by
      rw [List.lookup_eq_none_iff]
      intro b hb
      obtain ⟨x, hx, rfl⟩ := List.mem_map.mp hb
      simpa using hN.other (hN.array ha) (hnum x ((hperm x).mp hx))
    rw [hnone, Option.none_or]
    exact hag.declared a ha
  · intro e i he _
    obtain ⟨hpos, hn⟩ := hnamed e i he
    rwa [abs_of_pos hpos]
  · intro e i he _
    obtain ⟨hpos, hn⟩ := hnamed e i he
    refine ⟨hpos, ?_⟩
    obtain he | he := hlookup e i he
    · exact hknown.lookup hN hn
        (List.mem_append_right _ (mem_of_lookup (hag.visible e i he hmode).2))
    · exact hknown.lookup hN hn
        (List.mem_append_left _ (List.mem_map.mpr ⟨(e, i), (hperm _).mpr he, rfl⟩))
  · intro e i _ hnamedMode
    rw [hmode] at hnamedMode
    cases hnamedMode
  · intro e i _ hnamedMode
    rw [hmode] at hnamedMode
    cases hnamedMode
  · exact hknown

/-- By induction on the levels: each is read with the names of those around it. -/
theorem printLevels_run (hN : Naming Arr Declared N) (hmode : o.abbrMode = .abbrLet)
    (before : Expr → Expr → Bool) (levels : List BindingMap)
    (hlevels : ∀ level ∈ levels, (level.map Prod.snd).Nodup ∧
      ∀ b ∈ level, Fit Arr W Q b.1 ∧ N b.1 b.2) {bindings : BindingMap} {sc : Scope D}
    (hag : Agrees R Declared N bindings sc) :
    ∃ sc', bindLevels G (printLevels before o levels bindings).1 sc = some sc' ∧
      Agrees R Declared N (printLevels before o levels bindings).2 sc' := by
  induction levels generalizing bindings sc with
  | nil => exact ⟨sc, rfl, hag⟩
  | cons level rest ih =>
    obtain ⟨hnodup, hb⟩ := hlevels level List.mem_cons_self
    have hmem : ∀ b, b ∈ inOrder before level ↔ b ∈ level := fun b => mem_inOrder
    have hread := readAll_level W1 hN hag (inOrder before level)
      fun b h => (hb b ((hmem b).mp h)).1
    have hag' := hag.level hN hmode (fun b h => (hb b h).2) hmem
    obtain ⟨sc', hrun, hfinal⟩ := ih (fun l hl => hlevels l (List.mem_cons_of_mem level hl)) hag'
    refine ⟨sc', ?_, hfinal⟩
    have hnames : (((inOrder before level).map fun b => (abbreviation b.2,
        (printExpression o b.1 (printFullExpression o b.1) (getSort b.1) bindings).1)).map
          Prod.fst).Nodup := by
      rw [List.map_map]
      have hnums : ((inOrder before level).map Prod.snd).Nodup :=
        ((List.perm_insertionSort _ level).map Prod.snd).nodup_iff.mpr hnodup
      have hcomp : (Prod.fst ∘ fun b : Expr × ℤ => (abbreviation b.2,
          (printExpression o b.1 (printFullExpression o b.1) (getSort b.1) bindings).1)) =
          abbreviation ∘ Prod.snd := rfl
      rw [hcomp, ← List.map_map]
      refine hnums.map_on ?_
      intro i hi j hj hij
      obtain ⟨x, hx, rfl⟩ := List.mem_map.mp hi
      obtain ⟨y, hy, rfl⟩ := List.mem_map.mp hj
      exact abbreviation_injective (hN.pos (hb x ((hmem x).mp hx)).2)
        (hN.pos (hb y ((hmem y).mp hy)).2) hij
    simp only [printLevels, bindLevels]
    rw [if_pos hnames, hread]
    exact hrun

/-- One assertion: it reads as its expression, in a scope where every name is known. -/
theorem printAssert_run (hN : Naming Arr Declared N) (before : Expr → Expr → Bool)
    (ordered : List BindingMap)
    (hlevels : ∀ level ∈ ordered, (level.map Prod.snd).Nodup ∧
      ∀ b ∈ level, Fit Arr W Q b.1 ∧ N b.1 b.2) {bindings : BindingMap} {sc : Scope D}
    (hclear : Agrees R Declared N [] sc)
    (hag : ¬ (o.abbrMode = .abbrLet ∧ ordered ≠ []) → Agrees R Declared N bindings sc) {e : Expr}
    (he : Fit Arr W Q e) (hw : e.getWidth = 1) :
    ∃ inner, (printAssert before o ordered e bindings).1.run G sc = some (R.truth e, inner) ∧
      Agrees R Declared N (printAssert before o ordered e bindings).2 inner := by
  simp only [printAssert, Assertion.run]
  split
  · rename_i hmode
    obtain ⟨sc', hbind, hag'⟩ := printLevels_run W1 hN hmode.1 before ordered hlevels hclear
    obtain ⟨inner, hrun, hfinal, -⟩ := printExpression_prints W1 hN he (s := .bool)
      (fun _ => hw) _ sc' hag'
    refine ⟨inner, ?_, hfinal⟩
    rw [hbind]
    exact hrun
  · rename_i hmode
    obtain ⟨inner, hrun, hfinal, -⟩ := printExpression_prints W1 hN he (s := .bool)
      (fun _ => hw) bindings sc (hag hmode)
    exact ⟨inner, hrun, hfinal⟩

omit W1 in
theorem Agrees.clear {bindings : BindingMap} {sc : Scope D} (h : Agrees R Declared N bindings sc) :
    Agrees R Declared N [] sc :=
  ⟨h.declared, nofun, nofun, nofun, nofun, h.known⟩

/-- By induction on the asserted expressions. Below `let`s there is only one. -/
theorem printAsserts_run (hN : Naming Arr Declared N) (before : Expr → Expr → Bool)
    (ordered : List BindingMap)
    (hlevels : ∀ level ∈ ordered, (level.map Prod.snd).Nodup ∧
      ∀ b ∈ level, Fit Arr W Q b.1 ∧ N b.1 b.2) (declared : String → ℕ → ℕ → D)
    (cs : List Command)
    (hcs : ∀ sc, Agrees R Declared N [] sc → run G declared cs sc = some []) (es : List Expr)
    (hes : ∀ e ∈ es, Fit Arr W Q e ∧ e.getWidth = 1)
    (hone : o.abbrMode = .abbrLet → es.length ≤ 1) {bindings : BindingMap} {sc : Scope D}
    (hclear : Agrees R Declared N [] sc)
    (hag : ¬ (o.abbrMode = .abbrLet ∧ ordered ≠ []) → Agrees R Declared N bindings sc) :
    ∃ out, run G declared (printAsserts before o ordered es bindings ++ cs) sc = some out ∧
      out.map Prod.fst = es.map R.truth ∧ ∀ r ∈ out, Known R Declared N r.2 := by
  induction es generalizing bindings sc with
  | nil => exact ⟨[], hcs sc hclear, rfl, nofun⟩
  | cons e es ih =>
    obtain ⟨he, hw⟩ := hes e List.mem_cons_self
    obtain ⟨inner, hrun, hag'⟩ := printAssert_run W1 hN before ordered hlevels hclear hag he hw
    have hnext : Agrees R Declared N [] (if (printAssert before o ordered e bindings).1.lets = []
        then inner else sc) := by
      split
      · exact hag'.clear
      · exact hclear
    have hagNext : ¬ (o.abbrMode = .abbrLet ∧ ordered ≠ []) →
        Agrees R Declared N (printAssert before o ordered e bindings).2
          (if (printAssert before o ordered e bindings).1.lets = [] then inner else sc) := by
      intro hmode
      have hlets : (printAssert before o ordered e bindings).1.lets = [] := by
        simp only [printAssert, if_neg hmode]
      rw [if_pos hlets]
      exact hag'
    obtain ⟨out, hout, hvalues, hknown⟩ := ih (fun x hx => hes x (List.mem_cons_of_mem e hx))
      (fun hmode => Nat.le_succ_of_le (Nat.le_of_succ_le_succ (hone hmode))) hnext hagNext
    refine ⟨(R.truth e, inner) :: out, ?_, ?_, ?_⟩
    · simp only [printAsserts, List.cons_append, run, hrun, hout, Option.bind_eq_bind,
        Option.bind_some]
    · simp only [List.map_cons, hvalues]
    · intro r hr
      obtain rfl | hr := List.mem_cons.mp hr
      · exact hag'.known
      · exact hknown r hr

end

end Encider.Smtlib
