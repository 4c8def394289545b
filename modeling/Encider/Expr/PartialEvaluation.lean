import Encider.Expr.Evaluates
import Encider.Expr.Over

/-! What a visit of the evaluator returns has the value of what was visited, whether or not the bytes
suffice for a constant: under every assignment that has the bytes which are bound. -/

namespace Encider

open Encider.Expr Encider.Guarded

/-- The assignments with the bound bytes. What is not bound is zero, unless it is left free. -/
structure Bindings.Agrees (b : Bindings) (σ : Assignment) : Prop where
  bound : ∀ a i byte, (b.bindings a).bind (·[i]?) = some byte →
    σ a i = BitVec.ofNat a.range byte.toNat
  unbound : b.allowFreeValues = false → ∀ a i, (b.bindings a).bind (·[i]?) = none → σ a i = 0

theorem Bindings.agrees (b : Bindings) : b.Agrees b.assignment := by
  constructor
  · intro a i byte hbyte
    simp only [Bindings.assignment, hbyte]
  · intro _ a i hnone
    simp only [Bindings.assignment, hnone]

/-- No boolean is shifted arithmetically or divided, and no divisor is the constant zero. -/
structure BinaryKind.Safe (k : BinaryKind) (l r : Expr) : Prop where
  size : k = .ashr ∨ k.isDivision = true → l.getWidth ≠ 1
  divisor : k.isDivision = true → r ≠ const 0 r.getWidth

/-- The array is indexed by at most 32 bits, and its constants are as many as its elements. -/
structure Array.Regular (a : Array) : Prop where
  domain : a.domain ≤ 32
  constant : a.constantValues ≠ [] → a.constantValues.length = a.size

section
variable {σ : Assignment} {e l r : Expr} {k : BinaryKind}

theorem createFolded_value {f : Expr → Expr → Expr} (hc : k.createFolded f l r = some e)
    (hf : (f l r).value σ = (binary k l r).value σ) : e.value σ = (binary k l r).value σ := by
  unfold BinaryKind.createFolded at hc
  split at hc
  · split_ifs at hc
    cases hc
    exact (fold_means σ k _ _).value
  · cases hc
    exact hf

/-- A boolean is shifted by being hidden. -/
theorem shift_value (h : (binary k l r).WellTyped) (hk : k = .shl ∨ k = .lshr) :
    (if l.getWidth = 1 then AndExpr.create l (createIsZero r) else .binary k l r).value σ =
      (binary k l r).value σ := by
  split_ifs with h1
  · rw [(and_not_means σ h.1 h.2.1 h1).value, binary_value, h1, eqBit]
    obtain h2 | h2 := width_one_value (σ := σ) h1 <;>
      obtain h3 | h3 := width_one_value (σ := σ) (h.2.2.symm.trans h1) <;>
      obtain rfl | rfl := hk <;> rw [h2, h3] <;> rfl
  · rfl

theorem NeExpr.create_value (h : (binary .ne l r).WellTyped) :
    (NeExpr.create l r).value σ = (binary .ne l r).value σ := by
  obtain ⟨hl, hr, hw⟩ := h
  have heq := EqExpr.create_means σ hl hr hw
  have h := EqExpr.create_means σ (l := const 0 1) trivial heq.typed heq.width.symm
  refine h.value.trans ?_
  rw [const, eq_constant_value σ _ heq.width, eqBit, heq.value, binary_value, binary_value,
    BinaryKind.apply, BinaryKind.apply]
  by_cases hbits : BitVec.ofNat l.getWidth (l.value σ) = BitVec.ofNat l.getWidth (r.value σ) <;>
    simp [hbits]

/-- What a constructor returns has the value of the operation, also where a divisor is zero. -/
theorem BinaryKind.create_value (h : (binary k l r).WellTyped) (hk : k = .ashr ∨ k.isDivision = true → l.getWidth ≠ 1)
    (hc : k.create l r = some e) : e.value σ = (binary k l r).value σ := by
  have ⟨hl, hr, hw⟩ := h
  cases k with
  | add =>
    cases hc
    rw [(Expr.sumCorrect σ l r hl hr rfl hw.symm).1.value, binary_value]
    rfl
  | sub =>
    cases hc
    rw [(Expr.sumCorrect σ l r hl hr rfl hw.symm).2.value, binary_value]
    rfl
  | mul =>
    cases hc
    rw [(MulExpr.create_means hl hr rfl hw.symm).value, binary_value]
    rfl
  | xor =>
    cases hc
    rw [(XorExpr.create_means hl hr rfl hw.symm).value, binary_value]
    rfl
  | udiv | sdiv | urem | srem => exact createFolded_value hc (by rw [if_neg (hk (.inr rfl))])
  | ashr => exact createFolded_value hc (by rw [if_neg (hk (.inl rfl))])
  | shl => exact createFolded_value hc (shift_value h (.inl rfl))
  | lshr => exact createFolded_value hc (shift_value h (.inr rfl))
  | and =>
    cases hc
    exact (AndExpr.create_means σ hl hr hw).value
  | or =>
    cases hc
    exact (OrExpr.create_means σ hl hr hw).value
  | eq =>
    cases hc
    exact (EqExpr.create_means σ hl hr hw).value
  | ne =>
    cases hc
    exact NeExpr.create_value h
  | ult =>
    cases hc
    exact (UltExpr.create_means σ hl hr hw).value
  | ule =>
    cases hc
    exact (UleExpr.create_means σ hl hr hw).value
  | slt =>
    cases hc
    exact (SltExpr.create_means σ hl hr hw).value
  | sle =>
    cases hc
    exact (SleExpr.create_means σ hl hr hw).value
  | ugt =>
    cases hc
    rw [← swapped_value σ .ugt .ult hw fun _ _ => rfl]
    exact (UltExpr.create_means σ hr hl hw.symm).value
  | uge =>
    cases hc
    rw [← swapped_value σ .uge .ule hw fun _ _ => rfl]
    exact (UleExpr.create_means σ hr hl hw.symm).value
  | sgt =>
    cases hc
    rw [← swapped_value σ .sgt .slt hw fun _ _ => rfl]
    exact (SltExpr.create_means σ hr hl hw.symm).value
  | sge =>
    cases hc
    rw [← swapped_value σ .sge .sle hw fun _ _ => rfl]
    exact (SleExpr.create_means σ hr hl hw.symm).value

end

/-- What is evaluated faithfully. -/
structure Expr.Apt (e : Expr) : Prop where
  typed : e.WellTyped
  safe : e.All BinaryKind.Safe
  arrays : e.Over Array.Regular

/-- The writes below a read of an array. -/
structure UpdateList.Apt (a : Array) (us : UpdateList) : Prop where
  typed : us.WellTyped a
  safe : us.All BinaryKind.Safe
  arrays : us.Over Array.Regular

theorem Expr.Apt.kids {e : Expr} (h : e.Apt) : ∀ k ∈ e.kids, k.Apt := by
  obtain ⟨ht, hs, ho⟩ := h
  cases e with
  | constant w v => exact List.forall_mem_nil _
  | notOptimized e | not e => exact List.forall_mem_singleton.mpr ⟨ht, hs, ho⟩
  | read a us i => exact List.forall_mem_singleton.mpr ⟨ht.2.1, hs.2, ho.2.2⟩
  | extract e | zext e | sext e => exact List.forall_mem_singleton.mpr ⟨ht.1, hs, ho⟩
  | select c t f =>
    simp only [Expr.kids, List.forall_mem_cons]
    exact ⟨⟨ht.1, hs.1, ho.1⟩, ⟨ht.2.1, hs.2.1, ho.2.1⟩, ⟨ht.2.2.1, hs.2.2, ho.2.2⟩,
      List.forall_mem_nil _⟩
  | concat l r =>
    simp only [Expr.kids, List.forall_mem_cons]
    exact ⟨⟨ht.1, hs.1, ho.1⟩, ⟨ht.2, hs.2, ho.2⟩, List.forall_mem_nil _⟩
  | binary k l r =>
    simp only [Expr.kids, List.forall_mem_cons]
    exact ⟨⟨ht.1, hs.1, ho.1⟩, ⟨ht.2.1, hs.2.1, ho.2⟩, List.forall_mem_nil _⟩

theorem BinaryKind.safe_regular : Regular BinaryKind.Safe where
  plain k l r h := by
    cases k with
    | ashr | udiv | sdiv | urem | srem => cases h
    | _ => constructor <;> simp [BinaryKind.isDivision]
  add _ _ _ := by constructor <;> simp [BinaryKind.isDivision]
  sub _ _ _ := by constructor <;> simp [BinaryKind.isDivision]

theorem Expr.Apt.createIsZero {e : Expr} (h : e.Apt) : (Expr.createIsZero e).Apt where
  typed := (createIsZero_means (fun _ _ => 0) h.typed).typed
  safe := (createIsZero_tame BinaryKind.safe_regular h.safe.tame).all
  arrays := createIsZero_over h.arrays

/-- Of the same width and value. -/
def Expr.SameAs (σ : Assignment) (e r : Expr) : Prop := r.Means σ e.getWidth (e.value σ)

section
variable {σ : Assignment} {e r : Expr}

theorem Expr.SameAs.refl (h : e.WellTyped) : e.SameAs σ e := ⟨h, rfl, rfl⟩

/-- Rebuilt from kids of the same value, an expression has the same value. -/
theorem Expr.SameAs.rebuild (he : e.Apt) {kids : List Expr}
    (hk : List.Forall₂ (Expr.SameAs σ) e.kids kids) (hc : e.rebuild kids = some r) :
    e.SameAs σ r := by
  obtain ⟨ht, hs, -⟩ := he
  cases e with
  | constant w v => cases hc
  | notOptimized e =>
    obtain _ | ⟨h, _ | _⟩ := hk
    cases hc
    exact ⟨h.typed, h.width, h.value⟩
  | read a us i =>
    obtain _ | ⟨h, _ | _⟩ := hk
    cases hc
    have hm := ReadExpr.create_means (σ := σ) h.typed (h.width.trans ht.2.2) ht.1
    rwa [h.value] at hm
  | select c t f =>
    obtain _ | ⟨hc', _ | ⟨ht', _ | ⟨hf', _ | _⟩⟩⟩ := hk
    cases hc
    obtain ⟨-, -, -, hcw, htf⟩ := ht
    have hm := SelectExpr.create_means σ ⟨hc'.typed, ht'.typed, hf'.typed, hc'.width.trans hcw,
      (ht'.width.trans htf).trans hf'.width.symm⟩
    refine ⟨hm.typed, hm.width.trans ht'.width, hm.value.trans ?_⟩
    simp only [Expr.value, hc'.value, ht'.value, hf'.value, ht'.width]
  | concat l r =>
    obtain _ | ⟨hl, _ | ⟨hr, _ | _⟩⟩ := hk
    cases hc
    have hm := ConcatExpr.create_means σ hl.typed hr.typed
    refine ⟨hm.typed, hm.width.trans ?_, hm.value.trans ?_⟩
    · simp only [Expr.getWidth, hl.width, hr.width]
    · simp only [Expr.value, hl.value, hr.value, hr.width]
  | extract e off w =>
    obtain _ | ⟨h, _ | _⟩ := hk
    cases hc
    have hm := ExtractExpr.create_correct σ _ off w h.typed ht.2.1 (h.width.symm ▸ ht.2.2)
    refine ⟨hm.typed, hm.width, hm.value.trans ?_⟩
    simp only [Expr.value, h.value]
  | zext e w =>
    obtain _ | ⟨h, _ | _⟩ := hk
    cases hc
    have hm := ZExtExpr.create_means σ (w := w) h.typed fun hw =>
      absurd (h.width.symm ▸ ht.2) (Nat.not_le.mpr hw)
    refine ⟨hm.typed, hm.width, hm.value.trans ?_⟩
    simp only [Expr.value, h.value]
  | sext e w =>
    obtain _ | ⟨h, _ | _⟩ := hk
    cases hc
    have hm := SExtExpr.create_means σ (w := w) h.typed fun hw =>
      absurd (h.width.symm ▸ ht.2) (Nat.not_le.mpr hw)
    refine ⟨hm.typed, hm.width, hm.value.trans ?_⟩
    simp only [Expr.value, h.value]
    rw [h.width]
  | not e =>
    obtain _ | ⟨h, _ | _⟩ := hk
    cases hc
    have hm := NotExpr.create_means σ h.typed
    refine ⟨hm.typed, hm.width.trans h.width, hm.value.trans ?_⟩
    simp only [Expr.value, h.value]
    rw [h.width]
  | binary k l r =>
    obtain _ | ⟨hl, _ | ⟨hr, _ | _⟩⟩ := hk
    have htyped : (binary k _ _).WellTyped :=
      ⟨hl.typed, hr.typed, (hl.width.trans ht.2.2).trans hr.width.symm⟩
    obtain ⟨hrt, hrw⟩ := BinaryKind.create_typed htyped hc
    have hvalue := BinaryKind.create_value (σ := σ) htyped
      (fun hk h1 => hs.2.2.size hk (hl.width.symm.trans h1)) hc
    refine ⟨hrt, hrw.trans ?_, hvalue.trans ?_⟩
    · simp only [Expr.getWidth, hl.width]
    · simp only [Expr.value, hl.value, hr.value]
      rw [hl.width]

end

namespace ExprEvaluator

section
variable {b : Bindings} {σ : Assignment} {e : Expr}

/-- What is remembered has the value of what it is remembered for. -/
def Faithful (σ : Assignment) (visited : Visited) : Prop :=
  ∀ p ∈ visited, p.1.Apt → p.1.SameAs σ p.2

/-- What a visit of an expression returns has its value. -/
abbrev Evaluated (σ : Assignment) (e : Expr) : Visit Expr → Prop :=
  Returns (Faithful σ) fun r => e.Apt → e.SameAs σ r

theorem Evaluated.remember {actual : Visit Expr} (h : Evaluated σ e actual) :
    Evaluated σ e (remember e actual) := by
  intro visited r visited' hv hrun
  unfold ExprEvaluator.remember at hrun
  cases hfind : visited.find e with
  | some r' =>
    rw [hfind] at hrun
    cases hrun
    exact ⟨hv, hv _ (Visited.mem_of_find hfind)⟩
  | none =>
    rw [hfind] at hrun
    obtain ⟨⟨r', visited₁⟩, hactual, hp⟩ := Option.bind_eq_some_iff.mp hrun
    cases hp
    obtain ⟨hv₁, hr⟩ := h hv hactual
    refine ⟨fun p hp => ?_, hr⟩
    obtain hp | hp := List.mem_append.mp hp
    · exact hv₁ p hp
    · cases List.mem_singleton.mp hp
      exact hr

theorem sameAs_visitExprPost {r : Expr} (h : e.SameAs σ r) : e.SameAs σ (visitExprPost r) := by
  cases r with
  | notOptimized src => exact ⟨h.typed, h.width, h.value⟩
  | _ => exact h

theorem sameAs_of_apt {es rs : List Expr} (he : ∀ e ∈ es, e.Apt)
    (h : List.Forall₂ (fun e r => e.Apt → e.SameAs σ r) es rs) :
    List.Forall₂ (Expr.SameAs σ) es rs := by
  induction h with
  | nil => exact .nil
  | cons h _ ih =>
    rw [List.forall_mem_cons] at he
    exact .cons (h he.1) (ih he.2)

theorem Evaluated.doChildren {kids : List (Visit Expr)}
    (h : List.Forall₂ (Evaluated σ) e.kids kids) : Evaluated σ e (doChildren e kids) := by
  refine .bind (.inTurn h) fun rs hrs => ?_
  refine .bind (P := fun r => e.Apt → e.SameAs σ r) ?_ fun r hr =>
    .pure fun he => sameAs_visitExprPost (hr he)
  unfold rebuildKids
  refine .ite (fun _ => .pure fun he => .refl he.typed) fun _ => .lift fun r hr he => ?_
  exact .rebuild he (sameAs_of_apt he.kids hrs) hr

theorem Evaluated.visitExpr {action : Visit Expr} (h : Evaluated σ e action) :
    Evaluated σ e (visitExpr e action) := by
  refine .ite (fun _ => .lift fun r hr he => ?_) fun _ => h
  have hself : List.Forall₂ (Expr.SameAs σ) e.kids e.kids := by
    rw [List.forall₂_same]
    exact fun k hk => .refl (he.kids k hk).typed
  exact .rebuild he hself hr

theorem Evaluated.of_kids {kids : List (Visit Expr)} (hvisit : visit b e =
    ExprEvaluator.remember e (ExprEvaluator.visitExpr e (ExprEvaluator.doChildren e kids)))
    (h : List.Forall₂ (Evaluated σ) e.kids kids) : Evaluated σ e (visit b e) := by
  rw [hvisit]
  exact .remember (.visitExpr (.doChildren h))

theorem Evaluated.division {k : BinaryKind} {l r : Expr} (hl : Evaluated σ l (visit b l))
    (hr : Evaluated σ r (visit b r)) :
    Evaluated σ (.binary k l r) (protectedDivOperation k l r (visit b l) (visit b r)) := by
  refine .bind hl fun l' hl' => .bind hr fun r' hr' => ?_
  refine .ite (fun _ => .lift fun e he hapt => ?_) fun _ => .pure fun hapt => .refl hapt.typed
  obtain ⟨hlapt, hrapt⟩ : l.Apt ∧ r.Apt := by simpa [Expr.kids] using hapt.kids
  have hdivisor : r.SameAs σ (unlessZero r r') := by
    unfold unlessZero
    split
    · split_ifs
      · exact .refl hrapt.typed
      · exact hr' hrapt
    · exact hr' hrapt
  exact .rebuild (e := .binary k l r) hapt (.cons (hl' hlapt) (.cons hdivisor .nil)) he

/-- The reading of an index below the writes. -/
abbrev EvaluatedWrites (b : Bindings) (σ : Assignment) (us : UpdateList) : Prop :=
  ∀ a index, Returns (Faithful σ) (fun r => us.Apt a → a.Regular → index < 2 ^ a.domain →
    r.Means σ a.range (us.contents σ a index).toNat) (evalRead b a index us)

theorem constant_means {w : Width} (v : BitVec w) : (constant w v).Means σ w v.toNat :=
  ⟨trivial, rfl, constant_value σ v⟩

/-- A byte of the bindings, a read that stays or zero. -/
theorem getInitialValue_means (hσ : b.Agrees σ) (a : Array) {index : Nat}
    (hindex : index < 2 ^ a.domain) (hinit : a.initial σ index = σ a index) :
    (b.getInitialValue a index).Means σ a.range (a.initial σ index).toNat := by
  unfold Bindings.getInitialValue
  split
  · rename_i byte hbyte
    rw [hinit, hσ.bound a index byte hbyte]
    exact constant_means _
  · rename_i hnone
    split_ifs with hfree
    · have hnil : UpdateList.nil.WellTyped a := trivial
      have hm := ReadExpr.create_means (σ := σ) (const_typed index a.domain) rfl hnil
      rwa [const_value, Nat.mod_eq_of_lt hindex, UpdateList.contents] at hm
    · rw [hinit, hσ.unbound (Bool.eq_false_of_not_eq_true hfree) a index hnone]
      exact constant_means _

theorem evaluatedWrites_nil (hσ : b.Agrees σ) : EvaluatedWrites b σ .nil := by
  intro a index
  refine .ite (fun hc => .lift fun r hr _ ha hindex => ?_) fun hc => .pure fun _ ha hindex => ?_
  · obtain ⟨v, hv, rfl⟩ := Option.map_eq_some_iff.mp hr
    rw [UpdateList.contents, Array.initial, hv]
    exact constant_means v
  · refine getInitialValue_means hσ a hindex ?_
    have hnone : a.constantValues[index]? = none := by
      rw [List.getElem?_eq_none_iff]
      by_cases hnil : a.constantValues = []
      · simp [hnil]
      · rw [ha.constant hnil]
        exact Nat.le_of_not_lt fun hlt => hc ⟨hnil, hlt⟩
    rw [Array.initial, hnone, Option.getD_none]

theorem evaluatedWrites_cons {i v : Expr} {next : UpdateList} (hi : Evaluated σ i (visit b i))
    (hv : Evaluated σ v (visit b v)) (hnext : EvaluatedWrites b σ next) :
    EvaluatedWrites b σ (.cons i v next) := by
  intro a index
  refine .bind hi fun r hr => ?_
  have hparts : (UpdateList.cons i v next).Apt a → i.Apt ∧ v.Apt ∧ v.getWidth = a.range ∧
      next.Apt a := by
    intro h
    obtain ⟨ht, hs, ho⟩ := h
    exact ⟨⟨ht.1, hs.1, ho.1⟩, ⟨ht.2.1, hs.2.1, ho.2.1⟩, ht.2.2.2.1, ht.2.2.2.2, hs.2.2, ho.2.2⟩
  split
  · rename_i w c
    have hvalue : (UpdateList.cons i v next).Apt a → i.value σ = c.toNat := fun h =>
      (hr (hparts h).1).value.symm.trans (constant_value σ c)
    refine .ite (fun _ => .ite (fun heq => hv.mono fun r hr h _ _ => ?_) fun hne =>
      (hnext a index).mono fun r hr h ha hindex => ?_) fun _ => .failure
    · obtain ⟨-, hvapt, hw, -⟩ := hparts h
      have hsame := hr hvapt
      have hlt := v.value_lt σ
      rw [hw] at hlt
      rw [UpdateList.contents, if_pos ((hvalue h).trans heq), BitVec.toNat_ofNat,
        Nat.mod_eq_of_lt hlt]
      exact ⟨hsame.typed, hsame.width.trans hw, hsame.value⟩
    · rw [UpdateList.contents, if_neg fun heq => hne ((hvalue h).symm.trans heq)]
      exact hr (hparts h).2.2.2 ha hindex
  · refine .pure fun h ha hindex => ?_
    have hm := ReadExpr.create_means (σ := σ) (a := a) (const_typed index a.domain) rfl h.typed
    rwa [const_value, Nat.mod_eq_of_lt hindex] at hm

theorem evaluated_read {a : Array} {us : UpdateList} {i : Expr} (hus : EvaluatedWrites b σ us)
    (hi : Evaluated σ i (visit b i)) : Evaluated σ (.read a us i) (visit b (.read a us i)) := by
  refine .remember (.visitExpr (.bind hi fun r hr => ?_))
  split
  · rename_i w c
    refine .ite (fun _ => (hus a _).mono fun r' hr' h => ?_) fun _ => .failure
    have hia : i.Apt := h.kids i List.mem_cons_self
    have hvalue : i.value σ = c.toNat := (hr hia).value.symm.trans (constant_value σ c)
    have hregular : a.Regular := h.arrays.1
    have hlt := i.value_lt σ
    rw [h.typed.2.2, hvalue] at hlt
    have hword : toUnsigned c.toNat = c.toNat :=
      Nat.mod_eq_of_lt (hlt.trans_le (Nat.pow_le_pow_right (by decide) hregular.domain))
    have hm := hr' ⟨h.typed.1, h.safe.1, h.arrays.2.1⟩ hregular (hword.symm ▸ hlt)
    rw [hword, ← hvalue] at hm
    exact ⟨hm.typed, hm.width, hm.value⟩
  · exact Evaluated.doChildren (e := .read a us i) (.cons hi .nil)

/-- A visit that returns gives an expression of the same value. -/
theorem evaluated (hσ : b.Agrees σ) (e : Expr) : Evaluated σ e (visit b e) := by
  induction e using Expr.rec (motive_2 := EvaluatedWrites b σ) with
  | constant w v => exact .pure fun he => .refl he.typed
  | notOptimized e ih | extract e _ _ ih | zext e _ ih | sext e _ ih | not e ih =>
    exact .of_kids rfl (.cons ih .nil)
  | read a us i hus hi => exact evaluated_read hus hi
  | select c t f hc ht hf => exact .of_kids rfl (.cons hc (.cons ht (.cons hf .nil)))
  | concat l r hl hr => exact .of_kids rfl (.cons hl (.cons hr .nil))
  | binary k l r hl hr =>
    refine .remember (.visitExpr ?_)
    split_ifs
    · exact .division hl hr
    · exact Evaluated.doChildren (e := .binary k l r) (.cons hl (.cons hr .nil))
  | nil => exact evaluatedWrites_nil hσ
  | cons i v next hi hv hnext => exact evaluatedWrites_cons hi hv hnext

theorem Cached.faithful (hσ : b.Agrees σ) {visited : Visited} (h : Cached b visited) :
    Faithful σ visited := by
  induction h with
  | start => exact fun p hp => absurd hp List.not_mem_nil
  | visit _ hv ih => exact (evaluated hσ _ ih hv).1

/-- Bindings with the same bytes are visited alike. -/
theorem visit_congr {b' : Bindings} (h : ∀ a i, b.getInitialValue a i = b'.getInitialValue a i)
    (e : Expr) : visit b e = visit b' e := by
  induction e using Expr.rec (motive_2 := fun us =>
    ∀ a index, evalRead b a index us = evalRead b' a index us) with
  | constant w v => simp only [visit]
  | notOptimized e ih | extract e _ _ ih | zext e _ ih | sext e _ ih | not e ih =>
    simp only [visit, ih]
  | read a us i hus hi => simp only [visit, hi, hus]
  | select c t f hc ht hf => simp only [visit, hc, ht, hf]
  | concat l r hl hr => simp only [visit, hl, hr]
  | binary k l r hl hr => simp only [visit, hl, hr]
  | nil => simp only [evalRead, h]
  | cons i v next hi hv hnext => simp only [evalRead, hi, hv, hnext]

/-! A visit returns. -/

theorem create_isSome {k : BinaryKind} {l r : Expr}
    (h : k.isDivision = true → l.isConstant = true → r ≠ const 0 r.getWidth) :
    (k.create l r).isSome := by
  have hfolded : ∀ f, (k.createFolded f l r).isSome := by
    intro f
    unfold BinaryKind.createFolded
    split
    · rename_i w cl v cr
      have hno : ¬ (k.isDivision = true ∧ cr = 0) := fun hc => h hc.1 rfl (by rw [hc.2]; rfl)
      rw [if_neg hno]
      rfl
    · rfl
  cases k with
  | udiv | sdiv | urem | srem | shl | lshr | ashr => exact hfolded _
  | _ => rfl

/-- Only a division may fail to be rebuilt. -/
theorem rebuild_isSome (he : e.isConstant = false) {kids : List Expr}
    (hlength : kids.length = e.kids.length) (hdivision : ∀ k l r l' r', e = .binary k l r →
      kids = [l', r'] → k.isDivision = true → l'.isConstant = true → r' ≠ const 0 r'.getWidth) :
    (e.rebuild kids).isSome := by
  cases e with
  | constant w v => cases he
  | notOptimized e | read a us i | extract e | zext e | sext e | not e =>
    obtain ⟨x, rfl⟩ := List.length_eq_one_iff.mp hlength
    rfl
  | concat l r =>
    obtain ⟨x, y, rfl⟩ := List.length_eq_two.mp hlength
    rfl
  | select c t f =>
    obtain ⟨x, y, z, rfl⟩ := List.length_eq_three.mp hlength
    rfl
  | binary k l r =>
    obtain ⟨x, y, rfl⟩ := List.length_eq_two.mp hlength
    exact create_isSome (hdivision k l r x y rfl rfl)

theorem runs_remember {actual : Visit Expr} (h : Runs (Faithful σ) actual) :
    Runs (Faithful σ) (remember e actual) := by
  intro visited hv
  unfold remember
  split
  · exact ⟨_, rfl⟩
  · obtain ⟨r, hr⟩ := h hv
    rw [hr]
    exact ⟨_, rfl⟩

theorem runs_visitExpr (he : e.isConstant = false) (hapt : e.Apt) {action : Visit Expr}
    (h : Runs (Faithful σ) action) : Runs (Faithful σ) (visitExpr e action) := by
  refine .ite (fun _ => .lift (rebuild_isSome he rfl ?_)) fun _ => h
  intro k l r l' r' heq hkids hk _
  subst heq
  obtain ⟨rfl, rfl⟩ : l = l' ∧ r = r' := by simpa [Expr.kids] using hkids
  exact hapt.safe.2.2.divisor hk

theorem runs_doChildren (he : e.isConstant = false)
    (hdivision : ∀ k l r, e = .binary k l r → k.isDivision = false) {kids : List (Visit Expr)}
    (h : List.Forall₂ (Evaluated σ) e.kids kids)
    (hruns : ∀ m ∈ kids, Runs (Faithful σ) m ∧ ∃ P, Returns (Faithful σ) P m) :
    Runs (Faithful σ) (doChildren e kids) := by
  refine .bind (.inTurn hruns) (.inTurn h) fun rs hrs => ?_
  refine .bind (P := fun _ => True) ?_ ?_ fun _ _ => .pure _
  · refine .ite (fun _ => .pure _) fun _ => .lift (rebuild_isSome he hrs.length_eq.symm ?_)
    intro k l r l' r' heq _ hk
    rw [hdivision k l r heq] at hk
    cases hk
  · exact .ite (fun _ => .pure trivial) fun _ => .lift fun _ _ => trivial

theorem runs_division {k : BinaryKind} {l r : Expr} (hapt : (Expr.binary k l r).Apt)
    (hk : k.isDivision = true) (hl : Evaluated σ l (visit b l)) (hr : Evaluated σ r (visit b r))
    (hlruns : Runs (Faithful σ) (visit b l)) (hrruns : Runs (Faithful σ) (visit b r)) :
    Runs (Faithful σ) (protectedDivOperation k l r (visit b l) (visit b r)) := by
  refine .bind hlruns hl fun l' _ => .bind hrruns hr fun r' _ => ?_
  refine .ite (fun _ => .lift (create_isSome fun _ _ => ?_)) fun _ => .pure _
  have hdivisor := hapt.safe.2.2.divisor hk
  unfold unlessZero
  split
  · rename_i w c
    split_ifs with hc
    · exact hdivisor
    · intro heq
      refine hc ?_
      simpa [const, Expr.getWidth] using heq
  · rename_i hno
    exact hno _ _

/-- What runs below a read. -/
abbrev RunsWrites (b : Bindings) (σ : Assignment) (us : UpdateList) : Prop :=
  ∀ a index, us.Apt a → a.Regular → Runs (Faithful σ) (evalRead b a index us)

theorem runs (hσ : b.Agrees σ) (e : Expr) : e.Apt → Runs (Faithful σ) (visit b e) := by
  have heval : ∀ e, Evaluated σ e (visit b e) := evaluated hσ
  have hwidth : ∀ {i r : Expr} {a : Array} {w : Width} {c : BitVec w}, a.Regular → i.Apt →
      i.getWidth = a.domain → (i.Apt → i.SameAs σ r) → r = .constant w c → w ≤ 64 := by
    intro i r a w c ha hi hiw hr heq
    have hrw := (hr hi).width
    rw [heq, hiw] at hrw
    have hwa : w = a.domain := hrw
    rw [hwa]
    exact ha.domain.trans (by decide)
  induction e using Expr.rec (motive_2 := RunsWrites b σ) with
  | constant w v => exact fun _ => .pure _
  | notOptimized e ih | extract e _ _ ih | zext e _ ih | sext e _ ih | not e ih =>
    intro hapt
    have hkid := hapt.kids e List.mem_cons_self
    refine runs_remember (runs_visitExpr rfl hapt (runs_doChildren rfl (by simp) (.cons (heval e) .nil) ?_))
    exact List.forall_mem_singleton.mpr ⟨ih hkid, _, heval e⟩
  | read a us i hus hi =>
    intro hapt
    have hkid := hapt.kids i List.mem_cons_self
    refine runs_remember (runs_visitExpr rfl hapt (.bind (hi hkid) (heval i) fun r hr => ?_))
    split
    · rename_i w c
      refine .ite (fun _ => hus a _ ⟨hapt.typed.1, hapt.safe.1, hapt.arrays.2.1⟩ hapt.arrays.1)
        fun hw => absurd (hwidth hapt.arrays.1 hkid hapt.typed.2.2 hr rfl) hw
    · exact runs_doChildren (e := .read a us i) rfl (by simp) (.cons (heval i) .nil)
        (List.forall_mem_singleton.mpr ⟨hi hkid, _, heval i⟩)
  | select c t f hc ht hf =>
    intro hapt
    have hkids := hapt.kids
    simp only [Expr.kids, List.forall_mem_cons] at hkids
    refine runs_remember (runs_visitExpr rfl hapt (runs_doChildren rfl (by simp)
      (.cons (heval c) (.cons (heval t) (.cons (heval f) .nil))) ?_))
    simp only [List.forall_mem_cons]
    exact ⟨⟨hc hkids.1, _, heval c⟩, ⟨ht hkids.2.1, _, heval t⟩, ⟨hf hkids.2.2.1, _, heval f⟩,
      List.forall_mem_nil _⟩
  | concat l r hl hr =>
    intro hapt
    have hkids := hapt.kids
    simp only [Expr.kids, List.forall_mem_cons] at hkids
    refine runs_remember (runs_visitExpr rfl hapt (runs_doChildren rfl (by simp)
      (.cons (heval l) (.cons (heval r) .nil)) ?_))
    simp only [List.forall_mem_cons]
    exact ⟨⟨hl hkids.1, _, heval l⟩, ⟨hr hkids.2.1, _, heval r⟩, List.forall_mem_nil _⟩
  | binary k l r hl hr =>
    intro hapt
    have hkids := hapt.kids
    simp only [Expr.kids, List.forall_mem_cons] at hkids
    refine runs_remember (runs_visitExpr rfl hapt ?_)
    split_ifs with hk
    · exact runs_division hapt hk (heval l) (heval r) (hl hkids.1) (hr hkids.2.1)
    · refine runs_doChildren (e := .binary k l r) rfl ?_ (.cons (heval l) (.cons (heval r) .nil)) ?_
      · intro k' l' r' heq
        cases heq
        exact Bool.eq_false_of_not_eq_true hk
      · simp only [List.forall_mem_cons]
        exact ⟨⟨hl hkids.1, _, heval l⟩, ⟨hr hkids.2.1, _, heval r⟩, List.forall_mem_nil _⟩
  | nil =>
    intro a index _ ha
    refine .ite (fun hc => .lift ?_) fun _ => .pure _
    have hlt : index < a.constantValues.length := ha.constant hc.1 ▸ hc.2
    rw [List.getElem?_eq_getElem hlt]
    rfl
  | cons i v next hi hv hnext =>
    intro a index hus ha
    obtain ⟨ht, hs, ho⟩ := hus
    have hia : i.Apt := ⟨ht.1, hs.1, ho.1⟩
    refine .bind (hi hia) (heval i) fun r hr => ?_
    split
    · rename_i w c
      refine .ite (fun _ => .ite (fun _ => hv ⟨ht.2.1, hs.2.1, ho.2.1⟩) fun _ =>
        hnext a index ⟨ht.2.2.2.2, hs.2.2, ho.2.2⟩ ha) fun hw =>
        absurd (hwidth ha hia ht.2.2.1 hr rfl) hw
    · exact .pure _

/-- Whatever the visitor was given before and however few bytes are bound, it returns an expression
that has the value of the given one under every assignment with the bytes. -/
theorem visit_preserves (b : Bindings) (e : Expr) (he : e.Apt) (visited : Visited)
    (hv : Cached b visited) : ∃ r visited', visit b e visited = some (r, visited') ∧
      r.WellTyped ∧ r.getWidth = e.getWidth ∧ ∀ σ, b.Agrees σ → r.value σ = e.value σ := by
  obtain ⟨⟨r, visited'⟩, hrun⟩ := runs b.agrees e he (hv.faithful b.agrees)
  have hsame : ∀ σ, b.Agrees σ → e.SameAs σ r := fun σ hσ =>
    (evaluated hσ e (hv.faithful hσ) hrun).2 he
  have h := hsame _ b.agrees
  exact ⟨r, visited', hrun, h.typed, h.width, fun σ hσ => (hsame σ hσ).value⟩

/-- Of two arrays the first is bound. -/
def firstBound : Bindings := ⟨true, fun a => if a = twoBytes then some [7, 9] else none⟩

def freeByte : Expr := .read { name := "free", size := 4 } .nil (const 2 32)

/-- The common bits of a bound byte and one that is free. -/
def boundAndFree : Expr := .binary .and (.read twoBytes .nil (const 1 32)) freeByte

theorem boundAndFree_preserved : ∃ r visited', visit firstBound boundAndFree [] =
    some (r, visited') ∧ r.WellTyped ∧ r.getWidth = 8 ∧
      ∀ σ, firstBound.Agrees σ → r.value σ = boundAndFree.value σ := by
  have hregular : ∀ name size, Array.Regular { name := name, size := size } := fun _ _ =>
    ⟨Nat.le_refl 32, fun h => absurd rfl h⟩
  refine visit_preserves firstBound boundAndFree ⟨?_, ?_, ?_⟩ [] .start
  · exact ⟨⟨trivial, trivial, rfl⟩, ⟨trivial, trivial, rfl⟩, rfl⟩
  · refine ⟨⟨trivial, trivial⟩, ⟨trivial, trivial⟩, ?_⟩
    constructor <;> simp [BinaryKind.isDivision]
  · exact ⟨⟨hregular _ _, trivial, trivial⟩, hregular _ _, trivial, trivial⟩

end

end ExprEvaluator

end Encider
