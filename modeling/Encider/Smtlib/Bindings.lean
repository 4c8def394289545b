import Encider.Smtlib.Asserted

/-! The numbers of the abbreviated expressions: each belongs to one expression, and in the levels of
the `let`s they are counted up from one. -/

namespace Encider.Smtlib

section
variable {Arr : Array → Prop} {W : Width → Prop} {Q : BinaryKind → Expr → Expr → Prop}

variable (Arr W Q) in
/-- What every scan keeps: the expressions that it has met are fit to be printed, the numbers are
counted up, and a constant array in use is noted. -/
structure Kept (s : Scan) : Prop where
  nodup : s.usedArrays.Nodup
  arrays : ∀ a ∈ s.usedArrays, Arr a
  seen : ∀ e ∈ s.seenExprs, Fit Arr W Q e
  keys : ∀ b ∈ s.bindings, Fit Arr W Q b.1
  numbers : ∀ e i, s.bindings.lookup e = some i → 0 < i ∧ i ≤ s.bindings.length
  injective : ∀ e e' i, s.bindings.lookup e = some i → s.bindings.lookup e' = some i → e = e'
  constant : ∀ a ∈ s.usedArrays, a.constantValues ≠ [] → s.haveConstantArray = true

variable (Arr W Q) in
def Keeps (f : Scan → Scan) : Prop := ∀ s, Kept Arr W Q s → Kept Arr W Q (f s)

theorem lookup_snoc (m : BindingMap) (e x : Expr) (i : ℤ) :
    (m ++ [(e, i)]).lookup x =
      (m.lookup x).or (if x = e then some i else none) := by
  rw [List.lookup_append]
  congr 1
  by_cases hx : x = e
  · simp [hx, List.lookup]
  · have : (x == e) = false := by simpa using hx
    simp [List.lookup, this, hx]

/-- A new number is larger than all others. -/
theorem Kept.number {s : Scan} (h : Kept Arr W Q s) {e : Expr} (he : e ∈ s.seenExprs)
    (hnone : s.bindings.lookup e = none) :
    Kept Arr W Q { s with bindings := s.bindings ++ [(e, (s.bindings.length : ℤ) + 1)] } := by
  have hcases : ∀ x i, (s.bindings ++ [(e, (s.bindings.length : ℤ) + 1)]).lookup x = some i →
      s.bindings.lookup x = some i ∨ x = e ∧ i = (s.bindings.length : ℤ) + 1 := by
    intro x i hx
    rw [lookup_snoc] at hx
    cases hl : s.bindings.lookup x with
    | some j =>
      rw [hl] at hx
      exact .inl hx
    | none =>
      rw [hl, Option.none_or] at hx
      split at hx
      · rename_i hxe
        exact .inr ⟨hxe, (Option.some.inj hx).symm⟩
      · cases hx
  constructor
  · exact h.nodup
  · exact h.arrays
  · exact h.seen
  · intro b hb
    obtain hb | hb := List.mem_append.mp hb
    · exact h.keys b hb
    · rw [List.mem_singleton.mp hb]
      exact h.seen e he
  · intro x i hx
    simp only [List.length_append, List.length_singleton]
    obtain hx | ⟨-, rfl⟩ := hcases x i hx
    · have := h.numbers x i hx
      omega
    · omega
  · intro x x' i hx hx'
    obtain hx | ⟨rfl, hi⟩ := hcases x i hx
    · obtain hx' | ⟨-, rfl⟩ := hcases x' i hx'
      · exact h.injective x x' i hx hx'
      · have := h.numbers x _ hx
        omega
    · obtain hx' | ⟨rfl, -⟩ := hcases x' i hx'
      · have := h.numbers x' i hx'
        omega
      · rfl
  · exact h.constant

theorem Keeps.visit {e : Expr} {f : Scan → Scan} (he : Fit Arr W Q e) (h : Keeps Arr W Q f) :
    Keeps Arr W Q fun s => s.visit e f := by
  intro s hs
  simp only [Scan.visit]
  split
  · rename_i hmem
    split
    · exact hs
    · rename_i hnone
      exact hs.number hmem (Option.not_isSome_iff_eq_none.mp hnone)
  · refine h _ ⟨hs.nodup, hs.arrays, ?_, hs.keys, hs.numbers, hs.injective, hs.constant⟩
    intro x hx
    obtain rfl | hx := List.mem_cons.mp hx
    · exact he
    · exact hs.seen x hx

theorem Keeps.use {a : Array} {f : Scan → Scan} (ha : Arr a) (h : Keeps Arr W Q f) :
    Keeps Arr W Q fun s => s.use a f := by
  intro s hs
  simp only [Scan.use]
  split
  · exact hs
  · rename_i hnew
    refine h _ ⟨List.nodup_cons.mpr ⟨hnew, hs.nodup⟩, ?_, hs.seen, hs.keys, hs.numbers,
      hs.injective, ?_⟩
    · intro a' ha'
      obtain rfl | ha' := List.mem_cons.mp ha'
      · exact ha
      · exact hs.arrays a' ha'
    · intro a' ha' hconst
      obtain rfl | ha' := List.mem_cons.mp ha'
      · simp [hconst]
      · simp [hs.constant a' ha' hconst]

theorem Keeps.comp {f g : Scan → Scan} (hf : Keeps Arr W Q f) (hg : Keeps Arr W Q g) :
    Keeps Arr W Q fun s => g (f s) := fun s hs => hg _ (hf s hs)

/-- By induction on the expression, as its scan goes. -/
theorem scan_keeps (e : Expr) : Fit Arr W Q e → Keeps Arr W Q (scan e) := by
  induction e using Expr.rec (motive_2 := fun us =>
    ∀ a, FitUpdates Arr W Q a us → Keeps Arr W Q (scanUpdates us)) with
  | constant w v => exact fun _ s hs => hs
  | notOptimized e ih =>
    intro h
    exact Keeps.visit h (ih ⟨h.typed, h.within, h.all⟩)
  | read a us i hus hi =>
    intro h
    exact Keeps.visit h ((Keeps.use h.within.1 (hus a ⟨h.typed.1, h.within.2.2.1, h.all.1⟩)).comp
      (hi ⟨h.typed.2.1, h.within.2.2.2, h.all.2⟩))
  | select c t f hc ht hf =>
    intro h
    exact Keeps.visit h (((hc ⟨h.typed.1, h.within.1, h.all.1⟩).comp
      (ht ⟨h.typed.2.1, h.within.2.1, h.all.2.1⟩)).comp
      (hf ⟨h.typed.2.2.1, h.within.2.2, h.all.2.2⟩))
  | concat l r hl hr =>
    intro h
    exact Keeps.visit h ((hl ⟨h.typed.1, h.within.1, h.all.1⟩).comp
      (hr ⟨h.typed.2, h.within.2.1, h.all.2⟩))
  | extract e low w ih =>
    intro h
    exact Keeps.visit h (ih ⟨h.typed.1, h.within.1, h.all⟩)
  | zext e w ih =>
    intro h
    exact Keeps.visit h (ih ⟨h.typed.1, h.within.1, h.all⟩)
  | sext e w ih =>
    intro h
    exact Keeps.visit h (ih ⟨h.typed.1, h.within.1, h.all⟩)
  | not e ih =>
    intro h
    exact Keeps.visit h (ih ⟨h.typed, h.within, h.all⟩)
  | binary k l r hl hr =>
    intro h
    exact Keeps.visit h ((hl ⟨h.typed.1, h.within.1, h.all.1⟩).comp
      (hr ⟨h.typed.2.1, h.within.2, h.all.2.1⟩))
  | nil a _ => exact fun s hs => hs
  | cons i v next hi hv hnext a h =>
    exact ((hi ⟨h.typed.1, h.within.1, h.all.1⟩).comp
      (hv ⟨h.typed.2.1, h.within.2.1, h.all.2.1⟩)).comp
      (hnext a ⟨h.typed.2.2.2.2, h.within.2.2, h.all.2.2⟩)

theorem scanAll_kept {q : Query} (hq : ∀ e ∈ q.roots, Fit Arr W Q e) :
    Kept Arr W Q (scanAll q) := by
  have hrun : ∀ (es : List Expr) (s : Scan), (∀ e ∈ es, Fit Arr W Q e) → Kept Arr W Q s →
      Kept Arr W Q (es.foldl (fun s e => scan e s) s) := by
    intro es
    induction es with
    | nil => exact fun s _ hs => hs
    | cons e es ih =>
      intro s hes hs
      exact ih _ (fun x hx => hes x (List.mem_cons_of_mem e hx))
        (scan_keeps e (hes e List.mem_cons_self) s hs)
  exact hrun q.roots {} hq ⟨List.nodup_nil, nofun, nofun, nofun, nofun, nofun, nofun⟩

end

theorem mem_numberFrom {c : ℕ} {es : List Expr} {e : Expr} {i : ℤ}
    (h : (e, i) ∈ numberFrom c es) : ∃ k : ℕ, i = c + k ∧ es[k]? = some e := by
  induction es generalizing c with
  | nil => cases h
  | cons x es ih =>
    obtain h | h := List.mem_cons.mp h
    · cases h
      exact ⟨0, by simp, rfl⟩
    · obtain ⟨k, hi, hk⟩ := ih h
      exact ⟨k + 1, by push_cast at hi ⊢; omega, hk⟩

theorem numberFrom_append (c : ℕ) (es ts : List Expr) :
    numberFrom c (es ++ ts) = numberFrom c es ++ numberFrom (c + es.length) ts := by
  induction es generalizing c with
  | nil => simp [numberFrom]
  | cons e es ih =>
    simp only [List.cons_append, numberFrom, ih, List.length_cons]
    rw [Nat.add_right_comm, Nat.add_assoc]

theorem nodup_numberFrom (c : ℕ) (es : List Expr) :
    ((numberFrom c es).map Prod.snd).Nodup := by
  induction es generalizing c with
  | nil => exact List.nodup_nil
  | cons e es ih =>
    refine List.nodup_cons.mpr ⟨?_, ih (c + 1)⟩
    intro hmem
    obtain ⟨⟨x, i⟩, hx, hi⟩ := List.mem_map.mp hmem
    obtain ⟨k, hk, -⟩ := mem_numberFrom hx
    simp only at hi
    push_cast at hk
    omega

theorem release_keys (w : Waiting) (es : List Expr) :
    (∀ e ∈ (w.release es).1.map Prod.fst, e ∈ w.map Prod.fst) ∧
      ∀ e ∈ (w.release es).2, e ∈ w.map Prod.fst := by
  induction es generalizing w with
  | nil => exact ⟨fun _ h => h, nofun⟩
  | cons x es ih =>
    have hkeys : ∀ p : Expr × List Expr → Bool, ∀ e ∈ ((w.erase x).filter p).map Prod.fst,
        e ∈ w.map Prod.fst := by
      intro p e he
      obtain ⟨d, hd, rfl⟩ := List.mem_map.mp he
      obtain ⟨d', hd', rfl⟩ := List.mem_map.mp (List.mem_of_mem_filter hd)
      exact List.mem_map.mpr ⟨d', hd', rfl⟩
    obtain ⟨h1, h2⟩ := ih ((w.erase x).filter fun d => !d.2.isEmpty)
    constructor
    · intro e he
      exact hkeys _ e (h1 e he)
    · intro e he
      obtain he | he := List.mem_append.mp he
      · exact hkeys _ e he
      · exact hkeys _ e (h2 e he)

/-- The levels number one list of expressions, all of which had a number before. -/
theorem levels_numbers (w : Waiting) (ready : List Expr) (c : ℕ) :
    ∃ es, (levels w ready c).flatten = numberFrom c es ∧
      ∀ e ∈ es, e ∈ ready ∨ e ∈ w.map Prod.fst := by
  induction w, ready, c using levels.induct with
  | case1 w ready c next ih =>
    have hkeys := release_keys w ready
    rw [levels]
    by_cases hnext : next.2 = []
    · refine ⟨ready, ?_, fun e he => .inl he⟩
      rw [if_pos hnext]
      simp
    · obtain ⟨es, hes, hmem⟩ := ih hnext
      refine ⟨ready ++ es, ?_, ?_⟩
      · rw [if_neg hnext, List.flatten_cons, hes, numberFrom_append]
      · intro e he
        obtain he | he := List.mem_append.mp he
        · exact .inl he
        · obtain he | he := hmem e he
          · exact .inr (hkeys.2 e he)
          · exact .inr (hkeys.1 e he)

theorem mem_inOrder {before : Expr → Expr → Bool} {m : BindingMap} {b : Expr × ℤ} :
    b ∈ inOrder before m ↔ b ∈ m := (List.perm_insertionSort _ m).mem_iff

theorem scanBindingExprDeps_numbers (before : Expr → Expr → Bool) (bindings : BindingMap) :
    ∃ es, (scanBindingExprDeps before bindings).flatten = numberFrom 1 es ∧
      ∀ e ∈ es, e ∈ bindings.map Prod.fst := by
  unfold scanBindingExprDeps
  split
  · exact ⟨[], rfl, nofun⟩
  · obtain ⟨es, hes, hmem⟩ := levels_numbers _ _ 1
    refine ⟨es, hes, ?_⟩
    have hkeys : ∀ p : Expr × List Expr → Bool, ∀ e ∈ (((inOrder before bindings).map fun b =>
        (b.1, (usesSubExpr bindings b.1).dedup)).filter p).map Prod.fst,
        e ∈ bindings.map Prod.fst := by
      intro p e he
      obtain ⟨d, hd, rfl⟩ := List.mem_map.mp he
      obtain ⟨b, hb, rfl⟩ := List.mem_map.mp (List.mem_of_mem_filter hd)
      exact List.mem_map_of_mem (mem_inOrder.mp hb)
    intro e he
    obtain he | he := hmem e he
    · exact hkeys _ e he
    · exact hkeys _ e he

/-- The number of an abbreviated expression, in the `let`s or in the map. -/
def Query.Numbered (before : Expr → Expr → Bool) (o : Options) (q : Query) (e : Expr) (i : ℤ) :
    Prop :=
  match o.abbrMode with
  | .abbrNone => False
  | .abbrLet => ∃ level ∈ q.orderedBindings before o, (e, i) ∈ level
  | .abbrNamed => (scanAll q).bindings.lookup e = some i

end Encider.Smtlib
