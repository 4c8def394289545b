import Encider.Expr.Visitor

/-! `findReads`: the reads of an expression, among them those in the writes below other reads, and
what of the arrays the value of the expression depends on. -/

namespace Encider

open Encider.Expr

/-- An assignment of bytes to the elements of the symbolic arrays; all other elements are zero, as
where `Assignment::evaluate` has no binding. -/
def Assignment.Bounded (σ : Assignment) : Prop :=
  ∀ (a : Array) (i : Nat), a.constantValues ≠ [] ∨ a.size ≤ i → σ a i = 0

/-- The indices and the values of the writes. -/
def UpdateList.operands : UpdateList → List Expr
  | .nil => []
  | .cons i v next => i :: v :: next.operands

mutual
/-- All reads in an expression. -/
def Expr.reads : Expr → List (Array × UpdateList × Expr)
  | .constant _ _ => []
  | .notOptimized e => e.reads
  | .read a us i => (a, us, i) :: (i.reads ++ us.reads)
  | .select c t f => c.reads ++ t.reads ++ f.reads
  | .concat l r => l.reads ++ r.reads
  | .extract e _ _ => e.reads
  | .zext e _ => e.reads
  | .sext e _ => e.reads
  | .not e => e.reads
  | .binary _ l r => l.reads ++ r.reads

def UpdateList.reads : UpdateList → List (Array × UpdateList × Expr)
  | .nil => []
  | .cons i v next => i.reads ++ v.reads ++ next.reads
end

/-- A read may give the initial value of an array element. Reads of a constant array without
writes do not count. -/
def ReadTouches (r : Array × UpdateList × Expr) (x : Array × Nat) : Prop :=
  r.1 = x.1 ∧ ¬ (r.1.constantValues ≠ [] ∧ r.2.1 = .nil) ∧
    ∀ w v, r.2.2 = .constant w v → v.toNat = x.2

def Expr.Touches (e : Expr) (x : Array × Nat) : Prop := ∃ r ∈ e.reads, ReadTouches r x

/-- Assignments that agree on what the reads may give. -/
def AgreeOn (rs : List (Array × UpdateList × Expr)) (σ τ : Assignment) : Prop :=
  ∀ r ∈ rs, ∀ x, ReadTouches r x → σ x.1 x.2 = τ x.1 x.2

theorem AgreeOn.append_left {rs ts : List (Array × UpdateList × Expr)} {σ τ : Assignment}
    (h : AgreeOn (rs ++ ts) σ τ) : AgreeOn rs σ τ := fun r hr => h r (List.mem_append_left _ hr)

theorem AgreeOn.append_right {rs ts : List (Array × UpdateList × Expr)} {σ τ : Assignment}
    (h : AgreeOn (rs ++ ts) σ τ) : AgreeOn ts σ τ := fun r hr => h r (List.mem_append_right _ hr)

/-- Writes hide the initial values, and those below them agree where they are read. -/
theorem UpdateList.contents_eq {σ τ : Assignment} {a : Array} {i : Nat} (hinit : σ a i = τ a i)
    (us : UpdateList) (h : ∀ e ∈ us.operands, e.value σ = e.value τ) :
    us.contents σ a i = us.contents τ a i := by
  induction us using UpdateList.rec (motive_1 := fun _ => True) with
  | nil => simp only [contents, Array.initial, hinit]
  | cons j v next _ _ ih =>
    have hj := h j List.mem_cons_self
    have hv := h v (List.mem_cons_of_mem _ List.mem_cons_self)
    have hrest := ih fun e he => h e (List.mem_cons_of_mem _ (List.mem_cons_of_mem _ he))
    simp only [contents, hj, hv, hrest]
  | _ => trivial

/-- The value of an expression depends on the elements it touches. -/
theorem Expr.value_congr {σ τ : Assignment} (hσ : σ.Bounded) (hτ : τ.Bounded) {e : Expr}
    (h : AgreeOn e.reads σ τ) : e.value σ = e.value τ := by
  induction e using Expr.rec (motive_2 := fun us =>
    AgreeOn us.reads σ τ → ∀ e ∈ us.operands, e.value σ = e.value τ) with
  | constant w v => rfl
  | notOptimized e ih => exact ih h
  | read a us i hus hi =>
    have hrest : AgreeOn (i.reads ++ us.reads) σ τ := fun r hr => h r (List.mem_cons_of_mem _ hr)
    have hindex := hi hrest.append_left
    have hinit : σ a (i.value σ) = τ a (i.value σ) := by
      by_cases hconst : a.constantValues ≠ [] ∧ us = .nil
      · rw [hσ a _ (Or.inl hconst.1), hτ a _ (Or.inl hconst.1)]
      · refine h _ List.mem_cons_self (a, i.value σ) ⟨rfl, hconst, ?_⟩
        rintro w v rfl
        rfl
    have hcontents := us.contents_eq hinit (hus hrest.append_right)
    simp only [value]
    rw [← hindex, hcontents]
  | select c t f hc ht hf =>
    have hct := h.append_left
    simp only [value, hc hct.append_left, ht hct.append_right, hf h.append_right]
  | concat l r hl hr => simp only [value, hl h.append_left, hr h.append_right]
  | extract e o w ih => simp only [value, ih h]
  | zext e w ih => simp only [value, ih h]
  | sext e w ih => simp only [value, ih h]
  | not e ih => simp only [value, ih h]
  | binary k l r hl hr => simp only [value, hl h.append_left, hr h.append_right]
  | nil =>
    rename_i hus e he
    exact absurd he List.not_mem_nil
  | cons i v next hi hv hnext =>
    rename_i hus e he
    have hiv := hus.append_left
    rcases List.mem_cons.mp he with rfl | he
    · exact hi hiv.append_left
    rcases List.mem_cons.mp he with rfl | he
    · exact hv hiv.append_right
    · exact hnext hus.append_right e he

/-! The loop of `findReads` -/

/-- The stack from its back, with the expressions and the writes that were seen. -/
structure ReadFinder where
  stack : List Expr
  visited : List Expr
  updates : List UpdateList := []
  results : List (Array × UpdateList × Expr) := []

namespace ReadFinder

/-- An expression is pushed unless it is constant or was seen. -/
def push (s : ReadFinder) (e : Expr) : ReadFinder :=
  if e.isConstant ∨ e ∈ s.visited then s
  else { s with visited := e :: s.visited, stack := e :: s.stack }

/-- What is done with the expression taken from the stack. -/
def turn (s : ReadFinder) : Expr → ReadFinder
  | .read a us i =>
    let s := { s with results := s.results ++ [(a, us, i)] }.push i
    if us ∈ s.updates then s else us.operands.foldl push { s with updates := us :: s.updates }
  | e => e.kids.foldl push s

def weight (s : ReadFinder) : Nat := (s.stack.map Expr.size).sum

theorem weight_push (s : ReadFinder) (e : Expr) : (s.push e).weight ≤ s.weight + e.size := by
  unfold push
  split_ifs
  · exact Nat.le_add_right _ _
  · simp [weight, Nat.add_comm]

theorem weight_foldl (es : List Expr) (s : ReadFinder) :
    (es.foldl push s).weight ≤ s.weight + (es.map Expr.size).sum := by
  induction es generalizing s with
  | nil => exact Nat.le_refl _
  | cons e es ih =>
    have hpush := s.weight_push e
    have hrest := ih (s.push e)
    simp only [List.foldl_cons, List.map_cons, List.sum_cons]
    omega

theorem operands_size (us : UpdateList) : (us.operands.map Expr.size).sum ≤ us.size := by
  induction us using UpdateList.rec (motive_1 := fun _ => True) with
  | nil => exact Nat.le_refl _
  | cons i v next _ _ ih =>
    simp only [UpdateList.operands, List.map_cons, List.sum_cons, UpdateList.size]
    omega
  | _ => trivial

theorem weight_turn (s : ReadFinder) (e : Expr) : (s.turn e).weight < s.weight + e.size := by
  have hkids := weight_foldl e.kids s
  cases e with
  | read a us i =>
    have hpush := ({ s with results := s.results ++ [(a, us, i)] } : ReadFinder).weight_push i
    have hsame : ({ s with results := s.results ++ [(a, us, i)] } : ReadFinder).weight = s.weight :=
      rfl
    have hops := operands_size us
    simp only [turn, Expr.size]
    split_ifs
    · omega
    · refine Nat.lt_of_le_of_lt (weight_foldl _ _) ?_
      have hupd : ∀ t : ReadFinder, weight { t with updates := us :: t.updates } = t.weight :=
        fun _ => rfl
      rw [hupd]
      omega
  | _ =>
    simp only [turn, kids, List.map_cons, List.map_nil, List.sum_cons, List.sum_nil,
      Expr.size] at hkids ⊢
    omega

def loop (s : ReadFinder) : ReadFinder :=
  match h : s.stack with
  | [] => s
  | top :: rest =>
    have : ({ s with stack := rest }.turn top).weight < s.weight := by
      have hturn := ({ s with stack := rest } : ReadFinder).weight_turn top
      have hweight : s.weight = ({ s with stack := rest } : ReadFinder).weight + top.size := by
        simp [weight, h, Nat.add_comm]
      omega
    loop ({ s with stack := rest }.turn top)
termination_by s.weight

/-- Constants are never looked at. -/
def Seen (s : ReadFinder) (e : Expr) : Prop := e.isConstant ∨ e ∈ s.visited

/-- What the finder may do: see expressions and push them, and add results. -/
structure Extends (s t : ReadFinder) : Prop where
  visited : s.visited ⊆ t.visited
  stack : s.stack ⊆ t.stack
  results : s.results ⊆ t.results
  pushed : ∀ e ∈ t.visited, e ∈ s.visited ∨ e ∈ t.stack

theorem Extends.refl (s : ReadFinder) : s.Extends s :=
  ⟨fun _ h => h, fun _ h => h, fun _ h => h, fun _ h => Or.inl h⟩

theorem Extends.trans {s t u : ReadFinder} (h : s.Extends t) (h' : t.Extends u) : s.Extends u where
  visited := List.Subset.trans h.visited h'.visited
  stack := List.Subset.trans h.stack h'.stack
  results := List.Subset.trans h.results h'.results
  pushed e he := by
    obtain he | he := h'.pushed e he
    · obtain he | he := h.pushed e he
      · exact Or.inl he
      · exact Or.inr (h'.stack he)
    · exact Or.inr he

theorem Seen.mono {s t : ReadFinder} {e : Expr} (h : s.Extends t) (he : s.Seen e) : t.Seen e :=
  he.imp_right (h.visited ·)

theorem extends_push (s : ReadFinder) (e : Expr) : s.Extends (s.push e) ∧ (s.push e).Seen e := by
  unfold push
  split_ifs with h
  · exact ⟨Extends.refl s, h⟩
  · refine ⟨⟨fun x hx => List.mem_cons_of_mem _ hx, fun x hx => List.mem_cons_of_mem _ hx,
      fun _ hx => hx, ?_⟩, Or.inr List.mem_cons_self⟩
    intro x hx
    obtain rfl | hx := List.mem_cons.mp hx
    · exact Or.inr List.mem_cons_self
    · exact Or.inl hx

theorem extends_foldl (es : List Expr) (s : ReadFinder) :
    s.Extends (es.foldl push s) ∧ ∀ e ∈ es, (es.foldl push s).Seen e := by
  induction es generalizing s with
  | nil => exact ⟨Extends.refl s, fun _ he => absurd he List.not_mem_nil⟩
  | cons e es ih =>
    obtain ⟨hpush, hseen⟩ := s.extends_push e
    obtain ⟨hrest, hall⟩ := ih (s.push e)
    refine ⟨hpush.trans hrest, fun x hx => ?_⟩
    obtain rfl | hx := List.mem_cons.mp hx
    · exact hseen.mono hrest
    · exact hall x hx

@[simp] theorem push_updates (s : ReadFinder) (e : Expr) : (s.push e).updates = s.updates := by
  unfold push
  split_ifs <;> rfl

@[simp] theorem push_results (s : ReadFinder) (e : Expr) : (s.push e).results = s.results := by
  unfold push
  split_ifs <;> rfl

@[simp] theorem foldl_updates (es : List Expr) (s : ReadFinder) :
    (es.foldl push s).updates = s.updates := by
  induction es generalizing s with
  | nil => rfl
  | cons e es ih => rw [List.foldl_cons, ih, push_updates]

@[simp] theorem foldl_results (es : List Expr) (s : ReadFinder) :
    (es.foldl push s).results = s.results := by
  induction es generalizing s with
  | nil => rfl
  | cons e es ih => rw [List.foldl_cons, ih, push_results]

/-- What has been done for an expression that is not on the stack any more. -/
def Expanded (s : ReadFinder) : Expr → Prop
  | .read a us i => (a, us, i) ∈ s.results ∧ s.Seen i ∧ ∀ e ∈ us.operands, s.Seen e
  | e => ∀ k ∈ e.kids, s.Seen k

theorem Expanded.mono {s t : ReadFinder} {e : Expr} (h : s.Extends t) (he : s.Expanded e) :
    t.Expanded e := by
  cases e with
  | read a us i =>
    obtain ⟨hresult, hindex, hops⟩ := he
    exact ⟨h.results hresult, hindex.mono h, fun e he => (hops e he).mono h⟩
  | _ => exact fun k hk => (he k hk).mono h

structure Closing (s : ReadFinder) : Prop where
  updates : ∀ us ∈ s.updates, ∀ e ∈ us.operands, s.Seen e
  visited : ∀ e ∈ s.visited, e ∈ s.stack ∨ s.Expanded e

/-- One turn: the expression taken is expanded, and the writes it reads through are seen. -/
theorem turn_spec {s : ReadFinder} (h : ∀ us ∈ s.updates, ∀ e ∈ us.operands, s.Seen e)
    (e : Expr) : s.Extends (s.turn e) ∧ (s.turn e).Expanded e ∧
      ∀ us ∈ (s.turn e).updates, ∀ o ∈ us.operands, (s.turn e).Seen o := by
  obtain ⟨hkids, hseen⟩ := extends_foldl e.kids s
  cases e with
  | read a us i =>
    have hadd : s.Extends { s with results := s.results ++ [(a, us, i)] } :=
      ⟨fun _ h => h, fun _ h => h, fun x hx => List.mem_append_left _ hx, fun _ h => Or.inl h⟩
    obtain ⟨hpush, hindex⟩ :=
      ({ s with results := s.results ++ [(a, us, i)] } : ReadFinder).extends_push i
    have hresult : (a, us, i) ∈
        (({ s with results := s.results ++ [(a, us, i)] } : ReadFinder).push i).results := by simp
    simp only [turn]
    split_ifs with hus
    · refine ⟨hadd.trans hpush, ⟨hresult, hindex, ?_⟩, ?_⟩
      · intro e he
        exact (h us (by simpa using hus) e he).mono (hadd.trans hpush)
      · intro vs hvs e he
        exact (h vs (by simpa using hvs) e he).mono (hadd.trans hpush)
    · generalize hs : ({ s with results := s.results ++ [(a, us, i)] } : ReadFinder).push i = t at *
      have hmark : t.Extends { t with updates := us :: t.updates } :=
        ⟨fun _ h => h, fun _ h => h, fun _ h => h, fun _ h => Or.inl h⟩
      obtain ⟨hops, hall⟩ := extends_foldl us.operands { t with updates := us :: t.updates }
      have hext := hmark.trans hops
      refine ⟨(hadd.trans hpush).trans hext, ⟨hext.results hresult, hindex.mono hext, hall⟩, ?_⟩
      intro vs hvs e he
      obtain rfl | hvs := List.mem_cons.mp (by simpa using hvs)
      · exact hall e he
      · have hold : vs ∈ s.updates := by simpa [← hs] using hvs
        exact (h vs hold e he).mono ((hadd.trans hpush).trans hext)
  | _ =>
    refine ⟨hkids, hseen, ?_⟩
    intro vs hvs e he
    exact (h vs (by simpa [turn] using hvs) e he).mono hkids

theorem Closing.turn {s : ReadFinder} {top : Expr} {rest : List Expr} (h : s.Closing)
    (hs : s.stack = top :: rest) : (ReadFinder.turn { s with stack := rest } top).Closing := by
  obtain ⟨hext, hexp, hupd⟩ := turn_spec (s := { s with stack := rest }) h.updates top
  refine ⟨hupd, fun e he => ?_⟩
  obtain he | he := hext.pushed e he
  · obtain hstack | hdone := h.visited e he
    · rw [hs] at hstack
      obtain rfl | hstack := List.mem_cons.mp hstack
      · exact Or.inr hexp
      · exact Or.inl (hext.stack hstack)
    · have hpop : ReadFinder.Expanded { s with stack := rest } e := by
        cases e <;> exact hdone
      exact Or.inr (hpop.mono hext)
  · exact Or.inl he

theorem Closing.loop {s : ReadFinder} (h : s.Closing) :
    s.loop.Closing ∧ s.loop.stack = [] ∧ s.visited ⊆ s.loop.visited := by
  induction s using ReadFinder.loop.induct with
  | case1 s hs =>
    rw [ReadFinder.loop]
    split
    · exact ⟨h, hs, fun _ he => he⟩
    · simp_all
  | case2 s top rest hs _ ih =>
    rw [ReadFinder.loop]
    split
    · simp_all
    · rename_i top' rest' hs'
      obtain ⟨rfl, rfl⟩ := List.cons.inj (hs.symm.trans hs')
      obtain ⟨hclosing, hnil, hvis⟩ := ih (h.turn hs)
      have hext := (turn_spec (s := { s with stack := rest }) h.updates top).1
      exact ⟨hclosing, hnil, List.Subset.trans hext.visited hvis⟩

/-- An empty stack leaves nothing out. -/
theorem Closing.complete {s : ReadFinder} (h : s.Closing) (hnil : s.stack = []) {e : Expr}
    (he : s.Seen e) : e.reads ⊆ s.results := by
  have hdone : ∀ e, s.Seen e → e.isConstant ∨ s.Expanded e := by
    intro e he
    refine he.imp_right fun hv => ?_
    obtain hstack | hexp := h.visited e hv
    · rw [hnil] at hstack
      exact absurd hstack List.not_mem_nil
    · exact hexp
  induction e using Expr.rec (motive_2 := fun us =>
    (∀ e ∈ us.operands, s.Seen e) → us.reads ⊆ s.results) with
  | constant w v => exact fun _ hr => absurd hr List.not_mem_nil
  | nil => exact fun _ hr => absurd hr List.not_mem_nil
  | cons i v next hi hv hnext =>
    rename_i hops
    have hi := hi (hops i List.mem_cons_self)
    have hv := hv (hops v (List.mem_cons_of_mem _ List.mem_cons_self))
    have hnext := hnext fun e he => hops e (List.mem_cons_of_mem _ (List.mem_cons_of_mem _ he))
    exact List.append_subset.mpr ⟨List.append_subset.mpr ⟨hi, hv⟩, hnext⟩
  | read a us i hus hi =>
    obtain hconst | ⟨hresult, hindex, hops⟩ := hdone _ he
    · exact absurd hconst Bool.false_ne_true
    · exact List.cons_subset.mpr ⟨hresult, List.append_subset.mpr ⟨hi hindex, hus hops⟩⟩
  | select c t f hc ht hf =>
    obtain hconst | hexp := hdone _ he
    · exact absurd hconst Bool.false_ne_true
    · have hc := hc (hexp c (by simp [kids]))
      have ht := ht (hexp t (by simp [kids]))
      have hf := hf (hexp f (by simp [kids]))
      exact List.append_subset.mpr ⟨List.append_subset.mpr ⟨hc, ht⟩, hf⟩
  | concat l r hl hr | binary _ l r hl hr =>
    obtain hconst | hexp := hdone _ he
    · exact absurd hconst Bool.false_ne_true
    · exact List.append_subset.mpr
        ⟨hl (hexp l (by simp [kids])), hr (hexp r (by simp [kids]))⟩
  | notOptimized e ih | extract e _ _ ih | zext e _ ih | sext e _ ih | not e ih =>
    obtain hconst | hexp := hdone _ he
    · exact absurd hconst Bool.false_ne_true
    · exact ih (hexp e (by simp [kids]))

/-- Nothing but reads of the expressions on the stack is added. -/
structure Within (rs : List (Array × UpdateList × Expr)) (s : ReadFinder) : Prop where
  stack : ∀ e ∈ s.stack, e.reads ⊆ rs
  results : s.results ⊆ rs

theorem Within.push {rs : List (Array × UpdateList × Expr)} {s : ReadFinder} {e : Expr}
    (h : s.Within rs) (he : e.reads ⊆ rs) : (s.push e).Within rs := by
  unfold ReadFinder.push
  split_ifs
  · exact h
  · exact ⟨fun x hx => (List.mem_cons.mp hx).elim (fun hx => hx ▸ he) (h.stack x), h.results⟩

theorem Within.foldl {rs : List (Array × UpdateList × Expr)} {es : List Expr} {s : ReadFinder}
    (h : s.Within rs) (hes : ∀ e ∈ es, e.reads ⊆ rs) : (es.foldl ReadFinder.push s).Within rs := by
  induction es generalizing s with
  | nil => exact h
  | cons e es ih =>
    exact ih (h.push (hes e List.mem_cons_self)) fun x hx => hes x (List.mem_cons_of_mem _ hx)

theorem kids_reads {e k : Expr} (hk : k ∈ e.kids) : k.reads ⊆ e.reads := by
  cases e with
  | constant w v => exact absurd hk List.not_mem_nil
  | notOptimized e | extract e _ _ | zext e _ | sext e _ | not e =>
    obtain rfl := List.mem_singleton.mp hk
    exact fun _ hr => hr
  | read a us i =>
    obtain rfl := List.mem_singleton.mp hk
    exact fun r hr => List.mem_cons_of_mem _ (List.mem_append_left _ hr)
  | select c t f =>
    intro r hr
    simp only [kids, List.mem_cons, List.not_mem_nil, or_false] at hk
    obtain rfl | rfl | rfl := hk <;> simp [Expr.reads, hr]
  | concat l r | binary _ l r =>
    intro x hx
    simp only [kids, List.mem_cons, List.not_mem_nil, or_false] at hk
    obtain rfl | rfl := hk <;> simp [Expr.reads, hx]

theorem operands_reads {us : UpdateList} {e : Expr} (he : e ∈ us.operands) :
    e.reads ⊆ us.reads := by
  induction us using UpdateList.rec (motive_1 := fun _ => True) with
  | nil => exact absurd he List.not_mem_nil
  | cons i v next _ _ ih =>
    intro r hr
    simp only [UpdateList.operands, List.mem_cons] at he
    obtain rfl | rfl | he := he
    · simp [UpdateList.reads, hr]
    · simp [UpdateList.reads, hr]
    · simp [UpdateList.reads, ih he hr]
  | _ => trivial

theorem Within.turn {rs : List (Array × UpdateList × Expr)} {s : ReadFinder} {e : Expr}
    (h : s.Within rs) (he : e.reads ⊆ rs) : (s.turn e).Within rs := by
  have hkids : ∀ k ∈ e.kids, k.reads ⊆ rs := fun k hk => List.Subset.trans (kids_reads hk) he
  cases e with
  | read a us i =>
    have hadd : ReadFinder.Within rs { s with results := s.results ++ [(a, us, i)] } := by
      refine ⟨h.stack, List.append_subset.mpr ⟨h.results, fun r hr => ?_⟩⟩
      obtain rfl := List.mem_singleton.mp hr
      exact he List.mem_cons_self
    have hpush := hadd.push (hkids i (List.mem_singleton_self i))
    have hops : ∀ o ∈ us.operands, o.reads ⊆ rs := fun o ho r hr =>
      he (List.mem_cons_of_mem _ (List.mem_append_right _ (operands_reads ho hr)))
    simp only [ReadFinder.turn]
    split_ifs
    · exact hpush
    · exact Within.foldl ⟨hpush.stack, hpush.results⟩ hops
  | _ => exact h.foldl hkids

theorem Within.loop {rs : List (Array × UpdateList × Expr)} {s : ReadFinder} (h : s.Within rs) :
    s.loop.results ⊆ rs := by
  induction s using ReadFinder.loop.induct with
  | case1 s hs =>
    rw [ReadFinder.loop]
    split
    · exact h.results
    · simp_all
  | case2 s top rest hs _ ih =>
    rw [ReadFinder.loop]
    split
    · simp_all
    · rename_i top' rest' hs'
      obtain ⟨rfl, rfl⟩ := List.cons.inj (hs.symm.trans hs')
      have hmem := h.stack
      rw [hs] at hmem
      have hrest : ReadFinder.Within rs { s with stack := rest } :=
        ⟨fun x hx => hmem x (List.mem_cons_of_mem _ hx), h.results⟩
      exact ih (hrest.turn (hmem top List.mem_cons_self))

end ReadFinder

/-- `findReads` with updates visited. -/
def findReads (e : Expr) : List (Array × UpdateList × Expr) :=
  (if e.isConstant then ⟨[], [], [], []⟩ else ⟨[e], [e], [], []⟩ : ReadFinder).loop.results

/-- `findReads` finds the reads of an expression, and those only. -/
theorem mem_findReads {e : Expr} {r : Array × UpdateList × Expr} :
    r ∈ findReads e ↔ r ∈ e.reads := by
  unfold findReads
  split_ifs with hconst
  · have hnil : e.reads = [] := by
      cases e <;> first | rfl | exact absurd hconst Bool.false_ne_true
    rw [hnil]
    refine ⟨fun hr => ?_, fun hr => absurd hr List.not_mem_nil⟩
    exact ReadFinder.Within.loop ⟨fun _ h => absurd h List.not_mem_nil, fun _ h => h⟩ hr
  · have hclosing : (⟨[e], [e], [], []⟩ : ReadFinder).Closing :=
      ⟨fun _ h => absurd h List.not_mem_nil, fun _ h => Or.inl h⟩
    obtain ⟨hclosed, hnil, hvisited⟩ := hclosing.loop
    constructor
    · intro hr
      refine ReadFinder.Within.loop ⟨?_, List.nil_subset _⟩ hr
      intro x hx
      obtain rfl := List.mem_singleton.mp hx
      exact fun _ h => h
    · intro hr
      exact hclosed.complete hnil (Or.inr (hvisited (List.mem_singleton_self e))) hr

end Encider
