import Encider.Expr.Visitor

/-! Rebuilding an expression from kids of the same meaning. -/

namespace Encider

open Encider.Expr

/-- No boolean is shifted arithmetically, and no divisor has the value zero. -/
def BinaryKind.Defined (σ : Assignment) (k : BinaryKind) (l r : Expr) : Prop :=
  (k = .ashr → l.getWidth ≠ 1) ∧ (k.isDivision = true → r.value σ ≠ 0)

def Expr.Defined (σ : Assignment) (e : Expr) : Prop := e.All (BinaryKind.Defined σ)

theorem BinaryKind.defined_regular (σ : Assignment) : Regular (BinaryKind.Defined σ) where
  plain k l r h := by
    cases k with
    | ashr | udiv | sdiv | urem | srem => cases h
    | _ => exact ⟨nofun, nofun⟩
  add _ _ _ := ⟨nofun, nofun⟩
  sub _ _ _ := ⟨nofun, nofun⟩

theorem true_regular : Regular fun _ _ _ => True := ⟨by simp, by simp, by simp⟩

section
variable {σ : Assignment} {e l r : Expr} {k : BinaryKind}

theorem Expr.all_true (e : Expr) : e.All fun _ _ _ => True := by
  induction e using Expr.rec (motive_2 := fun us => us.All fun _ _ _ => True) with
  | _ => simp_all [Expr.All, UpdateList.All]

theorem Expr.tame_true (e : Expr) : e.Tame (fun _ _ _ => True) e.weight :=
  ⟨e.all_true, Nat.le_refl _⟩

theorem BinaryKind.weight_pos (k : BinaryKind) : 1 ≤ k.weight := by
  cases k <;> decide

theorem Expr.weight_nonconstant (h : e.isConstant = false) : 1 < e.weight := by
  cases e with
  | constant w v => cases h
  | read a us i =>
    have := i.weight_pos
    rw [Expr.weight]
    omega
  | notOptimized e | extract e | zext e | sext e | not e =>
    have := e.weight_pos
    rw [Expr.weight]
    omega
  | select c t f =>
    have := c.weight_pos
    rw [Expr.weight]
    omega
  | concat l r | binary _ l r =>
    have := l.weight_pos
    have := r.weight_pos
    rw [Expr.weight]
    omega

theorem Expr.Defined.noZeroDivisor (h : e.Defined σ) : e.NoZeroDivisor σ := by
  unfold Expr.Defined at h
  induction e using Expr.rec (motive_2 := fun us =>
    us.All (BinaryKind.Defined σ) → us.NoZeroDivisor σ) with
  | _ => simp_all [Expr.All, UpdateList.All, Expr.NoZeroDivisor, UpdateList.NoZeroDivisor,
      BinaryKind.Defined]

theorem BinaryKind.Defined.congr {l' r' : Expr} (h : k.Defined σ l r)
    (hw : l'.getWidth = l.getWidth) (hv : r'.value σ = r.value σ) : k.Defined σ l' r' := by
  unfold BinaryKind.Defined
  rw [hw, hv]
  exact h

theorem BinaryKind.Defined.not_overshifts (h : k.Defined σ l r) :
    ¬ (ConstructorCall.binary k l r).Overshifts := by
  intro hs
  unfold ConstructorCall.Overshifts at hs
  split at hs
  · rename_i heq
    cases heq
    exact h.1 rfl hs.1
  · exact hs

theorem BinaryKind.Defined.not_dividesByZero (h : k.Defined σ l r) :
    ¬ (ConstructorCall.binary k l r).DividesByZero := by
  intro hz
  refine h.2 hz.1 ?_
  rw [hz.2.2, const_value, Nat.zero_mod]

/-- Whatever the constructor returns is well typed and of the width of the operation. -/
theorem BinaryKind.create_typed (h : (binary k l r).WellTyped) (hc : k.create l r = some e) :
    e.WellTyped ∧ e.getWidth = (binary k l r).getWidth := by
  by_cases hs : (ConstructorCall.binary k l r).Overshifts
  · obtain ⟨rfl, hcreate⟩ := ConstructorCall.create_of_overshifts hs
    cases hcreate.symm.trans hc
    exact ⟨h.1, rfl⟩
  · by_cases hz : (ConstructorCall.binary k l r).DividesByZero
    · cases (ConstructorCall.create_of_dividesByZero hz).symm.trans hc
    · obtain ⟨x, hx, hsim⟩ := BinaryKind.create_simplifies h hs hz
      cases hx.symm.trans hc
      exact ⟨hsim.typed, hsim.width⟩

end

/-- What a constructor makes of an expression: of the same width, no heavier, and of the same
value where that is defined. -/
structure Expr.Recreates (u e : Expr) : Prop where
  typed : e.WellTyped
  width : e.getWidth = u.getWidth
  weight : e.weight ≤ u.weight
  defined : ∀ {σ}, u.Defined σ → e.Defined σ
  value : ∀ {σ}, u.Defined σ → e.value σ = u.value σ

namespace Expr.Recreates

variable {u e l r : Expr}

theorem refl (h : u.WellTyped) : u.Recreates u := ⟨h, rfl, Nat.le_refl _, id, fun _ => rfl⟩

theorem of_means (hm : ∀ σ, e.Means σ u.getWidth (u.value σ))
    (ht : ∀ {Q}, Regular Q → u.All Q → e.Tame Q u.weight) : u.Recreates e where
  typed := (hm fun _ _ => 0).typed
  width := (hm fun _ _ => 0).width
  weight := (ht true_regular u.all_true).weight
  defined h := (ht (BinaryKind.defined_regular _) h).all
  value _ := (hm _).value

theorem binary {k : BinaryKind} (h : (Expr.binary k l r).WellTyped) (hc : k.create l r = some e) :
    (Expr.binary k l r).Recreates e := by
  obtain ⟨ht, hw⟩ := BinaryKind.create_typed h hc
  refine ⟨ht, hw, ?_, ?_, ?_⟩
  · exact (BinaryKind.create_tame true_regular hc l.tame_true r.tame_true trivial).weight
  · intro σ hd
    exact (BinaryKind.create_tame (BinaryKind.defined_regular σ) hc (Expr.All.tame hd.1)
      (Expr.All.tame hd.2.1) hd.2.2).all
  · intro σ hd
    obtain ⟨x, hx, hsim⟩ :=
      BinaryKind.create_simplifies h hd.2.2.not_overshifts hd.2.2.not_dividesByZero
    cases hx.symm.trans hc
    exact hsim.value σ (Expr.Defined.noZeroDivisor hd)

theorem rebuild (h : u.WellTyped) (hc : u.rebuild u.kids = some e) : u.Recreates e := by
  cases u with
  | constant w c => cases hc
  | notOptimized s =>
    cases hc
    exact refl h
  | read a us i =>
    cases hc
    refine of_means (fun σ => ?_) fun _ hall => ReadExpr.create_tame a hall.1 (Expr.All.tame hall.2)
    rw [Expr.value]
    exact ReadExpr.create_means h.2.1 h.2.2 h.1
  | select c t f =>
    cases hc
    exact of_means (fun σ => SelectExpr.create_means σ h) fun hQ hall =>
      SelectExpr.create_tame hQ (Expr.All.tame hall.1) (Expr.All.tame hall.2.1)
        (Expr.All.tame hall.2.2)
  | concat l r =>
    cases hc
    exact of_means (fun σ => ConcatExpr.create_means σ h.1 h.2) fun _ hall =>
      ConcatExpr.create_tame (Expr.All.tame hall.1) (Expr.All.tame hall.2)
  | extract s off w =>
    cases hc
    refine of_means (fun σ => ?_) fun _ hall => ExtractExpr.create_tame s off w hall
    rw [Expr.value]
    exact ExtractExpr.create_correct σ s off w h.1 h.2.1 h.2.2
  | zext s w =>
    cases hc
    exact of_means (fun σ => ZExtExpr.create_means σ h.1 fun hw => absurd h.2 (Nat.not_le.mpr hw))
      fun _ hall => ZExtExpr.create_tame (Expr.All.tame (e := s) hall) w
  | sext s w =>
    cases hc
    exact of_means (fun σ => SExtExpr.create_means σ h.1 fun hw => absurd h.2 (Nat.not_le.mpr hw))
      fun _ hall => SExtExpr.create_tame (Expr.All.tame (e := s) hall) w
  | not s =>
    cases hc
    exact of_means (fun σ => NotExpr.create_means σ h) fun _ hall =>
      NotExpr.create_tame (Expr.All.tame hall)
  | binary k l r => exact binary h hc

end Expr.Recreates

/-- What an expression is rewritten to: lighter if not the same, and under some assignments of the
same value. -/
structure Expr.Reduces (A : Assignment → Prop) (e r : Expr) : Prop where
  typed : r.WellTyped
  width : r.getWidth = e.getWidth
  weight : r = e ∨ r.weight < e.weight
  defined : ∀ σ, A σ → e.Defined σ → r.Defined σ
  value : ∀ σ, A σ → e.Defined σ → r.value σ = e.value σ

namespace Expr.Reduces

variable {A : Assignment → Prop} {a b c d e r : Expr}

theorem refl (h : e.WellTyped) : e.Reduces A e := ⟨h, rfl, .inl rfl, fun _ _ => id, fun _ _ _ => rfl⟩

theorem weight_le (h : e.Reduces A r) : r.weight ≤ e.weight := by
  rcases h.weight with rfl | hlt
  · exact Nat.le_refl _
  · exact hlt.le

theorem trans (h : a.Reduces A b) (h' : b.Reduces A c) : a.Reduces A c where
  typed := h'.typed
  width := h'.width.trans h.width
  weight := by
    rcases h.weight with rfl | hlt
    · exact h'.weight
    · exact .inr (h'.weight_le.trans_lt hlt)
  defined σ hA hd := h'.defined σ hA (h.defined σ hA hd)
  value σ hA hd := (h'.value σ hA (h.defined σ hA hd)).trans (h.value σ hA hd)

/-- A constant in place of an expression that has its value. -/
theorem constant (hr : r.WellTyped) (hc : r.isConstant = true) (he : e.isConstant = false)
    (hw : r.getWidth = e.getWidth) (hv : ∀ σ, A σ → e.Defined σ → r.value σ = e.value σ) :
    e.Reduces A r := by
  cases r with
  | constant w v => exact ⟨hr, hw, .inr (weight_nonconstant he), fun _ _ _ => trivial, hv⟩
  | _ => cases hc

/-- A constructor applied to kids that are reduced, one of them truly. -/
theorem recreate {u : Expr} (hr : u.Recreates r) (hw : u.getWidth = e.getWidth)
    (hlt : u.weight < e.weight)
    (hu : ∀ σ, A σ → e.Defined σ → u.Defined σ ∧ u.value σ = e.value σ) :
    e.Reduces A r ∧ r.weight < e.weight where
  left := {
    typed := hr.typed
    width := hr.width.trans hw
    weight := .inr (hr.weight.trans_lt hlt)
    defined := fun σ hA hd => hr.defined (hu σ hA hd).1
    value := fun σ hA hd => (hr.value (hu σ hA hd).1).trans (hu σ hA hd).2 }
  right := hr.weight.trans_lt hlt

theorem all_of_typed {ks rs : List Expr} (ht : ∀ k ∈ ks, k.WellTyped)
    (h : List.Forall₂ (fun k r => k.WellTyped → k.Reduces A r) ks rs) :
    List.Forall₂ (Expr.Reduces A) ks rs := by
  induction h with
  | nil => exact .nil
  | cons h _ ih =>
    rw [List.forall_mem_cons] at ht
    exact .cons (h ht.1) (ih ht.2)

/-- Kids that are reduced, one of them truly, are lighter in all. -/
theorem kids_lighter {ks rs : List Expr} (h : List.Forall₂ (Expr.Reduces A) ks rs)
    (hne : rs ≠ ks) : (rs.map Expr.weight).sum < (ks.map Expr.weight).sum := by
  induction h with
  | nil => exact absurd rfl hne
  | @cons k r ks rs h _ ih =>
    rw [List.map_cons, List.sum_cons, List.map_cons, List.sum_cons]
    have hle := h.weight_le
    by_cases hrest : rs = ks
    · rw [hrest] at hne ⊢
      rcases h.weight with rfl | hlt
      · exact absurd rfl hne
      · omega
    · have := ih hrest
      omega

end Expr.Reduces

theorem Expr.WellTyped.kids {e : Expr} (h : e.WellTyped) : ∀ k ∈ e.kids, k.WellTyped := by
  cases e with
  | constant w v => nofun
  | notOptimized e | not e =>
    intro k hk
    cases List.mem_singleton.mp hk
    exact h
  | read a us i => simpa [Expr.kids] using h.2.1
  | extract e | zext e | sext e => simpa [Expr.kids] using h.1
  | select c t f => simpa [Expr.kids] using ⟨h.1, h.2.1, h.2.2.1⟩
  | concat l r => simpa [Expr.kids] using ⟨h.1, h.2⟩
  | binary k l r => simpa [Expr.kids] using ⟨h.1, h.2.1⟩

/-- An expression rebuilt from reduced kids is reduced, and lighter. -/
theorem Expr.Reduces.rebuild {A : Assignment → Prop} {e r : Expr} {kids : List Expr}
    (he : e.WellTyped) (hk : List.Forall₂ (Expr.Reduces A) e.kids kids) (hne : kids ≠ e.kids)
    (hb : e.rebuild kids = some r) : e.Reduces A r ∧ r.weight < e.weight := by
  have hsum := kids_lighter hk hne
  cases e with
  | constant w v =>
    cases hk
    exact absurd rfl hne
  | notOptimized e =>
    obtain _ | ⟨h, _ | _⟩ := hk
    refine recreate (u := .notOptimized _) (.rebuild h.typed hb) h.width ?_ ?_
    · simp only [Expr.kids, List.map_cons, List.map_nil, List.sum_cons, List.sum_nil] at hsum
      simp only [Expr.weight]
      omega
    · intro σ hA hd
      refine ⟨h.defined σ hA hd, ?_⟩
      simp only [Expr.value]
      exact h.value σ hA hd
  | read a us i =>
    obtain _ | ⟨h, _ | _⟩ := hk
    refine recreate (u := .read a us _) (.rebuild ⟨he.1, h.typed, h.width.trans he.2.2⟩ hb) rfl ?_ ?_
    · simp only [Expr.kids, List.map_cons, List.map_nil, List.sum_cons, List.sum_nil] at hsum
      simp only [Expr.weight]
      omega
    · intro σ hA hd
      refine ⟨⟨hd.1, h.defined σ hA hd.2⟩, ?_⟩
      simp only [Expr.value, h.value σ hA hd.2]
  | select c t f =>
    obtain _ | ⟨hc, _ | ⟨ht, _ | ⟨hf, _ | _⟩⟩⟩ := hk
    obtain ⟨-, -, -, hcw, htf⟩ := he
    refine recreate (u := .select _ _ _) (.rebuild ⟨hc.typed, ht.typed, hf.typed,
      hc.width.trans hcw, (ht.width.trans htf).trans hf.width.symm⟩ hb) ht.width ?_ ?_
    · simp only [Expr.kids, List.map_cons, List.map_nil, List.sum_cons, List.sum_nil] at hsum
      simp only [Expr.weight]
      omega
    · intro σ hA hd
      refine ⟨⟨hc.defined σ hA hd.1, ht.defined σ hA hd.2.1, hf.defined σ hA hd.2.2⟩, ?_⟩
      simp only [Expr.value, hc.value σ hA hd.1, ht.value σ hA hd.2.1, hf.value σ hA hd.2.2, ht.width]
  | concat l r =>
    obtain _ | ⟨hl, _ | ⟨hr, _ | _⟩⟩ := hk
    refine recreate (u := .concat _ _) (.rebuild ⟨hl.typed, hr.typed⟩ hb)
      (congrArg₂ (· + ·) hl.width hr.width) ?_ ?_
    · simp only [Expr.kids, List.map_cons, List.map_nil, List.sum_cons, List.sum_nil] at hsum
      simp only [Expr.weight]
      omega
    · intro σ hA hd
      refine ⟨⟨hl.defined σ hA hd.1, hr.defined σ hA hd.2⟩, ?_⟩
      simp only [Expr.value, hl.value σ hA hd.1, hr.value σ hA hd.2, hr.width]
  | extract e off w =>
    obtain _ | ⟨h, _ | _⟩ := hk
    refine recreate (u := .extract _ off w)
      (.rebuild ⟨h.typed, he.2.1, h.width.symm ▸ he.2.2⟩ hb) rfl ?_ ?_
    · simp only [Expr.kids, List.map_cons, List.map_nil, List.sum_cons, List.sum_nil] at hsum
      simp only [Expr.weight]
      omega
    · intro σ hA hd
      refine ⟨h.defined σ hA hd, ?_⟩
      simp only [Expr.value, h.value σ hA hd]
  | zext e w =>
    obtain _ | ⟨h, _ | _⟩ := hk
    refine recreate (u := .zext _ w) (.rebuild ⟨h.typed, h.width.symm ▸ he.2⟩ hb) rfl ?_ ?_
    · simp only [Expr.kids, List.map_cons, List.map_nil, List.sum_cons, List.sum_nil] at hsum
      simp only [Expr.weight]
      omega
    · intro σ hA hd
      refine ⟨h.defined σ hA hd, ?_⟩
      simp only [Expr.value, h.value σ hA hd]
  | sext e w =>
    obtain _ | ⟨h, _ | _⟩ := hk
    refine recreate (u := .sext _ w) (.rebuild ⟨h.typed, h.width.symm ▸ he.2⟩ hb) rfl ?_ ?_
    · simp only [Expr.kids, List.map_cons, List.map_nil, List.sum_cons, List.sum_nil] at hsum
      simp only [Expr.weight]
      omega
    · intro σ hA hd
      refine ⟨h.defined σ hA hd, ?_⟩
      simp only [Expr.value, h.value σ hA hd]
      rw [h.width]
  | not e =>
    obtain _ | ⟨h, _ | _⟩ := hk
    refine recreate (u := .not _) (.rebuild h.typed hb) h.width ?_ ?_
    · simp only [Expr.kids, List.map_cons, List.map_nil, List.sum_cons, List.sum_nil] at hsum
      simp only [Expr.weight]
      omega
    · intro σ hA hd
      refine ⟨h.defined σ hA hd, ?_⟩
      simp only [Expr.value, h.value σ hA hd]
      rw [h.width]
  | binary k l r =>
    obtain _ | ⟨hl, _ | ⟨hr, _ | _⟩⟩ := hk
    have hw := (hl.width.trans he.2.2).trans hr.width.symm
    refine recreate (u := .binary k _ _) (.rebuild ⟨hl.typed, hr.typed, hw⟩ hb) ?_ ?_ ?_
    · simp only [Expr.getWidth, hl.width]
    · simp only [Expr.kids, List.map_cons, List.map_nil, List.sum_cons, List.sum_nil] at hsum
      simp only [Expr.weight]
      omega
    · intro σ hA hd
      obtain ⟨hdl, hdr, hk⟩ := hd
      refine ⟨⟨hl.defined σ hA hdl, hr.defined σ hA hdr, ?_⟩, ?_⟩
      · exact hk.congr hl.width (hr.value σ hA hdr)
      · simp only [Expr.value, hl.value σ hA hdl, hr.value σ hA hdr]
        rw [hl.width]

theorem Expr.Defined.kids {σ : Assignment} {e : Expr} (h : e.Defined σ) :
    ∀ k ∈ e.kids, k.Defined σ := by
  unfold Expr.Defined at *
  cases e with
  | constant w v => nofun
  | notOptimized e | not e | extract e | zext e | sext e =>
    intro k hk
    cases List.mem_singleton.mp hk
    exact h
  | read a us i => simpa [Expr.kids] using h.2
  | select c t f => simpa [Expr.kids] using ⟨h.1, h.2.1, h.2.2⟩
  | concat l r => simpa [Expr.kids] using ⟨h.1, h.2⟩
  | binary k l r => simpa [Expr.kids] using ⟨h.1, h.2.1⟩

theorem Expr.kids_lt {e k : Expr} (h : k ∈ e.kids) : k.weight < e.weight := by
  have hpos := k.weight_pos
  cases e with
  | constant w v => cases h
  | notOptimized e | not e | extract e | zext e | sext e | read a us i =>
    cases List.mem_singleton.mp h
    rw [Expr.weight]
    omega
  | select c t f =>
    simp only [Expr.kids, List.mem_cons, List.not_mem_nil, or_false] at h
    rw [Expr.weight]
    rcases h with rfl | rfl | rfl <;> omega
  | concat l r =>
    simp only [Expr.kids, List.mem_cons, List.not_mem_nil, or_false] at h
    rw [Expr.weight]
    rcases h with rfl | rfl <;> omega
  | binary b l r =>
    simp only [Expr.kids, List.mem_cons, List.not_mem_nil, or_false] at h
    rw [Expr.weight]
    have := b.weight_pos
    rcases h with rfl | rfl <;> omega

/-- Where it is defined, an expression can be rebuilt. -/
theorem Expr.Reduces.rebuild_some {A : Assignment → Prop} {e : Expr} {kids : List Expr}
    {σ : Assignment} (hA : A σ) (he : e.WellTyped) (hd : e.Defined σ)
    (hk : List.Forall₂ (Expr.Reduces A) e.kids kids) (hne : kids ≠ e.kids) :
    ∃ r, e.rebuild kids = some r := by
  cases e with
  | constant w v =>
    cases hk
    exact absurd rfl hne
  | notOptimized e | not e | extract e | zext e | sext e | read a us i =>
    obtain _ | ⟨h, _ | _⟩ := hk
    exact ⟨_, rfl⟩
  | select c t f =>
    obtain _ | ⟨hc, _ | ⟨ht, _ | ⟨hf, _ | _⟩⟩⟩ := hk
    exact ⟨_, rfl⟩
  | concat l r =>
    obtain _ | ⟨hl, _ | ⟨hr, _ | _⟩⟩ := hk
    exact ⟨_, rfl⟩
  | binary k l r =>
    obtain _ | ⟨hl, _ | ⟨hr, _ | _⟩⟩ := hk
    obtain ⟨-, hdr, hdk⟩ := hd
    have hdef := hdk.congr hl.width (hr.value σ hA hdr)
    have hw := (hl.width.trans he.2.2).trans hr.width.symm
    obtain ⟨r, hr, -⟩ := BinaryKind.create_simplifies ⟨hl.typed, hr.typed, hw⟩
      hdef.not_overshifts hdef.not_dividesByZero
    exact ⟨r, hr⟩

/-- A well-typed expression is reduced. -/
def Rewrites (A : Assignment → Prop) (e r : Expr) : Prop := e.WellTyped → e.Reduces A r

section
variable {A : Assignment → Prop} {σ : Assignment} {v : ExprVisitor} {e r : Expr}

theorem ExprVisitor.within_rewrites
    (hexpr : ∀ {e r}, e.isConstant = false → v.visitExpr e = some r → Rewrites A e r)
    (hpost : ∀ {e r}, e.isConstant = false → v.visitExprPost e = some r → Rewrites A e r) :
    v.Within (Rewrites A) where
  refl _ h := .refl h
  trans hab hbc h := (hab h).trans (hbc (hab h).typed)
  expr := hexpr
  post := hpost
  rebuild hk hne hb h := (Expr.Reduces.rebuild h (Expr.Reduces.all_of_typed h.kids hk) hne hb).1

theorem ExprVisitor.visitKids_returns {visit : Expr → Visited → Option (Expr × Visited)}
    (hwithin : ∀ {e r visited visited'}, visit e visited = some (r, visited') →
      visited.Within (Rewrites A) → Rewrites A e r ∧ visited'.Within (Rewrites A))
    {kids : List Expr} (hvisit : ∀ k ∈ kids, ∀ visited, Visited.Within visited (Rewrites A) →
      ∃ r visited', visit k visited = some (r, visited'))
    {visited : Visited} (hv : visited.Within (Rewrites A)) :
    ∃ es visited', visitKids visit kids visited = some (es, visited') := by
  induction kids generalizing visited with
  | nil => exact ⟨[], visited, rfl⟩
  | cons kid rest ih =>
    rw [List.forall_mem_cons] at hvisit
    obtain ⟨e, visited₁, he⟩ := hvisit.1 visited hv
    obtain ⟨es, visited₂, hes⟩ := ih hvisit.2 (hwithin he hv).2
    refine ⟨e :: es, visited₂, ?_⟩
    rw [visitKids, he, Option.bind_eq_bind, Option.bind_some]
    dsimp only
    rw [hes]
    rfl

/-- A visit to a depth beyond the weight returns, where the expression is defined. -/
theorem ExprVisitor.Within.returns (h : v.Within (Rewrites A)) (hA : A σ) {n : Nat}
    (he : e.WellTyped) (hd : e.Defined σ) (hn : e.weight < n) {visited : Visited}
    (hv : visited.Within (Rewrites A)) : ∃ r visited', v.visit n e visited = some (r, visited') := by
  induction n generalizing e visited with
  | zero => omega
  | succ n ih =>
    have hwithin : ∀ {e r visited visited'}, v.visit n e visited = some (r, visited') →
        visited.Within (Rewrites A) → Rewrites A e r ∧ visited'.Within (Rewrites A) :=
      fun hrun hv => h.visit hrun hv
    suffices hactual : ∃ r visited', v.visitActual (v.visit n) e visited = some (r, visited') by
      obtain ⟨r, visited', hactual⟩ := hactual
      unfold ExprVisitor.visit
      split
      · exact ⟨_, _, rfl⟩
      · split
        · exact ⟨_, _, rfl⟩
        · rw [hactual]
          exact ⟨_, _, rfl⟩
    unfold ExprVisitor.visitActual
    split
    · exact ⟨_, _, rfl⟩
    · have hkid : ∀ k ∈ e.kids, ∀ visited, Visited.Within visited (Rewrites A) →
          ∃ r visited', v.visit n k visited = some (r, visited') := by
        intro k hk visited hv
        have hlt := kids_lt hk
        exact ih (he.kids k hk) (hd.kids k hk) (by omega) hv
      have hall : ∃ kids visited', visitKids (v.visit n) e.kids visited = some (kids, visited') :=
        visitKids_returns hwithin hkid hv
      obtain ⟨kids, visited₁, hkids⟩ := hall
      obtain ⟨hall, hv₁⟩ := visitKids_within hwithin hkids hv
      have hall := Expr.Reduces.all_of_typed he.kids hall
      suffices hbuilt : ∃ e' visited', v.rebuildKids (v.visit n) e kids visited₁ =
          some (e', visited') by
        obtain ⟨e', visited', hbuilt⟩ := hbuilt
        rw [hkids, Option.bind_eq_bind, Option.bind_some]
        dsimp only
        rw [hbuilt]
        exact ⟨_, _, rfl⟩
      unfold ExprVisitor.rebuildKids
      split
      · exact ⟨_, _, rfl⟩
      · rename_i hne
        obtain ⟨e', he'⟩ := Expr.Reduces.rebuild_some hA he hd hall hne
        obtain ⟨hred, hlt⟩ := Expr.Reduces.rebuild he hall hne he'
        rw [he', Option.bind_eq_bind, Option.bind_some]
        split
        · exact ih hred.typed (hred.defined σ hA hd) (by omega) hv₁
        · exact ⟨_, _, rfl⟩

end

end Encider
