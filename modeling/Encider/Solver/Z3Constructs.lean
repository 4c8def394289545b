import Encider.Solver.Z3Operations

/-! Whatever the builder has built before, it builds terms with the values of the expressions. -/

namespace Encider.Z3Builder

open Z3 Z3.Handle Encider.Expr Encider.Smtlib State

section

variable {σ : Assignment} {s : State} {e l r : Expr} {k : BinaryKind} {o : Option Handle} {w : ℕ}
  {left right : Construct (Handle × ℕ)}

theorem State.nonzero (h : (s.models σ (.binary k l r)).Nonempty) (hk : k.isDivision = true) :
    r.value σ ≠ 0 := by
  obtain ⟨ρ, hρ⟩ := h
  exact hρ.1.2.2 hk

/-- The term of an expression, from those of its operands. -/
theorem Builds.term (hover : e.Over s.Has) (hw : w = e.getWidth)
    (h : Gives o (Shows (s.models σ e) e.getWidth (e.value σ))) :
    Builds σ s (do let result ← StateT.lift o; return (result, w)) (Built σ e) :=
  Guarded.Advances.lift h fun _ ht => .pure ⟨hover, hw, ht⟩

theorem Builds.wide {α : Type} {m : Construct α} {Q : State → α → Prop} (hw : w ≠ 1)
    (h : Builds σ s m Q) : Builds σ s (do assertWide w; m) Q := by
  rwa [assertWide, if_neg hw, pure_bind]

/-- The width is that of the term. -/
theorem Builds.wordOf {op : Smt.WordOp} {a b : Handle} (hover : e.Over s.Has)
    (hw : w = e.getWidth) (hwide : e.getWidth ≠ 1)
    (h : Gives (mkWord op a b) (Shows (s.models σ e) e.getWidth (e.value σ))) :
    Builds σ s (wordOf op a b w) (Built σ e) := by
  refine Guarded.Advances.lift h fun t ht => ?_
  rw [getBVLength, (ht.bits hwide).width_eq, if_pos (by rw [hw])]
  exact .pure ⟨hover, hw, ht⟩

theorem Built.shows_left {t : Handle × ℕ} (h : Built σ l s t) :
    Shows (s.models σ (.binary k l r)) l.getWidth (l.value σ) t.1 :=
  h.2.2.mono fun _ hρ => ⟨hρ.1.1, hρ.2.1⟩

theorem Built.shows_right {t : Handle × ℕ} (h : Built σ r s t) :
    Shows (s.models σ (.binary k l r)) r.getWidth (r.value σ) t.1 :=
  h.2.2.mono fun _ hρ => ⟨hρ.1.2.1, hρ.2.2⟩

variable (hleft : ∀ s, Builds σ s left (Built σ l)) (hright : ∀ s, Builds σ s right (Built σ r))
  (hw : l.getWidth = r.getWidth)

/-- The operands from left to right. -/
theorem Builds.operands {α : Type} {f : Handle × ℕ → Handle × ℕ → Construct α}
    {Q : State → α → Prop} (hleft : ∀ s, Builds σ s left (Built σ l))
    (hright : ∀ s, Builds σ s right (Built σ r))
    (hf : ∀ s' a b, Built σ l s' a → Built σ r s' b → Builds σ s' (f a b) Q) :
    Builds σ s (do let a ← left; let b ← right; f a b) Q :=
  (hleft s).bind fun s₁ a _ ha => (hright s₁).bind fun s₂ b hext hb => hf s₂ a b (hext.built ha) hb

include hleft hright hw

theorem constructSum_builds {op : Smt.WordOp} (hwide : l.getWidth ≠ 1)
    (hop : getSMTLIBKeyword k = .word op) (hcmp : k.isCmp = false) (hashr : k ≠ .ashr) :
    Builds σ s (constructSum left right op) (Built σ (.binary k l r)) := by
  have hwidth : (binary k l r).getWidth = l.getWidth := by simp [getWidth, hcmp]
  refine Builds.operands hleft hright fun s' a b ha hb => ?_
  have hb2 : b.2 = l.getWidth := hb.2.1.trans hw.symm
  refine Builds.wide (hb2 ▸ hwide) (Builds.wordOf ⟨ha.1, hb.1⟩ (hb2.trans hwidth.symm)
    (hwidth ▸ hwide) ?_)
  rw [hwidth]
  exact word_shows hwide (Built.shows_left ha) hw (Built.shows_right hb) hop hcmp hashr
    State.nonzero

theorem constructMul_builds (hwide : l.getWidth ≠ 1) :
    Builds σ s (constructMul left right) (Built σ (.binary .mul l r)) := by
  refine (hright s).bind fun s₁ b _ hb => ?_
  have hb2 : b.2 = l.getWidth := hb.2.1.trans hw.symm
  refine Builds.wide (hb2 ▸ hwide) ((hleft s₁).bind fun s₂ a hext ha => ?_)
  replace hb := hext.built hb
  refine Builds.wordOf ⟨ha.1, hb.1⟩ ha.2.1 hwide ?_
  exact word_shows hwide (Built.shows_left ha) hw (Built.shows_right hb) rfl rfl (by decide)
    State.nonzero

theorem constructSDiv_builds (hwide : l.getWidth ≠ 1) :
    Builds σ s (constructSDiv left right) (Built σ (.binary .sdiv l r)) := by
  refine (hleft s).bind fun s₁ a _ ha => ?_
  refine Builds.wide (ha.2.1 ▸ hwide) ((hright s₁).bind fun s₂ b hext hb => ?_)
  replace ha := hext.built ha
  refine Builds.wordOf ⟨ha.1, hb.1⟩ (hb.2.1.trans hw.symm) hwide ?_
  exact word_shows hwide (Built.shows_left ha) hw (Built.shows_right hb) rfl rfl (by decide)
    State.nonzero

theorem constructUDiv_builds (hwide : l.getWidth ≠ 1) :
    Builds σ s (constructUDiv r left right) (Built σ (.binary .udiv l r)) := by
  refine (hleft s).bind fun s₁ a _ ha => Builds.wide (ha.2.1 ▸ hwide) ?_
  cases hd : singleBitDivisor r with
  | some divisor =>
    obtain ⟨hover, i, hindex, hi, hvalue⟩ := singleBitDivisor_eq hd
    refine Guarded.Advances.lift (P := (· = i)) ⟨i, hindex, rfl⟩ ?_
    rintro _ rfl
    refine Builds.term ⟨ha.1, hover _⟩ ha.2.1 ?_
    exact udivByPower_shows hwide (Built.shows_left ha) hw (hw ▸ hi) (hvalue σ)
  | none =>
    refine (hright s₁).bind fun s₂ b hext hb => ?_
    replace ha := hext.built ha
    refine Builds.wordOf ⟨ha.1, hb.1⟩ (hb.2.1.trans hw.symm) hwide ?_
    exact word_shows hwide (Built.shows_left ha) hw (Built.shows_right hb) rfl rfl (by decide)
      State.nonzero

theorem constructURem_builds (hwide : l.getWidth ≠ 1) :
    Builds σ s (constructURem r left right) (Built σ (.binary .urem l r)) := by
  refine (hleft s).bind fun s₁ a _ ha => Builds.wide (ha.2.1 ▸ hwide) ?_
  cases hd : singleBitDivisor r with
  | some divisor =>
    obtain ⟨hover, i, hindex, hi, hvalue⟩ := singleBitDivisor_eq hd
    refine Guarded.Advances.lift (P := (· = i)) ⟨i, hindex, rfl⟩ ?_
    rintro _ rfl
    refine Builds.term ⟨ha.1, hover _⟩ ha.2.1 ?_
    rw [ha.2.1]
    exact uremByPower_shows hwide (Built.shows_left ha) hw (hw ▸ hi) (hvalue σ)
  | none =>
    refine (hright s₁).bind fun s₂ b hext hb => ?_
    replace ha := hext.built ha
    refine Builds.wordOf ⟨ha.1, hb.1⟩ (hb.2.1.trans hw.symm) hwide ?_
    exact word_shows hwide (Built.shows_left ha) hw (Built.shows_right hb) rfl rfl (by decide)
      State.nonzero

theorem constructBitwise_builds {truth : Handle → Handle → Option Handle} {op : Smt.WordOp}
    (hop : getSMTLIBKeyword k = .word op) (hcmp : k.isCmp = false) (hashr : k ≠ .ashr)
    (htruth : ∀ W a b, l.getWidth = 1 → Shows W l.getWidth (l.value σ) a →
      Shows W r.getWidth (r.value σ) b → Gives (truth a b) (Shows W 1 ((binary k l r).value σ))) :
    Builds σ s (constructBitwise left right truth (mkWord op)) (Built σ (.binary k l r)) := by
  have hwidth : (binary k l r).getWidth = l.getWidth := by simp [getWidth, hcmp]
  refine Builds.operands hleft hright fun s' a b ha hb => ?_
  have hb2 : b.2 = l.getWidth := hb.2.1.trans hw.symm
  refine Builds.term ⟨ha.1, hb.1⟩ (hb2.trans hwidth.symm) ?_
  rw [hwidth, hb2]
  split
  · rename_i hone
    have h := htruth _ _ _ hone (Built.shows_left (k := k) ha) (Built.shows_right hb)
    rwa [hone]
  · rename_i hwide
    exact word_shows hwide (Built.shows_left ha) hw (Built.shows_right hb) hop hcmp hashr
      State.nonzero

theorem constructEq_builds :
    Builds σ s (constructEq l left right) (Built σ (.binary .eq l r)) := by
  refine Builds.operands hleft hright fun s' a b ha hb => ?_
  have hb2 : b.2 = l.getWidth := hb.2.1.trans hw.symm
  have hl := Built.shows_left (k := .eq) (r := r) ha
  have hr := Built.shows_right (k := .eq) (l := l) hb
  refine Builds.term ⟨ha.1, hb.1⟩ rfl ?_
  rw [hb2]
  split
  · rename_i hone
    exact eqTruth_shows hone hl hw hr
  · rename_i hwide
    exact mkEq_shows hwide hl hw hr

theorem constructCompare_builds {relation : Smt.Relation} (hwide : l.getWidth ≠ 1)
    (hrel : getSMTLIBKeyword k = .compare relation) (hcmp : k.isCmp = true) :
    Builds σ s (constructCompare left right relation) (Built σ (.binary k l r)) := by
  have hwidth : (binary k l r).getWidth = 1 := by simp [getWidth, hcmp]
  refine Builds.operands hleft hright fun s' a b ha hb => ?_
  have hb2 : b.2 = l.getWidth := hb.2.1.trans hw.symm
  refine Builds.wide (hb2 ▸ hwide) (Builds.term ⟨ha.1, hb.1⟩ hwidth.symm ?_)
  rw [hwidth]
  exact compare_shows hwide (Built.shows_left ha) hw (Built.shows_right hb) hrel hcmp

theorem constructShift_builds (hk : k = .shl ∨ k = .lshr ∨ k = .ashr) (hwide : l.getWidth ≠ 1)
    (h32 : l.getWidth < 2 ^ 32)
    (hamount : ∀ w v, r = .constant w v → l.getWidth ≤ v.toNat → l.getWidth ≤ limitedValue v)
    {byConstant : Handle → ℕ → ℕ → Option Handle} {byTerm : Handle → Handle → Option Handle}
    (hconstant : ∀ W a x i, a.Bits W l.getWidth x →
      Gives (byConstant a l.getWidth i) (Bits W l.getWidth (shiftOf l.getWidth x k i)))
    (hterm : ∀ W a b x y, a.Bits W l.getWidth x → b.Bits W l.getWidth y →
      Gives (byTerm a b) (Bits W l.getWidth (shiftOf l.getWidth x k y))) :
    Builds σ s (constructShift r left right byConstant byTerm) (Built σ (.binary k l r)) := by
  have hwidth : (binary k l r).getWidth = l.getWidth := by
    obtain rfl | rfl | rfl := hk <;> rfl
  have hvalue := shiftOf_value (σ := σ) hk hw
  refine (hleft s).bind fun s₁ a _ ha => Builds.wide (ha.2.1 ▸ hwide) ?_
  split
  · rename_i w v
    have hbits := (Built.shows_left (k := k) (r := constant w v) ha).bits hwide
    refine Builds.term ⟨ha.1, trivial⟩ (ha.2.1.trans hwidth.symm) ?_
    rw [hwidth, hvalue, ha.2.1]
    refine (hconstant _ _ _ _ hbits).imp fun _ h => Bits.shows (h.congr fun _ => ?_) hwide
    rw [Expr.value]
    exact shiftOf_limited (l.value_lt σ) hk h32 (hamount w v rfl)
  · refine (hright s₁).bind fun s₂ b hext hb => ?_
    replace ha := hext.built ha
    refine Builds.term ⟨ha.1, hb.1⟩ (ha.2.1.trans hwidth.symm) ?_
    rw [hwidth, hvalue]
    have hr := Built.shows_right (k := k) (l := l) hb
    rw [← hw] at hr
    exact (hterm _ _ _ _ _ ((Built.shows_left ha).bits hwide) (hr.bits hwide)).imp
      fun _ h => Bits.shows h hwide

/-- One lemma for each family of the cases with two operands. -/
theorem constructBinary_builds (hpos : (0 : ℕ) < l.getWidth) (hk : k.Buildable l r) :
    Builds σ s (constructBinary l r left right k) (Built σ (.binary k l r)) := by
  cases k with
  | add | sub | srem => exact constructSum_builds hleft hright hw hk rfl rfl (by decide)
  | mul => exact constructMul_builds hleft hright hw hk
  | udiv => exact constructUDiv_builds hleft hright hw hk
  | sdiv => exact constructSDiv_builds hleft hright hw hk
  | urem => exact constructURem_builds hleft hright hw hk
  | and =>
    exact constructBitwise_builds hleft hright hw rfl rfl (by decide) fun W a b hone ha hb =>
      mkAnd_shows hone ha hw hb
  | or =>
    exact constructBitwise_builds hleft hright hw rfl rfl (by decide) fun W a b hone ha hb =>
      mkOr_shows hone ha hw hb
  | xor =>
    exact constructBitwise_builds hleft hright hw rfl rfl (by decide) fun W a b hone ha hb =>
      xorTruth_shows hone ha hw hb
  | shl =>
    rw [constructBinary]
    refine constructShift_builds hleft hright hw (.inl rfl) hk.1 hk.2.1 hk.2.2 ?_ ?_
    · exact fun W a x i ha => bvLeftShift_bits ha hpos i
    · exact fun W a b x y ha hb => bvVarLeftShift_bits ha hpos hk.2.1 hb
  | lshr =>
    rw [constructBinary]
    refine constructShift_builds hleft hright hw (.inr (.inl rfl)) hk.1 hk.2.1 hk.2.2 ?_ ?_
    · exact fun W a x i ha => bvRightShift_bits ha hpos i
    · exact fun W a b x y ha hb => bvVarRightShift_bits ha hpos hk.2.1 hb
  | ashr =>
    rw [constructBinary]
    refine constructShift_builds hleft hright hw (.inr (.inr rfl)) hk.1 hk.2.1 hk.2.2 ?_ ?_
    · exact fun W a x i ha => ashrByConstant_bits ha hpos i
    · exact fun W a b x y ha hb => bvVarArithRightShift_bits ha hpos hk.2.1 hb
  | eq => exact constructEq_builds hleft hright hw
  | ult | ule | slt | sle => exact constructCompare_builds hleft hright hw hk rfl rfl
  | ne | ugt | uge | sgt | sge => exact hk.elim

end

section

variable {σ : Assignment} {s : State} {e : Expr} {a : Array} {us : UpdateList}

theorem mem_of_lookup_some {α β : Type} [BEq α] [LawfulBEq α] {l : List (α × β)} {x : α} {y : β}
    (h : l.lookup x = some y) : (x, y) ∈ l := by
  obtain ⟨l₁, l₂, rfl, -⟩ := List.lookup_eq_some_iff.mp h
  exact List.mem_append_right _ List.mem_cons_self

theorem hashed_builds {useHash : Bool} {m : Construct (Handle × ℕ)}
    (hm : Builds σ s m (Built σ e)) : Builds σ s (hashed useHash e m) (Built σ e) := by
  intro hs
  unfold hashed
  cases useHash with
  | false => exact hm hs
  | true =>
    simp only [if_true]
    cases hlookup : s.constructed.lookup e with
    | some r => exact ⟨r, s, rfl, hs, .refl s, hs.constructed _ (mem_of_lookup_some hlookup)⟩
    | none =>
      obtain ⟨r, s', hrun, hs', hext, hr⟩ := hm hs
      refine ⟨r, { s' with constructed := (e, r) :: s'.constructed }, ?_,
        hs'.addConstructed hr, hext, hr⟩
      simp [hrun]

theorem hashedUpdate_builds {m : Construct Handle} (hm : Builds σ s m (BuiltArray σ a us)) :
    Builds σ s (hashedUpdate a us m) (BuiltArray σ a us) := by
  intro hs
  unfold hashedUpdate
  cases hlookup : s.updates.lookup (a, us) with
  | some t => exact ⟨t, s, rfl, hs, .refl s, hs.updates _ (mem_of_lookup_some hlookup)⟩
  | none =>
    obtain ⟨t, s', hrun, hs', hext, ht⟩ := hm hs
    refine ⟨t, { s' with updates := ((a, us), t) :: s'.updates }, ?_, hs'.addUpdate ht, hext, ht⟩
    simp [hrun]

end

section

variable {σ : Assignment} {s : State} {i v : Expr} {a : Array} {us : UpdateList} {o : Option Handle}

theorem Builds.store (hover : us.Over s.Has) (ha : s.Has a)
    (h : Gives o (Contents (s.writeModels σ a us) a.domain a.range
      fun i => (us.contents σ a i).toNat)) :
    Builds σ s (StateT.lift o) (BuiltArray σ a us) := by
  intro hs
  obtain ⟨t, rfl, ht⟩ := h
  exact ⟨t, s, rfl, hs, .refl s, ⟨hover, ha⟩, ht⟩

theorem stored_contents (hw : v.getWidth = a.range) :
    (fun j => (UpdateList.contents σ a j (.cons i v us)).toNat) =
      fun j => if i.value σ = j then v.value σ else (us.contents σ a j).toNat := by
  funext j
  rw [UpdateList.contents]
  split
  · exact toNat_bits σ hw
  · rfl

end

/-- The induction is on the expression, and goes through the caches at every node. -/
theorem construct_builds (useHash : Bool) (σ : Assignment) (e : Expr) (he : e.WellTyped)
    (hb : e.Buildable) (s : State) : Builds σ s (construct useHash e) (Built σ e) := by
  induction e using Expr.rec (motive_2 := fun us => ∀ a : Array, a.Buildable → us.WellTyped a →
    us.Buildable → ∀ s, Builds σ s (getArrayForUpdate useHash a us) (BuiltArray σ a us))
    generalizing s with
  | constant w v =>
    rw [construct]
    refine Builds.term trivial rfl ?_
    rw [Expr.value]
    exact constructConstant_shows hb v
  | notOptimized e ih =>
    rw [construct]
    refine hashed_builds ((ih he hb s).imp fun s' r hr => ⟨hr.1, hr.2.1, ?_⟩)
    rw [Expr.value]
    exact hr.2.2
  | read a us i hus hi =>
    rw [construct]
    refine hashed_builds ((hus a hb.1 he.1 hb.2.1 s).bind fun s₁ array _ harray => ?_)
    refine (hi he.2.1 hb.2.2 s₁).bind fun s₂ index hext hindex => ?_
    replace harray := hext.builtArray harray
    refine Builds.term ⟨harray.1.2, harray.1.1, hindex.1⟩ rfl ?_
    have hrange : a.range ≠ 1 := Nat.ne_of_gt hb.1.range
    have hdomain : i.getWidth ≠ 1 := he.2.2 ▸ Nat.ne_of_gt hb.1.domain
    have hcontents := harray.2.mono (V := s₂.models σ (.read a us i))
      fun _ hρ => ⟨hρ.1.1, hρ.2.2.1, hρ.2.1⟩
    have hbits := (hindex.2.2.mono (V := s₂.models σ (.read a us i))
      fun _ hρ => ⟨hρ.1.2, hρ.2.2.2⟩).bits hdomain
    rw [he.2.2] at hbits
    refine (mkSelect_bits hcontents hbits).imp fun _ h => Bits.shows ?_ hrange
    rw [Expr.value]
    exact h
  | select c t f hc ht hf =>
    rw [construct]
    refine hashed_builds ((hc he.1 hb.1 s).bind fun s₁ cond _ hcond => ?_)
    refine (ht he.2.1 hb.2.1 s₁).bind fun s₂ tExpr hext htExpr => ?_
    replace hcond := hext.built hcond
    refine (hf he.2.2.1 hb.2.2 s₂).bind fun s₃ fExpr hext hfExpr => ?_
    replace hcond := hext.built hcond
    replace htExpr := hext.built htExpr
    refine Builds.term ⟨hcond.1, htExpr.1, hfExpr.1⟩ (hfExpr.2.1.trans he.2.2.2.2.symm) ?_
    exact mkIte_shows he.2.2.2.1 he.2.2.2.2
      (hcond.2.2.mono fun _ hρ => ⟨hρ.1.1, hρ.2.1⟩)
      (htExpr.2.2.mono fun _ hρ => ⟨hρ.1.2.1, hρ.2.2.1⟩)
      (hfExpr.2.2.mono fun _ hρ => ⟨hρ.1.2.2, hρ.2.2.2⟩)
  | concat l r hl hr =>
    rw [construct]
    refine hashed_builds ((hr he.2 hb.2.1 s).bind fun s₁ right _ hright => ?_)
    refine (hl he.1 hb.1 s₁).bind fun s₂ left hext hleft => ?_
    replace hright := hext.built hright
    refine Builds.term ⟨hleft.1, hright.1⟩ rfl ?_
    exact mkConcat_shows hb.2.2.1 hb.2.2.2 (hb.1.pos he.1)
      (hleft.2.2.mono fun _ hρ => ⟨hρ.1.1, hρ.2.1⟩)
      (hright.2.2.mono fun _ hρ => ⟨hρ.1.2, hρ.2.2⟩)
  | extract e o w ih =>
    rw [construct]
    refine hashed_builds ((ih he.1 hb.1 s).bind fun s₁ src _ hsrc => ?_)
    exact Builds.term hsrc.1 rfl (extractTerm_shows hb.2 he.2.1 he.2.2 hsrc.2.2)
  | zext e w ih =>
    rw [construct]
    refine hashed_builds ((ih he.1 hb.1 s).bind fun s₁ src _ hsrc => ?_)
    refine Builds.term hsrc.1 rfl ?_
    rw [hsrc.2.1]
    exact zextTerm_shows (hb.1.pos he.1) hb.2 hsrc.2.2
  | sext e w ih =>
    rw [construct]
    refine hashed_builds ((ih he.1 hb.1 s).bind fun s₁ src _ hsrc => ?_)
    refine Builds.term hsrc.1 rfl ?_
    rw [hsrc.2.1]
    exact sextTerm_shows he.2 hb.2 hsrc.2.2
  | not e ih =>
    rw [construct]
    refine hashed_builds ((ih he hb s).bind fun s₁ expr _ hexpr => ?_)
    refine Builds.term hexpr.1 hexpr.2.1 ?_
    rw [hexpr.2.1]
    exact not_shows hexpr.2.2
  | binary k l r hl hr =>
    rw [construct]
    exact hashed_builds (constructBinary_builds (hl he.1 hb.1) (hr he.2.1 hb.2.1) he.2.2
      (hb.1.pos he.1) hb.2.2)
  | nil =>
    rename_i a ha _ _ s
    rw [getArrayForUpdate]
    exact getInitialArray_builds ha s
  | cons i v next hi hv hnext =>
    rename_i a ha hus hbs s
    rw [getArrayForUpdate]
    refine hashedUpdate_builds ((hnext a ha hus.2.2.2.2 hbs.2.2 s).bind fun s₁ array _ harray => ?_)
    refine (hi hus.1 hbs.1 s₁).bind fun s₂ index hext hindex => ?_
    replace harray := hext.builtArray harray
    refine (hv hus.2.1 hbs.2.1 s₂).bind fun s₃ value hext hvalue => ?_
    replace harray := hext.builtArray harray
    replace hindex := hext.built hindex
    have hcontents := harray.2.mono (V := s₃.writeModels σ a (.cons i v next))
      fun _ hρ => ⟨hρ.1.2.2, hρ.2.1.2.2, hρ.2.2⟩
    have hdomain : i.getWidth ≠ 1 := hus.2.2.1 ▸ Nat.ne_of_gt ha.domain
    have hrange : v.getWidth ≠ 1 := hus.2.2.2.1 ▸ Nat.ne_of_gt ha.range
    have hbits := (hindex.2.2.mono (V := s₃.writeModels σ a (.cons i v next))
      fun _ hρ => ⟨hρ.1.1, hρ.2.1.1⟩).bits hdomain
    have hbytes := (hvalue.2.2.mono (V := s₃.writeModels σ a (.cons i v next))
      fun _ hρ => ⟨hρ.1.2.1, hρ.2.1.2.1⟩).bits hrange
    rw [hus.2.2.1] at hbits
    rw [hus.2.2.2.1] at hbytes
    refine Builds.store ⟨hindex.1, hvalue.1, harray.1.1⟩ harray.1.2 ?_
    rw [stored_contents hus.2.2.2.1]
    exact mkStore_contents hcontents hbits hbytes

section

variable {σ : Assignment} {s : State} {a : Array} {i : ℕ}

/-- The indices of the reads have 32 bits. -/
theorem getInitialRead_builds (ha : a.Buildable) (hdomain : a.domain = 32) (hi : i < 2 ^ 32) :
    Builds σ s (getInitialRead a i) fun s' t =>
      s'.Has a ∧ t.Bits {ρ | s'.Reads σ ρ a} a.range (a.initial σ i).toNat := by
  refine (getInitialArray_builds ha s).bind fun s₁ array _ harray => ?_
  refine Guarded.Advances.lift (bvConst32_bits Set.univ (by omega) hi hi) fun index hindex => ?_
  rw [← hdomain] at hindex
  have hcontents := harray.2.mono (V := {ρ | s₁.Reads σ ρ a}) fun ρ hρ => ⟨trivial, trivial, hρ⟩
  intro hs
  obtain ⟨t, ht, hbits⟩ := mkSelect_bits hcontents (hindex.mono (Set.subset_univ _))
  exact ⟨t, s₁, by rw [ht]; rfl, hs, .refl s₁, harray.1.2, hbits⟩

end

/-- What the builder can be called with. -/
def Call.Admissible : Call → Prop
  | .construct e => e.WellTyped ∧ e.Buildable
  | .getInitialRead a i => a.Buildable ∧ a.domain = 32 ∧ i < 2 ^ 32
  | .clearConstructCache => True

/-- The term that a call has returned, in the state at the end. -/
def Call.Answered (σ : Assignment) (s : State) : Call → Option Handle → Prop
  | .construct e, some t => e.Over s.Has ∧ Shows (s.models σ e) e.getWidth (e.value σ) t
  | .getInitialRead a i, some t =>
      s.Has a ∧ t.Bits {ρ | s.Reads σ ρ a} a.range (a.initial σ i).toNat
  | .clearConstructCache, none => True
  | _, _ => False

section

variable {σ : Assignment} {useHash : Bool} {s s' : State} {c : Call}

theorem Call.Answered.mono {o : Option Handle} (h : c.Answered σ s o) (hext : s.Extends s') :
    c.Answered σ s' o := by
  cases c with
  | construct e =>
    cases o with
    | some t => exact ⟨over_mono (fun _ => hext.has) h.1, h.2.mono hext.models⟩
    | none => exact h
  | getInitialRead a i =>
    cases o with
    | some t => exact ⟨hext.has h.1, h.2.mono fun _ hρ => hext.reads hρ⟩
    | none => exact h
  | clearConstructCache => cases o <;> exact h

theorem Call.perform_builds (hc : c.Admissible) (s : State) :
    Builds σ s (c.perform useHash) (c.Answered σ) := by
  cases c with
  | construct e =>
    exact (construct_builds useHash σ e hc.1 hc.2 s).bind fun s' r _ hr => .pure ⟨hr.1, hr.2.2⟩
  | getInitialRead a i =>
    exact (getInitialRead_builds hc.1 hc.2.1 hc.2.2).bind fun s' r _ hr => .pure hr
  | clearConstructCache => exact fun hs => ⟨none, _, rfl, hs.clear, fun _ _ h => h, trivial⟩

/-- What has been answered stays so. -/
theorem calls_build (useHash : Bool) (σ : Assignment) {calls : List Call} (h : ∀ c ∈ calls, c.Admissible) (s : State) :
    Builds σ s (Guarded.inTurn (calls.map (Call.perform useHash))) fun s' =>
      List.Forall₂ (fun c => c.Answered σ s') calls :=
  Guarded.Advances.inTurn (fun hext ho => Call.Answered.mono ho hext) fun c hc s' _ =>
    Call.perform_builds (h c hc) s'

end

end Encider.Z3Builder
