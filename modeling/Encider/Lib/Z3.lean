import Encider.Lib.Smt

/-! Terms of booleans, bit vectors and arrays as Z3's interface builds them. Each has a sort, and an
operation is only built on operands of its sorts. -/

namespace Z3

open Smt

/-- The values of a sort. -/
abbrev Carrier : Srt → Type
  | .bool => Bool
  | .bitVec w => BitVec w
  | .array d r => BitVec d → BitVec r

/-- A constant is told apart by its name and its sort. -/
inductive Ast : Srt → Type where
  | const (name : String) (s : Srt) : Ast s
  | bool (b : Bool) : Ast .bool
  | numeral {w : ℕ} (v : BitVec w) : Ast (.bitVec w)
  | not (a : Ast .bool) : Ast .bool
  | and (a b : Ast .bool) : Ast .bool
  | or (a b : Ast .bool) : Ast .bool
  | iff (a b : Ast .bool) : Ast .bool
  | eq {w : ℕ} (a b : Ast (.bitVec w)) : Ast .bool
  | ite {s : Srt} (c : Ast .bool) (a b : Ast s) : Ast s
  | bvnot {w : ℕ} (a : Ast (.bitVec w)) : Ast (.bitVec w)
  | word {w : ℕ} (o : WordOp) (a b : Ast (.bitVec w)) : Ast (.bitVec w)
  | compare {w : ℕ} (r : Relation) (a b : Ast (.bitVec w)) : Ast .bool
  | concat {m n : ℕ} (a : Ast (.bitVec m)) (b : Ast (.bitVec n)) : Ast (.bitVec (m + n))
  | extract {w : ℕ} (high low : ℕ) (a : Ast (.bitVec w)) : Ast (.bitVec (high + 1 - low))
  | signExt {w : ℕ} (extra : ℕ) (a : Ast (.bitVec w)) : Ast (.bitVec (w + extra))
  | select {d r : ℕ} (a : Ast (.array d r)) (i : Ast (.bitVec d)) : Ast (.bitVec r)
  | store {d r : ℕ} (a : Ast (.array d r)) (i : Ast (.bitVec d)) (v : Ast (.bitVec r)) :
      Ast (.array d r)

/-- What the constants stand for. -/
abbrev Model := String → (s : Srt) → Carrier s

def Ast.eval (ρ : Model) : {s : Srt} → Ast s → Carrier s
  | _, .const x s => ρ x s
  | _, .bool b => b
  | _, .numeral v => v
  | _, .not a => !a.eval ρ
  | _, .and a b => a.eval ρ && b.eval ρ
  | _, .or a b => a.eval ρ || b.eval ρ
  | _, .iff a b => a.eval ρ == b.eval ρ
  | _, .eq a b => a.eval ρ == b.eval ρ
  | _, .ite c a b => if c.eval ρ then a.eval ρ else b.eval ρ
  | _, .bvnot a => ~~~ a.eval ρ
  | _, .word o a b => o.apply (a.eval ρ) (b.eval ρ)
  | _, .compare r a b => r.holds (a.eval ρ) (b.eval ρ)
  | _, .concat a b => a.eval ρ ++ b.eval ρ
  | _, .extract high low a => (a.eval ρ).extractLsb' low _
  | _, .signExt _ a => (a.eval ρ).signExtend _
  | _, .select a i => a.eval ρ (i.eval ρ)
  | _, .store a i v => Function.update (a.eval ρ) (i.eval ρ) (v.eval ρ)

/-- A term with its sort. -/
structure Handle where
  {sort : Srt}
  ast : Ast sort

namespace Handle

/-! The functions of the interface; `none` where the sorts do not fit. -/

def mkBool (b : Bool) : Handle := ⟨.bool b⟩

/-- A number is taken modulo the width. -/
def mkNumeral (w : ℕ) (v : ℤ) : Option Handle :=
  if 0 < w then some ⟨.numeral (BitVec.ofInt w v)⟩ else none

def mkNot : Handle → Option Handle
  | ⟨(a : Ast .bool)⟩ => some ⟨.not a⟩
  | _ => none

def mkAnd : Handle → Handle → Option Handle
  | @mk .bool a, @mk .bool b => some ⟨.and a b⟩
  | _, _ => none

def mkOr : Handle → Handle → Option Handle
  | @mk .bool a, @mk .bool b => some ⟨.or a b⟩
  | _, _ => none

def mkIff : Handle → Handle → Option Handle
  | @mk .bool a, @mk .bool b => some ⟨.iff a b⟩
  | _, _ => none

/-- Equality of words only. -/
def mkEq : Handle → Handle → Option Handle
  | @mk (.bitVec m) a, @mk (.bitVec n) b => if h : n = m then some ⟨.eq a (h ▸ b)⟩ else none
  | _, _ => none

def mkIte : Handle → Handle → Handle → Option Handle
  | @mk .bool c, @mk s a, @mk t b => if h : t = s then some ⟨.ite c a (h ▸ b)⟩ else none
  | _, _, _ => none

def mkBvnot : Handle → Option Handle
  | @mk (.bitVec _) a => some ⟨.bvnot a⟩
  | _ => none

def mkWord (o : WordOp) : Handle → Handle → Option Handle
  | @mk (.bitVec m) a, @mk (.bitVec n) b => if h : n = m then some ⟨.word o a (h ▸ b)⟩ else none
  | _, _ => none

def mkCompare (r : Relation) : Handle → Handle → Option Handle
  | @mk (.bitVec m) a, @mk (.bitVec n) b => if h : n = m then some ⟨.compare r a (h ▸ b)⟩ else none
  | _, _ => none

def mkConcat : Handle → Handle → Option Handle
  | @mk (.bitVec _) a, @mk (.bitVec _) b => some ⟨.concat a b⟩
  | _, _ => none

def mkExtract (high low : ℕ) : Handle → Option Handle
  | @mk (.bitVec w) a => if low ≤ high ∧ high < w then some ⟨.extract high low a⟩ else none
  | _ => none

def mkSignExt (extra : ℕ) : Handle → Option Handle
  | @mk (.bitVec _) a => some ⟨.signExt extra a⟩
  | _ => none

def mkSelect : Handle → Handle → Option Handle
  | @mk (.array d _) a, @mk (.bitVec m) i => if h : m = d then some ⟨.select a (h ▸ i)⟩ else none
  | _, _ => none

def mkStore : Handle → Handle → Handle → Option Handle
  | @mk (.array d r) a, @mk (.bitVec m) i, @mk (.bitVec n) v =>
      if h : m = d ∧ n = r then some ⟨.store a (h.1 ▸ i) (h.2 ▸ v)⟩ else none
  | _, _, _ => none

/-- `Z3_get_bv_sort_size` of the sort of a term. -/
def width : Handle → Option ℕ
  | @mk (.bitVec w) _ => some w
  | _ => none

end Handle

/-- A term is built, and has the property. -/
def Gives {α : Type} (o : Option α) (P : α → Prop) : Prop := ∃ a, o = some a ∧ P a

namespace Gives

variable {α β : Type} {o : Option α} {P P' : α → Prop} {Q : β → Prop} {f : α → Option β}

theorem pure {a : α} (h : P a) : Gives (some a) P := ⟨a, rfl, h⟩

theorem bind (h : Gives o P) (hf : ∀ a, P a → Gives (f a) Q) : Gives (o >>= f) Q := by
  obtain ⟨a, rfl, ha⟩ := h
  exact hf a ha

theorem imp (h : Gives o P) (hP : ∀ a, P a → P' a) : Gives o P' := by
  obtain ⟨a, ha, hp⟩ := h
  exact ⟨a, ha, hP a hp⟩

end Gives

namespace Handle

section meaning

variable (W : Set Model)

/-- A boolean term, true in the models exactly if `p` holds. -/
def Truth (p : Prop) (h : Handle) : Prop :=
  ∃ t : Ast .bool, h = ⟨t⟩ ∧ ∀ ρ ∈ W, (t.eval ρ = true ↔ p)

/-- A term of `w` bits, with this value in the models. -/
def Bits (w n : ℕ) (h : Handle) : Prop :=
  ∃ t : Ast (.bitVec w), h = ⟨t⟩ ∧ ∀ ρ ∈ W, (t.eval ρ).toNat = n

/-- A term for an array, with these elements in the models. -/
def Contents (d r : ℕ) (f : ℕ → ℕ) (h : Handle) : Prop :=
  ∃ t : Ast (.array d r), h = ⟨t⟩ ∧ ∀ ρ ∈ W, ∀ i, (t.eval ρ i).toNat = f i.toNat

end meaning

variable {W V : Set Model} {a b c : Handle} {p q : Prop} {w m n x y z : ℕ} {d r : ℕ} {f : ℕ → ℕ}

theorem Truth.mono (h : a.Truth W p) (hW : V ⊆ W) : a.Truth V p := by
  obtain ⟨t, rfl, ht⟩ := h
  exact ⟨t, rfl, fun ρ hρ => ht ρ (hW hρ)⟩

theorem Truth.congr (h : a.Truth W p) (hpq : W.Nonempty → (p ↔ q)) : a.Truth W q := by
  obtain ⟨t, rfl, ht⟩ := h
  exact ⟨t, rfl, fun ρ hρ => (ht ρ hρ).trans (hpq ⟨ρ, hρ⟩)⟩

theorem Bits.mono (h : a.Bits W w x) (hW : V ⊆ W) : a.Bits V w x := by
  obtain ⟨t, rfl, ht⟩ := h
  exact ⟨t, rfl, fun ρ hρ => ht ρ (hW hρ)⟩

theorem Bits.congr (h : a.Bits W w x) (hxy : W.Nonempty → x = y) : a.Bits W w y := by
  obtain ⟨t, rfl, ht⟩ := h
  exact ⟨t, rfl, fun ρ hρ => (ht ρ hρ).trans (hxy ⟨ρ, hρ⟩)⟩

theorem Contents.mono (h : a.Contents W d r f) (hW : V ⊆ W) : a.Contents V d r f := by
  obtain ⟨t, rfl, ht⟩ := h
  exact ⟨t, rfl, fun ρ hρ => ht ρ (hW hρ)⟩

theorem Bits.width_eq (h : a.Bits W w x) : a.width = some w := by
  obtain ⟨t, rfl, -⟩ := h
  rfl

theorem mkBool_truth (v : Bool) : (mkBool v).Truth W (v = true) :=
  ⟨.bool v, rfl, fun _ _ => Iff.rfl⟩

theorem mkNumeral_bits (hw : 0 < w) (v : ℤ) :
    Gives (mkNumeral w v) (Bits W w (BitVec.ofInt w v).toNat) := by
  refine ⟨_, if_pos hw, ?_⟩
  exact ⟨_, rfl, fun _ _ => rfl⟩

theorem mkNot_truth (ha : a.Truth W p) : Gives (mkNot a) (Truth W (¬ p)) := by
  obtain ⟨t, rfl, ht⟩ := ha
  refine ⟨_, rfl, _, rfl, fun ρ hρ => ?_⟩
  simp [Ast.eval, ← ht ρ hρ]

theorem mkAnd_truth (ha : a.Truth W p) (hb : b.Truth W q) :
    Gives (mkAnd a b) (Truth W (p ∧ q)) := by
  obtain ⟨t, rfl, ht⟩ := ha
  obtain ⟨u, rfl, hu⟩ := hb
  refine ⟨_, rfl, _, rfl, fun ρ hρ => ?_⟩
  simp [Ast.eval, ← ht ρ hρ, ← hu ρ hρ]

theorem mkOr_truth (ha : a.Truth W p) (hb : b.Truth W q) :
    Gives (mkOr a b) (Truth W (p ∨ q)) := by
  obtain ⟨t, rfl, ht⟩ := ha
  obtain ⟨u, rfl, hu⟩ := hb
  refine ⟨_, rfl, _, rfl, fun ρ hρ => ?_⟩
  simp [Ast.eval, ← ht ρ hρ, ← hu ρ hρ]

theorem mkIff_truth (ha : a.Truth W p) (hb : b.Truth W q) :
    Gives (mkIff a b) (Truth W (p ↔ q)) := by
  obtain ⟨t, rfl, ht⟩ := ha
  obtain ⟨u, rfl, hu⟩ := hb
  refine ⟨_, rfl, _, rfl, fun ρ hρ => ?_⟩
  simp only [Ast.eval, beq_iff_eq, ← ht ρ hρ, ← hu ρ hρ]
  exact Bool.eq_iff_iff

theorem mkEq_bits (ha : a.Bits W w x) (hb : b.Bits W w y) :
    Gives (mkEq a b) (Truth W (x = y)) := by
  obtain ⟨t, rfl, ht⟩ := ha
  obtain ⟨u, rfl, hu⟩ := hb
  refine ⟨_, dif_pos rfl, _, rfl, fun ρ hρ => ?_⟩
  simp only [Ast.eval, beq_iff_eq, ← ht ρ hρ, ← hu ρ hρ]
  exact BitVec.toNat_inj.symm

theorem mkIte_truth (hc : c.Truth W p) {q q' : Prop} (ha : a.Truth W q) (hb : b.Truth W q') :
    Gives (mkIte c a b) (Truth W ((p ∧ q) ∨ (¬ p ∧ q'))) := by
  obtain ⟨v, rfl, hv⟩ := hc
  obtain ⟨t, rfl, ht⟩ := ha
  obtain ⟨u, rfl, hu⟩ := hb
  refine ⟨_, rfl, _, rfl, fun ρ hρ => ?_⟩
  simp only [Ast.eval, ← hv ρ hρ, ← ht ρ hρ, ← hu ρ hρ]
  split <;> simp [*]

theorem mkIte_bits [Decidable p] (hc : c.Truth W p) (ha : a.Bits W w x) (hb : b.Bits W w y) :
    Gives (mkIte c a b) (Bits W w (if p then x else y)) := by
  obtain ⟨v, rfl, hv⟩ := hc
  obtain ⟨t, rfl, ht⟩ := ha
  obtain ⟨u, rfl, hu⟩ := hb
  refine ⟨_, dif_pos rfl, _, rfl, fun ρ hρ => ?_⟩
  simp only [Ast.eval, ← hv ρ hρ, ← ht ρ hρ, ← hu ρ hρ]
  split <;> rfl

theorem mkBvnot_bits (ha : a.Bits W w x) :
    Gives (mkBvnot a) (Bits W w (~~~ BitVec.ofNat w x).toNat) := by
  obtain ⟨t, rfl, ht⟩ := ha
  refine ⟨_, rfl, _, rfl, fun ρ hρ => ?_⟩
  rw [← ht ρ hρ, BitVec.ofNat_toNat, BitVec.setWidth_eq]
  rfl

theorem mkWord_bits (o : WordOp) (ha : a.Bits W w x) (hb : b.Bits W w y) :
    Gives (mkWord o a b) (Bits W w (o.apply (BitVec.ofNat w x) (BitVec.ofNat w y)).toNat) := by
  obtain ⟨t, rfl, ht⟩ := ha
  obtain ⟨u, rfl, hu⟩ := hb
  refine ⟨_, dif_pos rfl, _, rfl, fun ρ hρ => ?_⟩
  rw [← ht ρ hρ, ← hu ρ hρ, BitVec.ofNat_toNat, BitVec.ofNat_toNat, BitVec.setWidth_eq,
    BitVec.setWidth_eq]
  rfl

theorem mkCompare_bits (o : Relation) (ha : a.Bits W w x) (hb : b.Bits W w y) :
    Gives (mkCompare o a b)
      (Truth W (o.holds (BitVec.ofNat w x) (BitVec.ofNat w y) = true)) := by
  obtain ⟨t, rfl, ht⟩ := ha
  obtain ⟨u, rfl, hu⟩ := hb
  refine ⟨_, dif_pos rfl, _, rfl, fun ρ hρ => ?_⟩
  rw [← ht ρ hρ, ← hu ρ hρ, BitVec.ofNat_toNat, BitVec.ofNat_toNat, BitVec.setWidth_eq,
    BitVec.setWidth_eq]
  rfl

theorem mkConcat_bits (ha : a.Bits W m x) (hb : b.Bits W n y) :
    Gives (mkConcat a b) (Bits W (m + n) (x <<< n ||| y)) := by
  obtain ⟨t, rfl, ht⟩ := ha
  obtain ⟨u, rfl, hu⟩ := hb
  refine ⟨_, rfl, _, rfl, fun ρ hρ => ?_⟩
  rw [← ht ρ hρ, ← hu ρ hρ]
  exact BitVec.toNat_append _ _

theorem mkExtract_bits {high low : ℕ} (ha : a.Bits W w x) (hle : low ≤ high) (hlt : high < w) :
    Gives (mkExtract high low a)
      (Bits W (high + 1 - low) ((x >>> low) % 2 ^ (high + 1 - low))) := by
  obtain ⟨t, rfl, ht⟩ := ha
  refine ⟨_, if_pos ⟨hle, hlt⟩, _, rfl, fun ρ hρ => ?_⟩
  rw [← ht ρ hρ]
  exact BitVec.extractLsb'_toNat _ _ _

theorem mkSignExt_bits (extra : ℕ) (ha : a.Bits W w x) :
    Gives (mkSignExt extra a)
      (Bits W (w + extra) ((BitVec.ofNat w x).signExtend (w + extra)).toNat) := by
  obtain ⟨t, rfl, ht⟩ := ha
  refine ⟨_, rfl, _, rfl, fun ρ hρ => ?_⟩
  rw [← ht ρ hρ, BitVec.ofNat_toNat, BitVec.setWidth_eq]
  rfl

theorem mkSelect_bits (ha : a.Contents W d r f) (hb : b.Bits W d x) :
    Gives (mkSelect a b) (Bits W r (f x)) := by
  obtain ⟨t, rfl, ht⟩ := ha
  obtain ⟨u, rfl, hu⟩ := hb
  refine ⟨_, dif_pos rfl, _, rfl, fun ρ hρ => ?_⟩
  rw [← hu ρ hρ]
  exact ht ρ hρ _

theorem mkStore_contents (ha : a.Contents W d r f) (hb : b.Bits W d x) (hc : c.Bits W r y) :
    Gives (mkStore a b c) (Contents W d r fun i => if x = i then y else f i) := by
  obtain ⟨t, rfl, ht⟩ := ha
  obtain ⟨u, rfl, hu⟩ := hb
  obtain ⟨v, rfl, hv⟩ := hc
  refine ⟨_, dif_pos ⟨rfl, rfl⟩, _, rfl, fun ρ hρ i => ?_⟩
  simp only [Ast.eval, Function.update_apply, ← hu ρ hρ, ← hv ρ hρ, BitVec.toNat_inj,
    eq_comm (a := i)]
  split
  · rfl
  · exact ht ρ hρ i

end Handle

end Z3
