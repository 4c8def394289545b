import Mathlib

/-! The terms that the C interface of STP builds, and their values. -/

namespace Stp

inductive WordOp where
  | plus | minus | mult | div | sbvDiv
deriving DecidableEq

/-- `VCExpr` -/
inductive Term where
  | var (name : String) (width : ℕ)
  | const (width value : ℕ)
  | concat (s t : Term)
  | extract (s : Term) (high low : ℕ)
  | signExtend (s : Term) (width : ℕ)
  | word (o : WordOp) (width : ℕ) (s t : Term)
  | uminus (s : Term)
  | xor (s t : Term)
  | eq (s t : Term)
  | lt (s t : Term)
  | ite (c s t : Term)
deriving DecidableEq

inductive Value where
  | bool (b : Bool)
  | bits (width : ℕ) (v : BitVec width)
deriving DecidableEq

def WordOp.apply {w : ℕ} : WordOp → BitVec w → BitVec w → BitVec w
  | .plus, x, y => x + y
  | .minus, x, y => x - y
  | .mult, x, y => x * y
  | .div, x, y => x.smtUDiv y
  | .sbvDiv, x, y => x.smtSDiv y

/-- An operation on two words of one width. -/
def Value.onWords (f : {w : ℕ} → BitVec w → BitVec w → Value) : Value → Value → Option Value
  | .bits w x, .bits w' y => if h : w' = w then some (f x (h ▸ y)) else none
  | _, _ => none

/-- `vc_getBVLength` -/
def Term.width : Term → ℕ
  | .var _ w | .const w _ | .signExtend _ w | .word _ w _ _ => w
  | .concat s t => s.width + t.width
  | .extract _ high low => high + 1 - low
  | .uminus s | .xor s _ => s.width
  | .eq _ _ | .lt _ _ => 0
  | .ite _ s _ => s.width

section
variable (ρ : String → (w : ℕ) → BitVec w)

/-- The value of a term; `none` where its parts do not fit together. -/
def Term.eval : Term → Option Value
  | .var x w => some (.bits w (ρ x w))
  | .const w n => some (.bits w (BitVec.ofNat w n))
  | .concat s t => do
      match ← s.eval, ← t.eval with
      | .bits u x, .bits v y => some (.bits (u + v) (x ++ y))
      | _, _ => none
  | .extract s high low => do
      match ← s.eval with
      | .bits w x =>
          if low ≤ high ∧ high < w then
            some (.bits (high + 1 - low) (x.extractLsb' low (high + 1 - low)))
          else none
      | _ => none
  | .signExtend s w => do
      match ← s.eval with
      | .bits u x => if u ≤ w then some (.bits w (x.signExtend w)) else none
      | _ => none
  | .word o w s t => do
      match ← s.eval, ← t.eval with
      | .bits u x, .bits v y =>
          if u = w ∧ v = w then some (.bits w (o.apply (x.setWidth w) (y.setWidth w))) else none
      | _, _ => none
  | .uminus s => do
      match ← s.eval with
      | .bits w x => some (.bits w (-x))
      | _ => none
  | .xor s t => do Value.onWords (fun x y => .bits _ (x ^^^ y)) (← s.eval) (← t.eval)
  | .eq s t => do Value.onWords (fun x y => .bool (x == y)) (← s.eval) (← t.eval)
  | .lt s t => do Value.onWords (fun x y => .bool (x.ult y)) (← s.eval) (← t.eval)
  | .ite c s t => do
      match ← c.eval with
      | .bool b => if s.width = t.width then (if b then s.eval else t.eval) else none
      | _ => none

/-- The term is a word of this width and value. -/
def Term.Is (t : Term) (w n : ℕ) : Prop := n < 2 ^ w ∧ t.eval ρ = some (.bits w (BitVec.ofNat w n))

/-- The term is a condition of this value. -/
def Term.Holds (t : Term) (b : Bool) : Prop := t.eval ρ = some (.bool b)

end

attribute [local simp] Term.eval

variable {ρ : String → (w : ℕ) → BitVec w} {s t c : Term} {w u v m n : ℕ} {b : Bool}

theorem bits_congr {x : BitVec w} {y : BitVec u} (hw : w = u) (h : x.toNat = y.toNat) :
    Value.bits w x = Value.bits u y := by
  subst hw
  rw [BitVec.eq_of_toNat_eq h]

theorem Term.is_of_eval {x : BitVec u} (h : t.eval ρ = some (.bits u x)) (hw : u = w)
    (hx : x.toNat = n) : t.Is ρ w n := by
  subst hw hx
  refine ⟨x.isLt, h.trans (congrArg some (bits_congr rfl ?_))⟩
  rw [BitVec.toNat_ofNat, Nat.mod_eq_of_lt x.isLt]

theorem Term.Is.toNat (h : t.Is ρ w n) : (BitVec.ofNat w n).toNat = n := by
  rw [BitVec.toNat_ofNat, Nat.mod_eq_of_lt h.1]

theorem Value.width_onWords {f : {w : ℕ} → BitVec w → BitVec w → Value} {a b : Value} {z : Value}
    (h : a.onWords f b = some z) : ∃ w, ∃ x y : BitVec w, a = .bits w x ∧ b = .bits w y ∧
      z = f x y := by
  cases a with
  | bool _ => cases h
  | bits w x =>
    cases b with
    | bool _ => cases h
    | bits w' y =>
      by_cases hw : w' = w
      · subst hw
        exact ⟨_, x, y, rfl, rfl, (Option.some.inj ((dif_pos rfl).symm.trans h)).symm⟩
      · exact absurd ((dif_neg hw).symm.trans h) (by simp)

/-- A word has the width that is computed of the term. -/
theorem Term.width_of_eval {x : BitVec w} (h : t.eval ρ = some (.bits w x)) : t.width = w := by
  induction t generalizing w with
  | var y v => cases h; rfl
  | const v n => cases h; rfl
  | concat s t hs ht =>
    obtain ⟨a, ha, h⟩ := Option.bind_eq_some_iff.mp h
    obtain ⟨b, hb, h⟩ := Option.bind_eq_some_iff.mp h
    cases a with
    | bool _ => cases h
    | bits u _ =>
      cases b with
      | bool _ => cases h
      | bits v _ =>
        cases h
        rw [Term.width, hs ha, ht hb]
  | extract s high low _ =>
    obtain ⟨a, ha, h⟩ := Option.bind_eq_some_iff.mp h
    cases a with
    | bool _ => cases h
    | bits u _ =>
      dsimp only at h
      split at h
      · cases h; rfl
      · cases h
  | signExtend s v _ =>
    obtain ⟨a, ha, h⟩ := Option.bind_eq_some_iff.mp h
    cases a with
    | bool _ => cases h
    | bits u _ =>
      dsimp only at h
      split at h
      · cases h; rfl
      · cases h
  | word o v s t _ _ =>
    obtain ⟨a, ha, h⟩ := Option.bind_eq_some_iff.mp h
    obtain ⟨b, hb, h⟩ := Option.bind_eq_some_iff.mp h
    cases a with
    | bool _ => cases h
    | bits u _ =>
      cases b with
      | bool _ => cases h
      | bits v _ =>
        dsimp only at h
        split at h
        · cases h; rfl
        · cases h
  | uminus s hs =>
    obtain ⟨a, ha, h⟩ := Option.bind_eq_some_iff.mp h
    cases a with
    | bool _ => cases h
    | bits u _ =>
      cases h
      exact hs ha
  | xor s t hs _ =>
    obtain ⟨a, ha, h⟩ := Option.bind_eq_some_iff.mp h
    obtain ⟨b, _, h⟩ := Option.bind_eq_some_iff.mp h
    obtain ⟨u, y, z, rfl, rfl, he⟩ := Value.width_onWords h
    cases he
    exact hs ha
  | eq s t _ _ | lt s t _ _ =>
    obtain ⟨a, _, h⟩ := Option.bind_eq_some_iff.mp h
    obtain ⟨b, _, h⟩ := Option.bind_eq_some_iff.mp h
    obtain ⟨u, y, z, rfl, rfl, he⟩ := Value.width_onWords h
    cases he
  | ite c s t _ hs ht =>
    obtain ⟨a, _, h⟩ := Option.bind_eq_some_iff.mp h
    cases a with
    | bits _ _ => cases h
    | bool b =>
      dsimp only at h
      split at h
      · next hw =>
        cases b with
        | true => exact hs h
        | false => exact hw.trans (ht h)
      · cases h

theorem Term.Is.width_eq (h : t.Is ρ w n) : t.width = w := width_of_eval h.2

theorem Term.is_const (w n : ℕ) : (Term.const w n).Is ρ w (n % 2 ^ w) :=
  is_of_eval rfl rfl (BitVec.toNat_ofNat n w)

theorem Term.Is.concat (hs : s.Is ρ u m) (ht : t.Is ρ v n) :
    (Term.concat s t).Is ρ (u + v) (m * 2 ^ v + n) := by
  refine is_of_eval (x := BitVec.ofNat u m ++ BitVec.ofNat v n) ?_ rfl ?_
  · simp only [Term.eval, hs.2, ht.2, Option.bind_eq_bind, Option.bind_some]
  · rw [BitVec.toNat_append, hs.toNat, ht.toNat, Nat.shiftLeft_eq, Nat.mul_comm,
      Nat.two_pow_add_eq_or_of_lt ht.1]

theorem Term.Is.extract (hs : s.Is ρ w n) {low high : ℕ} (hl : low ≤ high) (hh : high < w) :
    (Term.extract s high low).Is ρ (high + 1 - low) (n / 2 ^ low % 2 ^ (high + 1 - low)) := by
  refine is_of_eval (x := (BitVec.ofNat w n).extractLsb' low (high + 1 - low)) ?_ rfl ?_
  · simp only [Term.eval, hs.2, Option.bind_eq_bind, Option.bind_some]
    exact if_pos ⟨hl, hh⟩
  · rw [BitVec.extractLsb'_toNat, hs.toNat, Nat.shiftRight_eq_div_pow]

section
variable {x y : BitVec w} {o : WordOp}

theorem Term.Is.bits (h : t.Is ρ w x.toNat) : t.eval ρ = some (.bits w x) := by
  rw [h.2, BitVec.ofNat_toNat, BitVec.setWidth_eq]

theorem Term.Is.signExtend (hs : s.Is ρ w x.toNat) (h : w ≤ v) :
    (Term.signExtend s v).Is ρ v (x.signExtend v).toNat := by
  refine is_of_eval (x := x.signExtend v) ?_ rfl rfl
  simp only [Term.eval, hs.bits, Option.bind_eq_bind, Option.bind_some]
  exact if_pos h

theorem Term.Is.word (hs : s.Is ρ w x.toNat) (ht : t.Is ρ w y.toNat) :
    (Term.word o w s t).Is ρ w (o.apply x y).toNat := by
  refine is_of_eval (x := o.apply x y) ?_ rfl rfl
  simp only [Term.eval, hs.bits, ht.bits, Option.bind_eq_bind, Option.bind_some, and_self,
    if_true, BitVec.setWidth_eq]

theorem Term.Is.uminus (hs : s.Is ρ w x.toNat) : (Term.uminus s).Is ρ w (-x).toNat := by
  refine is_of_eval (x := -x) ?_ rfl rfl
  simp only [Term.eval, hs.bits, Option.bind_eq_bind, Option.bind_some]

end

theorem Term.Is.xor (hs : s.Is ρ w m) (ht : t.Is ρ w n) : (Term.xor s t).Is ρ w (m ^^^ n) := by
  refine is_of_eval (x := BitVec.ofNat w m ^^^ BitVec.ofNat w n) ?_ rfl ?_
  · simp [Term.eval, hs.2, ht.2, Value.onWords]
  · rw [BitVec.toNat_xor, hs.toNat, ht.toNat]

theorem Term.Is.eq (hs : s.Is ρ w m) (ht : t.Is ρ w n) :
    (Term.eq s t).Holds ρ (decide (m = n)) := by
  have h : (BitVec.ofNat w m == BitVec.ofNat w n) = decide (m = n) := by
    rw [beq_eq_decide, decide_eq_decide, ← BitVec.toNat_inj, hs.toNat, ht.toNat]
  simp [Term.Holds, Term.eval, hs.2, ht.2, Value.onWords, h]

theorem Term.Is.lt (hs : s.Is ρ w m) (ht : t.Is ρ w n) :
    (Term.lt s t).Holds ρ (decide (m < n)) := by
  have h : (BitVec.ofNat w m).ult (BitVec.ofNat w n) = decide (m < n) := by
    rw [BitVec.ult, hs.toNat, ht.toNat]
  simp [Term.Holds, Term.eval, hs.2, ht.2, Value.onWords, h]

theorem Term.Holds.ite (hc : c.Holds ρ b) (hs : s.Is ρ w m) (ht : t.Is ρ w n) :
    (Term.ite c s t).Is ρ w (if b then m else n) := by
  have hw : s.width = t.width := hs.width_eq.trans ht.width_eq.symm
  have he : (Term.ite c s t).eval ρ = if b then s.eval ρ else t.eval ρ := by
    rw [Term.eval, hc, Option.bind_eq_bind, Option.bind_some]
    exact if_pos hw
  cases b with
  | true => exact ⟨hs.1, he.trans hs.2⟩
  | false => exact ⟨ht.1, he.trans ht.2⟩

end Stp
