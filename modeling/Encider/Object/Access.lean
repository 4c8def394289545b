import Encider.Object.Represents

/-! Reads and writes of any width, at constant and at symbolic offsets. -/

namespace Encider

open Encider.Expr

/-- No sum or difference of two constants is left in the expression, as the constructors see to. -/
def Expr.Folded : Expr → Prop :=
  Expr.All fun k l r => k = .add ∨ k = .sub → (l.isConstant && r.isConstant) = false

theorem folded_regular : Regular fun k l r =>
    k = .add ∨ k = .sub → (l.isConstant && r.isConstant) = false where
  plain k l r hk h := by
    rcases h with rfl | rfl
    · cases hk
    · cases hk
  add l r h _ := h
  sub l r h _ := h

def ConstructorCall.operands : ConstructorCall → List Expr
  | select c t f => [c, t, f]
  | concat l r => [l, r]
  | extract e _ _ => [e]
  | zext e _ => [e]
  | sext e _ => [e]
  | not e => [e]
  | binary _ l r => [l, r]

/-- Two constants are folded, so the constructors of sums leave none. -/
theorem BinaryKind.create_folded {k : BinaryKind} {l r e : Expr} (h : k.create l r = some e)
    (hl : l.Folded) (hr : r.Folded) : e.Folded := by
  by_cases hboth : (l.isConstant && r.isConstant) = false
  · exact (BinaryKind.create_tame folded_regular h hl.tame hr.tame fun _ => hboth).all
  · have hother : k ≠ .add → k ≠ .sub → e.Folded := by
      intro hadd hsub
      refine (BinaryKind.create_tame folded_regular h hl.tame hr.tame ?_).all
      intro hk
      exact (hk.elim hadd hsub).elim
    cases l with
    | constant w x =>
      cases r with
      | constant v y =>
        cases k with
        | add =>
          cases h
          rw [AddExpr.create]
          exact trivial
        | sub =>
          cases h
          rw [SubExpr.create]
          exact trivial
        | _ => exact hother (by simp) (by simp)
      | _ => exact absurd rfl hboth
    | _ => exact absurd rfl hboth

/-- What the constructors build from folded operands is folded. -/
theorem ConstructorCall.create_folded {c : ConstructorCall} {e : Expr} (h : c.create = some e)
    (hops : ∀ x ∈ c.operands, x.Folded) : e.Folded := by
  cases c with
  | select c t f =>
    cases h
    exact (SelectExpr.create_tame folded_regular (hops c (by simp [operands])).tame
      (hops t (by simp [operands])).tame (hops f (by simp [operands])).tame).all
  | concat l r =>
    cases h
    exact (ConcatExpr.create_tame (hops l (by simp [operands])).tame
      (hops r (by simp [operands])).tame).all
  | extract x off w =>
    cases h
    exact (ExtractExpr.create_tame x off w (hops x (by simp [operands]))).all
  | zext x w =>
    cases h
    exact (ZExtExpr.create_tame (hops x (by simp [operands])).tame w).all
  | sext x w =>
    cases h
    exact (SExtExpr.create_tame (hops x (by simp [operands])).tame w).all
  | not x =>
    cases h
    exact (NotExpr.create_tame (hops x (by simp [operands])).tame).all
  | binary k l r =>
    exact BinaryKind.create_folded h (hops l (by simp [operands])) (hops r (by simp [operands]))

/-- The constant in front of a symbolic word never swallows it. -/
theorem Expr.offset_symbolic (e : Expr) : ∀ {w : Width} (cl : BitVec w), w ≠ 1 →
    e.isConstant = false → e.Folded → (AddExpr.createPartialR cl e).isConstant = false ∧
      (SubExpr.createPartialR cl e).isConstant = false := by
  induction e using Expr.rec (motive_2 := fun _ => True) with
  | nil => trivial
  | cons => trivial
  | binary k l r _ ih =>
    intro w cl hw hc he
    have hfront : ∀ (k' : BinaryKind) (d : BitVec w) (p : Expr), r.isConstant = false →
        p.isConstant = false → (BinaryKind.createConst k' d r p).isConstant = false := by
      intro k' d p hr hp
      unfold BinaryKind.createConst
      split
      · cases hr
      · exact hp
    have hr : ∀ {v : Width} {c : BitVec v}, k = .add ∨ k = .sub → l = .constant v c →
        r.isConstant = false := by
      intro v c hk hl
      have hboth := he.2.2 hk
      rwa [hl, Expr.isConstant, Bool.true_and] at hboth
    constructor
    · unfold AddExpr.createPartialR
      rw [if_neg hw]
      split
      · exact hc
      · split
        · rename_i heq
          cases heq
          have hrc := hr (.inl rfl) rfl
          exact hfront .add _ _ hrc (ih _ hw hrc he.2.1).1
        · rename_i heq
          cases heq
          have hrc := hr (.inr rfl) rfl
          exact hfront .sub _ _ hrc (ih _ hw hrc he.2.1).2
        · rfl
    · unfold SubExpr.createPartialR
      rw [if_neg hw]
      split
      · rename_i heq
        cases heq
        have hrc := hr (.inl rfl) rfl
        exact hfront .sub _ _ hrc (ih _ hw hrc he.2.1).2
      · rename_i heq
        cases heq
        have hrc := hr (.inr rfl) rfl
        exact hfront .add _ _ hrc (ih _ hw hrc he.2.1).1
      · rfl
  | _ =>
    intro w cl hw hc he
    rw [AddExpr.createPartialR, SubExpr.createPartialR]
    · rw [if_neg hw]
      refine ⟨?_, ?_⟩
      · split
        · exact hc
        · rfl
      · rw [if_neg hw]
        rfl
    all_goals intros; contradiction

/-- An offset that the code treats as symbolic. -/
structure Expr.Symbolic (offset : Expr) : Prop where
  typed : offset.WellTyped
  width : offset.getWidth = 32
  nonconstant : offset.isConstant = false
  folded : offset.Folded

/-- The offset of the byte at an index. -/
theorem Expr.Symbolic.add {offset : Expr} (h : offset.Symbolic) (σ : Assignment) {idx : Nat}
    (hlt : offset.value σ + idx < 2 ^ 32) : (AddExpr.create offset (const idx 32)).WellTyped ∧
      (AddExpr.create offset (const idx 32)).getWidth = 32 ∧
      (AddExpr.create offset (const idx 32)).isConstant = false ∧
      (AddExpr.create offset (const idx 32)).value σ = offset.value σ + idx := by
  have hm := (Expr.sumCorrect σ offset (const idx 32) h.typed trivial h.width rfl).1
  have hcreate : AddExpr.create offset (const idx 32) =
      AddExpr.createPartialR (BitVec.ofNat 32 idx) offset := by
    have hc := h.nonconstant
    cases offset with
    | constant w c => cases hc
    | _ =>
      unfold AddExpr.create
      rfl
  refine ⟨hm.typed, hm.width, ?_, hm.value.trans ?_⟩
  · rw [hcreate]
    exact (offset.offset_symbolic _ (by decide) h.nonconstant h.folded).1
  · have hidx : idx < 2 ^ 32 := (Nat.le_add_left _ _).trans_lt hlt
    rw [BitVec.toNat_add, Expr.bits_toNat h.width, const, bits_constant, BitVec.toNat_ofNat,
      Nat.mod_eq_of_lt hidx, Nat.mod_eq_of_lt hlt]

/-- The widths of accesses: a boolean, or whole bytes. -/
def IsAccess (w : Width) : Prop := w = 1 ∨ ∃ N : Nat, 0 < N ∧ w = N * 8

/-- The bytes that an access of a width touches. -/
def accessBytes (w : Width) : Nat := if w = 1 then 1 else w / 8

theorem accessBytes_mul {N : Nat} : accessBytes (N * 8) = N := by
  unfold accessBytes
  rw [if_neg (by lia), Nat.mul_div_cancel _ (by decide)]

/-- The value that is read from the bytes; a boolean is the low bit of its byte. -/
def loadWidth (little : Bool) (w : Width) (m : Bytes) (a : Nat) : Nat :=
  if w = 1 then (m a).toNat % 2 else m.load little (w / 8) a

theorem loadWidth_mul {little : Bool} {N : Nat} {m : Bytes} {a : Nat} : loadWidth little (N * 8) m a = m.load little N a := by
  unfold loadWidth
  rw [if_neg (by lia), Nat.mul_div_cancel _ (by decide)]

/-- The bytes after a value of a width is written; a boolean is written as a byte. -/
def storeWidth (little : Bool) (w : Width) (m : Bytes) (a v : Nat) : Bytes :=
  m.store little (accessBytes w) a v

/-- An offset as a program gives it: of any width, and built by the constructors. -/
structure OffsetOk (offset : Expr) : Prop where
  typed : offset.WellTyped
  folded : offset.Folded

/-- The offset cut to 32 bits is a constant or symbolic, and the same number when it is small. -/
theorem OffsetOk.cut {offset : Expr} (h : OffsetOk offset) (σ : Assignment)
    (hlt : offset.value σ < 2 ^ 32) : (ZExtExpr.create offset 32).value σ = offset.value σ ∧
      ((ZExtExpr.create offset 32).isConstant = false → (ZExtExpr.create offset 32).Symbolic) := by
  have hm := ZExtExpr.create_means σ (w := 32) h.typed fun _ => by decide
  refine ⟨?_, fun hc => ⟨hm.typed, hm.width, hc,
    (ZExtExpr.create_tame h.folded.tame 32).all⟩⟩
  rw [hm.value, Expr.value, Nat.mod_eq_of_lt hlt]

namespace ObjectState

section
variable {σ : Assignment} {n : Nat} {m : Bytes} {little : Bool} {a N : Nat}

/-- The bytes of a read make up the number. -/
theorem readBytes_spec
    {byte : ObjectState → StaticIds → Nat → Option (Expr × ObjectState × StaticIds)}
    (hbyte : ∀ i < N, ∀ os ids, os.Represents σ n m → ∃ e os' ids',
      byte os ids i = some (e, os', ids') ∧ os'.Represents σ n m ∧
        e.Means σ 8 (m (a + Bytes.lane little N i)).toNat)
    {k : Nat} (hk : k < N) {os : ObjectState} (h : os.Represents σ n m) (ids : StaticIds) :
    ∃ e os' ids', readBytes byte k os ids = some (e, os', ids') ∧ os'.Represents σ n m ∧
      e.Means σ (8 * (k + 1))
        (∑ i ∈ Finset.range (k + 1), (m (a + Bytes.lane little N i)).toNat * 2 ^ (8 * i)) := by
  induction k with
  | zero =>
    obtain ⟨e, os', ids', hrun, hrep, hm⟩ := hbyte 0 hk os ids h
    refine ⟨e, os', ids', hrun, hrep, hm.typed, hm.width, hm.value.trans ?_⟩
    rw [Finset.sum_range_one, Nat.mul_zero, Nat.pow_zero, Nat.mul_one]
  | succ k ih =>
    obtain ⟨r, os₁, ids₁, hrun₁, hrep₁, hr⟩ := ih (by omega)
    obtain ⟨b, os₂, ids₂, hrun₂, hrep₂, hb⟩ := hbyte (k + 1) hk os₁ ids₁ hrep₁
    have hm := ConcatExpr.create_means σ hb.typed hr.typed
    refine ⟨ConcatExpr.create b r, os₂, ids₂, ?_, hrep₂, hm.typed, ?_, hm.value.trans ?_⟩
    · rw [readBytes, hrun₁, Option.bind_some, hrun₂]
      rfl
    · rw [hm.width, hb.width, hr.width]
      lia
    · have hlt := r.value_lt σ
      rw [concat_value, ← Nat.shiftLeft_add_eq_or_of_lt hlt, hb.value, hr.value, hr.width,
        Nat.shiftLeft_eq, Finset.sum_range_succ _ (k + 1), Nat.add_comm]

theorem readWidth_spec
    {byte : ObjectState → StaticIds → Nat → Option (Expr × ObjectState × StaticIds)}
    (hN : 0 < N) (hbyte : ∀ i < N, ∀ os ids, os.Represents σ n m → ∃ e os' ids',
      byte os ids i = some (e, os', ids') ∧ os'.Represents σ n m ∧ e.Means σ 8 (m (a + i)).toNat)
    {os : ObjectState} (h : os.Represents σ n m) (ids : StaticIds) :
    ∃ e os' ids', readWidth little byte os ids (N * 8) = some (e, os', ids') ∧
      os'.Represents σ n m ∧ e.Means σ (N * 8) (Bytes.load little N m a) := by
  obtain ⟨k, rfl⟩ := Nat.exists_eq_succ_of_ne_zero (Nat.pos_iff_ne_zero.mp hN)
  have hlane : ∀ i < k + 1, ∀ os ids, os.Represents σ n m → ∃ e os' ids',
      byte os ids (Bytes.lane little (k + 1) i) = some (e, os', ids') ∧ os'.Represents σ n m ∧
        e.Means σ 8 (m (a + Bytes.lane little (k + 1) i)).toNat :=
    fun i hi os ids hos => hbyte _ (Bytes.lane_lt hi) os ids hos
  obtain ⟨e, os', ids', hrun, hrep, hm⟩ := readBytes_spec hlane (Nat.lt_succ_self k) h ids
  refine ⟨e, os', ids', ?_, hrep, hm.typed, hm.width.trans (Nat.mul_comm _ _), hm.value⟩
  unfold readWidth
  rw [Nat.mul_div_cancel _ (by decide)]
  dsimp only
  rw [if_pos rfl]
  exact hrun

/-- A boolean is read from the low bit of its byte. -/
theorem read_bool {e : Expr} {b : BitVec 8} (h : e.Means σ 8 b.toNat) :
    (ExtractExpr.create e 0 1).Means σ 1 (b.toNat % 2) := by
  have hm := ExtractExpr.create_correct σ e 0 1 h.typed Nat.one_pos (by rw [h.width]; decide)
  rwa [h.value, Nat.shiftRight_zero, pow_one] at hm

theorem readAt_spec {os : ObjectState} (h : os.Represents σ n m) (ids : StaticIds) {offset : Nat}
    {w : Width} (hw : IsAccess w) (hin : offset + accessBytes w ≤ n) : ∃ e os' ids',
    os.readAt little ids offset w = some (e, os', ids') ∧ os'.Represents σ n m ∧
      e.Means σ w (loadWidth little w m offset) := by
  rcases hw with rfl | ⟨N, hN, rfl⟩
  · have hlt : offset < n := hin
    obtain ⟨e, os', ids', hrun, hrep, hm⟩ := read8At_spec h ids hlt
    refine ⟨_, os', ids', ?_, hrep, read_bool hm⟩
    rw [readAt, if_pos rfl, hrun]
    rfl
  · have hne : ¬ N * 8 = 1 := by lia
    rw [accessBytes_mul] at hin
    rw [readAt, if_neg hne, loadWidth_mul]
    refine readWidth_spec hN ?_ h ids
    intro i hi os ids hos
    exact read8At_spec hos ids (by lia)

/-- A read at a symbolic offset. -/
theorem read_symbolic {os : ObjectState} (h : os.Represents σ n m) (ids : StaticIds)
    {offset : Expr} (ho : offset.Symbolic) {w : Width} (hw : IsAccess w)
    (hin : offset.value σ + accessBytes w ≤ n) : ∃ e os' ids',
    (if w = 1 then (os.read8 ids offset).map fun r => (ExtractExpr.create r.1 0 1, r.2)
      else readWidth little
        (fun os ids idx => os.read8 ids (AddExpr.create offset (const idx 32))) os ids w) =
        some (e, os', ids') ∧ os'.Represents σ n m ∧
      e.Means σ w (loadWidth little w m (offset.value σ)) := by
  have hsmall := h.small
  rcases hw with rfl | ⟨N, hN, rfl⟩
  · obtain ⟨e, os', ids', hrun, hrep, hm⟩ :=
      read8_spec h ids ho.typed ho.width ho.nonconstant hin
    refine ⟨_, os', ids', ?_, hrep, read_bool hm⟩
    rw [if_pos rfl, hrun]
    rfl
  · have hne : ¬ N * 8 = 1 := by lia
    rw [accessBytes_mul] at hin
    rw [if_neg hne, loadWidth_mul]
    refine readWidth_spec hN ?_ h ids
    intro i hi os ids hos
    have hlt : offset.value σ + i < 2 ^ 32 := by omega
    obtain ⟨ht, hw, hc, hv⟩ := ho.add σ hlt
    rw [← hv]
    exact read8_spec hos ids ht hw hc (by omega)

theorem read_spec {os : ObjectState} (h : os.Represents σ n m) (ids : StaticIds) {offset : Expr}
    (ho : OffsetOk offset) {w : Width} (hw : IsAccess w)
    (hin : offset.value σ + accessBytes w ≤ n) : ∃ e os' ids',
    os.read little ids offset w = some (e, os', ids') ∧ os'.Represents σ n m ∧
      e.Means σ w (loadWidth little w m (offset.value σ)) := by
  have hsmall := h.small
  obtain ⟨hv, hsym⟩ := ho.cut σ (by omega)
  rw [← hv] at hin ⊢
  unfold read
  split
  · rename_i v c heq
    rw [heq, constant_value] at hin
    rw [heq, constant_value]
    exact readAt_spec h ids hw hin
  · rename_i hc
    exact read_symbolic h ids (hsym (Expr.nonconstant hc)) hw hin

theorem range_split {N x : Nat} {pre post : List Nat} (h : List.range N = pre ++ x :: post) :
    x = pre.length ∧ x < N := by
  have hget : (List.range N)[pre.length]? = some x := by
    rw [h, List.getElem?_append_right (Nat.le_refl _), Nat.sub_self, List.getElem?_cons_zero]
  obtain ⟨hlt, hx⟩ := List.getElem?_eq_some_iff.mp hget
  rw [List.getElem_range] at hx
  rw [List.length_range] at hlt
  omega

/-- A byte of a value. -/
theorem extract_byte {value : Expr} (hvalue : value.WellTyped) {i : Nat}
    (hi : 8 * i + 8 ≤ value.getWidth) : (ExtractExpr.create value (8 * i) 8).WellTyped ∧
      (ExtractExpr.create value (8 * i) 8).getWidth = 8 ∧
      (ExtractExpr.create value (8 * i) 8).bits σ 8 =
        BitVec.ofNat 8 (value.value σ >>> (8 * i)) := by
  have hm := ExtractExpr.create_correct σ value (8 * i) 8 hvalue (by decide) hi
  refine ⟨hm.typed, hm.width, ?_⟩
  rw [Expr.bits, hm.value]
  apply BitVec.eq_of_toNat_eq
  rw [BitVec.toNat_ofNat, BitVec.toNat_ofNat, Nat.mod_mod]

theorem writeWidth_spec {byte : ObjectState → Nat → Expr → Option ObjectState} {value : Expr}
    (hvalue : value.WellTyped) (hw : value.getWidth = N * 8)
    (hbyte : ∀ i < N, ∀ (e : Expr) (os : ObjectState) (m : Bytes), e.WellTyped → e.getWidth = 8 →
      os.Represents σ n m → ∃ os', byte os i e = some os' ∧
        os'.Represents σ n (Function.update m (a + i) (e.bits σ 8)))
    {os : ObjectState} (h : os.Represents σ n m) : ∃ os',
    writeWidth little byte os value = some os' ∧
      os'.Represents σ n (m.store little N a (value.value σ)) := by
  have hN : value.getWidth / 8 = N := by rw [hw, Nat.mul_div_cancel _ (by decide)]
  unfold writeWidth
  dsimp only
  rw [hN, if_pos hw, ← Bytes.storeFirst_all]
  obtain ⟨os', hrun, hrep⟩ := List.foldlM_rule
    (f := fun os i => byte os (Bytes.lane little N i) (ExtractExpr.create value (8 * i) 8))
    (fun pre os => os.Represents σ n (m.storeFirst little N a (value.value σ) pre.length))
    (l := List.range N) (s := os) (by rwa [List.length_nil, Bytes.storeFirst_zero]) <| by
      intro pre x post t hsplit ht
      obtain ⟨hx, hlt⟩ := range_split hsplit
      obtain ⟨htyped, hwidth, hbits⟩ := extract_byte (σ := σ) hvalue (i := x) (by lia)
      have hlane : Bytes.lane little N x < N := Bytes.lane_lt hlt
      obtain ⟨t', hrun, hrep⟩ := hbyte _ hlane _ t _ htyped hwidth ht
      refine ⟨t', hrun, ?_⟩
      rw [hbits, hx] at hrep
      rw [List.length_append, List.length_singleton, Bytes.storeFirst_succ _ _ _ (hx ▸ hlt)]
      exact hrep
  rw [List.length_range] at hrep
  exact ⟨os', hrun, hrep⟩

theorem writeNumber_spec {os : ObjectState} (h : os.Represents σ n m) (offset value : Nat) :
    (os.writeNumber little N offset value).Represents σ n (m.store little N offset value) := by
  have hfirst : ∀ k ≤ N, ((List.range k).foldl (fun os i => os.write8At
      (offset + Bytes.lane little N i) (BitVec.ofNat 8 (value >>> (8 * i)))) os).Represents σ n
        (m.storeFirst little N offset value k) := by
    intro k
    induction k with
    | zero =>
      intro _
      rwa [Bytes.storeFirst_zero]
    | succ k ih =>
      intro hk
      rw [List.range_succ, List.foldl_append, Bytes.storeFirst_succ _ _ _ hk]
      exact (ih (by omega)).write8At _ _
  rw [← Bytes.storeFirst_all]
  exact hfirst N (Nat.le_refl N)

/-- The byte of a boolean. -/
theorem zext_bool {value : Expr} (hvalue : value.WellTyped) (hw : value.getWidth = 1) :
    (ZExtExpr.create value 8).WellTyped ∧ (ZExtExpr.create value 8).getWidth = 8 ∧
      (ZExtExpr.create value 8).bits σ 8 = BitVec.ofNat 8 (value.value σ) := by
  have hm := ZExtExpr.create_means σ (w := 8) hvalue fun _ => by decide
  have hlt := value.value_lt σ
  rw [hw] at hlt
  refine ⟨hm.typed, hm.width, ?_⟩
  rw [Expr.bits, hm.value, Expr.value, Nat.mod_eq_of_lt (hlt.trans (by decide))]

theorem writeExprAt_spec {os : ObjectState} (h : os.Represents σ n m) (offset : Nat) {value : Expr}
    (hvalue : value.WellTyped) (hw : IsAccess value.getWidth) : ∃ os',
    os.writeExprAt little offset value = some os' ∧
      os'.Represents σ n (storeWidth little value.getWidth m offset (value.value σ)) := by
  unfold writeExprAt storeWidth
  rcases hw with hw | ⟨N, hN, hw⟩
  · obtain ⟨htyped, hwidth, hbits⟩ := zext_bool (σ := σ) hvalue hw
    refine ⟨_, if_pos hw, ?_⟩
    have hone : accessBytes 1 = 1 := rfl
    rw [hw, hone, Bytes.store_one, ← hbits]
    exact h.write8ExprAt offset htyped hwidth
  · have hne : ¬ value.getWidth = 1 := by lia
    rw [if_neg hne, hw, accessBytes_mul]
    refine writeWidth_spec hvalue hw ?_ h
    intro i _ e os m he hew hos
    exact ⟨_, rfl, hos.write8ExprAt (offset + i) he hew⟩

/-- The constants that are not written by the general case. -/
theorem access_power {w : Width} (hw : IsAccess w) (h : w ≤ 64 ∧ isPowerOfTwo w = true) :
    w = 1 ∨ w = 8 ∨ w = 16 ∨ w = 32 ∨ w = 64 := by
  obtain ⟨hle, hpow⟩ := h
  rcases hw with rfl | ⟨N, hN, rfl⟩
  · exact .inl rfl
  · have hN8 : N ≤ 8 := by lia
    interval_cases N <;> first | decide | exact absurd hpow (by decide)

theorem writeAt_spec {os : ObjectState} (h : os.Represents σ n m) (offset : Nat) {value : Expr}
    (hvalue : value.WellTyped) (hw : IsAccess value.getWidth) : ∃ os',
    os.writeAt little offset value = some os' ∧
      os'.Represents σ n (storeWidth little value.getWidth m offset (value.value σ)) := by
  unfold writeAt
  split
  · rename_i w v
    split
    · rename_i hpow
      have hone : ∀ {u : Width} (x : BitVec u), accessBytes u = 1 →
          (os.write8At offset (x.setWidth 8)).Represents σ n
            (storeWidth little u m offset x.toNat) := by
        intro u x hu
        rw [storeWidth, hu, Bytes.store_one, BitVec.ofNat_toNat]
        exact h.write8At offset _
      have hmany : ∀ {u : Width} (x : BitVec u) (k : Nat), accessBytes u = k →
          (os.writeNumber little k offset x.toNat).Represents σ n
            (storeWidth little u m offset x.toNat) := by
        intro u x k hu
        rw [storeWidth, hu]
        exact writeNumber_spec h offset x.toNat
      rw [constant_value]
      rcases access_power hw hpow with rfl | rfl | rfl | rfl | rfl
      · exact ⟨_, rfl, hone v rfl⟩
      · exact ⟨_, rfl, hone v rfl⟩
      · exact ⟨_, rfl, hmany v 2 rfl⟩
      · exact ⟨_, rfl, hmany v 4 rfl⟩
      · exact ⟨_, rfl, hmany v 8 rfl⟩
    · exact writeExprAt_spec h offset hvalue hw
  · exact writeExprAt_spec h offset hvalue hw

theorem write_symbolic {os : ObjectState} (h : os.Represents σ n m) {offset value : Expr}
    (ho : offset.Symbolic) (hvalue : value.WellTyped) (hw : IsAccess value.getWidth)
    (hin : offset.value σ + accessBytes value.getWidth ≤ n) : ∃ os',
    (if value.getWidth = 1 then os.write8 offset (ZExtExpr.create value 8)
      else writeWidth little
        (fun os idx byte => os.write8 (AddExpr.create offset (const idx 32)) byte) os value) =
        some os' ∧
      os'.Represents σ n
        (storeWidth little value.getWidth m (offset.value σ) (value.value σ)) := by
  have hsmall := h.small
  unfold storeWidth
  rcases hw with hw | ⟨N, hN, hw⟩
  · obtain ⟨htyped, hwidth, hbits⟩ := zext_bool (σ := σ) hvalue hw
    have hone : accessBytes 1 = 1 := rfl
    rw [if_pos hw, hw, hone, Bytes.store_one, ← hbits]
    exact h.write8 ho.typed ho.width ho.nonconstant htyped hwidth
  · have hne : ¬ value.getWidth = 1 := by lia
    rw [hw, accessBytes_mul] at hin
    rw [if_neg hne, hw, accessBytes_mul]
    refine writeWidth_spec hvalue hw ?_ h
    intro i hi e os m he hew hos
    have hlt : offset.value σ + i < 2 ^ 32 := by omega
    obtain ⟨ht, hwid, hc, hv⟩ := ho.add σ hlt
    rw [← hv]
    exact hos.write8 ht hwid hc he hew

theorem write_spec {os : ObjectState} (h : os.Represents σ n m) {offset value : Expr}
    (ho : OffsetOk offset) (hvalue : value.WellTyped) (hw : IsAccess value.getWidth)
    (hin : offset.value σ + accessBytes value.getWidth ≤ n) : ∃ os',
    os.write little offset value = some os' ∧
      os'.Represents σ n
        (storeWidth little value.getWidth m (offset.value σ) (value.value σ)) := by
  have hsmall := h.small
  obtain ⟨hv, hsym⟩ := ho.cut σ (by omega)
  rw [← hv] at hin ⊢
  unfold write
  split
  · rename_i v c heq
    rw [heq, constant_value]
    exact writeAt_spec h c.toNat hvalue hw
  · rename_i hc
    exact write_symbolic h (hsym (Expr.nonconstant hc)) hvalue hw hin

end

end ObjectState

end Encider
