import Encider.Exec.Memory
import Encider.Expr.Hash

/-! The switch instruction of the main thread and of an asynchronous one, outside seeding. -/

namespace Encider

open Encider.Expr

/-- The words that an expression can be under some constraints. -/
def feasibleWords (cs : List Constraint) {w : Width} (e : Word w) : Set (BitVec w) :=
  {v | ∃ σ : Assignment, (∀ d ∈ cs, d.Holds σ) ∧ e.val.bits σ w = v}

/-- `Executor::toUnique`. -/
def toUnique (S : ValueSolver) (cs : List Constraint) {w : Width} (e : Word w) : Word w :=
  if e.val.isConstant then e
  else
    let value := BitVec.ofNat w (S.getValue cs e.val)
    if S.mustBeTrue cs (Constraint.eqConst e value) then ⟨constant w value, trivial, rfl⟩ else e

/-- `stats::forks` has reached `MaxForks`, and what `theRNG` draws. -/
structure BranchOptions where
  maxForksReached : Bool := false
  draw : Nat → Nat := fun _ => 0

/-- The states of `Executor::branch`, `n` of them new: each is branched off one drawn among the
states before it, which grows one deeper. -/
def branchStates (draw : Nat → Nat) (state : PathState) : Nat → List PathState
  | 0 => [state]
  | n + 1 =>
    let result := branchStates draw state n
    let k := draw n % (n + 1)
    let es := (result[k]?).getD state
    let es := { es with depth := es.depth + 1 }
    result.set k es ++ [es.copy]

/-- Each of the states that are left gets its condition. -/
def addConditions (forBranch : Bool) :
    List (Option PathState) → List Constraint → Option (List (Option PathState))
  | some s :: result, c :: conditions =>
    (s.addConstraint c forBranch).bind fun s' =>
      (addConditions forBranch result conditions).map (some s' :: ·)
  | none :: result, _ :: conditions => (addConditions forBranch result conditions).map (none :: ·)
  | _, _ => some []

/-- `Executor::branch` and `Executor::branchThread`, which asserts that there is a condition. -/
def branch (o : BranchOptions) (state : PathState) (conditions : List Constraint)
    (forBranch : Bool) : Option (List (Option PathState)) :=
  if conditions.length = 0 then none
  else if o.maxForksReached then
    addConditions forBranch ((List.range conditions.length).map fun i =>
      if i = o.draw 0 % conditions.length then some state else none) conditions
  else
    addConditions forBranch ((branchStates o.draw state (conditions.length - 1)).map some)
      conditions

/-- A switch instruction; no two of its cases have one value. -/
structure SwitchInst (Block : Type) where
  width : Width
  caseValues : List (BitVec width × Block)
  defaultDest : Block
  distinct : (caseValues.map Prod.fst).Nodup

/-- `bbOrder`, each block with its condition in `branchTargets`. -/
abbrev BranchTargets (Block : Type) := List (Block × Constraint)

namespace BranchTargets
variable {Block : Type} [DecidableEq Block]

/-- The insertion does nothing when the block is already a target. -/
def insert (ts : BranchTargets Block) (bb : Block) (c : Constraint) : BranchTargets Block :=
  if bb ∈ ts.map Prod.fst then ts else ts ++ [(bb, c)]

/-- `res.first->second = OrExpr::create(match, res.first->second)`. -/
def orInto (ts : BranchTargets Block) (bb : Block) (c : Constraint) : BranchTargets Block :=
  ts.map fun t => if t.1 = bb then (t.1, c.or t.2) else t

end BranchTargets

namespace SwitchInst
variable {Block : Type} [DecidableEq Block] (si : SwitchInst Block)

/-- `findCaseValue`: the case of a value, if there is one. -/
def findCaseValue (v : BitVec si.width) : Option Block := si.caseValues.lookup v

/-- The block that the switch selects for a value. -/
def target (v : BitVec si.width) : Block := (si.findCaseValue v).getD si.defaultDest

/-- `Expr::compare` on the constants of the cases: by hash, then by value. -/
def caseBefore (hv : HashValue) (a b : BitVec si.width × Block) : Bool :=
  let x := (constant si.width a.1).computeHash hv
  let y := (constant si.width b.1).computeHash hv
  x.ult y || (x == y && a.1.ule b.1)

/-- The cases in the order of the map of their expressions. -/
def expressionOrder (hv : HashValue) : List (BitVec si.width × Block) :=
  si.caseValues.mergeSort (si.caseBefore hv)

/-- One round of the loop over the cases, on `defaultValue` and the targets. -/
def addCase (S : Solver) (cs : List Constraint) (cond : Word si.width)
    (st : Constraint × BranchTargets Block) (c : BitVec si.width × Block) :
    Constraint × BranchTargets Block :=
  let found := Constraint.eqConst cond c.1
  (st.1.and found.isZero,
    if S.mayBeTrue cs found then (st.2.insert c.2 Constraint.ff).orInto c.2 found else st.2)

def branchTargets (S : Solver) (hv : HashValue) (cs : List Constraint) (cond : Word si.width) :
    BranchTargets Block :=
  let st := (si.expressionOrder hv).foldl (si.addCase S cs cond) (Constraint.tt, [])
  if S.mayBeTrue cs st.1 then st.2.insert si.defaultDest st.1 else st.2

/-- The successors with their blocks; an entry without a state is skipped. -/
def transfer (ts : BranchTargets Block) (branches : List (Option PathState)) :
    List (Block × PathState) :=
  ((ts.map Prod.fst).zip branches).filterMap fun t => t.2.map fun s => (t.1, s)

/-- The switch on a condition; a constant must fit into 64 bits. -/
def execute (forBranch : Bool) (S : ValueSolver) (hv : HashValue) (o : BranchOptions)
    (state : PathState) (cond : Word si.width) : Option (List (Block × PathState)) :=
  match (toUnique S state.constraints cond).val with
  | .constant w v => if w ≤ 64 then some [(si.target (v.setWidth si.width), state)] else none
  | _ =>
    let ts := si.branchTargets S.toSolver hv state.constraints cond
    (branch o state (ts.map Prod.snd) forBranch).map (transfer ts)

/-- `Executor::executeInstruction`. -/
def executeInstruction := si.execute true

/-- `Executor::executeInstructionThread`, whose conditions are not recorded as the last ones. -/
def executeInstructionThread := si.execute false


end SwitchInst

theorem PathState.models_congr {s t : PathState} (h : t.constraints = s.constraints) :
    t.models = s.models := by
  unfold PathState.models PathState.Admits
  rw [h]

/-- A condition that can hold is added to what a state admits. -/
theorem PathState.addConstraint_models (s : PathState) {c : Constraint} (forBranch : Bool)
    (h : ∃ σ, c.Holds σ) :
    ∃ s', s.addConstraint c forBranch = some s' ∧ s'.models = s.models ∩ {σ | c.Holds σ} := by
  obtain ⟨σ, hσ⟩ := h
  cases hc : c.val.isConstant with
  | true =>
    have hall := Constraint.holds_of_constant hc hσ
    refine ⟨s, ?_, (Set.inter_eq_left.mpr fun τ _ => hall τ).symm⟩
    obtain ⟨e, hty, hw⟩ := c
    cases e with
    | constant w v =>
      obtain rfl : w = 1 := hw
      have hv : v = BitVec.ofNat 1 1 := by
        apply BitVec.eq_of_toNat_eq
        exact (constant_value σ v).symm.trans hσ
      subst hv
      rfl
    | _ => cases hc
  | false =>
    exact ⟨_, PathState.addConstraint_nonconstant s forBranch hc, PathState.models_cons c _ _⟩

theorem branchStates_constraints (draw : Nat → Nat) (state : PathState) (n : Nat) :
    ∀ t ∈ branchStates draw state n, t.constraints = state.constraints := by
  induction n with
  | zero =>
    intro t ht
    rw [List.mem_singleton.mp ht]
  | succ n ih =>
    intro t ht
    have hdrawn : (((branchStates draw state n)[draw n % (n + 1)]?).getD state).constraints =
        state.constraints := by
      cases hk : (branchStates draw state n)[draw n % (n + 1)]? with
      | none => rfl
      | some es => exact ih es (List.mem_of_getElem? hk)
    rcases List.mem_append.mp ht with ht | ht
    · rcases List.mem_or_eq_of_mem_set ht with ht | ht
      · exact ih t ht
      · rw [ht]
        exact hdrawn
    · rw [List.mem_singleton.mp ht]
      exact hdrawn

theorem branchStates_length (draw : Nat → Nat) (state : PathState) (n : Nat) :
    (branchStates draw state n).length = n + 1 := by
  induction n with
  | zero => rfl
  | succ n ih => simp [branchStates, ih]

section
variable {Block : Type}

/-- The targets whose states are left. -/
def BranchTargets.kept (ts : BranchTargets Block) (result : List (Option PathState)) :
    BranchTargets Block :=
  (result.zip ts).filterMap fun p => p.1.map fun _ => p.2

/-- A successor is at the block of a target, on the condition of the target. -/
def Entered (s : PathState) (p : Block × PathState) (t : Block × Constraint) : Prop :=
  p.1 = t.1 ∧ p.2.models = s.models ∩ {σ | t.2.Holds σ}

/-- The states left of a branch enter the targets left. -/
theorem addConditions_entered {s : PathState} (forBranch : Bool) (ts : BranchTargets Block)
    (result : List (Option PathState)) (hlen : result.length = ts.length)
    (hsame : ∀ t, some t ∈ result → t.constraints = s.constraints)
    (hsat : ∀ t ∈ ts, ∃ σ, t.2.Holds σ) :
    ∃ bs, addConditions forBranch result (ts.map Prod.snd) = some bs ∧
      List.Forall₂ (Entered s) (SwitchInst.transfer ts bs) (ts.kept result) := by
  induction ts generalizing result with
  | nil =>
    obtain rfl := List.length_eq_zero_iff.mp hlen
    exact ⟨[], rfl, .nil⟩
  | cons t ts ih =>
    cases result with
    | nil => cases hlen
    | cons r result =>
      obtain ⟨bs, hbs, hent⟩ := ih result (Nat.succ.inj hlen)
        (fun u hu => hsame u (List.mem_cons_of_mem r hu))
        (fun u hu => hsat u (List.mem_cons_of_mem t hu))
      cases r with
      | none =>
        refine ⟨none :: bs, ?_, hent⟩
        simp only [List.map_cons, addConditions, hbs, Option.map_some]
      | some u =>
        obtain ⟨u', hu', hmodels⟩ := u.addConstraint_models forBranch (hsat t List.mem_cons_self)
        refine ⟨some u' :: bs, ?_, .cons ⟨rfl, ?_⟩ hent⟩
        · simp only [List.map_cons, addConditions, hu', hbs, Option.bind_some, Option.map_some]
        · rw [hmodels, PathState.models_congr (hsame u List.mem_cons_self)]

theorem BranchTargets.kept_all (ts : BranchTargets Block) {result : List PathState}
    (hlen : result.length = ts.length) : ts.kept (result.map some) = ts := by
  induction ts generalizing result with
  | nil =>
    obtain rfl := List.length_eq_zero_iff.mp hlen
    rfl
  | cons t ts ih =>
    cases result with
    | nil => cases hlen
    | cons r result => exact congrArg (t :: ·) (ih (Nat.succ.inj hlen))

theorem BranchTargets.kept_none (ts : BranchTargets Block) (n : Nat) :
    ts.kept ((List.range n).map fun _ => none) = [] := by
  induction ts generalizing n with
  | nil => simp [BranchTargets.kept]
  | cons t ts ih =>
    cases n with
    | zero => rfl
    | succ n =>
      rw [List.range_succ_eq_map, List.map_cons, List.map_map]
      exact ih n

/-- With no more forks one target is left. -/
theorem BranchTargets.kept_one (ts : BranchTargets Block) (s : PathState) {k : Nat}
    (hk : k < ts.length) :
    ts.kept ((List.range ts.length).map fun i => if i = k then some s else none) = [ts[k]] := by
  induction ts generalizing k with
  | nil => cases hk
  | cons t ts ih =>
    rw [List.length_cons, List.range_succ_eq_map, List.map_cons, List.map_map]
    cases k with
    | zero => exact congrArg (t :: ·) (BranchTargets.kept_none ts ts.length)
    | succ k =>
      have h := ih (Nat.lt_of_succ_lt_succ hk)
      simp only [BranchTargets.kept, Function.comp_def, Nat.succ_eq_add_one, Nat.add_right_cancel_iff]
        at h ⊢
      exact h

end

theorem exists_mem_concat {α : Type} {l : List α} {a : α} {P : α → Prop} :
    (∃ x ∈ l ++ [a], P x) ↔ (∃ x ∈ l, P x) ∨ P a := by
  simp only [List.mem_append, List.mem_singleton, or_and_right, exists_or, exists_eq_left]

theorem mayBeTrue_eqConst {S : Solver} {cs : List Constraint} {w : Width} {e : Word w}
    {v : BitVec w} : S.mayBeTrue cs (Constraint.eqConst e v) = true ↔ v ∈ feasibleWords cs e := by
  rw [S.exact]
  simp only [Constraint.eqConst_holds]
  rfl

/-- What the loop has when the cases in `done` are behind it: `defaultValue` rules them all out,
and the targets are the blocks of the feasible ones, each on the values of its cases. -/
structure SwitchInst.Covered {Block : Type} {w : Width} (cs : List Constraint) (cond : Word w)
    (done : List (BitVec w × Block)) (st : Constraint × BranchTargets Block) : Prop where
  others : ∀ σ, st.1.Holds σ ↔ ∀ p ∈ done, cond.val.bits σ w ≠ p.1
  apart : (st.2.map Prod.fst).Nodup
  blocks : ∀ b, b ∈ st.2.map Prod.fst ↔ ∃ p ∈ done, p.2 = b ∧ p.1 ∈ feasibleWords cs cond
  values : ∀ t ∈ st.2, ∀ σ, (∀ d ∈ cs, d.Holds σ) →
    (t.2.Holds σ ↔ ∃ p ∈ done, p.2 = t.1 ∧ p.1 = cond.val.bits σ w)

section
variable {Block : Type} [DecidableEq Block]

theorem BranchTargets.mem_insert {ts : BranchTargets Block} {bb : Block} {c : Constraint}
    {t : Block × Constraint} :
    t ∈ ts.insert bb c ↔ t ∈ ts ∨ bb ∉ ts.map Prod.fst ∧ t = (bb, c) := by
  unfold BranchTargets.insert
  split
  · rename_i h
    simp [h]
  · rename_i h
    simp [h]

theorem BranchTargets.insert_blocks {ts : BranchTargets Block} (h : (ts.map Prod.fst).Nodup)
    (bb : Block) (c : Constraint) :
    ((ts.insert bb c).map Prod.fst).Nodup ∧
      ∀ b, b ∈ (ts.insert bb c).map Prod.fst ↔ b ∈ ts.map Prod.fst ∨ b = bb := by
  unfold BranchTargets.insert
  split
  · rename_i hbb
    refine ⟨h, ?_⟩
    intro b
    constructor
    · exact .inl
    · intro hb
      rcases hb with hb | hb
      · exact hb
      · exact hb ▸ hbb
  · rename_i hbb
    rw [List.map_append]
    refine ⟨List.Nodup.append h (List.nodup_singleton bb) (List.disjoint_singleton.mpr hbb), ?_⟩
    simp

theorem BranchTargets.orInto_blocks (ts : BranchTargets Block) (bb : Block) (c : Constraint) :
    (ts.orInto bb c).map Prod.fst = ts.map Prod.fst := by
  unfold BranchTargets.orInto
  rw [List.map_map]
  apply List.map_congr_left
  intro t _
  simp only [Function.comp]
  split <;> rfl

/-- The block of a case that is feasible gets the value of the case. -/
theorem SwitchInst.Covered.target {cs : List Constraint} {w : Width} {cond : Word w}
    {done : List (BitVec w × Block)} {st : Constraint × BranchTargets Block}
    (h : SwitchInst.Covered cs cond done st) (c : BitVec w × Block)
    {t : Block × Constraint}
    (ht : t ∈ (st.2.insert c.2 Constraint.ff).orInto c.2 (Constraint.eqConst cond c.1))
    {σ : Assignment} (hσ : ∀ d ∈ cs, d.Holds σ) :
    t.2.Holds σ ↔ ∃ p ∈ done ++ [c], p.2 = t.1 ∧ p.1 = cond.val.bits σ w := by
  obtain ⟨u, hu, rfl⟩ := List.mem_map.mp ht
  have hold : u.2.Holds σ ↔ ∃ p ∈ done, p.2 = u.1 ∧ p.1 = cond.val.bits σ w := by
    rcases BranchTargets.mem_insert.mp hu with hu | ⟨hnew, rfl⟩
    · exact h.values u hu σ hσ
    · -- a block that is no target yet has no case whose value is possible
      constructor
      · intro hff
        exact absurd hff (Constraint.ff_holds σ)
      · intro ⟨p, hp, hpc, hv⟩
        exact absurd ((h.blocks c.2).mpr ⟨p, hp, hpc, σ, hσ, hv.symm⟩) hnew
  by_cases hb : u.1 = c.2
  · rw [if_pos hb]
    rw [exists_mem_concat, Constraint.or_holds, Constraint.eqConst_holds, hold, hb, or_comm]
    simp only [true_and, eq_comm]
  · have hne : ¬ c.2 = u.1 := fun h => hb h.symm
    rw [if_neg hb, hold, exists_mem_concat]
    simp only [hne, false_and, or_false]

theorem SwitchInst.addCase_covered (si : SwitchInst Block) {S : Solver} {cs : List Constraint}
    {cond : Word si.width} {done : List (BitVec si.width × Block)}
    {st : Constraint × BranchTargets Block} (h : SwitchInst.Covered cs cond done st)
    (c : BitVec si.width × Block) :
    SwitchInst.Covered cs cond (done ++ [c]) (si.addCase S cs cond st c) := by
  have hothers : ∀ σ, (st.1.and (Constraint.eqConst cond c.1).isZero).Holds σ ↔
      ∀ p ∈ done ++ [c], cond.val.bits σ si.width ≠ p.1 := by
    intro σ
    simp only [Constraint.and_holds, Constraint.isZero_holds, Constraint.eqConst_holds, h.others,
      List.forall_mem_append, List.mem_singleton, forall_eq, ne_eq]
  unfold SwitchInst.addCase
  dsimp only
  cases hmay : S.mayBeTrue cs (Constraint.eqConst cond c.1) with
  | true =>
    have hfeas := mayBeTrue_eqConst.mp hmay
    obtain ⟨hnodup, hmem⟩ := BranchTargets.insert_blocks h.apart c.2 Constraint.ff
    refine ⟨hothers, ?_, ?_, fun t ht σ hσ => h.target c ht hσ⟩
    · rw [if_pos rfl, BranchTargets.orInto_blocks]
      exact hnodup
    · intro b
      rw [if_pos rfl, BranchTargets.orInto_blocks, hmem, h.blocks, exists_mem_concat]
      simp only [hfeas, and_true, eq_comm]
  | false =>
    have hno : c.1 ∉ feasibleWords cs cond := by
      intro hin
      rw [mayBeTrue_eqConst.mpr hin] at hmay
      cases hmay
    refine ⟨hothers, h.apart, ?_, ?_⟩
    · intro b
      rw [if_neg Bool.false_ne_true, h.blocks, exists_mem_concat]
      simp only [hno, and_false, or_false]
    · intro t ht σ hσ
      have hne : ¬ c.1 = cond.val.bits σ si.width := fun he => hno ⟨σ, hσ, he.symm⟩
      rw [h.values t ht σ hσ, exists_mem_concat]
      simp only [hne, and_false, or_false]

theorem SwitchInst.loop_covered (si : SwitchInst Block) {S : Solver} {cs : List Constraint}
    {cond : Word si.width} (order done : List (BitVec si.width × Block))
    {st : Constraint × BranchTargets Block} (h : SwitchInst.Covered cs cond done st) :
    SwitchInst.Covered cs cond (done ++ order) (order.foldl (si.addCase S cs cond) st) := by
  induction order generalizing done st with
  | nil =>
    rw [List.append_nil]
    exact h
  | cons c order ih =>
    have hstep : SwitchInst.Covered cs cond (done ++ [c]) (si.addCase S cs cond st c) :=
      si.addCase_covered h c
    have hnext := ih (done ++ [c]) hstep
    rwa [List.append_assoc] at hnext

end

/-- The values of a successor are those of its state on which its target is. -/
theorem entered_feasible {Block : Type} {state : PathState} {p : Block × PathState}
    {t : Block × Constraint} (h : Entered state p t) {w : Width} {e : Word w} {v : BitVec w} :
    v ∈ feasibleWords p.2.constraints e ↔
      ∃ σ, (∀ d ∈ state.constraints, d.Holds σ) ∧ t.2.Holds σ ∧ e.val.bits σ w = v := by
  have hmem : ∀ σ, (∀ d ∈ p.2.constraints, d.Holds σ) ↔
      (∀ d ∈ state.constraints, d.Holds σ) ∧ t.2.Holds σ := by
    intro σ
    exact (Set.ext_iff.mp h.2 σ)
  simp only [feasibleWords, Set.mem_ofPred_eq, hmem, and_assoc]

/-- What `toUnique` leaves: the only value, or the expression when there are several. -/
theorem toUnique_spec (S : ValueSolver) {cs : List Constraint} {w : Width} (e : Word w)
    (hfeas : ∃ σ : Assignment, ∀ d ∈ cs, d.Holds σ) :
    (∃ v : BitVec w, feasibleWords cs e = {v} ∧ (toUnique S cs e).val = constant w v) ∨
      ¬ (feasibleWords cs e).Subsingleton ∧ (toUnique S cs e).val.isConstant = false := by
  obtain ⟨σ, hσ⟩ := hfeas
  unfold toUnique
  cases hc : e.val.isConstant with
  | true =>
    left
    obtain ⟨e, hty, hw⟩ := e
    cases e with
    | constant u v =>
      obtain rfl : u = w := hw
      refine ⟨v, ?_, rfl⟩
      ext x
      simp only [feasibleWords, bits_constant, Set.mem_ofPred_eq, Set.mem_singleton_iff]
      exact ⟨fun ⟨_, _, h⟩ => h.symm, fun h => ⟨σ, hσ, h.symm⟩⟩
    | _ => cases hc
  | false =>
    obtain ⟨τ, hτ, hval⟩ := S.feasible cs e.val ⟨σ, hσ⟩
    have hbits : e.val.bits τ w = BitVec.ofNat w (S.getValue cs e.val) := by
      rw [Expr.bits, hval]
    rw [if_neg Bool.false_ne_true]
    dsimp only
    cases hmust : S.mustBeTrue cs (Constraint.eqConst e (BitVec.ofNat w (S.getValue cs e.val))) with
    | true =>
      left
      have hall := Solver.mustBeTrue_iff.mp hmust
      simp only [Constraint.eqConst_holds] at hall
      refine ⟨_, ?_, rfl⟩
      ext x
      constructor
      · intro ⟨ρ, hρ, hx⟩
        exact hx.symm.trans (hall ρ hρ)
      · intro hx
        exact ⟨τ, hτ, hbits.trans hx.symm⟩
    | false =>
      right
      refine ⟨?_, hc⟩
      intro hsub
      rw [← Bool.not_eq_true, Solver.mustBeTrue_iff] at hmust
      apply hmust
      intro ρ hρ
      rw [Constraint.eqConst_holds, ← hbits]
      exact hsub ⟨ρ, hρ, rfl⟩ ⟨τ, hτ, rfl⟩

/-- The states of a branch enter all the targets, or one of them when there are no more forks. -/
theorem branch_entered {Block : Type} (o : BranchOptions) (state : PathState) (forBranch : Bool)
    {ts : BranchTargets Block} (hne : ts ≠ []) (hsat : ∀ t ∈ ts, ∃ σ, t.2.Holds σ) :
    ∃ bs us, branch o state (ts.map Prod.snd) forBranch = some bs ∧
      List.Forall₂ (Entered state) (SwitchInst.transfer ts bs) us ∧
      (o.maxForksReached = false → us = ts) ∧
      (o.maxForksReached = true → ∃ t ∈ ts, us = [t]) := by
  have hpos : 0 < ts.length := List.length_pos_iff.mpr hne
  have hlength : ¬ (ts.map Prod.snd).length = 0 := by
    rw [List.length_map]
    exact Nat.pos_iff_ne_zero.mp hpos
  unfold branch
  rw [if_neg hlength, List.length_map]
  cases o.maxForksReached with
  | true =>
    have hk : o.draw 0 % ts.length < ts.length := Nat.mod_lt _ hpos
    have hsame : ∀ t, some t ∈ (List.range ts.length).map
        (fun i => if i = o.draw 0 % ts.length then some state else none) →
        t.constraints = state.constraints := by
      intro t ht
      obtain ⟨i, -, hi⟩ := List.mem_map.mp ht
      split at hi
      · rw [← Option.some.inj hi]
      · cases hi
    obtain ⟨bs, hbs, hent⟩ := addConditions_entered forBranch ts _ (by simp) hsame hsat
    rw [ts.kept_one state hk] at hent
    exact ⟨bs, _, hbs, hent, nofun, fun _ => ⟨_, List.getElem_mem hk, rfl⟩⟩
  | false =>
    have hlen : (branchStates o.draw state (ts.length - 1)).length = ts.length := by
      rw [branchStates_length]
      exact Nat.sub_add_cancel hpos
    have hsame : ∀ t, some t ∈ (branchStates o.draw state (ts.length - 1)).map some →
        t.constraints = state.constraints := by
      intro t ht
      obtain ⟨u, hu, he⟩ := List.mem_map.mp ht
      cases he
      exact branchStates_constraints o.draw state _ t hu
    obtain ⟨bs, hbs, hent⟩ := addConditions_entered forBranch ts _
      (by rw [List.length_map, hlen]) hsame hsat
    rw [ts.kept_all hlen] at hent
    exact ⟨bs, ts, hbs, hent, fun _ => rfl, nofun⟩

theorem lookup_eq_some_iff {α β : Type} [DecidableEq α] {l : List (α × β)} {a : α} {b : β}
    (h : (l.map Prod.fst).Nodup) : l.lookup a = some b ↔ (a, b) ∈ l := by
  induction l with
  | nil => simp
  | cons p l ih =>
    obtain ⟨hp, hl⟩ := List.nodup_cons.mp h
    by_cases ha : a = p.1
    · have hnot : (a, b) ∉ l := fun hin => hp (ha ▸ List.mem_map_of_mem hin)
      rw [List.lookup_cons, beq_iff_eq.mpr ha, List.mem_cons, or_iff_left hnot, Prod.ext_iff]
      simp only [Option.some.injEq, ha, true_and, eq_comm]
    · have hne : (a, b) ≠ p := fun he => ha (congrArg Prod.fst he)
      rw [List.lookup_cons, beq_false_of_ne ha, List.mem_cons, or_iff_right hne]
      exact ih hl

namespace SwitchInst
variable {Block : Type} (si : SwitchInst Block)

theorem findCaseValue_some {v : BitVec si.width} {b : Block} :
    si.findCaseValue v = some b ↔ (v, b) ∈ si.caseValues := lookup_eq_some_iff si.distinct

theorem findCaseValue_none {v : BitVec si.width} :
    si.findCaseValue v = none ↔ ∀ p ∈ si.caseValues, v ≠ p.1 := by
  simp only [findCaseValue, List.lookup_eq_none_iff, bne_iff_ne]

/-- What the loop ends with. -/
structure Found (cs : List Constraint) (cond : Word si.width)
    (st : Constraint × BranchTargets Block) : Prop where
  others : ∀ σ, st.1.Holds σ ↔ si.findCaseValue (cond.val.bits σ si.width) = none
  apart : (st.2.map Prod.fst).Nodup
  blocks : ∀ b, b ∈ st.2.map Prod.fst ↔ ∃ v ∈ feasibleWords cs cond, si.findCaseValue v = some b
  values : ∀ t ∈ st.2, ∀ σ, (∀ d ∈ cs, d.Holds σ) →
    (t.2.Holds σ ↔ si.findCaseValue (cond.val.bits σ si.width) = some t.1)

/-- The default block is the target of a feasible case, and some feasible value has no case. -/
def LosesDefault (cs : List Constraint) (cond : Word si.width) : Prop :=
  (∃ v ∈ feasibleWords cs cond, si.findCaseValue v = some si.defaultDest) ∧
    ∃ v ∈ feasibleWords cs cond, si.findCaseValue v = none

/-- The targets are different blocks, each on the feasible values that it is selected for. -/
structure Exact (cs : List Constraint) (cond : Word si.width) (ts : BranchTargets Block) :
    Prop where
  apart : (ts.map Prod.fst).Nodup
  all : ∀ v ∈ feasibleWords cs cond, si.target v ∈ ts.map Prod.fst
  values : ∀ t ∈ ts, ∀ σ, (∀ d ∈ cs, d.Holds σ) →
    (t.2.Holds σ ↔ si.target (cond.val.bits σ si.width) = t.1)

section
variable {si} {S : Solver} {cs : List Constraint} {cond : Word si.width}

theorem Found.mayBeTrue {st : Constraint × BranchTargets Block} (h : si.Found cs cond st) :
    S.mayBeTrue cs st.1 = true ↔ ∃ v ∈ feasibleWords cs cond, si.findCaseValue v = none := by
  rw [S.exact]
  constructor
  · intro ⟨σ, hσ, hd⟩
    exact ⟨_, ⟨σ, hσ, rfl⟩, (h.others σ).mp hd⟩
  · intro ⟨v, ⟨σ, hσ, hb⟩, hn⟩
    subst hb
    exact ⟨σ, hσ, (h.others σ).mpr hn⟩

theorem target_of_some {v : BitVec si.width} {b : Block} (h : si.findCaseValue v = some b) :
    si.target v = b := by
  rw [target, h, Option.getD_some]

theorem target_of_none {v : BitVec si.width} (h : si.findCaseValue v = none) :
    si.target v = si.defaultDest := by
  rw [target, h, Option.getD_none]

/-- A block is selected by a case, unless it is the default block. -/
theorem findCaseValue_of_target {v : BitVec si.width} {b : Block} (h : si.target v = b)
    (hne : si.findCaseValue v = none → b ≠ si.defaultDest) : si.findCaseValue v = some b := by
  cases hf : si.findCaseValue v with
  | none => exact absurd (h.symm.trans (target_of_none hf)) (hne hf)
  | some b' => rw [← h, target_of_some hf]

end

/-- Each feasible value belongs to exactly one successor, at the block that the switch selects. -/
def Selects (cs : List Constraint) (cond : Word si.width) (succs : List (Block × PathState)) :
    Prop :=
  ∀ v ∈ feasibleWords cs cond, ∃ i, ∃ h : i < succs.length,
    v ∈ feasibleWords succs[i].2.constraints cond ∧ succs[i].1 = si.target v ∧
    ∀ j, (hj : j < succs.length) → v ∈ feasibleWords succs[j].2.constraints cond → j = i

section
variable {si} {state : PathState} {cond : Word si.width} {succs : List (Block × PathState)}
  {ts : BranchTargets Block}

theorem selects_of_exact (hent : List.Forall₂ (Entered state) succs ts)
    (h : si.Exact state.constraints cond ts) : si.Selects state.constraints cond succs := by
  obtain ⟨hlen, hget⟩ := List.forall₂_iff_get.mp hent
  intro v hv
  obtain ⟨t, ht, htar⟩ := List.mem_map.mp (h.all v hv)
  obtain ⟨i, hi, hti⟩ := List.getElem_of_mem ht
  have hi' : i < succs.length := hlen ▸ hi
  have hin : ∀ j, (hj : j < succs.length) → (hj' : j < ts.length) →
      (v ∈ feasibleWords succs[j].2.constraints cond ↔ si.target v = ts[j].1) := by
    intro j hj hj'
    have hentered : Entered state succs[j] ts[j] := hget j hj hj'
    rw [entered_feasible hentered]
    constructor
    · intro ⟨σ, hσ, hc, hb⟩
      rw [← hb]
      exact (h.values _ (List.getElem_mem _) σ hσ).mp hc
    · intro heq
      obtain ⟨σ, hσ, hb⟩ := hv
      refine ⟨σ, hσ, ?_, hb⟩
      exact (h.values _ (List.getElem_mem _) σ hσ).mpr (by rw [hb]; exact heq)
  refine ⟨i, hi', (hin i hi' hi).mpr (by rw [hti, htar]), ?_, ?_⟩
  · rw [← htar, ← hti]
    exact (hget i hi' hi).1
  · intro j hj hvj
    have hj' : j < ts.length := hlen ▸ hj
    have hblock : ts[j].1 = ts[i].1 := by rw [← (hin j hj hj').mp hvj, hti, htar]
    have hsame : ts[j] = ts[i] :=
      List.inj_on_of_nodup_map h.apart (List.getElem_mem hj') (List.getElem_mem hi) hblock
    exact (List.Nodup.getElem_inj_iff h.apart.of_map).mp hsame

/-- A value in no target is in no successor. -/
theorem not_selects_of_lost {v : BitVec si.width} (hent : List.Forall₂ (Entered state) succs ts)
    (hv : v ∈ feasibleWords state.constraints cond)
    (hlost : ∀ t ∈ ts, ∀ σ, (∀ d ∈ state.constraints, d.Holds σ) → t.2.Holds σ →
      cond.val.bits σ si.width ≠ v) : ¬ si.Selects state.constraints cond succs := by
  intro hsel
  obtain ⟨hlen, hget⟩ := List.forall₂_iff_get.mp hent
  obtain ⟨i, hi, hin, -⟩ := hsel v hv
  obtain ⟨σ, hσ, hc, hb⟩ := (entered_feasible (hget i hi (hlen ▸ hi))).mp hin
  exact hlost _ (List.getElem_mem _) σ hσ hc hb

end

variable [DecidableEq Block]

theorem loop_found (S : Solver) (hv : HashValue) (cs : List Constraint) (cond : Word si.width) :
    si.Found cs cond ((si.expressionOrder hv).foldl (si.addCase S cs cond) (Constraint.tt, [])) := by
  have hstart : Covered cs cond ([] : List (BitVec si.width × Block)) (Constraint.tt, []) :=
    ⟨by simp, List.nodup_nil, by simp, by simp⟩
  have h := si.loop_covered (S := S) (si.expressionOrder hv) [] hstart
  have hmem : ∀ p, p ∈ [] ++ si.expressionOrder hv ↔ p ∈ si.caseValues :=
    fun p => (List.mergeSort_perm _ _).mem_iff
  refine ⟨?_, h.apart, ?_, ?_⟩
  · intro σ
    rw [h.others, findCaseValue_none]
    simp only [hmem]
  · intro b
    rw [h.blocks]
    simp only [hmem, findCaseValue_some]
    constructor
    · intro ⟨p, hp, hb, hv⟩
      exact ⟨p.1, hv, hb ▸ hp⟩
    · intro ⟨v, hv, hp⟩
      exact ⟨(v, b), hp, rfl, hv⟩
  · intro t ht σ hσ
    rw [h.values t ht σ hσ]
    simp only [hmem, findCaseValue_some]
    constructor
    · intro ⟨p, hp, hb, hv⟩
      exact hv ▸ hb ▸ hp
    · intro hp
      exact ⟨_, hp, rfl, rfl⟩

section
variable {si} {S : Solver} {hv : HashValue} {cs : List Constraint} {cond : Word si.width}

/-- Unless the default block is shared, the targets are the blocks that the switch selects. -/
theorem branchTargets_exact (hkeep : ¬ si.LosesDefault cs cond) :
    si.Exact cs cond (si.branchTargets S hv cs cond) := by
  have h := si.loop_found S hv cs cond
  unfold branchTargets
  dsimp only
  generalize (si.expressionOrder hv).foldl (si.addCase S cs cond) (Constraint.tt, []) = st at h ⊢
  cases hmay : S.mayBeTrue cs st.1 with
  | true =>
    have hnone := h.mayBeTrue.mp hmay
    have hcase : ¬ ∃ v ∈ feasibleWords cs cond, si.findCaseValue v = some si.defaultDest :=
      fun hc => hkeep ⟨hc, hnone⟩
    have hnew : si.defaultDest ∉ st.2.map Prod.fst := fun hin => hcase ((h.blocks _).mp hin)
    obtain ⟨hnodup, hblocks⟩ := BranchTargets.insert_blocks h.apart si.defaultDest st.1
    rw [if_pos rfl]
    refine ⟨hnodup, ?_, ?_⟩
    · intro v hvf
      rw [hblocks, h.blocks]
      cases hf : si.findCaseValue v with
      | none => exact .inr (target_of_none hf)
      | some b => exact .inl ⟨v, hvf, by rw [hf, target_of_some hf]⟩
    · intro t ht σ hσ
      rcases BranchTargets.mem_insert.mp ht with ht | ⟨_, rfl⟩
      · have hne : t.1 ≠ si.defaultDest := fun he => hnew (he ▸ List.mem_map_of_mem ht)
        rw [h.values t ht σ hσ]
        exact ⟨target_of_some, fun htar => findCaseValue_of_target htar fun _ => hne⟩
      · rw [h.others]
        refine ⟨target_of_none, ?_⟩
        intro htar
        cases hf : si.findCaseValue (cond.val.bits σ si.width) with
        | none => rfl
        | some b =>
          rw [target_of_some hf] at htar
          exact absurd ⟨_, ⟨σ, hσ, rfl⟩, hf.trans (congrArg some htar)⟩ hcase
  | false =>
    have hsome : ∀ v ∈ feasibleWords cs cond, si.findCaseValue v ≠ none := by
      intro v hvf hf
      rw [(h.mayBeTrue (S := S)).mpr ⟨v, hvf, hf⟩] at hmay
      cases hmay
    rw [if_neg Bool.false_ne_true]
    refine ⟨h.apart, ?_, ?_⟩
    · intro v hvf
      obtain ⟨b, hb⟩ := Option.ne_none_iff_exists'.mp (hsome v hvf)
      rw [h.blocks]
      exact ⟨v, hvf, by rw [hb, target_of_some hb]⟩
    · intro t ht σ hσ
      rw [h.values t ht σ hσ]
      refine ⟨target_of_some, ?_⟩
      intro htar
      exact findCaseValue_of_target htar fun hf => absurd hf (hsome _ ⟨σ, hσ, rfl⟩)

/-- When the default block is shared, no target is on a value without a case. -/
theorem branchTargets_cases (hlost : si.LosesDefault cs cond) {t : Block × Constraint}
    (ht : t ∈ si.branchTargets S hv cs cond) {σ : Assignment} (hσ : ∀ d ∈ cs, d.Holds σ)
    (hc : t.2.Holds σ) : si.findCaseValue (cond.val.bits σ si.width) ≠ none := by
  have h := si.loop_found S hv cs cond
  unfold branchTargets at ht
  dsimp only at ht
  generalize (si.expressionOrder hv).foldl (si.addCase S cs cond) (Constraint.tt, []) = st at h ht
  have hin : t ∈ st.2 := by
    split at ht
    · rcases BranchTargets.mem_insert.mp ht with ht | ⟨hnew, _⟩
      · exact ht
      · exact absurd ((h.blocks _).mpr hlost.1) hnew
    · exact ht
  rw [(h.values t hin σ hσ).mp hc]
  exact Option.some_ne_none _

/-- Every target is possible. -/
theorem branchTargets_possible {t : Block × Constraint}
    (ht : t ∈ si.branchTargets S hv cs cond) : ∃ σ, (∀ d ∈ cs, d.Holds σ) ∧ t.2.Holds σ := by
  have h := si.loop_found S hv cs cond
  unfold branchTargets at ht
  dsimp only at ht
  generalize (si.expressionOrder hv).foldl (si.addCase S cs cond) (Constraint.tt, []) = st at h ht
  have hold : t ∈ st.2 → ∃ σ, (∀ d ∈ cs, d.Holds σ) ∧ t.2.Holds σ := by
    intro hin
    obtain ⟨v, ⟨σ, hσ, hb⟩, hf⟩ := (h.blocks t.1).mp (List.mem_map_of_mem hin)
    subst hb
    exact ⟨σ, hσ, (h.values t hin σ hσ).mpr hf⟩
  split at ht
  · rename_i hmay
    rcases BranchTargets.mem_insert.mp ht with ht | ⟨_, rfl⟩
    · exact hold ht
    · exact (S.exact cs st.1).mp hmay
  · exact hold ht

/-- There is a target when there is a feasible value. -/
theorem branchTargets_nonempty (hfeas : (feasibleWords cs cond).Nonempty) :
    si.branchTargets S hv cs cond ≠ [] := by
  have h := si.loop_found S hv cs cond
  obtain ⟨v, hvf⟩ := hfeas
  unfold branchTargets
  dsimp only
  generalize (si.expressionOrder hv).foldl (si.addCase S cs cond) (Constraint.tt, []) = st at h ⊢
  cases hf : si.findCaseValue v with
  | none =>
    rw [if_pos (h.mayBeTrue.mpr ⟨v, hvf, hf⟩)]
    intro hnil
    have hin := ((BranchTargets.insert_blocks h.apart si.defaultDest st.1).2 _).mpr (.inr rfl)
    rw [hnil] at hin
    cases hin
  | some b =>
    have hin := (h.blocks b).mpr ⟨v, hvf, hf⟩
    split
    · intro hnil
      have hin' := ((BranchTargets.insert_blocks h.apart si.defaultDest st.1).2 b).mpr (.inl hin)
      rw [hnil] at hin'
      cases hin'
    · intro hnil
      rw [hnil] at hin
      cases hin

end

section
variable {si} {S : ValueSolver} {hv : HashValue} {o : BranchOptions} {state : PathState}
  {cond : Word si.width}

/-- The switch on a condition with several values. -/
theorem execute_several (forBranch : Bool) (hfeas : ∃ σ : Assignment, state.Admits σ)
    (hconst : (toUnique S state.constraints cond).val.isConstant = false) :
    ∃ succs us, si.execute forBranch S hv o state cond = some succs ∧
      List.Forall₂ (Entered state) succs us ∧
      (o.maxForksReached = false → us = si.branchTargets S.toSolver hv state.constraints cond) ∧
      (o.maxForksReached = true →
        ∃ t ∈ si.branchTargets S.toSolver hv state.constraints cond, us = [t]) := by
  obtain ⟨σ, hσ⟩ := hfeas
  have hne : si.branchTargets S.toSolver hv state.constraints cond ≠ [] :=
    branchTargets_nonempty ⟨_, σ, hσ, rfl⟩
  have hsat : ∀ t ∈ si.branchTargets S.toSolver hv state.constraints cond, ∃ σ, t.2.Holds σ := by
    intro t ht
    obtain ⟨τ, -, hτ⟩ := branchTargets_possible ht
    exact ⟨τ, hτ⟩
  obtain ⟨bs, us, hbs, hent, hall, hone⟩ := branch_entered o state forBranch hne hsat
  refine ⟨_, us, ?_, hent, hall, hone⟩
  unfold execute
  split
  · rename_i heq
    rw [heq] at hconst
    cases hconst
  · dsimp only
    rw [hbs, Option.map_some]

/-- When the switch gives each feasible value its successor: a single value fits into 64 bits, no
value is lost to a shared default block, and forks are left unless one block is selected. -/
structure Keeps (si : SwitchInst Block) (o : BranchOptions) (cs : List Constraint)
    (cond : Word si.width) : Prop where
  narrow : (feasibleWords cs cond).Subsingleton → si.width ≤ 64
  default : ¬ si.LosesDefault cs cond
  forks : o.maxForksReached = true →
    ∀ v ∈ feasibleWords cs cond, ∀ u ∈ feasibleWords cs cond, si.target v = si.target u

theorem execute_selects (forBranch : Bool) (hfeas : ∃ σ : Assignment, state.Admits σ)
    (h : si.Keeps o state.constraints cond) : ∃ succs,
      si.execute forBranch S hv o state cond = some succs ∧
        si.Selects state.constraints cond succs := by
  rcases toUnique_spec S cond hfeas with ⟨v, hv, heq⟩ | ⟨hseveral, hconst⟩
  · refine ⟨[(si.target v, state)], ?_, ?_⟩
    · unfold execute
      rw [heq]
      simp only [if_pos (h.narrow (hv ▸ Set.subsingleton_singleton)), BitVec.setWidth_eq]
    · intro u hu
      have huv : u = v := by rwa [hv] at hu
      subst huv
      refine ⟨0, Nat.one_pos, hu, rfl, ?_⟩
      intro j hj _
      exact Nat.lt_one_iff.mp hj
  · obtain ⟨succs, us, hsuccs, hent, hall, hone⟩ := execute_several forBranch hfeas hconst
    have hexact : si.Exact state.constraints cond
        (si.branchTargets S.toSolver hv state.constraints cond) := branchTargets_exact h.default
    refine ⟨succs, hsuccs, selects_of_exact hent ?_⟩
    cases hforks : o.maxForksReached with
    | false => exact hall hforks ▸ hexact
    | true =>
      -- every feasible value selects the block of the one target
      obtain ⟨t, ht, rfl⟩ := hone hforks
      refine ⟨List.nodup_singleton _, ?_, ?_⟩
      · intro v hv
        obtain ⟨σ, hσ, hc⟩ := branchTargets_possible ht
        have htar := (hexact.values t ht σ hσ).mp hc
        rw [h.forks hforks v hv _ ⟨σ, hσ, rfl⟩, htar]
        exact List.mem_singleton_self _
      · intro u hu
        rw [List.mem_singleton.mp hu]
        exact hexact.values t ht

theorem keeps_of_execute (forBranch : Bool) (hfeas : ∃ σ : Assignment, state.Admits σ)
    {succs : List (Block × PathState)}
    (hsuccs : si.execute forBranch S hv o state cond = some succs)
    (hsel : si.Selects state.constraints cond succs) : si.Keeps o state.constraints cond := by
  rcases toUnique_spec S cond hfeas with ⟨v, hv, heq⟩ | ⟨hseveral, hconst⟩
  · have hone : ∀ u ∈ feasibleWords state.constraints cond, u = v := by
      intro u hu
      rwa [hv] at hu
    refine ⟨?_, ?_, ?_⟩
    · intro _
      unfold execute at hsuccs
      rw [heq] at hsuccs
      dsimp only at hsuccs
      split at hsuccs
      · assumption
      · cases hsuccs
    · intro ⟨⟨u, hu, hcase⟩, u', hu', hnone⟩
      rw [hone u hu] at hcase
      rw [hone u' hu', hcase] at hnone
      cases hnone
    · intro _ u hu u' hu'
      rw [hone u hu, hone u' hu']
  · obtain ⟨succs', us, hsuccs', hent, hall, hone⟩ := execute_several forBranch hfeas hconst
    cases hsuccs.symm.trans hsuccs'
    have hsub : ∀ t ∈ us, t ∈ si.branchTargets S.toSolver hv state.constraints cond := by
      intro t ht
      cases hforks : o.maxForksReached with
      | false => exact hall hforks ▸ ht
      | true =>
        obtain ⟨u, hu, rfl⟩ := hone hforks
        exact List.mem_singleton.mp ht ▸ hu
    refine ⟨fun hs => absurd hs hseveral, ?_, ?_⟩
    · intro hlost
      obtain ⟨v, hv, hnone⟩ := hlost.2
      refine not_selects_of_lost hent hv ?_ hsel
      intro t ht σ hσ hc hb
      exact branchTargets_cases hlost (hsub t ht) hσ hc (hb ▸ hnone)
    · intro hforks v hv u hu
      obtain ⟨t, ht, rfl⟩ := hone hforks
      obtain ⟨hlen, -⟩ := List.forall₂_iff_get.mp hent
      obtain ⟨i, hi, -, hvt, -⟩ := hsel v hv
      obtain ⟨j, hj, -, hut, -⟩ := hsel u hu
      have hij : i = j := by
        rw [List.length_singleton] at hlen
        omega
      subst hij
      rw [← hvt, hut]

end

end SwitchInst

/-- All but the condition that was recorded last. -/
def PathState.forgetLast (s : PathState) : PathState := { s with lastCondition := none }

theorem PathState.addConstraint_agree (s : PathState) (c : Constraint) :
    (s.addConstraint c true).map forgetLast = (s.addConstraint c false).map forgetLast := by
  unfold addConstraint
  split <;> rfl

theorem addConditions_agree (result : List (Option PathState)) (cs : List Constraint) :
    (addConditions true result cs).map (List.map (Option.map PathState.forgetLast)) =
      (addConditions false result cs).map (List.map (Option.map PathState.forgetLast)) := by
  induction result generalizing cs with
  | nil => rfl
  | cons r result ih =>
    cases cs with
    | nil => cases r <;> rfl
    | cons c cs =>
      have hrest := ih cs
      cases r with
      | none =>
        simp only [addConditions]
        generalize addConditions true result cs = m at hrest ⊢
        generalize addConditions false result cs = t at hrest ⊢
        cases m <;> cases t <;> simp_all
      | some s =>
        have hs := s.addConstraint_agree c
        simp only [addConditions]
        generalize addConditions true result cs = m at hrest ⊢
        generalize addConditions false result cs = t at hrest ⊢
        generalize s.addConstraint c true = sm at hs ⊢
        generalize s.addConstraint c false = st at hs ⊢
        cases sm <;> cases st <;> cases m <;> cases t <;> simp_all

namespace SwitchInst
variable {Block : Type}

/-- A successor without the condition that was recorded last. -/
def withoutLast (p : Block × PathState) : Block × PathState := (p.1, p.2.forgetLast)

theorem transfer_withoutLast (ts : BranchTargets Block) (bs : List (Option PathState)) :
    (transfer ts bs).map withoutLast = transfer ts (bs.map (Option.map PathState.forgetLast)) := by
  induction ts generalizing bs with
  | nil => rfl
  | cons t ts ih =>
    cases bs with
    | nil => rfl
    | cons b bs =>
      cases b with
      | none => exact ih bs
      | some s => exact congrArg ((t.1, s.forgetLast) :: ·) (ih bs)

variable [DecidableEq Block] (si : SwitchInst Block)

/-- The two versions of the switch have the same successors, in the same order. -/
theorem execute_agree (S : ValueSolver) (hv : HashValue) (o : BranchOptions) (state : PathState)
    (cond : Word si.width) :
    (si.executeInstruction S hv o state cond).map (List.map withoutLast) =
      (si.executeInstructionThread S hv o state cond).map (List.map withoutLast) := by
  have hbranch : ∀ cs, (branch o state cs true).map (List.map (Option.map PathState.forgetLast)) =
      (branch o state cs false).map (List.map (Option.map PathState.forgetLast)) := by
    intro cs
    unfold branch
    split
    · rfl
    · split
      · exact addConditions_agree _ cs
      · exact addConditions_agree _ cs
  have hmap : ∀ (ts : BranchTargets Block) (b : Option (List (Option PathState))),
      (b.map (transfer ts)).map (List.map withoutLast) =
        (b.map (List.map (Option.map PathState.forgetLast))).map (transfer ts) := by
    intro ts b
    rw [Option.map_map, Option.map_map]
    exact congrArg (Option.map · b) (funext fun bs => transfer_withoutLast ts bs)
  unfold executeInstruction executeInstructionThread execute
  split
  · rfl
  · dsimp only
    rw [hmap, hmap, hbranch]

/-- In the main thread as in an asynchronous one, each feasible value of the condition belongs to
exactly one successor, at the block that the switch selects for it, if and only if a single value
fits into 64 bits, no value is lost to a shared default block, and forks are left unless one block
is selected. -/
theorem switch_selects_iff (S : ValueSolver) (hv : HashValue) (o : BranchOptions)
    (state : PathState) (cond : Word si.width) (hfeas : ∃ σ : Assignment, state.Admits σ) :
    ((∃ succs, si.executeInstruction S hv o state cond = some succs ∧
        si.Selects state.constraints cond succs) ∧
      (∃ succs, si.executeInstructionThread S hv o state cond = some succs ∧
        si.Selects state.constraints cond succs) ∧
      (si.executeInstruction S hv o state cond).map (List.map withoutLast) =
        (si.executeInstructionThread S hv o state cond).map (List.map withoutLast)) ↔
    si.Keeps o state.constraints cond := by
  constructor
  · intro ⟨⟨succs, hsuccs, hsel⟩, _⟩
    exact keeps_of_execute true hfeas hsuccs hsel
  · intro h
    exact ⟨execute_selects true hfeas h, execute_selects false hfeas h,
      si.execute_agree S hv o state cond⟩

end SwitchInst

/-- An input byte as the condition of a switch. -/
def inputWord : Word 8 :=
  ⟨.read { name := "input", size := 1 } .nil (const 0 32), ⟨trivial, trivial, rfl⟩, rfl⟩

theorem inputWord_feasible (v : BitVec 8) : v ∈ feasibleWords [] inputWord := by
  refine ⟨fun a _ => BitVec.ofNat a.range v.toNat, by simp, ?_⟩
  apply BitVec.eq_of_toNat_eq
  rw [Expr.bits_toNat inputWord.2.2]
  exact Nat.mod_eq_of_lt v.isLt

/-- `switch (input) { case 1: goto one; default: goto other; }` -/
def oneOrOther : SwitchInst String where
  width := 8
  caseValues := [(1, "one")]
  defaultDest := "other"
  distinct := List.nodup_singleton _

theorem oneOrOther_selects : ∃ succs,
    oneOrOther.executeInstruction ValueSolver.ideal (fun _ _ => 0) {} {} inputWord = some succs ∧
      oneOrOther.Selects [] inputWord succs := by
  have hkeeps : oneOrOther.Keeps {} (PathState.constraints {}) inputWord := by
    refine ⟨fun _ => by decide, ?_, nofun⟩
    intro ⟨⟨v, _, hcase⟩, _⟩
    have hmem := List.mem_singleton.mp (oneOrOther.findCaseValue_some.mp hcase)
    have hblock : "other" = "one" := congrArg Prod.snd hmem
    exact absurd hblock (by decide)
  exact ((oneOrOther.switch_selects_iff ValueSolver.ideal (fun _ _ => 0) {} {} inputWord
    ⟨fun _ _ => 0, nofun⟩).mpr hkeeps).1

/-- `switch (input) { case 1: goto done; default: goto done; }` -/
def allDone : SwitchInst String where
  width := 8
  caseValues := [(1, "done")]
  defaultDest := "done"
  distinct := List.nodup_singleton _

/-- All bytes but 1 have no successor. -/
theorem allDone_loses_default : ¬ ∃ succs,
    allDone.executeInstruction ValueSolver.ideal (fun _ _ => 0) {} {} inputWord = some succs ∧
      allDone.Selects [] inputWord succs := by
  intro ⟨succs, hsuccs, hsel⟩
  have hkeeps : allDone.Keeps {} (PathState.constraints {}) inputWord :=
    SwitchInst.keeps_of_execute true ⟨fun _ _ => 0, nofun⟩ hsuccs hsel
  apply hkeeps.default
  exact ⟨⟨1, inputWord_feasible 1, rfl⟩, 0, inputWord_feasible 0, rfl⟩

end Encider
