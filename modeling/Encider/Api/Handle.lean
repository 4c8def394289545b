import Encider.Exec.Fork
import Encider.Expr.Arithmetic
import Encider.Lib.Parts
import Encider.State.ProgModel

/-! `APIHandler::handle`: the successors of a call of a modelled API, and the actions that
are pushed on each. -/

namespace Encider

open Encider.Expr

/-- The condition on the return value under which an action is taken; `always` is `TRUE`. -/
inductive RetCond where
  | zero | notZero | ltZero | ltEqZero | gtZero | gtEqZero | always
deriving DecidableEq, Repr

def RetCond.Holds (v : Int) : RetCond → Prop
  | .zero => v = 0
  | .notZero => v ≠ 0
  | .ltZero => v < 0
  | .ltEqZero => v ≤ 0
  | .gtZero => 0 < v
  | .gtEqZero => 0 ≤ v
  | .always => True

instance (v : Int) (c : RetCond) : Decidable (c.Holds v) := by
  unfold RetCond.Holds
  split <;> infer_instance

/-- `assignsRetValue` of the handler that reads an action of this description. -/
def APICall.assignsRetValue (call : APICall) : Bool :=
  call.desc = "return" ∨
    call.desc ∈ ["anon_alloc,type,initzero,symbolic,return,symname",
      "alloc,parameter,initzero,symbolic,return,symname",
      "anon_alloc,size,initzero,symbolic,return,symname"] ∧ call.param[4]? = some "true"

def APIAction.assignsRetValue : APIAction → Bool
  | .single call => call.assignsRetValue
  | .block body => body.any APICall.assignsRetValue

/-- An action of an API with its return condition. -/
structure ModelAction where
  action : APIAction
  returnCondition : RetCond := .always
deriving DecidableEq, Repr

namespace Word

variable {w : Width}

def eqZero (e : Word w) : Constraint :=
  ⟨EqExpr.create e.val (const 0 w),
    have h := EqExpr.create_means (fun _ _ => 0) (r := const 0 w) e.2.1 trivial e.2.2
    ⟨h.typed, h.width⟩⟩

def sltZero (e : Word w) : Constraint :=
  ⟨SltExpr.create e.val (const 0 w),
    have h := SltExpr.create_means (fun _ _ => 0) (r := const 0 w) e.2.1 trivial e.2.2
    ⟨h.typed, h.width⟩⟩

def sleZero (e : Word w) : Constraint :=
  ⟨SleExpr.create e.val (const 0 w),
    have h := SleExpr.create_means (fun _ _ => 0) (r := const 0 w) e.2.1 trivial e.2.2
    ⟨h.typed, h.width⟩⟩

def sgeZero (e : Word w) : Constraint :=
  ⟨SgeExpr.create e.val (const 0 w),
    have h := SleExpr.create_means (fun _ _ => 0) (l := const 0 w) trivial e.2.1 e.2.2.symm
    ⟨h.typed, h.width⟩⟩

/-- The value as a signed number. -/
def signed (σ : Assignment) (e : Word w) : Int := (e.val.bits σ w).toInt

theorem compare_zero (σ : Assignment) (k : BinaryKind) (e : Word w) :
    (binary k e.val (const 0 w)).value σ = k.apply (e.val.bits σ w) 0 := by
  obtain ⟨e, he, rfl⟩ := e
  rw [binary_value, const_value, Nat.zero_mod]
  rfl

theorem zero_compare (σ : Assignment) (k : BinaryKind) (e : Word w) :
    (binary k (const 0 w) e.val).value σ = k.apply 0 (e.val.bits σ w) := by
  rw [binary_value, const_value, const_width, Nat.zero_mod]
  rfl

theorem eqZero_holds (σ : Assignment) (e : Word w) : e.eqZero.Holds σ ↔ e.signed σ = 0 := by
  have h := EqExpr.create_means σ (r := const 0 w) e.2.1 trivial e.2.2
  unfold Constraint.Holds Expr.Holds eqZero signed
  rw [h.value, compare_zero]
  simp only [BinaryKind.apply, Bool.toNat_eq_one, decide_eq_true_iff]
  rw [← BitVec.toInt_inj, show (0 : BitVec w) = 0#w from rfl, BitVec.toInt_zero]

theorem sltZero_holds (σ : Assignment) (e : Word w) : e.sltZero.Holds σ ↔ e.signed σ < 0 := by
  have h := SltExpr.create_means σ (r := const 0 w) e.2.1 trivial e.2.2
  unfold Constraint.Holds Expr.Holds sltZero signed
  rw [h.value, compare_zero]
  simp only [BinaryKind.apply, Bool.toNat_eq_one, BitVec.slt, decide_eq_true_iff]
  rw [show (0 : BitVec w) = 0#w from rfl, BitVec.toInt_zero]

theorem sleZero_holds (σ : Assignment) (e : Word w) : e.sleZero.Holds σ ↔ e.signed σ ≤ 0 := by
  have h := SleExpr.create_means σ (r := const 0 w) e.2.1 trivial e.2.2
  unfold Constraint.Holds Expr.Holds sleZero signed
  rw [h.value, compare_zero]
  simp only [BinaryKind.apply, Bool.toNat_eq_one, BitVec.sle, decide_eq_true_iff]
  rw [show (0 : BitVec w) = 0#w from rfl, BitVec.toInt_zero]

theorem sgeZero_holds (σ : Assignment) (e : Word w) : e.sgeZero.Holds σ ↔ 0 ≤ e.signed σ := by
  have h := SleExpr.create_means σ (l := const 0 w) trivial e.2.1 e.2.2.symm
  unfold Constraint.Holds Expr.Holds sgeZero SgeExpr.create signed
  rw [h.value, zero_compare]
  simp only [BinaryKind.apply, Bool.toNat_eq_one, BitVec.sle, decide_eq_true_iff]
  rw [show (0 : BitVec w) = 0#w from rfl, BitVec.toInt_zero]

end Word

/-- What `symbolizeReturnValue` makes: the value of the call and, when this is a pointer, what
is read from the object that it points to. -/
structure SymbolicReturn (w : Width) where
  value : Word w
  pointee : Option (Word w) := none
  pointerWidth : pointee.isSome → w = 64 := by simp

namespace SymbolicReturn

variable {w : Width}

/-- What `handle` reads from the object that `symbolizeReturnValue` returns. -/
def retexpr (r : SymbolicReturn w) : Word w := r.pointee.getD r.value

/-- `symbolizeReturnValue`: the state goes on, and a returned pointer that is null or not
has left another one. -/
def symbolize (S : Solver) (o : ForkOptions) (state : PathState) (r : SymbolicReturn w) :
    Option (PathState × List PathState) :=
  if r.pointee.isSome then
    (fork S o state r.value.eqZero false).bind fun p =>
      match p with
      | (some first, some second) => some (first, [second])
      | (some first, none) => some (first, [])
      | (none, some second) => some (second, [])
      | (none, none) => none
  else some (state, [])

end SymbolicReturn

/-- A successor and the entries of `partition` that it is put into. -/
structure Filed where
  state : PathState
  conds : List RetCond

/-- The successors of the forks on the return value. -/
def partitionReturn {w : Width} (S : Solver) (o : ForkOptions) (conds : RetCond → Bool)
    (state : PathState) (retexpr : Word w) : Option (List Filed) :=
  let filed := fun (s : Option PathState) (cs : List RetCond) => s.toList.map fun s => Filed.mk s cs
  if (conds .ltZero && conds .gtZero) || (conds .ltEqZero && conds .gtEqZero) ||
      ((conds .zero || conds .notZero) &&
        (conds .ltZero || conds .ltEqZero || conds .gtZero || conds .gtEqZero)) then
    (fork S o state retexpr.eqZero false).bind fun p =>
      -- without a second state the null pointer is dereferenced
      p.2.bind fun second =>
        (fork S o second retexpr.sltZero false).map fun p2 =>
          filed p.1 [.zero, .ltEqZero, .gtEqZero] ++ filed p2.1 [.ltZero, .notZero, .ltEqZero] ++
            filed p2.2 [.gtZero, .notZero, .gtEqZero]
  else if conds .zero || conds .notZero then
    (fork S o state retexpr.eqZero false).map fun p =>
      filed p.1 [.zero] ++ filed p.2 [.notZero]
  else if conds .ltEqZero then
    (fork S o state retexpr.sleZero false).map fun p =>
      filed p.1 [.ltEqZero] ++ filed p.2 [.gtZero]
  else if conds .gtEqZero then
    (fork S o state retexpr.sgeZero false).map fun p =>
      filed p.1 [.gtEqZero] ++ filed p.2 [.ltZero]
  else some [⟨state, [.always]⟩]

/-- A successor of the call, with the actions pushed on its stack in this order. -/
structure HandledState where
  state : PathState
  pushed : List ModelAction := []

inductive HandleResult where
  | notHandled
  | handled (states : List HandledState)

/-- `APIHandler::handle`; a function that returns nothing has no `ret`. -/
def handle {w : Width} (S : Solver) (o : ForkOptions) (apiModel : StdMap String (List ModelAction))
    (fname : String) (state : PathState) (ret : Option (SymbolicReturn w)) : Option HandleResult :=
  match apiModel fname with
  | none => some .notHandled
  | some actions =>
    let symbolizeRetValueOK := actions.all fun a => !a.action.assignsRetValue
    let branching := actions.any fun a => a.returnCondition ≠ .always
    let symbolized :=
      match symbolizeRetValueOK, ret with
      | true, some r => r.symbolize S o state
      | _, _ => some (state, [])
    symbolized.bind fun p =>
      if !branching || !symbolizeRetValueOK then
        -- an API cannot be interpreted in several ways in the same state
        if actions.length > 1 then none
        else some (.handled (⟨p.1, actions⟩ :: p.2.map fun s => ⟨s, []⟩))
      else
        match ret with
        | none => some (.handled [⟨p.1, []⟩])
        | some r =>
          (partitionReturn S o (fun c => actions.any fun a => a.returnCondition = c) p.1
            r.retexpr).map fun l =>
              .handled ((l.map fun f =>
                ⟨f.state, actions.filter fun a => a.returnCondition ∈ f.conds⟩) ++
                p.2.map fun s => ⟨s, []⟩)

end Encider
