import Encider.Expr.Syntax

namespace Encider

def BinaryKind.number : BinaryKind → Nat
  | .add => 10 | .sub => 11 | .mul => 12 | .udiv => 13 | .sdiv => 14 | .urem => 15 | .srem => 16
  | .and => 17 | .or => 18 | .xor => 19 | .shl => 20 | .lshr => 21 | .ashr => 22
  | .eq => 23 | .ne => 24 | .ult => 25 | .ule => 26 | .ugt => 27 | .uge => 28
  | .slt => 29 | .sle => 30 | .sgt => 31 | .sge => 32

/-- `llvm::hash_value` of a constant. -/
abbrev HashValue := (w : Width) → BitVec w → BitVec 32

/-- The loop of `Expr::computeHash` over the hashes of the kids. -/
def hashKids (kind : Nat) (kids : List (BitVec 32)) : BitVec 32 :=
  kids.foldl (fun res h => (res <<< 1) ^^^ (h * 39)) (BitVec.ofNat 32 kind * 39)

mutual
def Expr.computeHash (hv : HashValue) : Expr → BitVec 32
  | .constant w v => hv w v ^^^ (BitVec.ofNat 32 w * 39)
  | .notOptimized e => hashKids 1 [e.computeHash hv]
  | .read a us i => (i.computeHash hv * 39) ^^^ us.computeHash hv
      (a.name.toList.foldl (fun res c => res * 39 + BitVec.ofNat 32 c.toNat) 0)
  | .select c t f => hashKids 4 [c.computeHash hv, t.computeHash hv, f.computeHash hv]
  | .concat l r => hashKids 5 [l.computeHash hv, r.computeHash hv]
  | .extract e o w =>
      (BitVec.ofNat 32 o * 39) ^^^ (BitVec.ofNat 32 w * 39) ^^^ (e.computeHash hv * 39)
  | .zext e w => (BitVec.ofNat 32 w * 39) ^^^ (e.computeHash hv * 39)
  | .sext e w => (BitVec.ofNat 32 w * 39) ^^^ (e.computeHash hv * 39)
  | .not e => e.computeHash hv * 39 * 9
  | .binary k l r => hashKids k.number [l.computeHash hv, r.computeHash hv]

/-- The hash of the update nodes, started from the hash of the array's name. -/
def UpdateList.computeHash (hv : HashValue) (start : BitVec 32) : UpdateList → BitVec 32
  | .nil => start
  | .cons i v next =>
      next.computeHash hv (start ^^^ (i.computeHash hv ^^^ v.computeHash hv))
end

end Encider
