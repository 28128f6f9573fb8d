import ConstFold.Expr
import ConstFold.Pass

/-! Absorption laws of `&&` and `||`. The repeated operand must be pure, and so must an operand
whose evaluation is saved. -/
namespace ConstFold

namespace Expr

/-- Two equal operands, of which one can go. -/
def isSamePure (a b : Expr) : Bool := a.eqv b && a.isPure

/-- The operand of a logical not without casts. -/
def negated? : Expr → Option Expr
  | unary .not x ⟨_, []⟩ => some x
  | _ => none

/-- A pure expression and its logical not, in either order. -/
def areOpposite (a b : Expr) : Bool :=
  a.isPure && ((b.negated?.any fun x => x.eqv a) || (a.negated?.any fun x => x.eqv b))

end Expr

/-- What is left of an absorbed expression beside the repeated operand. -/
inductive Absorbed where
  | whole
  | orElse (rest : Expr)

/-- Matches `outer op inner`. If `swapped`, `outer` stands on the right and is evaluated after
`inner`. -/
def absorb? (op : BinaryOp) (outer inner : Expr) (swapped : Bool) : Option Absorbed :=
  match inner with
  | .binary innerOp l r ⟨_, []⟩ =>
    if (op = .and && innerOp = .or) || (op = .or && innerOp = .and) then
      if outer.isSamePure l && (!swapped || r.isPure) then some .whole
      else if !swapped && outer.isSamePure r && l.isPure then some .whole
      else if op = .and then none
      else if outer.areOpposite l then some (.orElse r)
      else if !swapped && outer.areOpposite r then some (.orElse l)
      else none
    else none
  | _ => none

namespace Pass

def absorbed (outer : Expr) (found : Absorbed) (s : Static) : Expr :=
  match found with
  | .whole => outer.addCasts s.casts
  | .orElse rest => .binary .or outer rest s

/-- The result takes the casts of the node. -/
def absorption : Pass where
  step
    | .binary op l r s =>
      let boolean (e : Expr) := e.resultTy.any Ty.isBoolean
      if (op = .and || op = .or) && boolean l && boolean r then
        match absorb? op l r false with
        | some found => .ok (absorbed l found s)
        | none =>
          match absorb? op r l true with
          | some found => .ok (absorbed r found s)
          | none => .ok (.binary op l r s)
      else .ok (.binary op l r s)
    | e => .ok e

end Pass

end ConstFold
