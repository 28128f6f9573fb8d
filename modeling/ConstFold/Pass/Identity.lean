import ConstFold.Pass.Typing

/-! Identity laws: operators with one literal operand that reduce to one of their operands, and
operators that cancel. -/
namespace ConstFold

inductive Side where
  | left
  | right
deriving DecidableEq, Repr

def Side.other : Side → Side
  | left => right
  | right => left

namespace Expr

/-- The constant of a literal that has no casts. -/
def bareValue? : Expr → Option Value
  | literal v ⟨_, []⟩ => some v
  | _ => none

end Expr

/-- Floating-point zero without a sign. -/
def Value.isPositiveZero : Value → Bool
  | .float x => x.bits = 0
  | .double x => x.bits = 0
  | _ => false

namespace Pass

/-- The operand that `literal op other` or `other op literal` reduces to, with the literal on
`side` and the operator computed in `ty`. An operand is dropped only if it is pure, or stands
to the right of an operand that decides. -/
def survivor? (op : BinaryOp) (ty : Ty) (v : Value) (side : Side) (other : Expr) : Option Side :=
  let droppable := side = .left || other.isPure
  match op, v with
  | .and, .bool b => if b then some side.other else if droppable then some side else none
  | .or, .bool b => if !b then some side.other else if droppable then some side else none
  | .eq, .bool b => if b && ty = Ty.boolean then some side.other else none
  | .div, v => if side = .right && v.isOne then some side.other else none
  | .plus, v => if ty.isIntegral && v.isZero then some side.other else none
  | .mul, v =>
    if v.isOne then some side.other
    else if ty.isIntegral && v.isZero && other.isPure then some side
    else none
  | .minus, v =>
    let zero := if ty.isIntegral then v.isZero else v.isPositiveZero
    if side = .right && zero then some side.other else none
  | _, _ => none

/-- The operand that remains of promoted operands; a law for the left literal comes first. -/
def survivingSide? (op : BinaryOp) (l r : Expr) : Option Side :=
  (Expr.binaryPromotedTy? op l r).bind fun ty =>
    (l.bareValue?.bind fun v => survivor? op ty v .left r).or
      (r.bareValue?.bind fun v => survivor? op ty v .right l)

/-- The remaining operand takes the promotion casts and the casts of the node. -/
def reduceIdentities : Pass where
  step e :=
    match e with
    | .binary _ l r _ =>
      if l.isLiteral || r.isLiteral then do
        match ← (promoteOperands .all).visit e with
        | .binary op left right s =>
          match survivingSide? op left right with
          | some .left => pure (left.addCasts s.casts).applyCasts
          | some .right => pure (right.addCasts s.casts).applyCasts
          | none => pure e
        | _ => pure e
      else .ok e
    | e => .ok e

/-- Cancels `-(-x)` and `!!x`. The operand remains, cast to the type the operators compute in,
with the casts of the outer operator around it. An inner operator with casts of its own is left
alone. -/
def cancelDouble : Pass where
  step
    | .unary op (.unary inner x t) s =>
      if (op = .neg || op = .not) && op = inner && t.casts.isEmpty then
        let operand :=
          match Expr.unaryTarget? inner x with
          | some target => x.castTo target
          | none => x
        .ok (operand.addCasts s.casts)
      else .ok (.unary op (.unary inner x t) s)
    | e => .ok e

end Pass

end ConstFold
