import ConstFold.Casts
import ConstFold.Pass
import ConstFold.Typing

/-! Passes over types and casts: static types for operator nodes that have none, casts carried out
or removed, and the promotion of operands made explicit. -/
namespace ConstFold

namespace Pass

/-- Static types for operator nodes that have none. A node whose type cannot be inferred stays
untyped. -/
def inferTypes : Pass where
  step e :=
    match e with
    | .unary _ _ ⟨none, _⟩ | .binary _ _ _ ⟨none, _⟩ => .ok (e.withTy e.inferTy?)
    | e => .ok e

/-- Carries out the casts on the literals that `selects` picks. -/
def applyCasts (selects : Value → Bool) : Pass where
  step
    | .literal v s => .ok (if selects v then Expr.castLiteral v s.ty s.casts else .literal v s)
    | e => .ok e

/-- Removes redundant casts at every node. -/
def removeRedundantCasts : Pass where
  step e := .ok (if e.casts.isEmpty then e else e.removeRedundantCasts)

end Pass

/-! ### Promotion

An operand is cast to the type in which its operator
computes. Operators whose promoted type is not primitive are left alone, and so are
`instanceof`, increments and decrements. -/

/-- Which operands are promoted. -/
inductive Operands where
  | literals
  | all
deriving DecidableEq, Repr

def Operands.selects : Operands → Expr → Bool
  | literals, e => e.isLiteral
  | all, _ => true

namespace Expr

/-- The type the operand of `op` is promoted to. -/
def unaryTarget? (op : UnaryOp) (x : Expr) : Option Ty :=
  if op.isStep then none else (unaryPromotedTy? op x).filter Ty.isPrimitive

/-- The types the operands of `op` are promoted to. -/
def binaryTargets? (op : BinaryOp) (l r : Expr) : Option (Ty × Ty) :=
  match l.operandTy?, r.operandTy? with
  | some left, some right =>
    if op.isShift then Ty.shiftOperands? left right
    else ((op.promotedTy? left right).filter Ty.isPrimitive).map fun t => (t, t)
  | _, _ => none

/-- The casts of an operand that is promoted to `target` if it is selected. -/
def promotedCasts (selected : Bool) (x : Expr) (target : Ty) : List Cast :=
  if selected then (x.castTo target).casts else x.casts

end Expr

namespace Pass

/-- Promotes the selected operands when a node is entered. -/
def promotion (binary unary : Operands) : Pass :=
  let enterUnary op x :=
    match Expr.unaryTarget? op x with
    | some target => Expr.promotedCasts (unary.selects x) x target
    | none => x.casts
  let enterBinary op l r :=
    match Expr.binaryTargets? op l r with
    | some (left, right) =>
      (Expr.promotedCasts (binary.selects l) l left, Expr.promotedCasts (binary.selects r) r right)
    | none => (l.casts, r.casts)
  { enterUnary, enterBinary
    step := fun e => .ok (enter { enterUnary, enterBinary, step := .ok } e)
    leave := .ok }

/-- Promotes operands and carries out the casts this puts on literals. -/
def promoteOperands (operands : Operands) : Pass :=
  chain [promotion operands operands, applyCasts fun _ => true]

end Pass

end ConstFold
