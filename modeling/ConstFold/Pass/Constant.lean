import ConstFold.Declaration
import ConstFold.Operation
import ConstFold.Pass.Typing

/-! Constants: variables that stand for one in place of their reads, and operators on literals
replaced by their value. -/
namespace ConstFold

/-- The kind of variable admits inlining: a field if it is final, a local variable if
`inlineLocals` is set, a parameter never. -/
def Declaration.isInlinable (decl : Declaration) (inlineLocals : Bool) : Bool :=
  match decl.kind with
  | .parameter => false
  | .localVar => inlineLocals
  | .field _ => decl.isFinal

/-- The literal that a read of the variable stands for, converted to the declared type. There
is one if the variable is never assigned again and starts as a literal. -/
def Declaration.constant? (decl : Declaration) (inlineLocals : Bool) : Option Expr :=
  if decl.isInlinable inlineLocals && decl.isEffectivelyFinal then
    (decl.initializer.filter Expr.isLiteral).map fun init =>
      init.applyCasts.convertLiteral decl.ty
  else none

namespace Pass

/-- The casts of the read go to the literal. -/
def inlineReads (table : DeclTable) (inlineLocals : Bool) : Pass where
  step e :=
    match (table.resolve? e).bind fun decl => decl.constant? inlineLocals with
    | some constant => .ok (constant.addCasts e.casts)
    | none => .ok e

end Pass

/-! ### Operators on literals

The operands are promoted first; the result
has the type of the operator, and the casts of the operator are carried out on it. -/

namespace Expr

/-- The constant of a literal without pending casts. A `null` that waits for a cast to a
primitive type has no value. -/
def constant? : Expr → Except Unevaluable (Option Value)
  | literal v ⟨_, []⟩ => .ok (some v)
  | literal .null ⟨_, ⟨.primitive p, _⟩ :: _⟩ => .error (.nullUnboxed p)
  | _ => .ok none

/-- A constant as a literal of type `ty` with casts around it. -/
def ofResult? (v : Value) (ty : Ty) (casts : List Cast) : Option Expr :=
  (v.castTo ty).map fun w => castLiteral w (some ty) casts

end Expr

/-- An integral division needs a divisor other than zero. -/
def checkDivisor (op : BinaryOp) (ty : Ty) (l r : Value) : Except Unevaluable Unit :=
  if (op = .div || op = .mod) && ty.isIntegral && r.isZero then .error (.divisionByZero l op r)
  else .ok ()

namespace Pass

/-- The value of an operator whose operands have been promoted. -/
def promotedValue? : Expr → Except Unevaluable (Option Value)
  | .binary op l r _ => do
    let left ← l.constant?
    let right ← r.constant?
    match left, right, Expr.binaryPromotedTy? op l r with
    | some a, some b, some ty => do
      checkDivisor op ty a b
      pure (op.apply ty a b)
    | _, _, _ => pure none
  | .unary op x _ => do
    let v ← x.constant?
    pure (v.bind op.apply)
  | _ => pure none

/-- Puts the value of a node in its place. The literal has the type of the node, or the one that
its promoted form infers; without a type or a value the node stays. -/
def foldNode (e : Expr) : Folded := do
  let promoted ← (promoteOperands .literals).visit e
  match ← promotedValue? promoted, e.ty.or promoted.inferTy? with
  | some v, some ty => pure ((Expr.ofResult? v ty e.casts).getD e)
  | _, _ => pure e

/-- Increments and decrements have no value. -/
def evaluateLiterals : Pass where
  step e :=
    match e with
    | .binary _ (.literal _ _) (.literal _ _) _ => foldNode e
    | .unary op (.literal _ _) _ => if op.isStep then .ok e else foldNode e
    | e => .ok e

end Pass

end ConstFold
