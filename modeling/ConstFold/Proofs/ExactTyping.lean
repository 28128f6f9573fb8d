import ConstFold.Proofs.Evaluation
import ConstFold.Typing

/-! Expressions over the exact types: `boolean` and the integral types. -/
namespace ConstFold

namespace Primitive

/-- Constants of the type are computed without rounding. -/
def isExact : Primitive → Bool
  | boolean | byte | short | char | int | long => true
  | float | double => false

/-- There is a casting conversion between exact types. -/
def casts (p q : Primitive) : Bool :=
  (p = boolean && q = boolean) || (p.isIntegral && q.isIntegral)

/-- The type in which a number of an integral type is computed. -/
def promoted : Primitive → Primitive
  | long => long
  | _ => int

/-- The type in which two numbers of integral types are computed. -/
def wider (p q : Primitive) : Primitive := if p = long || q = long then long else int

end Primitive

/-- The type of an operator on an operand of an exact type. -/
def UnaryOp.exactTy? (op : UnaryOp) (p : Primitive) : Option Primitive :=
  match op with
  | not => if p = .boolean then some .boolean else none
  | pos | neg | compl => if p.isIntegral then some p.promoted else none
  | preInc | preDec | postInc | postDec => if p.isIntegral then some p else none

/-- The type of an operator on operands of exact types. -/
def BinaryOp.exactTy? (op : BinaryOp) (p q : Primitive) : Option Primitive :=
  let logical := p = .boolean && q = .boolean
  let integral := p.isIntegral && q.isIntegral
  match op with
  | and | or => if logical then some .boolean else none
  | eq | ne => if logical || integral then some .boolean else none
  | lt | le | gt | ge => if integral then some .boolean else none
  | bitAnd | bitOr | bitXor =>
    if logical then some .boolean else if integral then some (p.wider q) else none
  | plus | minus | mul | div | mod => if integral then some (p.wider q) else none
  | shl | shr | ushr => if integral then some p.promoted else none
  | instanceOf => none

/-- The type that casts between exact types lead to. -/
def castTy? : Primitive → List Cast → Option Primitive
  | p, [] => some p
  | p, cast :: rest =>
    match cast.target with
    | .primitive q => if p.casts q then castTy? q rest else none
    | _ => none

/-- The types of variables, and the values of those that keep one value. -/
structure Scope where
  types : VarId → Option Primitive
  constants : VarId → Option Value

/-- No variable is declared. -/
def Scope.empty : Scope := ⟨fun _ => none, fun _ => none⟩

namespace Expr

mutual

/-- The type of a well-typed expression whose literals, variables, calls and casts have exact
types. An operator node is untyped or has the type that is inferred for it. Increments and
decrements are of variables without casts that keep no value. -/
def exactTy? (scope : Scope) : Expr → Option Primitive
  | literal v s => v.primitive?.bind fun p => ofStatic p s
  | read id _ s => (scope.types id).bind fun p => ofStatic p s
  | call _ args s =>
    if allExact scope args then (s.ty.bind Ty.asPrimitive?).bind fun p => ofStatic p s else none
  | unary op x s =>
    if ownTy s (inferTy? (unary op x s)) && (!op.isStep || isVariable scope x) then
      ((exactTy? scope x).bind op.exactTy?).bind fun t => castTy? t s.casts
    else none
  | binary op l r s =>
    if ownTy s (inferTy? (binary op l r s)) then
      (exactTy? scope l).bind fun p =>
        ((exactTy? scope r).bind (op.exactTy? p)).bind fun t => castTy? t s.casts
    else none
  | typeRef _ _ => none
where
  ofStatic (p : Primitive) (s : Static) : Option Primitive :=
    if p.isExact && s.ty = some (.primitive p) then castTy? p s.casts else none
  ownTy (s : Static) (inferred : Option Ty) : Bool := s.ty = none || s.ty = inferred
  isVariable (scope : Scope) : Expr → Bool
    | read id _ ⟨_, []⟩ => scope.constants id = none
    | _ => false

def allExact (scope : Scope) : List Expr → Bool
  | [] => true
  | e :: rest => (exactTy? scope e).isSome && allExact scope rest

end

end Expr

end ConstFold
