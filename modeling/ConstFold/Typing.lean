import ConstFold.Expr

/-! The types that operators convert their operands to. A wrapper counts as the primitive
type it boxes, except where references are compared. -/
namespace ConstFold.Ty

/-- The numeric type that a type stands for in arithmetic. -/
def numeric? (t : Ty) : Option Primitive := t.unboxed?.filter Primitive.isNumeric

/-- Types narrower than `int` are computed in `int`. -/
def unaryNumeric? (t : Ty) : Option Ty :=
  t.numeric?.map fun
    | .byte | .short | .char => .primitive .int
    | p => .primitive p

/-- The widest of `int` and the two types. -/
def binaryNumeric? (left right : Ty) : Option Ty :=
  match left.numeric?, right.numeric? with
  | some l, some r =>
    if l = .double || r = .double then some (.primitive .double)
    else if l = .float || r = .float then some (.primitive .float)
    else if l = .long || r = .long then some (.primitive .long)
    else some (.primitive .int)
  | _, _ => none

/-- Each operand of a shift is promoted on its own, and both must be integral. -/
def shiftOperands? (left right : Ty) : Option (Ty × Ty) :=
  match left.unaryNumeric?.filter isIntegral, right.unaryNumeric?.filter isIntegral with
  | some l, some r => some (l, r)
  | _, _ => none

/-- Type in which `==` compares. Two wrappers compare as references, which no conversion
precedes; other references compare in the wider of two related types. -/
def equalityOperand? (left right : Ty) : Option Ty :=
  if left.isBoxed && right.isBoxed then none
  else
    match binaryNumeric? left right with
    | some t => some t
    | none =>
      if left.isBoolean && right.isBoolean then some boolean
      else
        let l := left.unbox
        let r := right.unbox
        if l.isPrimitive || r.isPrimitive then none
        else if l = .null then some r
        else if r = .null || r.isSubtype l then some l
        else if l.isSubtype r then some r
        else none

end ConstFold.Ty

namespace ConstFold.BinaryOp

/-- The type both operands are converted to; for a shift, that of the left one. There is none
for `instanceof` and for operands on which the operator is not defined. -/
def promotedTy? (op : BinaryOp) (left right : Ty) : Option Ty :=
  match op with
  | and | or => if left.isBoolean && right.isBoolean then some Ty.boolean else none
  | shl | shr | ushr => (Ty.shiftOperands? left right).map Prod.fst
  | instanceOf => none
  | eq | ne => Ty.equalityOperand? left right
  | lt | le | gt | ge | mul | div | mod | minus => Ty.binaryNumeric? left right
  | plus =>
    match Ty.binaryNumeric? left right with
    | some t => some t
    | none => if left = .string || right = .string then some .string else none
  | bitAnd | bitOr | bitXor =>
    if left.isFloating || right.isFloating then none
    else if left.isBoolean && right.isBoolean then some Ty.boolean
    else Ty.binaryNumeric? left right

/-- The result is `boolean` whatever the operands are. -/
def isPredicate : BinaryOp → Bool
  | and | or | instanceOf | eq | ne | lt | le | gt | ge => true
  | _ => false

end ConstFold.BinaryOp

namespace ConstFold.UnaryOp

/-- The type the operand is converted to. Increments and decrements keep the type of the
variable they are applied to. -/
def promotedTy? (op : UnaryOp) (ofVariable : Bool) (operand : Ty) : Option Ty :=
  match op with
  | compl => if operand.unbox.isIntegral then operand.unaryNumeric? else none
  | pos | neg => operand.unaryNumeric?
  | not => if operand.isBoolean then some Ty.boolean else none
  | preInc | preDec | postInc | postDec =>
    if ofVariable && operand.unbox.isNumeric then some operand else none

end ConstFold.UnaryOp

/-! ### Static types of operator nodes, from the types of their operands -/
namespace ConstFold.Expr

def isRead : Expr → Bool
  | read _ _ _ => true
  | _ => false

/-- The type an operator node has by its operands, which are inferred in turn if they have
none. Other nodes report the type they carry. -/
def inferTy? : Expr → Option Ty
  | binary op l r _ =>
    if op.isPredicate then some Ty.boolean
    else
      match l.resultTy.or l.inferTy?, r.resultTy.or r.inferTy? with
      | some left, some right => op.promotedTy? left right
      | _, _ => none
  | unary op x _ => (x.resultTy.or x.inferTy?).bind (op.promotedTy? x.isRead)
  | literal _ s | read _ _ s | call _ _ s | typeRef _ s => s.ty

/-- The type of a value as an operand. -/
def operandTy? (e : Expr) : Option Ty := e.resultTy.or e.inferTy?

/-- The type that `op` converts the operand to. -/
def unaryPromotedTy? (op : UnaryOp) (operand : Expr) : Option Ty :=
  operand.operandTy?.bind (op.promotedTy? operand.isRead)

/-- The type that `op` converts both operands to. -/
def binaryPromotedTy? (op : BinaryOp) (l r : Expr) : Option Ty :=
  match l.operandTy?, r.operandTy? with
  | some left, some right => op.promotedTy? left right
  | _, _ => none

end ConstFold.Expr
