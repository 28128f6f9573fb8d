import ConstFold.Operator
import ConstFold.Value

/-! Operators on constants that have been promoted. Integral arithmetic is computed in 64 bits
and cut to the width of the operation; `float` arithmetic is computed in double precision and
rounded to single. There is no value where the operands do not fit the operator. -/
namespace ConstFold

namespace Value

/-- A shift uses the low five bits of the distance on `int`, the low six on `long`. -/
def shift (op : BinaryOp) (l r : Value) : Option Value :=
  r.integer?.bind fun distance =>
    match l with
    | .int a =>
      let d := distance.emod 32
      some (.int (match op with
        | .shl => a <<< Int32.ofInt d
        | .shr => a >>> Int32.ofInt d
        | _ => (a.toUInt32 >>> UInt32.ofInt d).toInt32))
    | .long a =>
      let d := distance.emod 64
      some (.long (match op with
        | .shl => a <<< Int64.ofInt d
        | .shr => a >>> Int64.ofInt d
        | _ => (a.toUInt64 >>> UInt64.ofInt d).toInt64))
    | _ => none

def logicalArithmetic (op : BinaryOp) (a b : Bool) : Option Bool :=
  match op with
  | .bitAnd => some (a && b)
  | .bitOr => some (a || b)
  | .bitXor => some (a != b)
  | _ => none

def integralArithmetic (op : BinaryOp) (a b : Int64) : Option Int64 :=
  match op with
  | .plus => some (a + b)
  | .minus => some (a - b)
  | .mul => some (a * b)
  | .div => if b = 0 then none else some (a / b)
  | .mod => if b = 0 then none else some (a % b)
  | .bitAnd => some (a &&& b)
  | .bitOr => some (a ||| b)
  | .bitXor => some (a ^^^ b)
  | _ => none

def floatingArithmetic (op : BinaryOp) (a b : Binary64) : Option Binary64 :=
  match op with
  | .plus => some (a.add b)
  | .minus => some (a.sub b)
  | .mul => some (a.mul b)
  | .div => some (a.div b)
  | .mod => some (a.rem b)
  | _ => none

/-- An arithmetic or bitwise operator in the primitive type `ty`. -/
def arithmetic (op : BinaryOp) (ty : Primitive) (l r : Value) : Option Value :=
  if ty = .boolean then
    match l.bool?, r.bool? with
    | some a, some b => (logicalArithmetic op a b).map .bool
    | _, _ => none
  else if ty.isIntegral then
    match l.integer?, r.integer? with
    | some a, some b =>
      (integralArithmetic op (Int64.ofInt a) (Int64.ofInt b)).bind fun v =>
        (Value.long v).convert ty
    | _, _ => none
  else
    match l.real?, r.real? with
    | some a, some b => (floatingArithmetic op a b).bind fun v => (Value.double v).convert ty
    | _, _ => none

/-- Equality in the type `ty`. Only `null` equals `null`; outside the primitive types the
constants themselves are compared. -/
def equals (ty : Ty) (l r : Value) : Option Bool :=
  match l, r with
  | .null, r => some (r = .null)
  | _, .null => some false
  | l, r =>
    if ty.isIntegral then
      match l.integer?, r.integer? with
      | some a, some b => some (a == b)
      | _, _ => none
    else if ty.isFloating then
      match l.real?, r.real? with
      | some a, some b => some (a.numEq b)
      | _, _ => none
    else if ty.isBoolean then
      match l.bool?, r.bool? with
      | some a, some b => some (a == b)
      | _, _ => none
    else some (l.eqv r)

/-- An ordering operator in a numeric type; a NaN is in no order. -/
def relational (op : BinaryOp) (ty : Ty) (l r : Value) : Option Bool :=
  if ty.isIntegral then
    match l.integer?, r.integer? with
    | some a, some b =>
      some (match op with
        | .lt => a < b
        | .le => a ≤ b
        | .gt => b < a
        | _ => b ≤ a)
    | _, _ => none
  else if ty.isFloating then
    match l.real?, r.real? with
    | some a, some b =>
      some (match op with
        | .lt => a.numLt b
        | .le => a.numLe b
        | .gt => b.numLt a
        | _ => b.numLe a)
    | _, _ => none
  else none

end Value

/-- The value of an operator on two constants of the promoted type `ty`. The right operand of
`&&` and `||` is looked at only if the left one does not decide. -/
def BinaryOp.apply (op : BinaryOp) (ty : Ty) (l r : Value) : Option Value :=
  match op with
  | .and => l.bool?.bind fun a => if a then r.bool?.map .bool else some (.bool false)
  | .or => l.bool?.bind fun a => if a then some (.bool true) else r.bool?.map .bool
  | .eq => (Value.equals ty l r).map .bool
  | .ne => (Value.equals ty l r).map fun e => .bool !e
  | .lt | .le | .gt | .ge => (Value.relational op ty l r).map .bool
  | .shl | .shr | .ushr => Value.shift op l r
  | .instanceOf => none
  | .plus =>
    if ty = .string then some (.string (l.text ++ r.text))
    else ty.asPrimitive?.bind fun p => Value.arithmetic .plus p l r
  | op => ty.asPrimitive?.bind fun p => Value.arithmetic op p l r

/-- The value of an operator on a promoted constant. -/
def UnaryOp.apply (op : UnaryOp) (v : Value) : Option Value :=
  match op, v with
  | .not, .bool b => some (.bool !b)
  | .pos, .int i => some (.int i)
  | .pos, .long i => some (.long i)
  | .pos, .float x => some (.float x)
  | .pos, .double x => some (.double x)
  | .neg, .int i => some (.int (-i))
  | .neg, .long i => some (.long (-i))
  | .neg, .float x => some (.float x.neg)
  | .neg, .double x => some (.double x.neg)
  | .compl, .int i => some (.int (~~~i))
  | .compl, .long i => some (.long (~~~i))
  | _, _ => none

end ConstFold
