/-! Operators of Java expressions. -/
namespace ConstFold

inductive UnaryOp where
  | pos
  | neg
  | not
  | compl
  | preInc
  | preDec
  | postInc
  | postDec
deriving DecidableEq, Repr

namespace UnaryOp

def all : List UnaryOp := [pos, neg, not, compl, preInc, preDec, postInc, postDec]

def symbol : UnaryOp → String
  | pos => "+"
  | neg => "-"
  | not => "!"
  | compl => "~"
  | preInc | postInc => "++"
  | preDec | postDec => "--"

/-- The operator stands after its operand. -/
def followsOperand : UnaryOp → Bool
  | postInc | postDec => true
  | _ => false

/-- The operator assigns to its operand. -/
def isStep : UnaryOp → Bool
  | preInc | preDec | postInc | postDec => true
  | _ => false

end UnaryOp

inductive BinaryOp where
  | or
  | and
  | bitOr
  | bitXor
  | bitAnd
  | eq
  | ne
  | lt
  | gt
  | le
  | ge
  | shl
  | shr
  | ushr
  | plus
  | minus
  | mul
  | div
  | mod
  | instanceOf
deriving DecidableEq, Repr

namespace BinaryOp

def all : List BinaryOp :=
  [or, and, bitOr, bitXor, bitAnd, eq, ne, lt, gt, le, ge, shl, shr, ushr, plus, minus, mul,
    div, mod, instanceOf]

def symbol : BinaryOp → String
  | or => "||"
  | and => "&&"
  | bitOr => "|"
  | bitXor => "^"
  | bitAnd => "&"
  | eq => "=="
  | ne => "!="
  | lt => "<"
  | gt => ">"
  | le => "<="
  | ge => ">="
  | shl => "<<"
  | shr => ">>"
  | ushr => ">>>"
  | plus => "+"
  | minus => "-"
  | mul => "*"
  | div => "/"
  | mod => "%"
  | instanceOf => "instanceof"

/-- Operators of a higher level bind tighter. -/
def precedence : BinaryOp → Nat
  | or => 3
  | and => 4
  | bitOr => 5
  | bitXor => 6
  | bitAnd => 7
  | eq | ne => 8
  | lt | gt | le | ge | instanceOf => 9
  | shl | shr | ushr => 10
  | plus | minus => 11
  | mul | div | mod => 12

def isShift : BinaryOp → Bool
  | shl | shr | ushr => true
  | _ => false

/-- The operator that gives the same value once the operands are exchanged. -/
def flipped? : BinaryOp → Option BinaryOp
  | lt => some gt
  | gt => some lt
  | le => some ge
  | ge => some le
  | minus | div | mod | shl | shr | ushr | instanceOf => none
  | op => some op

end BinaryOp

end ConstFold
