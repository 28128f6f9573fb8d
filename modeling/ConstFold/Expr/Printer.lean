import ConstFold.Expr
import ConstFold.Value

/-! Expressions as Java source. Parentheses stand where precedence needs them, and where a
sign would otherwise join another token. -/
namespace ConstFold

namespace Expr

/-- Binding strength of operators before their operand, of those after it, and of atoms. -/
def castLevel : Nat := 13

def stepLevel : Nat := 14

def atomLevel : Nat := 15

/-- Binding strength of the printed text. -/
def level (e : Expr) : Nat :=
  if !e.casts.isEmpty then castLevel
  else
    match e with
    | binary op _ _ _ => op.precedence
    | unary op _ _ => if op.followsOperand then stepLevel else castLevel
    | _ => atomLevel

/-- The literal starts with a minus sign. -/
def isNegative (v : Value) : Bool := v.real?.any Binary.negative

/-- Whether an operator before `operand` needs it in parentheses. -/
def needsParens (operand : Expr) : Bool :=
  operand.casts.isEmpty &&
    match operand with
    | unary op _ _ => !op.followsOperand
    | binary _ _ _ _ => true
    | literal v _ => isNegative v
    | _ => false

def parens (needed : Bool) (text : String) : String :=
  if needed then "(" ++ text ++ ")" else text

/-- The casts, outermost first, each with a blank after it. -/
def castText (names : NameTable) (casts : List Cast) : String :=
  String.join (casts.reverse.map fun cast => "(" ++ cast.target.render names ++ ") ")

/-- A reference type in parentheses before a sign reads as an operand of that sign. -/
def signNeedsParens (op : UnaryOp) (casts : List Cast) : Bool :=
  match casts.getLast? with
  | none => false
  | some cast => !cast.target.isPrimitive && !op.followsOperand

mutual

def render (names : NameTable) : Expr → String
  | literal v s => castText names s.casts ++ v.literal
  | read _ n s => castText names s.casts ++ names.display n
  | typeRef t s => castText names s.casts ++ t.render names
  | call n args s =>
    castText names s.casts ++ (names.display n ++ "(" ++ renderArgs names args ++ ")")
  | unary op x s =>
    let body :=
      if op.followsOperand then parens (x.level < stepLevel) (x.render names) ++ op.symbol
      else op.symbol ++ parens x.needsParens (x.render names)
    castText names s.casts ++ parens (signNeedsParens op s.casts) body
  | binary op l r s =>
    let body :=
      parens (l.level < op.precedence) (l.render names) ++ " " ++ op.symbol ++ " " ++
        parens (r.level ≤ op.precedence) (r.render names)
    castText names s.casts ++ parens (!s.casts.isEmpty) body

def renderArgs (names : NameTable) : List Expr → String
  | [] => ""
  | [e] => e.render names
  | e :: rest => e.render names ++ ", " ++ renderArgs names rest

end

end Expr

end ConstFold
