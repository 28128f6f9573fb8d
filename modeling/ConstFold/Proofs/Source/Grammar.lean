import ConstFold.Operator
import ConstFold.Proofs.Source.Lexer
import ConstFold.Value

/-! Expressions of Java as phrases of tokens. Operators have levels, loosest first, and one with two
operands groups to the left. -/
namespace ConstFold

namespace Source

/-- What an expression says: operators, names, literals and arguments. -/
inductive Tree where
  | literal (value : Value)
  | name (text : String)
  | call (text : String) (args : List Tree)
  | unary (op : UnaryOp) (operand : Tree)
  | binary (op : BinaryOp) (lhs rhs : Tree)

/-- The operators of one level, by where they stand. -/
structure Row where
  before : List (String × UnaryOp) := []
  after : List (String × UnaryOp) := []
  between : List (String × BinaryOp) := []

def rows : List Row :=
  [{ between := [("||", .or)] },
    { between := [("&&", .and)] },
    { between := [("|", .bitOr)] },
    { between := [("^", .bitXor)] },
    { between := [("&", .bitAnd)] },
    { between := [("==", .eq), ("!=", .ne)] },
    { between := [("<", .lt), (">", .gt), ("<=", .le), (">=", .ge)] },
    { between := [("<<", .shl), (">>", .shr), (">>>", .ushr)] },
    { between := [("+", .plus), ("-", .minus)] },
    { between := [("*", .mul), ("/", .div), ("%", .mod)] },
    { before := [("+", .pos), ("-", .neg), ("!", .not), ("~", .compl), ("++", .preInc), ("--", .preDec)] },
    { after := [("++", .postInc), ("--", .postDec)] }]

def row (level : Nat) : Row := rows.getD level {}

/-- The level of what needs no operator. -/
def primaryLevel : Nat := rows.length

def constants : List (String × Value) :=
  [("true", .bool true), ("false", .bool false), ("null", .null)]

/-- Words that are not names. -/
def reserved : List String :=
  ["abstract", "assert", "boolean", "break", "byte", "case", "catch", "char", "class", "const",
    "continue", "default", "do", "double", "else", "enum", "extends", "final", "finally", "float", "for",
    "goto", "if", "implements", "import", "instanceof", "int", "interface", "long", "native", "new",
    "package", "private", "protected", "public", "return", "short", "static", "strictfp", "super",
    "switch", "synchronized", "this", "throw", "throws", "transient", "try", "void", "volatile", "while",
    "_", "true", "false", "null"]

/-- The number with these digits, unless they start with a superfluous zero. -/
def decimal? (digits : List Char) : Option Nat :=
  let n := Nat.ofDigitChars 10 digits 0
  if Nat.toDigits 10 n = digits then some n else none

/-- The value of an integer literal in decimal. -/
def integer? (text : List Char) : Option Value :=
  if text.getLast? = some 'L' ∨ text.getLast? = some 'l' then
    ((decimal? text.dropLast).filter (· < 9223372036854775808)).map fun (n : Nat) => .long (Int64.ofInt n)
  else
    ((decimal? text).filter (· < 2147483648)).map fun (n : Nat) => .int (Int32.ofInt n)

/-- Tokens that make up an expression whose operators outside of parentheses have at least this
level. -/
inductive Phrase : Nat → List Token → Tree → Prop where
  | constant {text v} : (text, v) ∈ constants → Phrase primaryLevel [.word text] (.literal v)
  | numeral {text : String} {v} : integer? text.toList = some v →
    Phrase primaryLevel [.numeral text] (.literal v)
  | name {text} : text ∉ reserved → Phrase primaryLevel [.word text] (.name text)
  | call {text} {args : List (List Token × Tree)} : text ∉ reserved →
    (∀ arg ∈ args, Phrase 0 arg.1 arg.2) →
    Phrase primaryLevel
      (.word text :: .symbol "(" :: ([.symbol ","].intercalate (args.map Prod.fst) ++ [.symbol ")"]))
      (.call text (args.map Prod.snd))
  | parens {tokens t} : Phrase 0 tokens t →
    Phrase primaryLevel (.symbol "(" :: (tokens ++ [.symbol ")"])) t
  | after {level symbol op tokens t} : (symbol, op) ∈ (row level).after → Phrase level tokens t →
    Phrase level (tokens ++ [.symbol symbol]) (.unary op t)
  | before {level symbol op tokens t} : (symbol, op) ∈ (row level).before → Phrase level tokens t →
    Phrase level (.symbol symbol :: tokens) (.unary op t)
  | between {level symbol op ls rs l r} : (symbol, op) ∈ (row level).between → Phrase level ls l →
    Phrase (level + 1) rs r → Phrase level (ls ++ .symbol symbol :: rs) (.binary op l r)
  | tighter {level tokens t} : Phrase (level + 1) tokens t → Phrase level tokens t

/-- The tokens of the text are an expression with this tree. -/
def Parses (letters : Alphabet) (text : String) (t : Tree) : Prop :=
  ∃ tokens, letters.Lexes text.toList tokens ∧ Phrase 0 tokens t

end Source

end ConstFold
