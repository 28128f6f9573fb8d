import ConstFold.Declaration
import ConstFold.Json

/-! Expressions and declarations as JSON. A case of a type is its tag alone, or an object with
the tag as its one key; a structure is an object with its fields in order, and an absent value
is `null`. -/
namespace ConstFold

/-! ### Tags of operators and primitive types -/

def Primitive.tag : Primitive → String
  | boolean => "Boolean"
  | byte => "Byte"
  | short => "Short"
  | char => "Char"
  | int => "Int"
  | long => "Long"
  | float => "Float"
  | double => "Double"

def Primitive.ofTag? (tag : String) : Option Primitive := all.find? fun p => p.tag == tag

def UnaryOp.tag : UnaryOp → String
  | pos => "Pos"
  | neg => "Neg"
  | not => "Not"
  | compl => "Compl"
  | preInc => "PreInc"
  | preDec => "PreDec"
  | postInc => "PostInc"
  | postDec => "PostDec"

def UnaryOp.ofTag? (tag : String) : Option UnaryOp := all.find? fun op => op.tag == tag

def BinaryOp.tag : BinaryOp → String
  | or => "Or"
  | and => "And"
  | bitOr => "BitOr"
  | bitXor => "BitXor"
  | bitAnd => "BitAnd"
  | eq => "Eq"
  | ne => "Ne"
  | lt => "Lt"
  | gt => "Gt"
  | le => "Le"
  | ge => "Ge"
  | shl => "Shl"
  | shr => "Shr"
  | ushr => "Ushr"
  | plus => "Plus"
  | minus => "Minus"
  | mul => "Mul"
  | div => "Div"
  | mod => "Mod"
  | instanceOf => "InstanceOf"

def BinaryOp.ofTag? (tag : String) : Option BinaryOp := all.find? fun op => op.tag == tag

/-! ### Data as JSON -/

/-- A case with a payload. -/
def Json.tagged (tag : String) (payload : Json) : Json := .object [(tag, payload)]

/-- Names are counted from one. -/
def Name.toJson (name : Name) : Json := .ofInt (name.index.val + 1 : Nat)

def VarId.toJson (id : VarId) : Json := .ofInt id.index.toNat

def Value.toJson : Value → Json
  | null => .string "Null"
  | bool b => .tagged "Bool" (.bool b)
  | char u => .tagged "Char" (.ofInt u.toNat)
  | byte i => .tagged "Byte" (.ofInt i.toInt)
  | short i => .tagged "Short" (.ofInt i.toInt)
  | int i => .tagged "Int" (.ofInt i.toInt)
  | long i => .tagged "Long" (.ofInt i.toInt)
  | float x => .tagged "Float" (.ofSingle x)
  | double x => .tagged "Double" (.ofDouble x)
  | string s => .tagged "String" (.string s)

namespace Ty

mutual

def toJson : Ty → Json
  | .primitive p => .tagged "Primitive" (.string p.tag)
  | .boxed p => .tagged "Boxed" (.string p.tag)
  | .string => .string "String"
  | .null => .string "Null"
  | .object => .string "Object"
  | .classType name supertypes =>
    .tagged "Class" (.object [("name", name.toJson), ("supertypes", .array (listToJson supertypes))])

def listToJson : List Ty → List Json
  | [] => []
  | t :: rest => t.toJson :: listToJson rest

end

/-- An absent type is `null`. -/
def optionToJson : Option Ty → Json
  | none => .null
  | some t => t.toJson

end Ty

def Cast.toJson (cast : Cast) : Json :=
  .object [("target", cast.target.toJson), ("implicit", .bool cast.implicit)]

namespace Expr

/-- A node with its static type and casts. -/
def nodeToJson (kind : Json) (s : Static) : Json :=
  .object [("kind", kind), ("ty", Ty.optionToJson s.ty), ("casts", .array (s.casts.map Cast.toJson))]

mutual

def toJson : Expr → Json
  | literal v s => nodeToJson (.tagged "Literal" v.toJson) s
  | unary op x s =>
    nodeToJson (.tagged "Unary" (.object [("op", .string op.tag), ("operand", x.toJson)])) s
  | binary op l r s =>
    nodeToJson (.tagged "Binary"
      (.object [("op", .string op.tag), ("lhs", l.toJson), ("rhs", r.toJson)])) s
  | read id name s =>
    nodeToJson (.tagged "VariableRead" (.object [("var", id.toJson), ("name", name.toJson)])) s
  | call name args s =>
    nodeToJson (.tagged "Invocation"
      (.object [("name", name.toJson), ("args", .array (listToJson args))])) s
  | typeRef t s => nodeToJson (.tagged "TypeAccess" t.toJson) s

def listToJson : List Expr → List Json
  | [] => []
  | e :: rest => e.toJson :: listToJson rest

end

end Expr

def DeclKind.toJson : DeclKind → Json
  | localVar => .string "Local"
  | parameter => .string "Parameter"
  | field isStatic => .tagged "Field" (.object [("is_static", .bool isStatic)])

def Declaration.toJson (decl : Declaration) : Json :=
  .object
    [("name", decl.name.toJson), ("ty", decl.ty.toJson), ("kind", decl.kind.toJson),
      ("is_final", .bool decl.isFinal), ("reassignments", .ofInt decl.reassignments.toNat),
      ("initializer", decl.initializer.elim .null Expr.toJson)]

def DeclTable.toJson (table : DeclTable) : Json :=
  .object [("decls", .array (table.decls.map Declaration.toJson))]

end ConstFold
