import ConstFold.Interchange
import ConstFold.Interchange.Library

/-! Expressions and declarations from JSON, in the form in which they are written. -/
namespace ConstFold

def Name.ofNode? (lib : Library) (node : lib.Node) : Option Name :=
  (lib.integer? 1 4294967295 node).map fun i => Name.ofIndex (UInt32.ofNat (i.toNat - 1))

def VarId.ofNode? (lib : Library) (node : lib.Node) : Option VarId :=
  (lib.integer? 0 4294967295 node).map fun i => ⟨UInt32.ofNat i.toNat⟩

/-- The constants without payload. -/
def Value.ofTag? : String → Option Value
  | "Null" => some .null
  | _ => none

def Value.ofCase? (lib : Library) {node : lib.Node} : String → Option (lib.Part node) → Option Value
  | "Bool", some part => (lib.bool? part.val).map .bool
  | "Char", some part =>
    (lib.integer? 0 65535 part.val).map fun i => .char (UInt16.ofNat i.toNat)
  | "Byte", some part => (lib.integer? (-128) 127 part.val).map fun i => .byte (Int8.ofInt i)
  | "Short", some part => (lib.integer? (-32768) 32767 part.val).map fun i => .short (Int16.ofInt i)
  | "Int", some part =>
    (lib.integer? (-2147483648) 2147483647 part.val).map fun i => .int (Int32.ofInt i)
  | "Long", some part =>
    (lib.integer? (-9223372036854775808) 9223372036854775807 part.val).map fun i =>
      .long (Int64.ofInt i)
  | "Float", some part => (lib.single? part.val).map .float
  | "Double", some part => (lib.double? part.val).map .double
  | "String", some part => (lib.string? part.val).map .string
  | tag, payload => lib.bareCase? ofTag? tag payload

def Value.ofNode? (lib : Library) (node : lib.Node) : Option Value := do
  let (tag, payload) ← lib.case? node
  ofCase? lib tag payload

namespace Ty

/-- The types without parameters. -/
def ofTag? : String → Option Ty
  | "String" => some .string
  | "Null" => some .null
  | "Object" => some .object
  | _ => none

def ofNode? (lib : Library) (node : lib.Node) : Option Ty := do
  let (tag, payload) ← lib.case? node
  match tag, payload with
  | "Primitive", some part => (lib.plain? Primitive.ofTag? part.val).map .primitive
  | "Boxed", some part => (lib.plain? Primitive.ofTag? part.val).map .boxed
  | "Class", some part =>
    match lib.fields? ["name", "supertypes"] part.val with
    | some [some name, some supertypes] => do
      some (.classType (← Name.ofNode? lib name.val)
        (← lib.list? supertypes.val fun item => ofNode? lib item.val))
    | _ => none
  | tag, payload => lib.bareCase? ofTag? tag payload
termination_by lib.room node
decreasing_by exact Nat.lt_trans item.property (Nat.lt_trans supertypes.property part.property)

end Ty

def Cast.ofNode? (lib : Library) (node : lib.Node) : Option Cast :=
  match lib.fields? ["target", "implicit"] node with
  | some [some target, some implicit] => do
    some ⟨← Ty.ofNode? lib target.val, ← lib.bool? implicit.val⟩
  | _ => none

/-- The static type and the casts of a node. -/
def Static.ofParts? (lib : Library) {node : lib.Node} (ty : Option (lib.Part node)) :
    Option (lib.Part node) → Option Static
  | some casts => do
    some ⟨← lib.optional? (Ty.ofNode? lib) ty, ← lib.list? casts.val fun item => Cast.ofNode? lib item.val⟩
  | none => none

def Expr.ofNode? (lib : Library) (node : lib.Node) : Option Expr :=
  match lib.fields? ["kind", "ty", "casts"] node with
  | some [some kind, ty, casts] => do
    let static ← Static.ofParts? lib ty casts
    let (tag, payload) ← lib.case? kind.val
    match tag, payload with
    | "Literal", some part => (Value.ofNode? lib part.val).map (.literal · static)
    | "Unary", some part =>
      match lib.fields? ["op", "operand"] part.val with
      | some [some op, some x] => do
        some (.unary (← lib.plain? UnaryOp.ofTag? op.val) (← ofNode? lib x.val) static)
      | _ => none
    | "Binary", some part =>
      match lib.fields? ["op", "lhs", "rhs"] part.val with
      | some [some op, some l, some r] => do
        some (.binary (← lib.plain? BinaryOp.ofTag? op.val) (← ofNode? lib l.val)
          (← ofNode? lib r.val) static)
      | _ => none
    | "VariableRead", some part =>
      match lib.fields? ["var", "name"] part.val with
      | some [some id, some name] => do
        some (.read (← VarId.ofNode? lib id.val) (← Name.ofNode? lib name.val) static)
      | _ => none
    | "Invocation", some part =>
      match lib.fields? ["name", "args"] part.val with
      | some [some name, some args] => do
        some (.call (← Name.ofNode? lib name.val)
          (← lib.list? args.val fun item => ofNode? lib item.val) static)
      | _ => none
    | "TypeAccess", some part => (Ty.ofNode? lib part.val).map (.typeRef · static)
    | _, _ => none
  | _ => none
termination_by lib.room node
decreasing_by
  all_goals have := kind.property
  all_goals have := part.property
  · have := x.property
    omega
  · have := l.property
    omega
  · have := r.property
    omega
  · have := args.property
    have := item.property
    omega

/-- The kinds without payload. -/
def DeclKind.ofTag? : String → Option DeclKind
  | "Local" => some .localVar
  | "Parameter" => some .parameter
  | _ => none

def DeclKind.ofCase? (lib : Library) {node : lib.Node} :
    String → Option (lib.Part node) → Option DeclKind
  | "Field", some part =>
    match lib.fields? ["is_static"] part.val with
    | some [some isStatic] => (lib.bool? isStatic.val).map .field
    | _ => none
  | tag, payload => lib.bareCase? ofTag? tag payload

def DeclKind.ofNode? (lib : Library) (node : lib.Node) : Option DeclKind := do
  let (tag, payload) ← lib.case? node
  ofCase? lib tag payload

def Declaration.ofNode? (lib : Library) (node : lib.Node) : Option Declaration :=
  match lib.fields? ["name", "ty", "kind", "is_final", "reassignments", "initializer"] node with
  | some [some name, some ty, some kind, some isFinal, some reassignments, initializer] => do
    let count ← lib.integer? 0 4294967295 reassignments.val
    some
      { name := ← Name.ofNode? lib name.val
        ty := ← Ty.ofNode? lib ty.val
        kind := ← DeclKind.ofNode? lib kind.val
        isFinal := ← lib.bool? isFinal.val
        reassignments := UInt32.ofNat count.toNat
        initializer := ← lib.optional? (Expr.ofNode? lib) initializer }
  | _ => none

def DeclTable.ofNode? (lib : Library) (node : lib.Node) : Option DeclTable :=
  match lib.fields? ["decls"] node with
  | some [some decls] =>
    (lib.list? decls.val fun item => Declaration.ofNode? lib item.val).map DeclTable.mk
  | _ => none

end ConstFold
