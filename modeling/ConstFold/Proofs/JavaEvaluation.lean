import ConstFold.Proofs.Evaluation
import ConstFold.Ty
import ConstFold.Typing
import ConstFold.Value

/-! Expressions over the primitive types, their wrappers, `String` and `Object`, by the rules of
Java: which are well typed, and what they evaluate to over a store. A reference may be `null`.
What an operator or a cast does hangs on the types of its operands: it unboxes them, compares them
as references, takes them for texts or checks their class. -/
namespace ConstFold.Java

/-! Types. -/

/-- Variables, calls and casts have these types; the null type is that of `null` alone. -/
def isDeclarable : Ty → Bool
  | .primitive _ | .boxed _ | .string | .object => true
  | .null | .classType _ _ => false

/-- A constant that a literal of the type can hold. In a reference type it is boxed. -/
def isConstantOf (v : Value) : Ty → Bool
  | .primitive p => v.primitive? = some p
  | t => v.naturalTy.box.isSubtype t

/-- An implicit cast marks a conversion that needs none. A cast that is written may also turn a
number into one of any numeric type, or find out the class of an object. -/
def allows (source : Ty) (cast : Cast) : Bool :=
  isDeclarable cast.target &&
    (source.isAssignable cast.target ||
      (!cast.implicit && ((source.isNumeric && cast.target.isNumeric) || source = .object)))

/-- The type that casts lead to. -/
def castsTy? : Ty → List Cast → Option Ty
  | t, [] => some t
  | t, cast :: rest => if allows t cast then castsTy? cast.target rest else none

def unaryTy? (op : UnaryOp) (operand : Ty) : Option Ty :=
  match op with
  | .not => if operand.isBoolean then some .boolean else none
  | .pos | .neg => operand.unaryNumeric?
  | .compl => operand.unaryNumeric?.filter Ty.isIntegral
  | .preInc | .preDec | .postInc | .postDec => operand.numeric?.map fun _ => operand

/-- A primitive operand of `==` wants another that can be unboxed to the like of it. -/
def isComparable (left right : Ty) : Bool :=
  (!left.isPrimitive && !right.isPrimitive) || (left.isBoolean && right.isBoolean) ||
    (Ty.binaryNumeric? left right).isSome

def binaryTy? (op : BinaryOp) (left right : Ty) : Option Ty :=
  match op with
  | .and | .or => if left.isBoolean && right.isBoolean then some .boolean else none
  | .eq | .ne => if isComparable left right then some .boolean else none
  | .lt | .le | .gt | .ge => (Ty.binaryNumeric? left right).map fun _ => .boolean
  | .plus =>
    if left = .string || right = .string then some .string else Ty.binaryNumeric? left right
  | .minus | .mul | .div | .mod => Ty.binaryNumeric? left right
  | .bitAnd | .bitOr | .bitXor =>
    if left.isBoolean && right.isBoolean then some .boolean
    else (Ty.binaryNumeric? left right).filter Ty.isIntegral
  | .shl | .shr | .ushr => (Ty.shiftOperands? left right).map Prod.fst
  | .instanceOf => none

/-- The type that the right operand of `instanceof` names. -/
def testedTy? : Expr → Option Ty
  | .typeRef t _ => some t
  | _ => none

/-- The right operand of `instanceof` names a reference type, and the left one is a reference. -/
def isTest (left : Ty) (right : Expr) : Bool :=
  !left.isPrimitive && (testedTy? right).any fun t => isDeclarable t && !t.isPrimitive

/-- What an increment or decrement can be applied to. -/
def assigned? : Expr → Option VarId
  | .read id _ ⟨_, []⟩ => some id
  | _ => none

mutual

/-- The type that a well-typed node has before its casts. An operator node carries that type or
none. -/
def nodeTy? (types : VarId → Option Ty) : Expr → Option Ty
  | .literal v s => s.ty.filter fun t => (isDeclarable t || t = .null) && isConstantOf v t
  | .read id _ s => s.ty.filter fun t => isDeclarable t && types id = some t
  | .call _ args s => if allTyped types args then s.ty.filter isDeclarable else none
  | .unary op x s =>
    if op.isStep && (assigned? x).isNone then none
    else
      (((nodeTy? types x).bind fun t => castsTy? t x.casts).bind (unaryTy? op)).filter fun t =>
        s.ty.all (· = t)
  | .binary op l r s =>
    (((nodeTy? types l).bind fun t => castsTy? t l.casts).bind fun left =>
      if op = .instanceOf then if isTest left r then some .boolean else none
      else ((nodeTy? types r).bind fun t => castsTy? t r.casts).bind (binaryTy? op left)).filter
        fun t => s.ty.all (· = t)
  | .typeRef _ _ => none

def allTyped (types : VarId → Option Ty) : List Expr → Bool
  | [] => true
  | e :: rest => ((nodeTy? types e).bind fun t => castsTy? t e.casts).isSome && allTyped types rest

end

/-- The type of a well-typed expression. -/
def ty? (types : VarId → Option Ty) (e : Expr) : Option Ty :=
  (nodeTy? types e).bind fun t => castsTy? t e.casts

/-! Evaluation. -/

/-- What a variable holds and an expression yields: a constant, which is an object where the type
is a reference type, or an object of another class. -/
inductive Item (Obj : Type) where
  | constant (v : Value)
  | object (o : Obj)

namespace Item

variable {Obj : Type}

def isNull : Item Obj → Bool
  | constant v => v = .null
  | object _ => false

/-- The item is a value of the type; `null` is one of every reference type. -/
def isOf : Item Obj → Ty → Bool
  | constant v, t => isConstantOf v t
  | object _, t => t = .object

end Item

/-- How an evaluation ends without a value. -/
inductive Exception (Thrown : Type) where
  | divisionByZero
  | nullPointer
  | classCast
  | thrown (x : Thrown)
  /-- The expression has no meaning, as one that is not well typed. -/
  | stuck

/-- The variables, and whatever else methods can see and change. -/
structure Store (Obj World : Type) where
  vars : VarId → Item Obj
  world : World

abbrev Run (Obj World Thrown α : Type) := EStateM (Exception Thrown) (Store Obj World) α

/-- What is not known here: the texts of objects, which references other than `null` are to the
same object, and the methods. -/
structure Platform (Obj World Thrown : Type) where
  text : Obj → String
  identical : Item Obj → Item Obj → Bool
  method : Name → Option Ty → List (Item Obj) → Run Obj World Thrown (Item Obj)

variable {Obj World Thrown α : Type}

def ofOption : Option α → Run Obj World Thrown α
  | some a => pure a
  | none => throw .stuck

def ofOutcome : Option Reference.Outcome → Run Obj World Thrown (Item Obj)
  | some (.value v) => pure (.constant v)
  | some .divisionByZero => throw .divisionByZero
  | none => throw .stuck

def unbox : Item Obj → Run Obj World Thrown Value
  | .constant .null => throw .nullPointer
  | .constant v => pure v
  | .object _ => throw .stuck

def checkClass (t : Ty) (x : Item Obj) : Run Obj World Thrown (Item Obj) :=
  if x.isOf t then pure x else throw .classCast

/-- A cast to a primitive type unboxes; an object that is not known to be of a wrapper class is
first found to be of the one for the type. Other casts check the class. -/
def castTo (source : Ty) (x : Item Obj) : Ty → Run Obj World Thrown (Item Obj)
  | .primitive p => do
    let boxed ← if source.unboxed?.isSome then pure x else checkClass (.boxed p) x
    let v ← unbox boxed
    ofOption ((Reference.cast v p).map .constant)
  | target => checkClass target x

def castAll (source : Ty) : List Cast → Item Obj → Run Obj World Thrown (Item Obj)
  | [], x => pure x
  | cast :: rest, x => castTo source x cast.target >>= castAll cast.target rest

/-- The operator computes with numbers or truth values. Otherwise it concatenates texts, compares
references or tests a class. -/
def unboxesOperands (op : BinaryOp) (left right : Option Ty) : Bool :=
  match op with
  | .plus => left ≠ some .string && right ≠ some .string
  | .eq | .ne => left.any Ty.isPrimitive || right.any Ty.isPrimitive
  | .instanceOf => false
  | _ => true

namespace Platform

variable (platform : Platform Obj World Thrown)

def textOf : Item Obj → String
  | .constant v => v.text
  | .object o => platform.text o

def isSame (x y : Item Obj) : Bool :=
  if x.isNull || y.isNull then x.isNull && y.isNull else platform.identical x y

def onReferences (op : BinaryOp) (x y : Item Obj) : Run Obj World Thrown (Item Obj) :=
  match op with
  | .plus => pure (.constant (.string (platform.textOf x ++ platform.textOf y)))
  | .eq => pure (.constant (.bool (platform.isSame x y)))
  | .ne => pure (.constant (.bool !platform.isSame x y))
  | _ => throw .stuck

/-- An operator on items, where both operands are evaluated. -/
def combine (op : BinaryOp) (left right : Option Ty) (x y : Item Obj) :
    Run Obj World Thrown (Item Obj) :=
  if unboxesOperands op left right then do
    let v ← unbox x
    let w ← unbox y
    ofOutcome (Reference.binary? op v w)
  else platform.onReferences op x y

end Platform

def testClass (x : Item Obj) (tested : Option Ty) : Run Obj World Thrown (Item Obj) :=
  ofOption (tested.map fun t => .constant (.bool (!x.isNull && x.isOf t)))

/-- The right operand of `&&` and `||` is left out if the left one decides. -/
def evalLazy (op : BinaryOp) (x : Item Obj) (right : Run Obj World Thrown (Item Obj)) :
    Run Obj World Thrown (Item Obj) := do
  let v ← unbox x
  if op.decides v then pure (.constant v)
  else
    let w ← right >>= unbox
    ofOutcome (Reference.binary? op v w)

/-- An increment or decrement computes with `1` and converts back to the type of the variable. -/
def evalStep (op : UnaryOp) (id : VarId) : Run Obj World Thrown (Item Obj) := do
  let store ← get
  let old ← unbox (store.vars id)
  let sign := if op = .preInc || op = .postInc then BinaryOp.plus else .minus
  let sum ← ofOutcome (Reference.binary? sign old (.int 1)) >>= unbox
  let new ← ofOption (old.primitive?.bind (Reference.cast sum))
  set { store with vars := Function.update store.vars id (.constant new) }
  pure (.constant (if op.followsOperand then old else new))

mutual

/-- The value of an expression, or how its evaluation ends without one. -/
def eval (types : VarId → Option Ty) (platform : Platform Obj World Thrown) :
    Expr → Run Obj World Thrown (Item Obj)
  | .literal v s => do
    castAll (← ofOption (nodeTy? types (.literal v s))) s.casts (.constant v)
  | .read id name s => do
    castAll (← ofOption (nodeTy? types (.read id name s))) s.casts ((← get).vars id)
  | .call name args s => do
    let items ← evalAll types platform args
    let x ← platform.method name s.ty items
    castAll (← ofOption (nodeTy? types (.call name args s))) s.casts x
  | .unary op x s => do
    let y ←
      if op.isStep then ofOption (assigned? x) >>= evalStep op
      else do
        let v ← eval types platform x >>= unbox
        ofOption ((Reference.unary? op v).map .constant)
    castAll (← ofOption (nodeTy? types (.unary op x s))) s.casts y
  | .binary op l r s => do
    let x ← eval types platform l
    let y ←
      if op = .instanceOf then testClass x (testedTy? r)
      else if op = .and || op = .or then evalLazy op x (eval types platform r)
      else eval types platform r >>= platform.combine op (ty? types l) (ty? types r) x
    castAll (← ofOption (nodeTy? types (.binary op l r s))) s.casts y
  | .typeRef _ _ => throw .stuck

def evalAll (types : VarId → Option Ty) (platform : Platform Obj World Thrown) :
    List Expr → Run Obj World Thrown (List (Item Obj))
  | [] => pure []
  | e :: rest => do
    let x ← eval types platform e
    let items ← evalAll types platform rest
    pure (x :: items)

end

section Literal

variable {types : VarId → Option Ty} {v : Value} {s : Static} {t : Ty}

theorem nodeTy?_literal : nodeTy? types (.literal v s) = some t ↔
    s.ty = some t ∧ (isDeclarable t ∨ t = .null) ∧ isConstantOf v t := by
  simp [nodeTy?, Option.filter_eq_some_iff]

theorem eval_literal {platform : Platform Obj World Thrown}
    (node : nodeTy? types (.literal v s) = some t) :
    eval types platform (.literal v s) = castAll t s.casts (.constant v) := by
  rw [eval, node]
  rfl

end Literal

end ConstFold.Java
