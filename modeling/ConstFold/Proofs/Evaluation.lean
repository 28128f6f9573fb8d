import ConstFold.Reference
import Mathlib.Logic.Function.Basic

/-! Evaluation of expressions over a store, operands from left to right. Operators and casts
compute as the reference does; `&&` and `||` leave out the right operand when the left one
decides, increments and decrements assign, and a call runs a method that is not known here. -/
namespace ConstFold

/-- How an evaluation ends without a value. -/
inductive Abrupt (Thrown : Type) where
  | divisionByZero
  | thrown (x : Thrown)
  /-- The expression has no meaning, as one with operands of the wrong type. -/
  | stuck

/-- The variables, and whatever else methods can see and change. -/
structure State (World : Type) where
  vars : VarId → Value
  world : World

abbrev Evaluation (World Thrown α : Type) := EStateM (Abrupt Thrown) (State World) α

/-- The methods. One is given its name, the type of the call and the values of the arguments. -/
abbrev Methods (World Thrown : Type) :=
  Name → Option Ty → List Value → Evaluation World Thrown Value

namespace Evaluation

variable {World Thrown α : Type}

/-- No value is no meaning. -/
def ofOption : Option α → Evaluation World Thrown α
  | some a => pure a
  | none => throw .stuck

def ofOutcome : Option Reference.Outcome → Evaluation World Thrown Value
  | some (.value v) => pure v
  | some .divisionByZero => throw .divisionByZero
  | none => throw .stuck

end Evaluation

/-- The left operand alone decides: `false &&` and `true ||`. -/
def BinaryOp.decides (op : BinaryOp) (left : Value) : Bool :=
  (op = .and && left = .bool false) || (op = .or && left = .bool true)

/-- The next or previous number in the type of the constant. -/
def UnaryOp.stepped? (op : UnaryOp) (v : Value) : Option Value :=
  v.primitive?.bind fun p =>
    (Reference.integer? v).bind fun (i, _) =>
      match op with
      | preInc | postInc => Reference.ofInteger? (i + 1) p
      | preDec | postDec => Reference.ofInteger? (i - 1) p
      | _ => none

namespace Expr

variable {World Thrown : Type}

/-- An increment or decrement of a variable. The value is that before the assignment if the
operator follows its operand. -/
def evalStep (op : UnaryOp) (id : VarId) : Evaluation World Thrown Value := do
  let state ← get
  let old := state.vars id
  let new ← Evaluation.ofOption (op.stepped? old)
  set { state with vars := Function.update state.vars id new }
  pure (if op.followsOperand then old else new)

mutual

/-- The value of an expression, or how its evaluation ends without one. -/
def eval (methods : Methods World Thrown) : Expr → Evaluation World Thrown Value
  | literal v s => .ofOption (Reference.castAll v s.casts)
  | read id _ s => do .ofOption (Reference.castAll ((← get).vars id) s.casts)
  | call name args s => do
    let values ← evalAll methods args
    let v ← methods name s.ty values
    .ofOption (Reference.castAll v s.casts)
  | unary op x s => do
    let v ←
      if op.isStep then
        match x with
        | read id _ ⟨_, []⟩ => evalStep op id
        | _ => throw .stuck
      else do .ofOption (Reference.unary? op (← eval methods x))
    .ofOption (Reference.castAll v s.casts)
  | binary op l r s => do
    let a ← eval methods l
    let v ←
      if op.decides a then pure a
      else do .ofOutcome (Reference.binary? op a (← eval methods r))
    .ofOption (Reference.castAll v s.casts)
  | typeRef _ _ => throw .stuck

def evalAll (methods : Methods World Thrown) : List Expr → Evaluation World Thrown (List Value)
  | [] => pure []
  | e :: rest => do
    let v ← eval methods e
    let values ← evalAll methods rest
    pure (v :: values)

end

end Expr

end ConstFold
