import ConstFold.Expr
import ConstFold.Value

/-! An evaluator for expressions of numeric and boolean literals, operators and casts between
primitive types, apart from the passes. Integers are computed exactly and then wrapped to the
width of the operation; `float` arithmetic is done in single precision. -/
namespace ConstFold.Reference

inductive Outcome where
  | value (v : Value)
  | divisionByZero
deriving DecidableEq

/-- An integral constant and its width in bits. -/
def integer? : Value → Option (Int × Nat)
  | .byte i => some (i.toInt, 8)
  | .short i => some (i.toInt, 16)
  | .char u => some (u.toNat, 16)
  | .int i => some (i.toInt, 32)
  | .long i => some (i.toInt, 64)
  | _ => none

/-- Two's complement of `bits` bits. -/
def wrap (i : Int) (bits : Nat) : Int := i.bmod (Nat.pow 2 bits)

def ofInteger? (i : Int) : Primitive → Option Value
  | .byte => some (.byte (Int8.ofInt (wrap i 8)))
  | .short => some (.short (Int16.ofInt (wrap i 16)))
  | .char => some (.char (UInt16.ofNat (i.emod 65536).toNat))
  | .int => some (.int (Int32.ofInt (wrap i 32)))
  | .long => some (.long (Int64.ofInt (wrap i 64)))
  | _ => none

/-- Casting conversion between primitive types. -/
def cast (v : Value) (target : Primitive) : Option Value :=
  match v with
  | .bool b => if target = .boolean then some (.bool b) else none
  | .float x => ofReal x.widen
  | .double x => ofReal x
  | v =>
    match integer? v with
    | none => none
    | some (i, _) =>
      match target with
      | .float => some (.float (Binary.ofInt Format.single i))
      | .double => some (.double (Binary.ofInt Format.double i))
      | p => ofInteger? i p
where
  /-- The types narrower than `int` are reached through it. -/
  ofReal (x : Binary64) : Option Value :=
    match target with
    | .float => some (.float x.narrow)
    | .double => some (.double x)
    | .long => some (.long (Int64.ofInt (Value.clampLong x)))
    | .boolean => none
    | p => ofInteger? (Value.clampInt x) p

def rank? : Value → Option Nat
  | .byte _ | .short _ | .char _ | .int _ => some 0
  | .long _ => some 1
  | .float _ => some 2
  | .double _ => some 3
  | _ => none

/-- The type in which two numbers are combined. -/
def promoted? (l r : Value) : Option Primitive :=
  match rank? l, rank? r with
  | some a, some b =>
    some (match if a < b then b else a with
      | 0 => .int
      | 1 => .long
      | 2 => .float
      | _ => .double)
  | _, _ => none

/-- A comparison from what is known of the order; a NaN is only unequal. -/
def comparison? (op : BinaryOp) (order : Option Ordering) : Option Bool :=
  match op with
  | .eq => some (order == some .eq)
  | .ne => some (order != some .eq)
  | .lt => some (order == some .lt)
  | .le => some (order == some .lt || order == some .eq)
  | .gt => some (order == some .gt)
  | .ge => some (order == some .gt || order == some .eq)
  | _ => none

def logical? (op : BinaryOp) (a b : Bool) : Option Bool :=
  match op with
  | .and | .bitAnd => some (a && b)
  | .or | .bitOr => some (a || b)
  | .bitXor | .ne => some (a != b)
  | .eq => some (a == b)
  | _ => none

/-- Bitwise operators see an integer in 128 bits. -/
def bitwise (op : BitVec 128 → BitVec 128 → BitVec 128) (a b : Int) : Int :=
  (op (BitVec.ofInt 128 a) (BitVec.ofInt 128 b)).toInt

/-- A shift of an integer of `bits` bits, before it is wrapped. -/
def shifted (op : BinaryOp) (a : Int) (bits distance : Nat) : Int :=
  match op with
  | .shl => a * (Nat.pow 2 distance : Nat)
  | .shr => a.fdiv (Nat.pow 2 distance : Nat)
  | _ => (a.emod (Nat.pow 2 bits : Nat)).fdiv (Nat.pow 2 distance : Nat)

def shift? (op : BinaryOp) (l r : Value) : Option Value :=
  match integer? l, integer? r with
  | some (a, width), some (d, _) =>
    let (ty, bits) := if width = 64 then (Primitive.long, 64) else (Primitive.int, 32)
    ofInteger? (shifted op a bits (d.emod bits).toNat) ty
  | _, _ => none

/-- An arithmetic operator on integers, before it is wrapped; division needs a divisor other
than zero. -/
def integral? (op : BinaryOp) (a b : Int) : Option Int :=
  match op with
  | .plus => some (a + b)
  | .minus => some (a - b)
  | .mul => some (a * b)
  | .div => some (a.tdiv b)
  | .mod => some (a.tmod b)
  | .bitAnd => some (bitwise (· &&& ·) a b)
  | .bitOr => some (bitwise (· ||| ·) a b)
  | .bitXor => some (bitwise (· ^^^ ·) a b)
  | _ => none

def floating? {f : Format} (op : BinaryOp) (a b : Binary f) : Option (Binary f) :=
  match op with
  | .plus => some (a.add b)
  | .minus => some (a.sub b)
  | .mul => some (a.mul b)
  | .div => some (a.div b)
  | .mod => some (a.rem b)
  | _ => none

/-- A numeric operator in its promoted type. -/
def numeric? (op : BinaryOp) (ty : Primitive) (l r : Value) : Option Outcome :=
  match ty with
  | .int | .long =>
    match integer? l, integer? r with
    | some (a, _), some (b, _) =>
      match comparison? op (some (compare a b)) with
      | some holds => some (.value (.bool holds))
      | none =>
        if (op = .div || op = .mod) && b = 0 then some .divisionByZero
        else (integral? op a b).bind fun v => (ofInteger? v ty).map .value
    | _, _ => none
  | .float =>
    match cast l .float, cast r .float with
    | some (.float a), some (.float b) =>
      match comparison? op (a.compare? b) with
      | some holds => some (.value (.bool holds))
      | none => (floating? op a b).map fun v => .value (.float v)
    | _, _ => none
  | _ =>
    match cast l .double, cast r .double with
    | some (.double a), some (.double b) =>
      match comparison? op (a.compare? b) with
      | some holds => some (.value (.bool holds))
      | none => (floating? op a b).map fun v => .value (.double v)
    | _, _ => none

def binary? (op : BinaryOp) (l r : Value) : Option Outcome :=
  match l, r with
  | .bool a, .bool b => (logical? op a b).map fun v => .value (.bool v)
  | l, r =>
    if op.isShift then (shift? op l r).map .value
    else (promoted? l r).bind fun ty => numeric? op ty l r

/-- Integers are computed in `int` or, if they are `long`, in `long`. -/
def unary? (op : UnaryOp) (v : Value) : Option Value :=
  match op, v with
  | .not, .bool b => some (.bool !b)
  | .neg, .float x => some (.float x.neg)
  | .neg, .double x => some (.double x.neg)
  | .pos, .float x => some (.float x)
  | .pos, .double x => some (.double x)
  | op, v =>
    match integer? v with
    | none => none
    | some (a, width) =>
      let ty := if width = 64 then Primitive.long else .int
      match op with
      | .neg => ofInteger? (-a) ty
      | .compl => ofInteger? (-a - 1) ty
      | .pos => ofInteger? a ty
      | _ => none

/-- Casts from the inside out; wrappers count as the types they box. -/
def castAll (v : Value) : List Cast → Option Value
  | [] => some v
  | c :: rest => (c.target.unboxed?.bind (cast v)).bind fun w => castAll w rest

def afterCasts (s : Static) : Outcome → Option Outcome
  | .value v => (castAll v s.casts).map .value
  | .divisionByZero => some .divisionByZero

/-- The outcome of an expression, if it is of the kind that this evaluator is for. A division by
zero ends the evaluation. -/
def eval? : Expr → Option Outcome
  | .literal v s => afterCasts s (.value v)
  | .unary op x s =>
    match eval? x with
    | some (.value v) => (unary? op v).bind fun w => afterCasts s (.value w)
    | stopped => stopped
  | .binary op l r s =>
    match eval? l with
    | some (.value a) =>
      match eval? r with
      | some (.value b) => (binary? op a b).bind (afterCasts s)
      | stopped => stopped
    | stopped => stopped
  | .read _ _ _ | .call _ _ _ | .typeRef _ _ => none

end ConstFold.Reference
