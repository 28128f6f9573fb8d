import ConstFold.Binary
import ConstFold.Decimal
import ConstFold.Text
import ConstFold.Ty

/-! Constants. A `char` is one UTF-16 unit; the text of a string is made of whole
characters. -/
namespace ConstFold

inductive Value where
  | null
  | bool (b : Bool)
  | char (unit : UInt16)
  | byte (i : Int8)
  | short (i : Int16)
  | int (i : Int32)
  | long (i : Int64)
  | float (x : Binary32)
  | double (x : Binary64)
  | string (s : String)
deriving DecidableEq

namespace Value

/-- The primitive type of the constant. -/
def primitive? : Value → Option Primitive
  | null | string _ => none
  | bool _ => some .boolean
  | char _ => some .char
  | byte _ => some .byte
  | short _ => some .short
  | int _ => some .int
  | long _ => some .long
  | float _ => some .float
  | double _ => some .double

/-- The type a literal has before any conversion. -/
def naturalTy : Value → Ty
  | null => .null
  | string _ => .string
  | bool _ => .primitive .boolean
  | char _ => .primitive .char
  | byte _ => .primitive .byte
  | short _ => .primitive .short
  | int _ => .primitive .int
  | long _ => .primitive .long
  | float _ => .primitive .float
  | double _ => .primitive .double

/-- The number an integral constant stands for. -/
def integer? : Value → Option Int
  | char u => some u.toNat
  | byte i => some i.toInt
  | short i => some i.toInt
  | int i => some i.toInt
  | long i => some i.toInt
  | _ => none

/-- A numeric constant in double precision; a `long` may be rounded. -/
def real? : Value → Option Binary64
  | float x => some x.widen
  | double x => some x
  | v => v.integer?.map (Binary.ofInt Format.double)

def bool? : Value → Option Bool
  | bool b => some b
  | _ => none

/-- The constant is numerically equal to the integer. -/
def isNumber (n : Int) (v : Value) : Bool :=
  match v with
  | float x => x.numEq (Binary.ofInt Format.single n)
  | double x => x.numEq (Binary.ofInt Format.double n)
  | v => v.integer? == some n

/-- Zero of either sign. -/
def isZero : Value → Bool := isNumber 0

def isOne : Value → Bool := isNumber 1

/-- Equality of constants by kind and content, in which floating-point numbers compare
numerically. -/
def eqv : Value → Value → Bool
  | float x, float y => x.numEq y
  | double x, double y => x.numEq y
  | float _, _ | _, float _ | double _, _ | _, double _ => false
  | v, w => v = w

/-- The same constant: every NaN is the same, and zeros of different sign are not. -/
def same : Value → Value → Bool
  | float x, float y => x = y || (x.isNaN && y.isNaN)
  | double x, double y => x = y || (x.isNaN && y.isNaN)
  | v, w => v = w

/-! ### Casting conversion

Integers wrap to the width of the target, floating-point
numbers truncate and clamp, and the sub-`int` types are reached through `int`. -/

/-- The low bits of an integer as a constant of an integral type. -/
def ofInteger? (i : Int) : Primitive → Option Value
  | .byte => some (.byte (Int8.ofInt i))
  | .short => some (.short (Int16.ofInt i))
  | .char => some (.char (UInt16.ofInt i))
  | .int => some (.int (Int32.ofInt i))
  | .long => some (.long (Int64.ofInt i))
  | .boolean | .float | .double => none

/-- Truncation to the range of `int`. -/
def clampInt (x : Binary64) : Int := x.toIntClamped (-2147483648) 2147483647

/-- Truncation to the range of `long`. -/
def clampLong (x : Binary64) : Int :=
  x.toIntClamped (-9223372036854775808) 9223372036854775807

/-- A floating-point number, given in double precision, as a constant of a numeric type. -/
def ofReal? (x : Binary64) : Primitive → Option Value
  | .float => some (.float x.narrow)
  | .double => some (.double x)
  | .long => ofInteger? (clampLong x) .long
  | .boolean => none
  | p => ofInteger? (clampInt x) p

/-- Conversion to a primitive type; none between `boolean` and numbers. -/
def convert (v : Value) (target : Primitive) : Option Value :=
  match v, target with
  | .bool b, .boolean => some (.bool b)
  | .float x, .float => some (.float x)
  | .float x, p => ofReal? x.widen p
  | .double x, p => ofReal? x p
  | v, .float => v.integer?.map fun i => .float (Binary.ofInt Format.single i)
  | v, .double => v.integer?.map fun i => .double (Binary.ofInt Format.double i)
  | v, p => v.integer?.bind fun i => ofInteger? i p

/-- The value of a cast applied to a constant. Boxing keeps the constant; `null` cannot be
unboxed, and no constant is an object of a class. -/
def castTo (v : Value) (target : Ty) : Option Value :=
  match v, target with
  | .null, .primitive _ => none
  | .null, _ => some .null
  | v, .primitive p | v, .boxed p => v.convert p
  | .string s, .string => some (.string s)
  | v, .object => some v
  | _, _ => none

/-- Constants near the boundaries of every numeric type. -/
def boundaries : List Value :=
  [.byte (-128), .byte (-1), .byte 127, .short (-32768), .short 32767, .char 0, .char 97,
    .char 65535] ++
  ([-2147483648, -2147483647, -1, 0, 1, 31, 32, 2147483647] : List Int32).map .int ++
  ([-9223372036854775808, -1, 0, 63, 64, 2147483648, 9223372036854775807] : List Int64).map .long ++
  ([0, 0x80000000, 0x3fc00000, 0x4b800000, 0x7f7fffff, 0x00800000, 0x7f800000, 0x7fc00000] :
    List (BitVec 32)).map (fun bits => .float ⟨bits⟩) ++
  ([0, 0x8000000000000000, 0x3fb999999999999a, 0x7e37e43c8800759c, 0x43e0000000000000,
    0xfff0000000000000, 0x7ff8000000000000] : List (BitVec 64)).map fun bits => .double ⟨bits⟩

end Value

/-! ### Text, as string concatenation sees it and as a literal of Java source -/

/-- The text of a floating-point number. A tie between two shortest decimals goes up. There always
are digits to lay out. -/
def Binary.javaText {f : Format} (x : Binary f) : String :=
  match x.decode with
  | .nan => "NaN"
  | .infinite s => if s then "-Infinity" else "Infinity"
  | .finite s m e =>
    if m = 0 then (if s then "-0.0" else "0.0")
    else (Decimal.layout? s (Decimal.shortest f .up m e).toScientific).getD ""

namespace Value

/-- What the constant contributes to a concatenation. -/
def text : Value → String
  | null => "null"
  | bool b => if b then "true" else "false"
  | char u => String.singleton (Text.charOfUnit u)
  | byte i => String.ofList (Decimal.integer i.toInt)
  | short i => String.ofList (Decimal.integer i.toInt)
  | int i => String.ofList (Decimal.integer i.toInt)
  | long i => String.ofList (Decimal.integer i.toInt)
  | float x => x.javaText
  | double x => x.javaText
  | string s => s

/-- A floating-point literal: special values are named constants of the wrapper class. -/
def floatingLiteral {f : Format} (wrapper mark : String) (x : Binary f) : String :=
  match x.decode with
  | .nan => wrapper ++ ".NaN"
  | .infinite s => wrapper ++ if s then ".NEGATIVE_INFINITY" else ".POSITIVE_INFINITY"
  | .finite _ _ _ => x.javaText ++ mark

/-- The constant in Java source. -/
def literal : Value → String
  | char u => Text.quoteUnit u
  | long i => String.ofList (Decimal.integer i.toInt) ++ "L"
  | float x => floatingLiteral "Float" "F" x
  | double x => floatingLiteral "Double" "" x
  | string s => Text.quoteString s
  | v => v.text

end Value

end ConstFold
