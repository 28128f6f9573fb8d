import ConstFold.Decimal

/-! JSON texts. A number keeps the digits it is written with, since what it stands for depends
on the type that is read. -/
namespace ConstFold

namespace Json

/-- A number as written: the digits before the point, those after it if there is a point, and
the exponent with its sign. -/
structure Numeral where
  negative : Bool := false
  whole : List Char
  fraction : List Char := []
  exponent : Option (Bool × List Char) := none
deriving DecidableEq, Repr

end Json

inductive Json where
  | null
  | bool (b : Bool)
  | number (n : Json.Numeral)
  | string (s : String)
  | array (items : List Json)
  | object (members : List (String × Json))
  /-- A string that escapes half of a surrogate pair, or an object with such a key. It is
  well-formed, and can be skipped, but has no value. -/
  | unreadable

namespace Json

namespace Numeral

def ofInt (i : Int) : Numeral := ⟨i < 0, Nat.toDigits 10 i.natAbs, [], none⟩

/-- A decimal number. From `10 ^ low` up to `10 ^ high` it is written positionally. -/
def ofDecimal (low high : Int) (negative : Bool) (d : Decimal) : Numeral :=
  if low ≤ d.exponent && d.exponent < high then ⟨negative, d.whole, d.fraction, none⟩
  else
    ⟨negative, d.digits.take 1, d.digits.drop 1,
      some (d.exponent < 0, Nat.toDigits 10 d.exponent.natAbs)⟩

/-- The shortest decimal of a finite number; a tie goes to the even digit. -/
def ofFinite (f : Format) (low high : Int) (negative : Bool) (significand : Nat)
    (exponent : Int) : Numeral :=
  if significand = 0 then ⟨negative, ['0'], ['0'], none⟩
  else ofDecimal low high negative (Decimal.shortest f .even significand exponent)

end Numeral

/-- Only finite numbers can be written. -/
def ofBinary {f : Format} (low high : Int) (x : Binary f) : Json :=
  match x.decode with
  | .finite s m e => number (.ofFinite f low high s m e)
  | _ => null

def ofSingle (x : Binary32) : Json := ofBinary (-6) 13 x

def ofDouble (x : Binary64) : Json := ofBinary (-5) 16 x

def ofInt (i : Int) : Json := number (.ofInt i)

/-! ### The numbers that numerals stand for

Integers of up to 64 bits are exact. Any other numeral
is a floating-point number: as many leading digits as fit 64 bits, multiplied or divided by a
power of ten in double precision. -/

namespace Numeral

def digitValue (c : Char) : Nat := c.toNat - '0'.toNat

def natOfDigits (digits : List Char) : Nat := digits.foldl (fun n c => n * 10 + digitValue c) 0

/-- Numbers below this fit 64 bits without a sign. -/
def wordLimit : Nat := 18446744073709551616

/-- An integer that fits 64 bits, with a sign if it is negative. A numeral with a point or an
exponent is not one, and neither is a negative zero. -/
def integer? (n : Numeral) : Option Int :=
  if n.fraction.isEmpty && n.exponent.isNone then
    let magnitude := natOfDigits n.whole
    if n.negative then
      if 1 ≤ magnitude && magnitude ≤ 9223372036854775808 then some (-(magnitude : Int)) else none
    else if magnitude < wordLimit then some magnitude
    else none
  else none

/-- The leading digits that fit 64 bits, after those read so far, and the digits left. -/
def gather : Nat → List Char → Nat × List Char
  | acc, [] => (acc, [])
  | acc, c :: rest =>
    if acc * 10 + digitValue c < wordLimit then gather (acc * 10 + digitValue c) rest
    else (acc, c :: rest)

/-- Significand and power of ten. Digits before the point that do not fit raise the power, those
after it are dropped. -/
def parts (n : Numeral) : Nat × Int :=
  let (high, excess) := gather 0 n.whole
  let (significand, dropped) := gather high n.fraction
  let used := n.fraction.length - dropped.length
  let power := match n.exponent with
    | none => 0
    | some (negative, digits) =>
      let e : Int := natOfDigits digits
      if negative then -e else e
  (significand, (excess.length : Nat) - (used : Nat) + power)

/-- The double nearest to a power of ten. -/
def powerOfTen (n : Nat) : Binary64 := Binary.ofInt Format.double (Nat.pow 10 n : Nat)

/-- Division by a power of ten in steps of at most `10 ^ 308`. -/
def divideByTens : Nat → Binary64 → Nat → Binary64
  | 0, x, _ => x
  | steps + 1, x, n =>
    if n ≤ 308 then x.div (powerOfTen n)
    else if x.code = 0 then x
    else divideByTens steps (x.div (powerOfTen 308)) (n - 308)

/-- `significand · 10 ^ power`; there is none past the largest double. -/
def scale? (significand : Nat) (power : Int) : Option Binary64 :=
  let x := Binary.ofInt Format.double significand
  if power < 0 then some (divideByTens (power.natAbs / 308 + 1) x power.natAbs)
  else if significand = 0 then some x
  else if power ≤ 308 then
    let product := x.mul (powerOfTen power.toNat)
    if product.isInfinite then none else some product
  else none

def double? (n : Numeral) : Option Binary64 :=
  match n.integer? with
  | some i => some (Binary.ofInt Format.double i)
  | none =>
    let (significand, power) := n.parts
    (scale? significand power).map fun x => if n.negative then x.neg else x

/-- An integer is rounded once, other numbers are rounded through double precision. -/
def single? (n : Numeral) : Option Binary32 :=
  match n.integer? with
  | some i => some (Binary.ofInt Format.single i)
  | none => n.double?.map Binary.narrow

end Numeral

end Json

end ConstFold
