import ConstFold.Binary

/-! Decimal notation: significant digits with the power of ten of the first one. -/
namespace ConstFold

/-- The number `d₁.d₂…dₖ · 10 ^ exponent`. The first digit is not zero, and neither is the
last one unless it is the first. -/
structure Decimal where
  digits : List Char
  exponent : Int
deriving DecidableEq, Repr

namespace Decimal

/-- `n · 10 ^ power` for positive `n`, without trailing zeros. -/
def ofNat (n : Nat) (power : Int) : Decimal :=
  let all := Nat.toDigits 10 n
  ⟨(all.reverse.dropWhile (· == '0')).reverse, power + (all.length : Nat) - 1⟩

/-- An integer in decimal, with a minus sign if it is negative. -/
def integer (i : Int) : List Char :=
  if i < 0 then '-' :: Nat.toDigits 10 i.natAbs else Nat.toDigits 10 i.natAbs

/-- The digits before the point in positional notation; there is at least one. -/
def whole (d : Decimal) : List Char :=
  if d.exponent < 0 then ['0']
  else
    let places := d.exponent.toNat + 1
    d.digits.take places ++ List.replicate (places - d.digits.length) '0'

/-- A zero where there are no digits. -/
def orZero (digits : List Char) : List Char := if digits.isEmpty then ['0'] else digits

/-- The digits after the point in positional notation; there is at least one. -/
def fraction (d : Decimal) : List Char :=
  if d.exponent < 0 then List.replicate (-d.exponent - 1).toNat '0' ++ d.digits
  else orZero (d.digits.drop (d.exponent.toNat + 1))

/-! ### Notation of Java

Numbers from `10 ^ -3` up to `10 ^ 7` are positional, others have
one digit before the point and an exponent. A digit stands on each side of the point. -/

def isPositional (d : Decimal) : Bool := -3 ≤ d.exponent && d.exponent < 7

def positional (d : Decimal) : List Char := d.whole ++ '.' :: d.fraction

def scientific (d : Decimal) : List Char :=
  d.digits.take 1 ++ '.' :: (orZero (d.digits.drop 1) ++ 'E' :: integer d.exponent)

/-- The text of a number of either sign. -/
def javaText (negative : Bool) (d : Decimal) : List Char :=
  let magnitude := if d.isPositional then d.positional else d.scientific
  if negative then '-' :: magnitude else magnitude

/-! ### Layout of scientific notation

A number comes as a text such as `1.2345e6`, and is laid out as Java does. -/

/-- Whether there is a minus sign, and what follows a sign of either kind. -/
def splitSign : List Char → Bool × List Char
  | '-' :: rest => (true, rest)
  | '+' :: rest => (false, rest)
  | rest => (false, rest)

/-- A 32-bit integer in decimal, with or without a sign. -/
def int32? (cs : List Char) : Option Int :=
  let (negative, digits) := splitSign cs
  if digits.isEmpty || !digits.all Char.isDigit then none
  else
    let magnitude : Int := Nat.ofDigitChars 10 digits 0
    let i := if negative then -magnitude else magnitude
    if -2147483648 ≤ i && i ≤ 2147483647 then some i else none

/-- What stands before and after the first mark of an exponent; the exponent is zero if there is no
mark. -/
def splitMark (cs : List Char) : List Char × List Char :=
  match cs.dropWhile (· != 'e') with
  | [] => (cs, ['0'])
  | _ :: exponent => (cs.takeWhile (· != 'e'), exponent)

/-- The digits before the mark, and the exponent after it. An exponent that is no 32-bit integer
counts as zero. -/
def ofScientific (text : String) : Decimal :=
  let (mantissa, exponent) := splitMark text.toList
  ⟨mantissa.filter Char.isDigit, (int32? exponent).getD 0⟩

/-- The number of a text in the notation of Java. Text with an exponent needs a first digit; without
one the program stops. -/
def layout? (negative : Bool) (text : String) : Option String :=
  let d := ofScientific text
  if !d.isPositional && d.digits.isEmpty then none else some (String.ofList (d.javaText negative))

/-- The text `d₁.d₂…dₖe<exponent>`, without a point if there is only one digit. -/
def toScientific (d : Decimal) : String :=
  let point := if d.digits.length ≤ 1 then [] else ['.']
  String.ofList (d.digits.take 1 ++ point ++ d.digits.drop 1 ++ 'e' :: integer d.exponent)

/-! ### The fewest digits that read back as a binary number

A number owns the interval
of reals that round to it, with its ends if its significand is even. The digits are those of
the coarsest power of ten that has a multiple in the interval, the nearest one if two lie
there. -/

/-- Which neighbour an exact tie between two shortest decimals takes. -/
inductive Tie where
  | up
  | even
deriving DecidableEq, Repr

/-- The exponent `e` with `10 ^ e ≤ n / d < 10 ^ (e + 1)`, for positive `n` and `d`. -/
def floorLog10 (n d : Nat) : Int :=
  if d ≤ n then ((Nat.toDigits 10 (n / d)).length : Nat) - 1
  else -((Nat.toDigits 10 ((d - 1) / n)).length : Nat)

/-- A positive number with the bounds of its interval, over one denominator. -/
structure Interval where
  value : Nat
  lower : Nat
  upper : Nat
  denominator : Nat
  closed : Bool
deriving DecidableEq, Repr

namespace Interval

/-- The interval of `significand · 2 ^ exponent`. Below a power of two the neighbour is only
half as far away as above it. -/
def ofBinary (f : Format) (significand : Nat) (exponent : Int) : Interval :=
  let quarter := exponent - 2
  let unit := 1 <<< quarter.toNat
  let below := if significand = f.hidden && exponent ≠ f.leastExponent then 1 else 2
  { value := 4 * significand * unit
    lower := (4 * significand - below) * unit
    upper := (4 * significand + 2) * unit
    denominator := 1 <<< (-quarter).toNat
    closed := significand % 2 == 0 }

/-- `a` may stand at or beyond the end `b` of the interval. -/
def admits (i : Interval) (a b : Nat) : Bool := a < b || (i.closed && a == b)

/-- The multiple of `10 ^ power` in the interval that is nearest to the value. -/
def nearest? (i : Interval) (tie : Tie) (power : Int) : Option Nat :=
  let up := Nat.pow 10 (-power).toNat
  let step := i.denominator * Nat.pow 10 power.toNat
  let value := i.value * up
  let floor := value / step
  let rest := value % step
  let low := i.admits (i.lower * up) (floor * step)
  let high := i.admits ((floor + 1) * step) (i.upper * up)
  if rest = 0 then some floor
  else if low && high then
    if 2 * rest < step then some floor
    else if step < 2 * rest then some (floor + 1)
    else match tie with
      | .up => some (floor + 1)
      | .even => some (floor + floor % 2)
  else if low then some floor
  else if high then some (floor + 1)
  else none

end Interval

/-- Seventeen digits tell any two numbers of either format apart, so the search ends there. -/
def shortest (f : Format) (tie : Tie) (significand : Nat) (exponent : Int) : Decimal :=
  let i := Interval.ofBinary f significand exponent
  let top := floorLog10 i.value i.denominator
  let found := (List.range 17).findSome? fun k =>
    let power := top - (k : Nat)
    (i.nearest? tie power).map (ofNat · power)
  found.getD (ofNat i.value 0)

end Decimal

end ConstFold
