import ConstFold.Text
import ConstFold.Toml

/-! The written forms of numbers, dates and times. -/
namespace ConstFold.Toml

/-- Groups of digits with single underscores between them. -/
def isDigits (digit : Char → Bool) (cs : List Char) : Bool :=
  (cs.splitOn '_').all fun group => !group.isEmpty && group.all digit

/-- Decimal digits without a leading zero. -/
def isDecimal : List Char → Bool
  | ['0'] => true
  | '0' :: _ => false
  | cs => isDigits Char.isDigit cs

/-- The number that digits write; what is not a digit is passed over. -/
def digitsValue (radix : Nat) (cs : List Char) : Nat :=
  cs.foldl (fun n c => (Text.hexDigit? c).elim n (n * radix + ·)) 0

def dropSign : List Char → List Char
  | '+' :: rest | '-' :: rest => rest
  | cs => cs

/-- Integers below this fit 64 bits with a sign. -/
def integerLimit : Nat := 9223372036854775808

/-- Digits of an integer without a sign, in a radix other than ten. -/
def isRadixInteger (radix : Nat) (cs : List Char) : Bool :=
  isDigits (fun c => (Text.hexDigit? c).any (· < radix)) cs && digitsValue radix cs < integerLimit

/-- An integer of 64 bits; only decimal ones may have a sign. -/
def isInteger : List Char → Bool
  | '0' :: 'x' :: rest => isRadixInteger 16 rest
  | '0' :: 'o' :: rest => isRadixInteger 8 rest
  | '0' :: 'b' :: rest => isRadixInteger 2 rest
  | '-' :: rest => isDecimal rest && digitsValue 10 rest ≤ integerLimit
  | cs => isDecimal (dropSign cs) && digitsValue 10 cs < integerLimit

def isExponentMark (c : Char) : Bool := c = 'e' || c = 'E'

/-- Numbers from this on round past the largest double: it lies half a step above that. -/
def doubleLimit : Nat := 18014398509481983 <<< 970

/-- `digits · 10 ^ power` rounds past the largest double. Only numbers of 309 places need to be
compared. -/
def isPastDoubles (digits : List Char) (power : Int) : Bool :=
  let digits := (digits.filter Char.isDigit).dropWhile (· = '0')
  let places := (digits.length : Int) + power
  !digits.isEmpty && (309 < places || (places = 309 &&
    doubleLimit * Nat.pow 10 (-power).toNat ≤ digitsValue 10 digits * Nat.pow 10 power.toNat))

/-- The power of ten that an exponent writes, a sign included. -/
def exponentValue : List Char → Int
  | '-' :: rest => -(digitsValue 10 rest : Int)
  | cs => digitsValue 10 cs

/-- A number with a fraction, an exponent or both, or a special value. A number above zero is not
written with more than a double holds. -/
def isFloat (cs : List Char) : Bool :=
  let body := dropSign cs
  let mantissa := body.takeWhile fun c => !isExponentMark c
  let whole := mantissa.takeWhile (· ≠ '.')
  let fraction := (mantissa.drop whole.length).drop 1
  let exponent := (body.drop mantissa.length).drop 1
  let hasFraction := whole.length < mantissa.length
  let hasExponent := mantissa.length < body.length
  body = ['i', 'n', 'f'] || body = ['n', 'a', 'n'] ||
    ((hasFraction || hasExponent) && isDecimal whole &&
      (!hasFraction || isDigits Char.isDigit fraction) &&
      (!hasExponent || isDigits Char.isDigit (dropSign exponent)) &&
      (cs.head? = some '-' || !isPastDoubles (whole ++ fraction)
        (exponentValue exponent - ((fraction.filter Char.isDigit).length : Nat))))

/-- The number that a fixed count of digits writes. -/
def fixed? (count : Nat) (cs : List Char) : Option (Nat × List Char) :=
  let digits := cs.take count
  if digits.length = count && digits.all Char.isDigit then
    some (digits.foldl (fun n c => n * 10 + (c.toNat - '0'.toNat)) 0, cs.drop count)
  else none

def daysIn (year month : Nat) : Nat :=
  if month = 2 then
    if year % 4 = 0 && (year % 100 ≠ 0 || year % 400 = 0) then 29 else 28
  else if month = 4 || month = 6 || month = 9 || month = 11 then 30
  else 31

/-- A date of the calendar. -/
def date? (cs : List Char) : Option (List Char) :=
  match fixed? 4 cs with
  | some (year, '-' :: rest) =>
    match fixed? 2 rest with
    | some (month, '-' :: rest) =>
      match fixed? 2 rest with
      | some (day, rest) =>
        if 1 ≤ month && month ≤ 12 && 1 ≤ day && day ≤ daysIn year month then some rest else none
      | none => none
    | _ => none
  | _ => none

/-- Hours and minutes. -/
def clock? (cs : List Char) : Option (List Char) :=
  match fixed? 2 cs with
  | some (hour, ':' :: rest) =>
    match fixed? 2 rest with
    | some (minute, rest) => if hour < 24 && minute < 60 then some rest else none
    | none => none
  | _ => none

/-- A time of day; the seconds may be a leap second and may have a fraction. -/
def time? (cs : List Char) : Option (List Char) :=
  match clock? cs with
  | some (':' :: rest) =>
    match fixed? 2 rest with
    | some (second, rest) =>
      if second ≤ 60 then
        match rest with
        | '.' :: fraction =>
          let digits := fraction.takeWhile Char.isDigit
          if digits.isEmpty then none else some (fraction.drop digits.length)
        | rest => some rest
      else none
    | none => none
  | _ => none

/-- An offset from universal time. -/
def offset? : List Char → Option (List Char)
  | 'Z' :: rest | 'z' :: rest => some rest
  | '+' :: rest | '-' :: rest => clock? rest
  | cs => some cs

def isTimeSeparator (c : Char) : Bool := c = 'T' || c = 't' || c = ' '

/-- A date, a time, or both with or without an offset. -/
def isTime (cs : List Char) : Bool :=
  match date? cs with
  | some [] => true
  | some (c :: rest) => isTimeSeparator c && (time? rest).bind offset? = some []
  | none => time? cs = some []

/-- Characters of numbers and times; a blank may divide a date from a time. -/
def isScalarChar (c : Char) : Bool :=
  c.isAlphanum || c = '+' || c = '-' || c = '.' || c = '_' || c = ':'

/-- The characters of a scalar at the start, and the rest. -/
def scalarText (cs : List Char) : List Char × List Char :=
  let first := cs.takeWhile isScalarChar
  let rest := cs.drop first.length
  match date? first, rest with
  | some [], ' ' :: a :: b :: tail =>
    if a.isDigit && b.isDigit then
      let second := (a :: b :: tail).takeWhile isScalarChar
      (first ++ ' ' :: second, (a :: b :: tail).drop second.length)
    else (first, rest)
  | _, _ => (first, rest)

/-- A boolean, a number or a time. -/
def scalarValue? (cs : List Char) : Option (Toml × List Char) :=
  let (text, rest) := scalarText cs
  if text = ['t', 'r', 'u', 'e'] then some (.boolean true, rest)
  else if text = ['f', 'a', 'l', 's', 'e'] then some (.boolean false, rest)
  else if isInteger text || isFloat text || isTime text then some (.scalar, rest)
  else none

end ConstFold.Toml
