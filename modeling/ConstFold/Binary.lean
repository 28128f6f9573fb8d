/-! Binary interchange formats: a number is its bit pattern, and `decode` gives the exact
rational that a finite pattern stands for. Both signed zeros and every NaN pattern are kept
apart, so bit equality is `=` and numerical comparison is a function of its own. -/
namespace ConstFold

/-- Field widths of a format; the sign takes one more bit. -/
structure Format where
  exponentBits : Nat
  fractionBits : Nat
deriving DecidableEq, Repr

namespace Format

abbrev single : Format := ⟨8, 23⟩
abbrev double : Format := ⟨11, 52⟩

abbrev width (f : Format) : Nat := 1 + f.exponentBits + f.fractionBits

/-- Weight of the hidden bit in the significand of a normal number. -/
def hidden (f : Format) : Nat := Nat.pow 2 f.fractionBits

/-- Exponent of the last place of the subnormal numbers, the finest place there is. -/
def leastExponent (f : Format) : Int :=
  2 - (Nat.pow 2 (f.exponentBits - 1) : Nat) - (f.fractionBits : Nat)

/-- Magnitude bits of infinity: the exponent field is all ones and the fraction is zero. -/
def infinityCode (f : Format) : Nat := (Nat.pow 2 f.exponentBits - 1) * f.hidden

/-- Place of the sign bit. -/
def signPlace (f : Format) : Nat := Nat.pow 2 (f.exponentBits + f.fractionBits)

end Format

/-- A number of the format, given by its bits. -/
structure Binary (f : Format) where
  bits : BitVec f.width
deriving DecidableEq

abbrev Binary32 := Binary Format.single
abbrev Binary64 := Binary Format.double

/-- What a bit pattern denotes. A finite number is `± significand · 2 ^ exponent`. -/
inductive Datum where
  | nan
  | infinite (negative : Bool)
  | finite (negative : Bool) (significand : Nat) (exponent : Int)
deriving DecidableEq, Repr

namespace Binary

variable {f : Format}

/-- Sign and magnitude put together; the magnitude is cut to its field. -/
def ofCode (f : Format) (negative : Bool) (code : Nat) : Binary f :=
  ⟨BitVec.ofNat f.width (code % f.signPlace + if negative then f.signPlace else 0)⟩

def negative (x : Binary f) : Bool := x.bits.toNat / f.signPlace % 2 == 1

/-- The bits below the sign. -/
def code (x : Binary f) : Nat := x.bits.toNat % f.signPlace

def zero (f : Format) (negative : Bool) : Binary f := ofCode f negative 0

def infinity (f : Format) (negative : Bool) : Binary f := ofCode f negative f.infinityCode

/-- The NaN of an invalid operation: quiet, with the sign bit set. -/
def invalid (f : Format) : Binary f := ofCode f true (f.infinityCode + f.hidden / 2)

/-- The quiet NaN without a sign. -/
def nan (f : Format) : Binary f := ofCode f false (f.infinityCode + f.hidden / 2)

def isNaN (x : Binary f) : Bool := f.infinityCode < x.code

def isInfinite (x : Binary f) : Bool := x.code == f.infinityCode

def decode (x : Binary f) : Datum :=
  if f.infinityCode < x.code then .nan
  else if x.code = f.infinityCode then .infinite x.negative
  else if x.code < f.hidden then .finite x.negative x.code f.leastExponent
  else .finite x.negative (f.hidden + x.code % f.hidden)
    (f.leastExponent + (x.code / f.hidden : Nat) - 1)

/-- Negation flips the sign bit, that of a NaN included. -/
def neg (x : Binary f) : Binary f := ofCode f (!x.negative) x.code

/-! ### Rounding

Rounding of an exact positive quotient to the nearest number of a format. A tie goes to
the even significand, and magnitudes past the largest finite number become infinite. -/

/-- The integer nearest to `n / d`, an exact half going to the even neighbour. -/
def nearestEven (n d : Nat) : Nat :=
  let q := n / d
  let r := n % d
  if 2 * r < d then q
  else if d < 2 * r then q + 1
  else q + q % 2

/-- The exponent `e` with `2 ^ e ≤ n / d < 2 ^ (e + 1)`, for positive `n` and `d`. -/
def floorLog2 (n d : Nat) : Int :=
  let a := n.log2
  let b := d.log2
  let e : Int := (a : Int) - (b : Int)
  if n <<< (b - a) < d <<< (a - b) then e - 1 else e

/-- `n / d` divided by `2 ^ e`, as a fraction. -/
def scaled (n d : Nat) (e : Int) : Nat × Nat :=
  (n <<< (-e).toNat, d <<< e.toNat)

/-- Magnitude bits of the number nearest to `n / d`. A carry out of the fraction runs into
the exponent field, which is what the next binade, and past the last one infinity, needs. -/
def roundCode (f : Format) (n d : Nat) : Nat :=
  if n = 0 then 0
  else
    let fitted := floorLog2 n d - (f.fractionBits : Nat)
    let place := if fitted < f.leastExponent then f.leastExponent else fitted
    let (sn, sd) := scaled n d place
    let code := (place - f.leastExponent).toNat * f.hidden + nearestEven sn sd
    if code < f.infinityCode then code else f.infinityCode

/-- The number nearest to `± n / d`; zero takes the sign given. -/
def ofQuotient (f : Format) (negative : Bool) (n d : Nat) : Binary f :=
  ofCode f negative (roundCode f n d)

/-- The number nearest to `± m · 2 ^ e`. -/
def ofScaled (f : Format) (negative : Bool) (m : Nat) (e : Int) : Binary f :=
  ofQuotient f negative (m <<< e.toNat) (1 <<< (-e).toNat)

/-! ### Arithmetic and comparison

Each operation is computed exactly and rounded once; a NaN
operand is passed on, the left one first. -/

/-- Signed integer that stands for a finite number in units of `2 ^ e`, for `e` at most its
exponent. -/
def units (negative : Bool) (m : Nat) (exponent e : Int) : Int :=
  let magnitude : Int := (m <<< (exponent - e).toNat : Nat)
  if negative then -magnitude else magnitude

/-- Runs `op` unless an operand is NaN. -/
def passNaN (x y : Binary f) (op : Binary f) : Binary f :=
  if x.isNaN then x else if y.isNaN then y else op

/-- The sum of numbers of opposite sign that cancel is positive zero. -/
def add (x y : Binary f) : Binary f :=
  passNaN x y <|
    match x.decode, y.decode with
    | .infinite s, .infinite t => if s == t then x else invalid f
    | .infinite _, _ => x
    | _, .infinite _ => y
    | .finite s m d, .finite t n e =>
      let least := if d < e then d else e
      let sum := units s m d least + units t n e least
      let sign := if sum = 0 then s && t else sum < 0
      ofScaled f sign sum.natAbs least
    | _, _ => invalid f

def sub (x y : Binary f) : Binary f :=
  passNaN x y (x.add y.neg)

def mul (x y : Binary f) : Binary f :=
  passNaN x y <|
    match x.decode, y.decode with
    | .infinite s, .infinite t => infinity f (s != t)
    | .infinite s, .finite t n _ => if n = 0 then invalid f else infinity f (s != t)
    | .finite s m _, .infinite t => if m = 0 then invalid f else infinity f (s != t)
    | .finite s m d, .finite t n e => ofScaled f (s != t) (m * n) (d + e)
    | _, _ => invalid f

def div (x y : Binary f) : Binary f :=
  passNaN x y <|
    match x.decode, y.decode with
    | .infinite s, .finite t _ _ => infinity f (s != t)
    | .finite s _ _, .infinite t => zero f (s != t)
    | .finite s m d, .finite t n e =>
      if n = 0 then (if m = 0 then invalid f else infinity f (s != t))
      else
        let (sm, sn) := scaled m n (e - d)
        ofQuotient f (s != t) sm sn
    | _, _ => invalid f

/-- Remainder of the division that truncates; it is exact and has the sign of `x`. -/
def rem (x y : Binary f) : Binary f :=
  passNaN x y <|
    match x.decode, y.decode with
    | .finite _ _ _, .infinite _ => x
    | .finite s m d, .finite _ n e =>
      if n = 0 then invalid f
      else
        let least := if d < e then d else e
        ofScaled f s ((m <<< (d - least).toNat) % (n <<< (e - least).toNat)) least
    | _, _ => invalid f

/-- Numerical order; `none` if an operand is NaN. The two zeros are equal. -/
def compare? (x y : Binary f) : Option Ordering :=
  match x.decode, y.decode with
  | .nan, _ | _, .nan => none
  | .infinite s, .infinite t => some (if s == t then .eq else if s then .lt else .gt)
  | .infinite s, .finite _ _ _ => some (if s then .lt else .gt)
  | .finite _ _ _, .infinite t => some (if t then .gt else .lt)
  | .finite s m d, .finite t n e =>
    let least := if d < e then d else e
    some (compare (units s m d least) (units t n e least))

/-- Numerical equality: NaN differs from itself, and `0.0` equals `-0.0`. -/
def numEq (x y : Binary f) : Bool := x.compare? y == some .eq

def numLt (x y : Binary f) : Bool := x.compare? y == some .lt

def numLe (x y : Binary f) : Bool := x.numLt y || x.numEq y

/-! ### Conversion between formats, and to and from integers -/

/-- The nearest number of another format. Widening is exact, a NaN stays a NaN of its sign. -/
def toFormat (g : Format) (x : Binary f) : Binary g :=
  match x.decode with
  | .nan => if x.negative then invalid g else nan g
  | .infinite s => infinity g s
  | .finite s m e => ofScaled g s m e

def widen (x : Binary32) : Binary64 := x.toFormat Format.double

def narrow (x : Binary64) : Binary32 := x.toFormat Format.single

/-- The number nearest to an integer. -/
def ofInt (f : Format) (i : Int) : Binary f := ofQuotient f (i < 0) i.natAbs 1

/-- Truncation toward zero, clamped to `low … high`. A NaN gives zero. -/
def toIntClamped (low high : Int) (x : Binary f) : Int :=
  match x.decode with
  | .nan => 0
  | .infinite s => if s then low else high
  | .finite s m e =>
    let magnitude : Int := ((m <<< e.toNat) >>> (-e).toNat : Nat)
    let i := if s then -magnitude else magnitude
    if i < low then low else if high < i then high else i

end Binary

end ConstFold
