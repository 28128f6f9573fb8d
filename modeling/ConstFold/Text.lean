/-! UTF-16 code units. Java text is a sequence of units, while a `String` holds whole
characters, so a unit that is half of a surrogate pair has no character of its own. -/
namespace ConstFold.Text

/-- The units of a character: one below `U+10000`, a surrogate pair above. -/
def unitsOfChar (c : Char) : List UInt16 :=
  if c.toNat < 0x10000 then [UInt16.ofNat c.toNat]
  else
    let offset := c.toNat - 0x10000
    [UInt16.ofNat (0xD800 + offset / 0x400), UInt16.ofNat (0xDC00 + offset % 0x400)]

def units (s : String) : List UInt16 := s.toList.flatMap unitsOfChar

def isSurrogate (unit : UInt16) : Bool := 0xD800 ≤ unit.toNat && unit.toNat < 0xE000

/-- The character a single unit encodes. -/
def charOfUnit? (unit : UInt16) : Option Char :=
  if isSurrogate unit then none else some (Char.ofNat unit.toNat)

/-- The character for a single unit, with the replacement character for half a pair. -/
def charOfUnit (unit : UInt16) : Char := (charOfUnit? unit).getD '\ufffd'

/-! ### Characters written by hexadecimal digits -/

def hexDigit? (c : Char) : Option Nat :=
  if c.isDigit then some (c.toNat - '0'.toNat)
  else if 'a' ≤ c && c ≤ 'f' then some (c.toNat - 'a'.toNat + 10)
  else if 'A' ≤ c && c ≤ 'F' then some (c.toNat - 'A'.toNat + 10)
  else none

/-- The number that exactly `count` hexadecimal digits write. -/
def hexNumber? : Nat → Nat → List Char → Option (Nat × List Char)
  | 0, acc, cs => some (acc, cs)
  | _ + 1, _, [] => none
  | count + 1, acc, c :: rest =>
    (hexDigit? c).bind fun d => hexNumber? count (acc * 16 + d) rest

/-- The character of a code point; halves of surrogate pairs have none. -/
def charOfCode? (n : Nat) : Option Char :=
  if n < 0xD800 || (0xE000 ≤ n && n < 0x110000) then some (Char.ofNat n) else none

/-! ### Character and string literals of Java source

Every unit is escaped on its own, so a
character outside the basic plane is written as two escapes. -/

/-- The escape of a unit by its four hexadecimal digits. -/
def unitEscape (unit : UInt16) : List Char :=
  let digits := Nat.toDigits 16 unit.toNat
  '\\' :: 'u' :: (List.replicate (4 - digits.length) '0' ++ digits)

/-- Control characters are the category `Cc`. -/
def isControl (c : Char) : Bool :=
  c.toNat < 0x20 || (0x7F ≤ c.toNat && c.toNat < 0xA0)

/-- The letter that follows the backslash in a short escape. -/
def shortEscape? (c : Char) : Option Char :=
  if c = '\n' then some 'n'
  else if c = '\t' then some 't'
  else if c = '\r' then some 'r'
  else if c = '\x08' then some 'b'
  else if c = '\x0c' then some 'f'
  else if c = '\\' then some '\\'
  else none

/-- A unit inside a literal that `quote` delimits. -/
def escape (quote : Char) (unit : UInt16) : List Char :=
  match charOfUnit? unit with
  | none => unitEscape unit
  | some c =>
    match shortEscape? c with
    | some letter => ['\\', letter]
    | none =>
      if c = quote then ['\\', c]
      else if isControl c then unitEscape unit
      else [c]

/-- A string literal. -/
def quoteString (s : String) : String :=
  String.ofList ('"' :: (units s).flatMap (escape '"') ++ ['"'])

/-- A character literal. -/
def quoteUnit (unit : UInt16) : String :=
  String.ofList ('\'' :: escape '\'' unit ++ ['\''])

end ConstFold.Text
