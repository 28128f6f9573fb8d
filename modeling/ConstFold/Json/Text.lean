import ConstFold.Json
import ConstFold.Text

/-! JSON texts: writing without blanks, and reading. -/
namespace ConstFold.Json

/-- The letter of a short escape in a JSON string. -/
def shortEscape? (c : Char) : Option Char := if c = '"' then some '"' else Text.shortEscape? c

/-- Controls below the blank are escaped by their code. -/
def writeChar (c : Char) : List Char :=
  match shortEscape? c with
  | some letter => ['\\', letter]
  | none => if c.toNat < 0x20 then Text.unitEscape (UInt16.ofNat c.toNat) else [c]

def writeString (s : String) : List Char := '"' :: s.toList.flatMap writeChar ++ ['"']

/-- An exponent always has a sign. -/
def writeNumeral (n : Numeral) : List Char :=
  let sign := if n.negative then ['-'] else []
  let point := if n.fraction.isEmpty then [] else '.' :: n.fraction
  let power := match n.exponent with
    | none => []
    | some (negative, digits) => 'e' :: (if negative then '-' else '+') :: digits
  sign ++ n.whole ++ point ++ power

mutual

/-- What has no value is written as `null`. -/
def write : Json → List Char
  | null | unreadable => ['n', 'u', 'l', 'l']
  | bool b => if b then ['t', 'r', 'u', 'e'] else ['f', 'a', 'l', 's', 'e']
  | number n => writeNumeral n
  | string s => writeString s
  | array items => '[' :: writeItems items ++ [']']
  | object members => '\x7b' :: writeMembers members ++ ['\x7d']

def writeItems : List Json → List Char
  | [] => []
  | [item] => item.write
  | item :: rest => item.write ++ ',' :: writeItems rest

def writeMembers : List (String × Json) → List Char
  | [] => []
  | [(key, value)] => writeString key ++ ':' :: value.write
  | (key, value) :: rest => writeString key ++ ':' :: (value.write ++ ',' :: writeMembers rest)

end

def render (json : Json) : String := String.ofList json.write

/-! ### Reading

Every step consumes a character, so the length of the text bounds
the recursion. -/

def isBlank (c : Char) : Bool := c = ' ' || c = '\n' || c = '\t' || c = '\r'

def skipBlanks (cs : List Char) : List Char := cs.dropWhile isBlank

/-- The rest after a word. -/
def word? (word : List Char) (cs : List Char) : Option (List Char) :=
  if word.isPrefixOf cs then some (cs.drop word.length) else none

/-- One or more digits. -/
def digits? (cs : List Char) : Option (List Char × List Char) :=
  let digits := cs.takeWhile Char.isDigit
  if digits.isEmpty then none else some (digits, cs.drop digits.length)

/-- Digits before the point; a zero stands alone. -/
def whole? (cs : List Char) : Option (List Char × List Char) :=
  match digits? cs with
  | some ('0' :: _ :: _, _) => none
  | read => read

/-- The digits after a point, if there is one. -/
def fraction? : List Char → Option (List Char × List Char)
  | '.' :: rest => digits? rest
  | cs => some ([], cs)

/-- An exponent, if there is a mark for one. -/
def exponent? : List Char → Option (Option (Bool × List Char) × List Char)
  | 'e' :: rest | 'E' :: rest =>
    match rest with
    | '+' :: rest => (digits? rest).map fun (digits, rest) => (some (false, digits), rest)
    | '-' :: rest => (digits? rest).map fun (digits, rest) => (some (true, digits), rest)
    | rest => (digits? rest).map fun (digits, rest) => (some (false, digits), rest)
  | cs => some (none, cs)

def numeral? (cs : List Char) : Option (Numeral × List Char) := do
  let (negative, rest) := match cs with
    | '-' :: rest => (true, rest)
    | cs => (false, cs)
  let (whole, rest) ← whole? rest
  let (fraction, rest) ← fraction? rest
  let (exponent, rest) ← exponent? rest
  some (⟨negative, whole, fraction, exponent⟩, rest)

/-- The character of a surrogate pair. -/
def pairChar (high low : Nat) : Char :=
  Char.ofNat (0x10000 + (high - 0xD800) * 0x400 + (low - 0xDC00))

def isHighSurrogate (n : Nat) : Bool := 0xD800 ≤ n && n < 0xDC00

def isLowSurrogate (n : Nat) : Bool := 0xDC00 ≤ n && n < 0xE000

/-- An escape, from the character after its backslash. The escape of half a surrogate pair has
no character. -/
def escape? : List Char → Option (Option Char × List Char)
  | '"' :: rest => some (some '"', rest)
  | '\\' :: rest => some (some '\\', rest)
  | '/' :: rest => some (some '/', rest)
  | 'b' :: rest => some (some '\x08', rest)
  | 'f' :: rest => some (some '\x0c', rest)
  | 'n' :: rest => some (some '\n', rest)
  | 'r' :: rest => some (some '\r', rest)
  | 't' :: rest => some (some '\t', rest)
  | 'u' :: rest =>
    match Text.hexNumber? 4 0 rest with
    | none => none
    | some (high, rest) =>
      if isHighSurrogate high then
        match rest with
        | '\\' :: 'u' :: after =>
          match Text.hexNumber? 4 0 after with
          | some (low, after) =>
            if isLowSurrogate low then some (some (pairChar high low), after)
            else some (none, rest)
          | none => some (none, rest)
        | rest => some (none, rest)
      else some (Text.charOfCode? high, rest)
  | _ => none

/-- The rest of a string after its opening quote. It has no text if one of its escapes has no
character. -/
def stringBody? : Nat → List Char → Option (Option (List Char) × List Char)
  | 0, _ => none
  | n + 1, cs =>
    match cs with
    | [] => none
    | '"' :: rest => some (some [], rest)
    | '\\' :: rest => do
      let (c, rest) ← escape? rest
      let (body, rest) ← stringBody? n rest
      some (c.bind fun c => body.map (c :: ·), rest)
    | c :: rest =>
      if c.toNat < 0x20 then none
      else (stringBody? n rest).map fun (body, rest) => (body.map (c :: ·), rest)

def string? (cs : List Char) : Option (Option String × List Char) :=
  match cs with
  | '"' :: rest =>
    (stringBody? (cs.length + 1) rest).map fun (body, rest) => (body.map String.ofList, rest)
  | _ => none

mutual

/-- A value at the start, blanks before it skipped. -/
def value? : Nat → List Char → Option (Json × List Char)
  | 0, _ => none
  | n + 1, cs =>
    match skipBlanks cs with
    | 'n' :: rest => (word? ['u', 'l', 'l'] rest).map (null, ·)
    | 't' :: rest => (word? ['r', 'u', 'e'] rest).map (bool true, ·)
    | 'f' :: rest => (word? ['a', 'l', 's', 'e'] rest).map (bool false, ·)
    | '"' :: rest =>
      (string? ('"' :: rest)).map fun (s, rest) => (s.elim unreadable string, rest)
    | '[' :: rest =>
      match skipBlanks rest with
      | ']' :: rest => some (array [], rest)
      | rest => (items? n rest).map fun (items, rest) => (array items, rest)
    | '\x7b' :: rest =>
      match skipBlanks rest with
      | '\x7d' :: rest => some (object [], rest)
      | rest => (members? n rest).map fun (members, rest) => (members.elim unreadable object, rest)
    | rest => (numeral? rest).map fun (numeral, rest) => (number numeral, rest)

/-- One item or more, up to the end of the array. -/
def items? : Nat → List Char → Option (List Json × List Char)
  | 0, _ => none
  | n + 1, cs => do
    let (item, rest) ← value? n cs
    match skipBlanks rest with
    | ']' :: rest => some ([item], rest)
    | ',' :: rest =>
      let (items, rest) ← items? n rest
      some (item :: items, rest)
    | _ => none

/-- One member or more, up to the end of the object. There are none to be read if a key has no
text. -/
def members? : Nat → List Char → Option (Option (List (String × Json)) × List Char)
  | 0, _ => none
  | n + 1, cs => do
    let (key, rest) ← string? (skipBlanks cs)
    match skipBlanks rest with
    | ':' :: rest =>
      let (value, rest) ← value? n rest
      let member := key.map fun key => (key, value)
      match skipBlanks rest with
      | '\x7d' :: rest => some (member.map ([·]), rest)
      | ',' :: rest =>
        let (members, rest) ← members? n rest
        some (member.bind fun member => members.map (member :: ·), rest)
      | _ => none
    | _ => none

end

/-- The value of a text with nothing but blanks after it. -/
def parse? (text : String) : Option Json :=
  match value? (text.length + 1) text.toList with
  | some (json, rest) => if (skipBlanks rest).isEmpty then some json else none
  | none => none

end ConstFold.Json
