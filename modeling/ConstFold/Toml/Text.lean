import ConstFold.Text
import ConstFold.Toml

/-! Blanks, comments, keys and strings of TOML. Each reader takes the characters from its start
and returns the rest, or nothing if they do not begin as they should. -/
namespace ConstFold.Toml

def isBlank (c : Char) : Bool := c = ' ' || c = '\t'

def skipBlanks (cs : List Char) : List Char := cs.dropWhile isBlank

/-- Characters that may stand in a comment and, delimiters apart, in a string. -/
def isPlain (c : Char) : Bool := c = '\t' || (0x20 ≤ c.toNat && c.toNat ≠ 0x7F)

/-- A line feed, alone or after a carriage return. -/
def newline? : List Char → Option (List Char)
  | '\n' :: rest => some rest
  | '\r' :: '\n' :: rest => some rest
  | _ => none

/-- What follows a comment, if there is one. -/
def skipComment : List Char → List Char
  | '#' :: rest => rest.dropWhile isPlain
  | cs => cs

/-- The end of a line that may hold a comment. -/
def lineEnd? (cs : List Char) : Option (List Char) :=
  match skipComment (skipBlanks cs) with
  | [] => some []
  | rest => newline? rest

/-- Blanks, and lines that hold nothing but a comment. The number bounds the lines. -/
def skipLines : Nat → List Char → Option (List Char)
  | 0, cs => some cs
  | n + 1, cs =>
    match skipBlanks cs with
    | '#' :: rest => (newline? (rest.dropWhile isPlain)).bind (skipLines n)
    | '\n' :: rest => skipLines n rest
    | '\r' :: rest => (newline? ('\r' :: rest)).bind (skipLines n)
    | rest => some rest

/-- An escape, from the character after its backslash. -/
def escape? : List Char → Option (Char × List Char)
  | 'b' :: rest => some ('\x08', rest)
  | 'f' :: rest => some ('\x0c', rest)
  | 'n' :: rest => some ('\n', rest)
  | 'r' :: rest => some ('\r', rest)
  | 't' :: rest => some ('\t', rest)
  | '"' :: rest => some ('"', rest)
  | '\\' :: rest => some ('\\', rest)
  | 'u' :: rest => (Text.hexNumber? 4 0 rest).bind fun (n, rest) => (Text.charOfCode? n).map (·, rest)
  | 'U' :: rest => (Text.hexNumber? 8 0 rest).bind fun (n, rest) => (Text.charOfCode? n).map (·, rest)
  | _ => none

/-- The body of a string between double quotes, after the opening one. -/
def basicBody? : Nat → List Char → Option (List Char × List Char)
  | 0, _ => none
  | n + 1, cs =>
    match cs with
    | [] => none
    | '"' :: rest => some ([], rest)
    | '\\' :: rest => do
      let (c, rest) ← escape? rest
      let (body, rest) ← basicBody? n rest
      some (c :: body, rest)
    | c :: rest =>
      if isPlain c then (basicBody? n rest).map fun (body, rest) => (c :: body, rest) else none

/-- The body of a string between single quotes, after the opening one. -/
def literalBody? (cs : List Char) : Option (List Char × List Char) :=
  let body := cs.takeWhile fun c => isPlain c && c ≠ '\''
  match cs.drop body.length with
  | '\'' :: rest => some (body, rest)
  | _ => none

/-- Reads a run of `count` delimiters inside a string of three. Up to two of them belong to the
text, and of three to five the last three close it. -/
def closing? (count : Nat) : Option (Nat × Bool) :=
  if count < 3 then some (count, false)
  else if count ≤ 5 then some (count - 3, true)
  else none

/-- The body of a string between three double quotes. A backslash at the end of a line joins
the text to the next character that is not blank. -/
def longBasicBody? : Nat → List Char → Option (List Char × List Char)
  | 0, _ => none
  | n + 1, cs =>
    match cs with
    | [] => none
    | '"' :: _ => do
      let run := cs.takeWhile (· = '"')
      let rest := cs.drop run.length
      let (kept, closes) ← closing? run.length
      let quotes := List.replicate kept '"'
      if closes then some (quotes, rest)
      else
        let (body, rest) ← longBasicBody? n rest
        some (quotes ++ body, rest)
    | '\\' :: rest =>
      match newline? (skipBlanks rest) with
      | some next => do
        let next ← skipBreaks n next
        longBasicBody? n next
      | none => do
        let (c, rest) ← escape? rest
        let (body, rest) ← longBasicBody? n rest
        some (c :: body, rest)
    | c :: rest =>
      match newline? cs with
      | some next => (longBasicBody? n next).map fun (body, rest) => ('\n' :: body, rest)
      | none =>
        if isPlain c then (longBasicBody? n rest).map fun (body, rest) => (c :: body, rest)
        else none
where
  /-- Blanks and line ends. -/
  skipBreaks : Nat → List Char → Option (List Char)
    | 0, cs => some cs
    | n + 1, cs =>
      match newline? (skipBlanks cs) with
      | some next => skipBreaks n next
      | none => some (skipBlanks cs)

/-- The body of a string between three single quotes. -/
def longLiteralBody? : Nat → List Char → Option (List Char × List Char)
  | 0, _ => none
  | n + 1, cs =>
    match cs with
    | [] => none
    | '\'' :: _ => do
      let run := cs.takeWhile (· = '\'')
      let rest := cs.drop run.length
      let (kept, closes) ← closing? run.length
      let quotes := List.replicate kept '\''
      if closes then some (quotes, rest)
      else
        let (body, rest) ← longLiteralBody? n rest
        some (quotes ++ body, rest)
    | c :: rest =>
      match newline? cs with
      | some next => (longLiteralBody? n next).map fun (body, rest) => ('\n' :: body, rest)
      | none =>
        if isPlain c then (longLiteralBody? n rest).map fun (body, rest) => (c :: body, rest)
        else none

/-- A line end right after three opening delimiters is not part of the text. -/
def dropFirstBreak (cs : List Char) : List Char := (newline? cs).getD cs

/-- A string in any of the four notations. -/
def string? (cs : List Char) : Option (String × List Char) :=
  let read := match cs with
    | '"' :: '"' :: '"' :: rest => longBasicBody? (cs.length + 1) (dropFirstBreak rest)
    | '"' :: rest => basicBody? (cs.length + 1) rest
    | '\'' :: '\'' :: '\'' :: rest => longLiteralBody? (cs.length + 1) (dropFirstBreak rest)
    | '\'' :: rest => literalBody? rest
    | _ => none
  read.map fun (body, rest) => (String.ofList body, rest)

def isBareKeyChar (c : Char) : Bool := c.isAlphanum || c = '_' || c = '-'

/-- One part of a key: bare, or quoted on a single line. -/
def keyPart? (cs : List Char) : Option (String × List Char) :=
  match cs with
  | '"' :: rest =>
    (basicBody? (cs.length + 1) rest).map fun (body, rest) => (String.ofList body, rest)
  | '\'' :: rest => (literalBody? rest).map fun (body, rest) => (String.ofList body, rest)
  | _ =>
    let bare := cs.takeWhile isBareKeyChar
    if bare.isEmpty then none else some (String.ofList bare, cs.drop bare.length)

/-- A key with the blanks around its parts. The number bounds the parts. -/
def key? : Nat → List Char → Option (List String × List Char)
  | 0, _ => none
  | n + 1, cs => do
    let (part, rest) ← keyPart? (skipBlanks cs)
    match skipBlanks rest with
    | '.' :: rest => do
      let (parts, rest) ← key? n rest
      some (part :: parts, rest)
    | rest => some ([part], rest)

end ConstFold.Toml
