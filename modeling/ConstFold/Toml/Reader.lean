import ConstFold.Toml
import ConstFold.Toml.Scalar
import ConstFold.Toml.Text

/-! Reading of TOML values and documents. Every step consumes a character, so the length of the
text bounds the depth of the recursion. -/
namespace ConstFold.Toml

mutual

def value? : Nat → List Char → Option (Toml × List Char)
  | 0, _ => none
  | n + 1, cs =>
    match cs with
    | '"' :: _ | '\'' :: _ => (string? cs).map fun (s, rest) => (.string s, rest)
    | '[' :: rest => (items? n rest).map fun (items, rest) => (.array items, rest)
    | '\x7b' :: rest =>
      match skipBlanks rest with
      | '\x7d' :: rest => some (.table [], rest)
      | rest => (entries? n rest).map fun (entries, rest) => (.table entries, rest)
    | _ => scalarValue? cs

/-- The items of an array up to its end. Items may stand on lines of their own, and a comma may
follow the last one. -/
def items? : Nat → List Char → Option (List Toml × List Char)
  | 0, _ => none
  | n + 1, cs => do
    match ← skipLines cs.length cs with
    | ']' :: rest => some ([], rest)
    | rest =>
      let (item, rest) ← value? n rest
      match ← skipLines rest.length rest with
      | ']' :: rest => some ([item], rest)
      | ',' :: rest =>
        let (items, rest) ← items? n rest
        some (item :: items, rest)
      | _ => none

/-- The entries of an inline table up to its end. They stand on one line, and no comma follows
the last one. -/
def entries? : Nat → List Char → Option (List (List String × Toml) × List Char)
  | 0, _ => none
  | n + 1, cs => do
    let (path, rest) ← key? depthLimit cs
    match rest with
    | '=' :: rest =>
      let (value, rest) ← value? n (skipBlanks rest)
      match skipBlanks rest with
      | '\x7d' :: rest => some ([(path, value)], rest)
      | ',' :: rest =>
        let (entries, rest) ← entries? n rest
        some ((path, value) :: entries, rest)
      | _ => none
    | _ => none

end

/-- A header or an assignment, up to the end of its line. -/
def statement? (cs : List Char) : Option (Statement × List Char) :=
  match cs with
  | '[' :: '[' :: rest => do
    let (path, rest) ← key? depthLimit rest
    match rest with
    | ']' :: ']' :: rest => (lineEnd? rest).map (Statement.arrayHeader path, ·)
    | _ => none
  | '[' :: rest => do
    let (path, rest) ← key? depthLimit rest
    match rest with
    | ']' :: rest => (lineEnd? rest).map (Statement.header path, ·)
    | _ => none
  | _ => do
    let (path, rest) ← key? depthLimit cs
    match rest with
    | '=' :: rest =>
      let (value, rest) ← value? (cs.length + 1) (skipBlanks rest)
      if value.fits depthLimit then (lineEnd? rest).map (Statement.assign path value, ·) else none
    | _ => none

/-- Statements to the end of the text, with blank lines and comments between them. -/
def statements? : Nat → List Char → Option (List Statement)
  | 0, _ => none
  | n + 1, cs =>
    match skipBlanks cs with
    | [] => some []
    | '#' :: rest => (lineEnd? ('#' :: rest)).bind (statements? n)
    | '\n' :: rest => statements? n rest
    | '\r' :: rest => (newline? ('\r' :: rest)).bind (statements? n)
    | rest => do
      let (statement, rest) ← statement? rest
      let statements ← statements? n rest
      some (statement :: statements)

/-- The statements of a document. A byte order mark may stand before the first. -/
def read? (text : String) : Option (List Statement) :=
  let cs := match text.toList with
    | '\ufeff' :: rest => rest
    | cs => cs
  statements? (cs.length + 1) cs

end ConstFold.Toml
