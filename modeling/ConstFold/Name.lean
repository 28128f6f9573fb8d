/-! Names of variables, methods and classes. A name is an index into a table of texts, so
that two occurrences compare without their texts. -/
namespace ConstFold

/-- Index of a name. The largest 32-bit number is no index. -/
structure Name where
  index : Fin 4294967295
deriving DecidableEq, Repr

/-- The name of an index; the number that is no index gives the first name. -/
def Name.ofIndex (n : UInt32) : Name :=
  if h : n.toNat < 4294967295 then ⟨⟨n.toNat, h⟩⟩ else ⟨0⟩

/-- The texts of the names in the order of their first use. -/
structure NameTable where
  texts : List String := []

namespace NameTable

def size (table : NameTable) : Nat := table.texts.length

/-- The name of a text that the table holds. -/
def find? (table : NameTable) (text : String) : Option Name :=
  (table.texts.findIdx? (· == text)).map fun i => Name.ofIndex (UInt32.ofNat i)

/-- The name of a text, entered at the end if it is new. -/
def intern (table : NameTable) (text : String) : Name × NameTable :=
  match table.find? text with
  | some name => (name, table)
  | none => (Name.ofIndex (UInt32.ofNat table.size), ⟨table.texts ++ [text]⟩)

/-- The text of a name that the table holds. -/
def text? (table : NameTable) (name : Name) : Option String := table.texts[name.index.val]?

/-- What is printed for a name. -/
def display (table : NameTable) (name : Name) : String := (table.text? name).getD "<unknown>"

end NameTable

end ConstFold
