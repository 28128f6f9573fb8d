import ConstFold.Json.Text

/-! Libraries that write JSON as text and read data from texts. Data are read from the outside in: a
node is a value in a text that is about to be read, and its parts are the values inside it. There is a
limit to how deep arrays and objects may nest, so every node has room for some levels, and its parts
have room for fewer. -/
namespace ConstFold

/-- What reading and writing need of a library. -/
structure Library where
  /-- The text of JSON. -/
  write : Json → String
  Node : Type
  /-- How many arrays and objects may still be entered, one inside the other. -/
  room : Node → Nat
  /-- The room of a whole text. -/
  limit : Nat
  /-- The node of a whole text. -/
  open? : String → Option Node
  isNull : Node → Bool
  bool? : Node → Option Bool
  /-- An integer from the first bound up to and including the second. -/
  integer? : Int → Int → Node → Option Int
  single? : Node → Option Binary32
  double? : Node → Option Binary64
  string? : Node → Option String
  /-- The items of an array. -/
  items? : (node : Node) → Option (List {part // room part < room node})
  /-- The fields of a structure by their names, each of them possibly absent. -/
  fields? : List String → (node : Node) → Option (List (Option {part // room part < room node}))
  /-- The tag of a case, and its payload if it has one. -/
  case? : (node : Node) → Option (String × Option {part // room part < room node})

namespace Library

/-- A part of a node. -/
abbrev Part (lib : Library) (node : lib.Node) : Type := {part // lib.room part < lib.room node}

/-- Reads a whole text. -/
def read? {α : Type} (lib : Library) (decode : lib.Node → Option α) (text : String) : Option α :=
  (lib.open? text).bind decode

/-- An array of values of one type. -/
def list? {α : Type} (lib : Library) (node : lib.Node) (decode : lib.Part node → Option α) :
    Option (List α) :=
  (lib.items? node).bind fun items => items.mapM decode

/-- A case without payload; `null` may stand for one. -/
def bareCase? {α : Type} (lib : Library) {node : lib.Node} (ofTag? : String → Option α) (tag : String)
    (payload : Option (lib.Part node)) : Option α :=
  if payload.all fun part => lib.isNull part.val then ofTag? tag else none

/-- A type whose cases all come without payload. -/
def plain? {α : Type} (lib : Library) (ofTag? : String → Option α) (node : lib.Node) : Option α := do
  let (tag, payload) ← lib.case? node
  lib.bareCase? ofTag? tag payload

/-- A value that may be missing: a field that is absent or `null` has none. -/
def optional? {α : Type} (lib : Library) {node : lib.Node} (decode : lib.Node → Option α) :
    Option (lib.Part node) → Option (Option α)
  | none => some none
  | some part => if lib.isNull part.val then some none else (decode part.val).map some

end Library

namespace Json

/-- Nesting that a text may have, skipped fields apart. -/
def depthLimit : Nat := 127

/-- A value of a text with the levels of nesting that are left. -/
structure Site where
  json : Json
  room : Nat

/-- A value inside an array or an object. -/
def inside (room : Nat) (json : Json) : {part : Site // part.room < room + 1} :=
  ⟨⟨json, room⟩, Nat.lt_succ_self room⟩

/-- The value of a field that stands at most once. -/
def member? (members : List (String × Json)) (name : String) : Option (Option Json) :=
  match members.filter fun member => member.1 == name with
  | [] => some none
  | [(_, value)] => some (some value)
  | _ => none

/-- The fields of a structure, each of them possibly absent. An array has them all. -/
def fields? (names : List String) : Json → Option (List (Option Json))
  | object members => names.mapM (member? members)
  | array items => if items.length = names.length then some (items.map some) else none
  | _ => none

def integer? : Json → Option Int
  | number n => n.integer?
  | _ => none

/-- An integer from `low` up to and including `high`. -/
def integerIn? (low high : Int) (json : Json) : Option Int :=
  json.integer?.filter fun i => low ≤ i && i ≤ high

/-- The library of the program. A structure may also be an array of its fields in order, and unknown
fields are skipped. -/
def library : Library where
  write := render
  Node := Site
  room := Site.room
  limit := depthLimit
  open? text := (parse? text).map fun json => ⟨json, depthLimit⟩
  isNull
    | ⟨null, _⟩ => true
    | _ => false
  bool?
    | ⟨bool b, _⟩ => some b
    | _ => none
  integer? low high site := site.json.integerIn? low high
  single?
    | ⟨number n, _⟩ => n.single?
    | _ => none
  double?
    | ⟨number n, _⟩ => n.double?
    | _ => none
  string?
    | ⟨string s, _⟩ => some s
    | _ => none
  items?
    | ⟨array items, room + 1⟩ => some (items.map (inside room))
    | _ => none
  fields? names
    | ⟨json, room + 1⟩ => (json.fields? names).map fun values => values.map (·.map (inside room))
    | _ => none
  case?
    | ⟨string tag, _⟩ => some (tag, none)
    | ⟨object [(tag, payload)], room + 1⟩ => some (tag, some (inside room payload))
    | _ => none

end Json

end ConstFold
