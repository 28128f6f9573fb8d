/-! TOML documents as far as settings need them. Numbers and times are recognised, but since no
setting takes one, their values are not kept. -/
namespace ConstFold

inductive Toml where
  | string (text : String)
  | boolean (b : Bool)
  | scalar
  | array (items : List Toml)
  | table (entries : List (List String × Toml))

namespace Toml

/-- A line of a document. A path has more than one part if its key is dotted. -/
inductive Statement where
  | header (path : List String)
  | arrayHeader (path : List String)
  | assign (path : List String) (value : Toml)

/-! ### Limits on the nesting of values, and on the keys of a table -/

/-- Arrays and tables nest no deeper than this, and no key has more parts. -/
def depthLimit : Nat := 79

/-- No path begins with another, so that each names a value of its own. -/
def namesApart : List (List String) → Bool
  | [] => true
  | path :: rest =>
    rest.all (fun other => !path.isPrefixOf other && !other.isPrefixOf path) && namesApart rest

mutual

/-- Arrays and tables nest at most as deep as the number says, and the keys of each table name
values of their own. -/
def fits : Nat → Toml → Bool
  | _, .string _ | _, .boolean _ | _, .scalar => true
  | 0, .array _ | 0, .table _ => false
  | depth + 1, .array items => itemsFit depth items
  | depth + 1, .table entries => namesApart (entries.map Prod.fst) && entriesFit depth entries

def itemsFit : Nat → List Toml → Bool
  | _, [] => true
  | depth, item :: rest => item.fits depth && itemsFit depth rest

def entriesFit : Nat → List (List String × Toml) → Bool
  | _, [] => true
  | depth, (_, value) :: rest => value.fits depth && entriesFit depth rest

end

end Toml

end ConstFold
