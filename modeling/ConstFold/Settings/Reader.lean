import ConstFold.Settings
import ConstFold.Toml.Reader

/-! Settings from TOML text. A document has one table, `evaluator`, with the keys `folds`,
`inline_locals` and `remove_redundant_casts`, none of them required. The table may also be
written as an array of the values in that order. -/
namespace ConstFold.Settings

/-- The keys that a document gives. -/
structure Draft where
  folds : Option (List String) := none
  inlineLocals : Option Bool := none
  removeRedundantCasts : Option Bool := none

def names? : Toml → Option (List String)
  | .array items => items.mapM fun
    | .string s => some s
    | _ => none
  | _ => none

def flag? : Toml → Option Bool
  | .boolean b => some b
  | _ => none

namespace Draft

/-- Enters a key once. -/
def enter (draft : Draft) (key : String) (value : Toml) : Option Draft :=
  if key = "folds" && draft.folds.isNone then
    (names? value).map fun names => { draft with folds := some names }
  else if key = "inline_locals" && draft.inlineLocals.isNone then
    (flag? value).map fun b => { draft with inlineLocals := some b }
  else if key = "remove_redundant_casts" && draft.removeRedundantCasts.isNone then
    (flag? value).map fun b => { draft with removeRedundantCasts := some b }
  else none

/-- A table of keys that are not dotted. -/
def ofEntries? (entries : List (List String × Toml)) : Option Draft :=
  entries.foldlM (fun draft (path, value) =>
    match path with
    | [key] => draft.enter key value
    | _ => none) {}

/-- An array gives the keys in order; items past the last key are ignored. -/
def ofItems? : List Toml → Option Draft
  | [] => some {}
  | [a] => (names? a).map fun names => ⟨some names, none, none⟩
  | [a, b] => do some ⟨some (← names? a), some (← flag? b), none⟩
  | a :: b :: c :: _ => do some ⟨some (← names? a), some (← flag? b), some (← flag? c)⟩

def ofValue? : Toml → Option Draft
  | .table entries => ofEntries? entries
  | .array items => ofItems? items
  | _ => none

/-- The entries of assignments whose path starts with `evaluator`. -/
def inEvaluator? : List Toml.Statement → Option (List (List String × Toml))
  | [] => some []
  | .assign ("evaluator" :: path) value :: rest =>
    (inEvaluator? rest).map ((path, value) :: ·)
  | _ => none

/-- The entries of assignments alone. -/
def entries? : List Toml.Statement → Option (List (List String × Toml))
  | [] => some []
  | .assign path value :: rest => (entries? rest).map ((path, value) :: ·)
  | _ => none

/-- The table is given by a header, by one value, or by dotted keys, and not by two of these. -/
def ofStatements? : List Toml.Statement → Option Draft
  | .header ["evaluator"] :: rest => (entries? rest).bind ofEntries?
  | [.assign ["evaluator"] value] => ofValue? value
  | statements => (inEvaluator? statements).bind ofEntries?

end Draft

/-- Keys that are absent have their default. -/
def ofDraft (draft : Draft) : Except SettingsError Settings := do
  let passes ←
    match draft.folds with
    | some names => passesOfNames names
    | none => .ok PassKind.standard
  .ok
    { passes
      inlineLocals := draft.inlineLocals.getD true
      removeRedundantCasts := draft.removeRedundantCasts.getD false }

/-- The settings that a text gives. -/
def ofText (text : String) : Except SettingsError Settings :=
  match (Toml.read? text).bind Draft.ofStatements? with
  | some draft => ofDraft draft
  | none => .error .malformed

/-- What is found where the settings file of a project should be. -/
inductive Source where
  | missing
  | unreadable
  | content (bytes : ByteArray)

/-- Without a file the settings are the default ones. -/
def load : Source → Except SettingsError Settings
  | .missing => .ok {}
  | .unreadable => .error .unreadable
  | .content bytes =>
    match String.fromUTF8? bytes with
    | some text => ofText text
    | none => .error .unreadable

end ConstFold.Settings
