/-! The passes that settings can name, the settings of the evaluator, and the faults that settings
can have. -/
namespace ConstFold

inductive PassKind where
  | absorption
  | applyCasts
  | promotion
  | inferTypes
  | evaluateLiterals
  | reduceIdentities
  | cancelDouble
  | inlineReads
  | removeRedundantCasts
deriving DecidableEq, Repr

namespace PassKind

def all : List PassKind :=
  [absorption, applyCasts, promotion, inferTypes, evaluateLiterals, reduceIdentities,
    cancelDouble, inlineReads, removeRedundantCasts]

/-- The passes that run if settings name none, in this order. -/
def standard : List PassKind :=
  [inferTypes, inlineReads, cancelDouble, reduceIdentities, evaluateLiterals]

/-- The name in settings. -/
def name : PassKind → String
  | absorption => "apply-absorption-law"
  | applyCasts => "apply-casts"
  | promotion => "apply-operator-promotion"
  | inferTypes => "infer-operator-types"
  | evaluateLiterals => "evaluate-literal-operations"
  | reduceIdentities => "evaluate-partial-literal-operations"
  | cancelDouble => "deduplicate-operator-application"
  | inlineReads => "inline-variable-read"
  | removeRedundantCasts => "remove-redundant-casts"

def ofName? (name : String) : Option PassKind := all.find? fun kind => kind.name == name

end PassKind

structure Settings where
  /-- Passes that run at every node, in this order. -/
  passes : List PassKind := PassKind.standard
  /-- Local variables are inlined; constant fields always are. -/
  inlineLocals : Bool := true
  /-- Redundant casts are removed after all other passes. -/
  removeRedundantCasts : Bool := false
deriving DecidableEq, Repr

/-- Name of the file that holds the settings of a project. -/
def Settings.fileName : String := "ferrule.toml"

inductive SettingsError where
  /-- The file cannot be read as text. -/
  | unreadable
  /-- The text is not a document of settings. -/
  | malformed
  | unknownPass (name : String)
  | noPasses
  | repeatedPass (kind : PassKind)
deriving DecidableEq, Repr

/-- What is wrong with a list of passes. -/
def SettingsError.message : SettingsError → String
  | unreadable => "cannot read " ++ Settings.fileName
  | malformed => "invalid configuration"
  | unknownPass name => "unknown fold `" ++ name ++ "` in evaluator.folds"
  | noPasses => "invalid evaluator.folds: at least one fold is required"
  | repeatedPass kind =>
    "invalid evaluator.folds: `" ++ kind.name ++ "` is listed more than once"

namespace Settings

/-- The first pass of a list that has been listed before. -/
def repeated? : List PassKind → List PassKind → Option PassKind
  | _, [] => none
  | seen, kind :: rest => if seen.contains kind then some kind else repeated? (kind :: seen) rest

/-- The passes of a list of names. The first unknown name is a fault before any other. -/
def passesOfNames (names : List String) : Except SettingsError (List PassKind) := do
  let kinds ← names.mapM fun name =>
    match PassKind.ofName? name with
    | some kind => Except.ok kind
    | none => .error (.unknownPass name)
  if kinds.isEmpty then .error .noPasses
  else
    match repeated? [] kinds with
    | some kind => .error (.repeatedPass kind)
    | none => .ok kinds

end Settings

end ConstFold
