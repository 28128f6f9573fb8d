import ConstFold.Pass.Absorption
import ConstFold.Pass.Constant
import ConstFold.Pass.Identity
import ConstFold.Pass.Typing
import ConstFold.Settings

/-! The passes that settings describe, over the declarations they may inline. -/
namespace ConstFold

/-- Promotion is that of literal operands. -/
def PassKind.pass (kind : PassKind) (table : DeclTable) (inlineLocals : Bool) : Pass :=
  match kind with
  | .absorption => Pass.absorption
  | .applyCasts => Pass.applyCasts fun _ => true
  | .promotion => Pass.promotion .literals .literals
  | .inferTypes => Pass.inferTypes
  | .evaluateLiterals => Pass.evaluateLiterals
  | .reduceIdentities => Pass.reduceIdentities
  | .cancelDouble => Pass.cancelDouble
  | .inlineReads => Pass.inlineReads table inlineLocals
  | .removeRedundantCasts => Pass.removeRedundantCasts

namespace Settings

/-- The kinds of pass that run; removal of redundant casts is added at most once. -/
def kinds (settings : Settings) : List PassKind :=
  if settings.removeRedundantCasts && !settings.passes.contains .removeRedundantCasts then
    settings.passes ++ [.removeRedundantCasts]
  else settings.passes

def pipeline (settings : Settings) (table : DeclTable) : List Pass :=
  settings.kinds.map fun kind => kind.pass table settings.inlineLocals

end Settings

/-- The passes that run by default. -/
def standardPipeline (table : DeclTable) : List Pass := ({} : Settings).pipeline table

/-- Folds an expression with the default passes. -/
def fold (table : DeclTable) (e : Expr) : Folded := (Pass.chain (standardPipeline table)).visit e

/-- Replaces constant variables and does nothing else. -/
def resolveConstant (table : DeclTable) (e : Expr) : Folded :=
  (Pass.inlineReads table true).visit e

end ConstFold
