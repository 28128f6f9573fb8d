import ConstFold.Expr.Printer
import ConstFold.Pipeline

/-! The names and declarations that expressions refer to. -/
namespace ConstFold

structure Session where
  names : NameTable := {}
  table : DeclTable := {}

namespace Session

def intern (session : Session) (text : String) : Name × Session :=
  let (name, names) := session.names.intern text
  (name, { session with names })

def declare (session : Session) (decl : Declaration) : VarId × Session :=
  let (id, table) := session.table.declare decl
  (id, { session with table })

/-- Declares a variable and reads it. -/
def declareRead (session : Session) (text : String) (make : Name → Declaration) :
    Expr × Session :=
  let (name, session) := session.intern text
  let decl := make name
  let (id, session) := session.declare decl
  (.read id name { ty := some decl.ty }, session)

/-- A read of a new parameter. -/
def parameter (session : Session) (text : String) (ty : Ty) : Expr × Session :=
  session.declareRead text fun name => { name, ty, kind := .parameter }

/-- A read of a new local variable that is never assigned again. -/
def localVar (session : Session) (text : String) (ty : Ty) (init : Expr) : Expr × Session :=
  session.declareRead text fun name => { name, ty, kind := .localVar, initializer := some init }

/-- A read of a new constant field. -/
def constant (session : Session) (text : String) (ty : Ty) (init : Expr) : Expr × Session :=
  session.declareRead text fun name =>
    { name, ty, kind := .field true, isFinal := true, initializer := some init }

/-- A call without arguments. -/
def call (session : Session) (text : String) (ty : Ty) : Expr × Session :=
  let (name, session) := session.intern text
  (.call name [] { ty := some ty }, session)

def render (session : Session) (e : Expr) : String := e.render session.names

/-- Folds with the default passes. -/
def fold (session : Session) (e : Expr) : Folded := ConstFold.fold session.table e

/-- The text of the folded expression, or of the expression itself if it has no value. -/
def foldText (session : Session) (e : Expr) : String :=
  session.render ((Pass.chain (standardPipeline session.table)).visitOrKeep e)

/-- Folds with the passes that settings describe. -/
def foldWith (session : Session) (settings : Settings) (e : Expr) : Folded :=
  (Pass.chain (settings.pipeline session.table)).visit e

end Session

end ConstFold
