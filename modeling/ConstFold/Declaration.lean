import ConstFold.Expr

/-! Declared variables. The table counts assignments after the declaration; a variable with
none is effectively final. The counter has 32 bits, and a count past the largest one either stops
the program or starts again from zero. -/
namespace ConstFold

/-- What becomes of a sum that does not fit its word. -/
inductive Overflow where
  | stops
  | wraps
deriving DecidableEq, Repr

/-- A counter after one more count; none if the program stops. -/
def Overflow.increment? (overflow : Overflow) (count : UInt32) : Option UInt32 :=
  if overflow = .stops && count == 4294967295 then none else some (count + 1)

inductive DeclKind where
  | localVar
  | parameter
  | field (isStatic : Bool)
deriving DecidableEq, Repr

structure Declaration where
  name : Name
  ty : Ty
  kind : DeclKind
  isFinal : Bool := false
  /-- Counts the assignments after the declaration. -/
  reassignments : UInt32 := 0
  initializer : Option Expr := none

/-- The counter stands at zero. -/
def Declaration.isEffectivelyFinal (decl : Declaration) : Bool := decl.reassignments == 0

/-- Declarations in order; a variable is the position of its declaration. -/
structure DeclTable where
  decls : List Declaration := []

namespace DeclTable

def size (table : DeclTable) : Nat := table.decls.length

def declare (table : DeclTable) (decl : Declaration) : VarId × DeclTable :=
  (⟨UInt32.ofNat table.size⟩, ⟨table.decls ++ [decl]⟩)

def get? (table : DeclTable) (id : VarId) : Option Declaration := table.decls[id.index.toNat]?

/-- Counts an assignment, unless that stops the program; an undeclared variable is left alone. -/
def recordAssignment? (overflow : Overflow) (table : DeclTable) (id : VarId) : Option DeclTable :=
  match table.get? id with
  | none => some table
  | some decl =>
    (overflow.increment? decl.reassignments).map fun count =>
      ⟨table.decls.set id.index.toNat { decl with reassignments := count }⟩

/-- A read of the variable with its declared name and type. -/
def read? (table : DeclTable) (id : VarId) : Option Expr :=
  (table.get? id).map fun d => .read id d.name { ty := some d.ty }

/-- The declaration that a read refers to. -/
def resolve? (table : DeclTable) : Expr → Option Declaration
  | .read id _ _ => table.get? id
  | _ => none

end DeclTable

end ConstFold
