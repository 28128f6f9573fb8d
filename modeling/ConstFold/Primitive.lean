/-! The primitive types of Java. -/
namespace ConstFold

inductive Primitive where
  | boolean
  | byte
  | short
  | char
  | int
  | long
  | float
  | double
deriving DecidableEq, Repr

namespace Primitive

def all : List Primitive := [boolean, byte, short, char, int, long, float, double]

def keyword : Primitive → String
  | boolean => "boolean"
  | byte => "byte"
  | short => "short"
  | char => "char"
  | int => "int"
  | long => "long"
  | float => "float"
  | double => "double"

/-- Name of the class that boxes the type. -/
def wrapper : Primitive → String
  | boolean => "Boolean"
  | byte => "Byte"
  | short => "Short"
  | char => "Character"
  | int => "Integer"
  | long => "Long"
  | float => "Float"
  | double => "Double"

def isNumeric : Primitive → Bool
  | boolean => false
  | _ => true

def isIntegral : Primitive → Bool
  | byte | short | char | int | long => true
  | boolean | float | double => false

def isFloating : Primitive → Bool
  | float | double => true
  | _ => false

def bitWidth? : Primitive → Option Nat
  | boolean => none
  | byte => some 8
  | short | char => some 16
  | int | float => some 32
  | long | double => some 64

/-- The numeric types. -/
def numeric : List Primitive := [byte, short, char, int, long, float, double]

end Primitive

end ConstFold
