import AbstractSets.Text.Digest
import AbstractSets.Value

/-!
# Constants

An instance of a named type, perhaps with a literal that is known. Instances of one type
are equal at every level, and the bare instance stands for those whose literals differ. At
the most general level all instances are equal, and `object` stands for different types.
-/

namespace AbstractSets

inductive Literal where
  | nothing
  | bool (b : Bool)
  | int (n : Int)
  | str (s : String)
  deriving DecidableEq, Repr

structure Constant where
  typeName : String
  literal : Option Literal
  deriving DecidableEq, Repr

namespace Constant

/-- An instance of which only the type is known. -/
def bare (typeName : String) : Constant := ⟨typeName, none⟩

def object : Constant := bare "object"

def nothing : Constant := ⟨"None", some .nothing⟩

def ofBool (b : Bool) : Constant := ⟨"bool", some (.bool b)⟩

def ofInt (n : Int) : Constant := ⟨"int", some (.int n)⟩

def ofString (s : String) : Constant := ⟨"str", some (.str s)⟩

def unionEq : Strength → Constant → Constant → Bool
  | .object, _, _ => true
  | _, a, b => a.typeName == b.typeName

def unionHash : Strength → Constant → UInt64
  | .object, _ => Digest.start
  | _, a => Digest.ofText a.typeName

/-- What stands for `a` and `b`: `a` itself if it covers `b`, else the bare instance of the
type they share, else the bare `object`. -/
def merge (a b : Constant) : Choice Constant :=
  if a = b then .left
  else if a.typeName = b.typeName then
    if a.literal.isNone then .left else .fresh (bare a.typeName)
  else if a = object then .left
  else .fresh object

end Constant

end AbstractSets
