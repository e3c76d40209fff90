import AbstractSets.Text.Digest
import AbstractSets.Value

/-!
# Modules

There is one module of each name, so modules merge only with themselves.
-/

namespace AbstractSets

structure ModuleObject where
  name : String
  deriving DecidableEq, Repr

namespace ModuleObject

def unionEq (_ : Strength) (a b : ModuleObject) : Bool := a.name == b.name

def unionHash (_ : Strength) (a : ModuleObject) : UInt64 := Digest.ofText a.name

def merge (_ _ : ModuleObject) : Choice ModuleObject := .left

end ModuleObject

end AbstractSets
