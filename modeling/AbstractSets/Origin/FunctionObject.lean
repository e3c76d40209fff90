import AbstractSets.Text.Digest
import AbstractSets.Value

/-!
# Functions

A function has a name and the module it comes from. From level `anyOrigin` on, functions
of one name are equal, and the one whose module sorts first stands for them. At the most
general level all functions are equal, and functions of different names merge into the
built-in type of functions.
-/

namespace AbstractSets

structure FunctionObject where
  moduleName : String
  name : String
  deriving DecidableEq, Repr

namespace FunctionObject

/-- Stands for any function at all. -/
def anyFunction : FunctionObject := ⟨"builtins", "function"⟩

def unionEq : Strength → FunctionObject → FunctionObject → Bool
  | .object, _, _ => true
  | .anyOrigin, a, b => a.name == b.name
  | _, a, b => a == b

def unionHash : Strength → FunctionObject → UInt64
  | .object, _ => Digest.start
  | .anyOrigin, a => Digest.ofText a.name
  | _, a => Digest.ofTexts [a.moduleName, a.name]

def merge (a b : FunctionObject) : Choice FunctionObject :=
  if a = anyFunction then .left
  else if b = anyFunction then .right
  else if a.name ≠ b.name then .fresh anyFunction
  else if b.moduleName < a.moduleName then .right
  else .left

end FunctionObject

end AbstractSets
