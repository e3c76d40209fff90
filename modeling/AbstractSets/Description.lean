import AbstractSets.Limits
import AbstractSets.Origin.Basic
import AbstractSets.Text.Outline
import AbstractSets.ValueSet.Basic

/-!
# How things are written

The short text and the outline of every type of the library. Short texts are for the
reader of an analysis and show names as they are; outlines show the structure, with all
texts quoted.
-/

namespace AbstractSets

/-- Content that can be shown. -/
class Described (α : Type) where
  name? : α → Option String
  display : α → String
  outline : α → Outline

/-- The text of something of which at most the name is known. -/
def displayName (name : Option String) : String := name.getD "<unknown>"

namespace Strength

def display (s : Strength) : String := toString s.level

def outline (s : Strength) : Outline := .call "UnionStrength" [.int s.level]

end Strength

namespace Comparer

def display : Comparer → String
  | identity => "identity"
  | union s => "union(" ++ s.display ++ ")"

def outline : Comparer → Outline
  | identity => .atom "Identity"
  | union s => .call "Union" [s.outline]

end Comparer

def Limits.outline (l : Limits) : Outline :=
  .record "WideningLimits"
    [.field "max_entries" (.int l.maxEntries),
     .field "initial_strength" l.initial.outline,
     .field "max_strength" l.max.outline]

namespace Literal

def display : Literal → String
  | nothing => "None"
  | bool true => "True"
  | bool false => "False"
  | int n => toString n
  | str s => Text.quoted s

def outline : Literal → Outline
  | nothing => .atom "None"
  | bool b => .call "Bool" [.atom (toString b)]
  | int n => .call "Int" [.int n]
  | str s => .call "Str" [.quoted s]

end Literal

namespace Constant

def display (a : Constant) : String :=
  match a.literal with
  | none => a.typeName
  | some .nothing => "None"
  | some l => "Literal[" ++ l.display ++ "]"

def outline (a : Constant) : Outline :=
  .record "ConstantValue"
    [.field "type_name" (.quoted a.typeName),
     .field "literal" (.option (a.literal.map Literal.outline))]

end Constant

namespace ClassObject

def display (a : ClassObject) : String := "<class '" ++ a.name ++ "'>"

def outline (a : ClassObject) : Outline :=
  .record "ClassValue" [.field "mro" (.list (a.ancestry.map .quoted))]

end ClassObject

namespace FunctionObject

def display (a : FunctionObject) : String := "def " ++ a.name

def outline (a : FunctionObject) : Outline :=
  .record "FunctionValue"
    [.field "module" (.quoted a.moduleName), .field "name" (.quoted a.name)]

end FunctionObject

namespace ModuleObject

def display (a : ModuleObject) : String := "<module '" ++ a.name ++ "'>"

def outline (a : ModuleObject) : Outline :=
  .record "ModuleValue" [.field "name" (.quoted a.name)]

end ModuleObject

namespace Tally

def display (a : Tally) : String := displayName a.name ++ "(" ++ a.payload ++ ")"

def outline (a : Tally) : Outline :=
  .record "TestValue"
    [.field "name" (.option (a.name.map .quoted)),
     .field "weights" (.list (a.weights.map fun (p, n) => .tuple [.quoted p, .int n]))]

end Tally

def Interval.outline (a : Interval) : Outline :=
  .record "Interval" [.field "lo" (.int a.lo), .field "hi" (.int a.hi)]

def Relabel.outline (a : Relabel) : Outline :=
  .record "Morph"
    [.field "key" (.quoted a.key), .field "into" (.option (a.into.map .quoted))]

namespace Origin

def name? : Origin → Option String
  | constant a => some a.typeName
  | classObject a => some a.name
  | functionObject a => some a.name
  | moduleObject a => some a.name
  | tally a => a.name
  | interval _ => none
  | relabel a => some a.key

def display : Origin → String
  | constant a => a.display
  | classObject a => a.display
  | functionObject a => a.display
  | moduleObject a => a.display
  | tally a => a.display
  | interval a => displayName (name? (interval a))
  | relabel a => displayName (name? (relabel a))

def outline : Origin → Outline
  | constant a => a.outline
  | classObject a => a.outline
  | functionObject a => a.outline
  | moduleObject a => a.outline
  | tally a => a.outline
  | interval a => a.outline
  | relabel a => a.outline

instance : Described Origin where
  name? := name?
  display := display
  outline := outline

end Origin

def Callable.outline : Callable → Outline
  | functionObject f => .call "Function" [f.outline]
  | classObject c => .call "Class" [c.outline]

namespace ValueSet

variable {α : Type} [Described α]

def display (s : ValueSet α) : String :=
  if s.isEmpty then "<empty>"
  else " | ".intercalate (s.values.map (Described.display ·.content))

def outline (s : ValueSet α) : Outline :=
  .record "AnalysisSet"
    [.field "comparer" s.comparer.outline,
     .field "values" (.set (s.values.map (Described.outline ·.content)))]

end ValueSet

end AbstractSets
