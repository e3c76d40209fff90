import AbstractSets.Origin.Constant
import AbstractSets.Origin.ClassObject
import AbstractSets.Origin.FunctionObject
import AbstractSets.Origin.ModuleObject
import AbstractSets.Origin.Tally
import AbstractSets.Origin.Interval
import AbstractSets.Origin.Relabel

/-!
# Origins

What a variable may hold at run time, of any of the kinds this library knows. Origins of
different kinds are never equal, and merging them keeps the first.
-/

namespace AbstractSets

inductive Origin where
  | constant (c : Constant)
  | classObject (c : ClassObject)
  | functionObject (f : FunctionObject)
  | moduleObject (m : ModuleObject)
  | tally (t : Tally)
  | interval (i : Interval)
  | relabel (r : Relabel)
  deriving DecidableEq, Repr

inductive OriginKind where
  | constant
  | classObject
  | functionObject
  | moduleObject
  | tally
  | interval
  | relabel
  deriving DecidableEq, Repr

namespace Origin

def kind : Origin → OriginKind
  | constant _ => .constant
  | classObject _ => .classObject
  | functionObject _ => .functionObject
  | moduleObject _ => .moduleObject
  | tally _ => .tally
  | interval _ => .interval
  | relabel _ => .relabel

def unionEq (s : Strength) : Origin → Origin → Bool
  | constant a, constant b => a.unionEq s b
  | classObject a, classObject b => a.unionEq s b
  | functionObject a, functionObject b => a.unionEq s b
  | moduleObject a, moduleObject b => a.unionEq s b
  | tally a, tally b => a.unionEq s b
  | interval a, interval b => a.unionEq s b
  | relabel a, relabel b => a.unionEq s b
  | _, _ => false

def unionHash (s : Strength) : Origin → UInt64
  | constant a => a.unionHash s
  | classObject a => a.unionHash s
  | functionObject a => a.unionHash s
  | moduleObject a => a.unionHash s
  | tally a => a.unionHash s
  | interval a => a.unionHash s
  | relabel a => a.unionHash s

def merge (s : Strength) : Origin → Origin → Choice Origin
  | constant a, constant b => (a.merge b).map constant
  | classObject a, classObject b => (a.merge s b).map classObject
  | functionObject a, functionObject b => (a.merge b).map functionObject
  | moduleObject a, moduleObject b => (a.merge b).map moduleObject
  | tally a, tally b => (a.merge b).map tally
  | interval a, interval b => (a.merge b).map interval
  | relabel a, relabel b => (a.merge b).map relabel
  | _, _ => .left

instance : Kind Origin where
  unionEq := unionEq
  unionHash := unionHash
  unionMerge s v w := (merge s v.content w.content).between v w

end Origin

/-- An origin that can be called. Calling a class makes an instance of it. -/
inductive Callable where
  | functionObject (f : FunctionObject)
  | classObject (c : ClassObject)
  deriving DecidableEq, Repr

namespace Callable

def name : Callable → String
  | functionObject f => f.name
  | classObject c => c.name

/-- The view of an origin as something to call. -/
def ofOrigin? : Origin → Option Callable
  | .functionObject f => some (functionObject f)
  | .classObject c => some (classObject c)
  | _ => none

end Callable

end AbstractSets
