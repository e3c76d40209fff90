import AbstractSets.Text.Digest
import AbstractSets.Value

/-!
# Classes

A class is known by its line of ancestry: its own name, then its ancestors, nearest first.
The last name of the line is its root. Below the root there is only `object`, which is not
listed; the class `object` itself is the line of that one name.

Classes with one root merge into the end of the line that they share. At the most general
level any two classes merge, into `object` unless they are the same.
-/

namespace AbstractSets

structure ClassObject where
  name : String
  bases : List String
  deriving DecidableEq, Repr

def sharedStart {α : Type} [DecidableEq α] : List α → List α → List α
  | a :: as, b :: bs => if a = b then a :: sharedStart as bs else []
  | _, _ => []

def sharedEnd {α : Type} [DecidableEq α] (as bs : List α) : List α :=
  (sharedStart as.reverse bs.reverse).reverse

namespace ClassObject

/-- The class itself followed by its ancestors. -/
def ancestry (a : ClassObject) : List String := a.name :: a.bases

def object : ClassObject := ⟨"object", []⟩

def root (a : ClassObject) : String := a.bases.getLastD a.name

def unionEq : Strength → ClassObject → ClassObject → Bool
  | .object, _, _ => true
  | .plain, a, b => a == b
  | _, a, b => a.root == b.root

def unionHash : Strength → ClassObject → UInt64
  | .object, _ => Digest.start
  | .plain, a => Digest.ofTexts a.ancestry
  | _, a => Digest.ofText a.root

/-- What stands for two classes that share the end of their lines: the one whose whole line
it is, or else a class with just that line. -/
def mergeLines (a b : ClassObject) : Choice ClassObject :=
  match sharedEnd a.ancestry b.ancestry with
  | [] => .left
  | name :: bases =>
    if bases.length = a.bases.length then .left
    else if bases.length = b.bases.length then .right
    else .fresh ⟨name, bases⟩

def merge (s : Strength) (a b : ClassObject) : Choice ClassObject :=
  if a = b ∨ a = object then .left
  else if b = object then .right
  else if s = .object then .fresh object
  else mergeLines a b

end ClassObject

end AbstractSets
