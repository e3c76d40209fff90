import AbstractSets.Text.Digest
import AbstractSets.Value

/-!
# Relabelled keys

A key that joining values can change: one that carries a new key gives it to the value it
is merged into. Merging two equal values can so give a value that is equal to neither.
-/

namespace AbstractSets

structure Relabel where
  key : String
  into : Option String
  deriving DecidableEq, Repr

namespace Relabel

def unionEq (_ : Strength) (a b : Relabel) : Bool := a.key == b.key

def unionHash (_ : Strength) (a : Relabel) : UInt64 := Digest.ofText a.key

/-- The value `a` under the key that `b` brings, if it brings one. -/
def merge (a b : Relabel) : Choice Relabel :=
  match b.into with
  | some key => .fresh ⟨key, a.into⟩
  | none => .left

end Relabel

end AbstractSets
