import AbstractSets.Strength
import AbstractSets.Supply

/-!
# Values and kinds

A value is some content together with the mark it received when it was made. Equality of
values is therefore identity: equal content under different marks gives different values.

A kind says how the contents of one type behave under the union levels: when two of them
count as one, how they are hashed, and what stands for both once they are merged. A merge
answers with a value that already exists or with content for a new one; only in the
second case is a mark drawn.
-/

namespace AbstractSets

/-- Content with an identity of its own. -/
structure Value (α : Type) where
  id : Nat
  content : α
  deriving DecidableEq, Repr

inductive Merged (α : Type) where
  | kept (v : Value α)
  | made (content : α)
  deriving DecidableEq, Repr

class Kind (α : Type) where
  unionEq : Strength → α → α → Bool
  unionHash : Strength → α → UInt64
  /-- The value that stands for the first, held in a set, and the second, which joins it. -/
  unionMerge : Strength → Value α → Value α → Merged α

/-- The outcome of a merge rule that only sees contents. -/
inductive Choice (α : Type) where
  | left
  | right
  | fresh (content : α)
  deriving DecidableEq, Repr

namespace Value

variable {α : Type}

def make (a : α) : Supply (Value α) := do
  return ⟨← Supply.draw, a⟩

def makeAll : List α → Supply (List (Value α))
  | [] => pure []
  | a :: as => do
    let v ← make a
    return v :: (← makeAll as)

end Value

namespace Merged

variable {α : Type}

/-- The value a merge settles on, made now if it has to be. -/
def settle : Merged α → Supply (Value α)
  | kept v => pure v
  | made a => Value.make a

def content : Merged α → α
  | kept v => v.content
  | made a => a

end Merged

namespace Choice

variable {α β : Type}

/-- Read a choice between the contents of `v` and `w` as a merge of the two values. -/
def between (v w : Value α) : Choice α → Merged α
  | left => .kept v
  | right => .kept w
  | fresh a => .made a

def content (a b : α) : Choice α → α
  | left => a
  | right => b
  | fresh c => c

def map (f : α → β) : Choice α → Choice β
  | left => .left
  | right => .right
  | fresh a => .fresh (f a)

end Choice

end AbstractSets
