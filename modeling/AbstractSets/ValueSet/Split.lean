import AbstractSets.ValueSet.Basic

/-!
# Splitting a set

A set is split by a yes or no for each of its values into the accepted values and the
others, each in their old order. A side that receives every value is the set itself; the
other side is then empty.
-/

namespace AbstractSets

structure Split (α : Type) where
  matching : ValueSet α
  remaining : ValueSet α

/-- The two sides of a set split by a view: what the view shows of the values it accepts,
and the values it does not accept. -/
structure ViewSplit (α β : Type) where
  matching : List β
  remaining : ValueSet α

namespace Split

variable {α : Type}

def anyMatched (s : Split α) : Bool := !s.matching.isEmpty

end Split

namespace ViewSplit

variable {α β : Type}

def anyMatched (s : ViewSplit α β) : Bool := !s.matching.isEmpty

end ViewSplit

namespace ValueSet

variable {α β : Type} [DecidableEq α] [Kind α]

/-- Split a set by an answer for each position. -/
def splitAt (s : ValueSet α) (accept : Nat → Value α → Bool) : Supply (Split α) :=
  let answers := s.values.zipIdx.map fun (v, i) => (v, accept i v)
  if answers.all (·.2) then pure ⟨s, empty s.comparer⟩
  else if !answers.any (·.2) then pure ⟨empty s.comparer, s⟩
  else do
    let matching ← ofDistinct s.comparer ((answers.filter (·.2)).map (·.1))
    let remaining ← ofDistinct s.comparer ((answers.filter (!·.2)).map (·.1))
    return ⟨matching, remaining⟩

def split (s : ValueSet α) (accept : Value α → Bool) : Supply (Split α) :=
  s.splitAt fun _ v => accept v

def splitView (s : ValueSet α) (view : Value α → Option β) : Supply (ViewSplit α β) := do
  let sides ← s.split fun v => (view v).isSome
  return ⟨s.values.filterMap view, sides.remaining⟩

end ValueSet

end AbstractSets
