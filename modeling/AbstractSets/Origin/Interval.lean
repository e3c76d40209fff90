import AbstractSets.Value

/-!
# Intervals

A closed range of integers. Overlapping intervals are equal at every level, which is not a
transitive relation, and the smallest interval around both stands for them.
-/

namespace AbstractSets

structure Interval where
  lo : Int
  hi : Int
  deriving DecidableEq, Repr

namespace Interval

/-- Overlap. An interval whose ends are the wrong way round need not overlap itself. -/
def unionEq (_ : Strength) (a b : Interval) : Bool := a.lo ≤ b.hi && b.lo ≤ a.hi

/-- No hash finer than this one respects overlap. -/
def unionHash (_ : Strength) (_ : Interval) : UInt64 := 0

def hull (a b : Interval) : Interval := ⟨min a.lo b.lo, max a.hi b.hi⟩

def merge (a b : Interval) : Choice Interval :=
  if b.lo < a.lo ∨ a.hi < b.hi then .fresh (a.hull b) else .left

end Interval

end AbstractSets
