import AbstractSets.Limits
import AbstractSets.ValueSet.Basic

/-!
# Widening

A set that has grown too large is rebuilt under stronger and stronger comparers until it
is small enough or the levels run out. Each step is recorded, and so is giving up.
-/

namespace AbstractSets

inductive WideningEvent where
  | widened (strength : Strength) (before after : Nat)
  | exceeded (size maxEntries : Nat)
  deriving DecidableEq, Repr

def WideningEvent.message : WideningEvent → String
  | widened .. => "Widened analysis set"
  | exceeded .. => "Analysis set exceeds the widening limit at the strongest allowed comparer"

structure Widening (α : Type) where
  set : ValueSet α
  merged : Bool
  events : List WideningEvent

namespace ValueSet

variable {α : Type} [DecidableEq α] [Kind α]

/-- The set rebuilt at union level `r`, unless it merges at that level already. The flag
tells whether values were merged. -/
def asUnion (s : ValueSet α) (r : Strength) : Supply (ValueSet α × Bool) :=
  if s.comparer.strength?.any (r ≤ ·) then pure (s, false)
  else do
    let t ← ofList (.union r) s.values
    return (t, t.size != s.size || t.values.any (!s.values.contains ·))

/-- Rebuild a set at one level after the other while it holds more than `maxEntries`. -/
def widenThrough (maxEntries : Nat) : List Strength → ValueSet α → Supply (Widening α)
  | [], s =>
    pure ⟨s, false, if s.size ≤ maxEntries then [] else [.exceeded s.size maxEntries]⟩
  | r :: rs, s =>
    if s.size ≤ maxEntries then pure ⟨s, false, []⟩
    else do
      let (t, merged) ← s.asUnion r
      let w ← widenThrough maxEntries rs t
      return ⟨w.set, merged || w.merged, .widened r s.size t.size :: w.events⟩

/-- Widen a set to fit the limits, or as far as they allow. -/
def widen (s : ValueSet α) (l : Limits) : Supply (Widening α) :=
  widenThrough l.maxEntries (l.levels s.comparer) s

end ValueSet

end AbstractSets
