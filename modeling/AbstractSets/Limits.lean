import AbstractSets.Comparer
import AbstractSets.Error

/-!
# Widening limits

How many values a set may hold before it is widened, and between which union levels that
happens.
-/

namespace AbstractSets

structure Limits where
  maxEntries : Nat
  initial : Strength
  max : Strength
  deriving DecidableEq, Repr

namespace Limits

def standard : Limits := ⟨20, .plain, .object⟩

def ofBounds (maxEntries : Nat) (initial max : Strength) : Except SettingError Limits :=
  if maxEntries = 0 then .error .zeroMaxEntries
  else if max < initial then .error (.invertedStrengths initial max)
  else .ok ⟨maxEntries, initial, max⟩

/-- The first level to try on a set with comparer `c`: the initial level, or the one above
the set's own if the initial level would not be stronger. -/
def start? (l : Limits) : Comparer → Option Strength
  | .identity => some l.initial
  | .union s => if l.initial ≤ s then s.stronger? else some l.initial

/-- The levels to try on a set with comparer `c`, in order. -/
def levels (l : Limits) (c : Comparer) : List Strength :=
  match l.start? c with
  | some s => Strength.range s l.max
  | none => []

end Limits

end AbstractSets
