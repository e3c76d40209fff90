import AbstractSets.Strength

/-!
# Refused settings

The reasons for which a union level or a pair of widening bounds is refused.
-/

namespace AbstractSets

inductive SettingError where
  | strengthOutOfRange (level : Nat)
  | zeroMaxEntries
  | invertedStrengths (initial max : Strength)
  deriving DecidableEq, Repr

namespace SettingError

def message : SettingError → String
  | strengthOutOfRange n =>
    s!"union strength {n} is out of range (the strongest level is {Strength.object.level})"
  | zeroMaxEntries => "`max-entries` must be at least 1"
  | invertedStrengths i m =>
    s!"the initial union strength {i.level} is stronger than the maximum union strength {m.level}"

end SettingError

def Strength.ofLevel (n : Nat) : Except SettingError Strength :=
  match Strength.ofLevel? n with
  | some s => .ok s
  | none => .error (.strengthOutOfRange n)

end AbstractSets
