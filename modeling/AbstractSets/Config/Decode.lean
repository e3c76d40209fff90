import AbstractSets.Config.Error
import AbstractSets.Limits

/-!
# Reading and writing settings

A union level is its number. A comparer is the name `Identity`, or an object that gives the
level of `Union`. Limits are an object of up to three members, or their values in a list in
a fixed order; what is left out has its standard value. Whatever was read is checked once
all parts are there.
-/

namespace AbstractSets

/-- Read a level or a count below `bound`. -/
def Json.decodeNat (bound : Nat) (expected : Expected) : Json → Except DecodeError Nat
  | .int (.ofNat n) =>
    if n < bound then .ok n else .error (.invalidValue (.integer n) expected)
  | .int n => .error (.invalidValue (.integer n) expected)
  | j => .error (.invalidType j.found expected)

namespace Strength

def encode (s : Strength) : Json := .int s.level

def decode (j : Json) : Except DecodeError Strength := do
  (ofLevel (← j.decodeNat UInt8.size .byte)).mapError .refused

end Strength

namespace Comparer

def encode : Comparer → Json
  | identity => .str "Identity"
  | union s => .obj [("Union", s.encode)]

def decode : Json → Except DecodeError Comparer
  | .str "Identity" => .ok identity
  | .str "Union" => .error (.invalidType .bareVariant .fullVariant)
  | .str name => .error (.unknownVariant name)
  | .obj [("Identity", .null)] => .ok identity
  | .obj [("Identity", j)] => .error (.invalidType j.found .nothing)
  | .obj [("Union", j)] => return union (← Strength.decode j)
  | .obj [(name, _)] => .error (.unknownVariant name)
  | .obj _ => .error (.invalidValue .map .singleKeyMap)
  | j => .error (.invalidType j.found .stringOrMap)

end Comparer

namespace Limits

def settingNames : List String := ["max-entries", "initial-strength", "max-strength"]

/-- Read one setting by its name. The result is not checked for sense. -/
def decodeSetting (l : Limits) : String × Json → Except DecodeError Limits
  | ("max-entries", j) => return { l with maxEntries := ← j.decodeNat UInt64.size .count }
  | ("initial-strength", j) => return { l with initial := ← Strength.decode j }
  | ("max-strength", j) => return { l with max := ← Strength.decode j }
  | (name, _) => .error (.unknownField name)

/-- Read settings one after another on top of the standard limits. -/
def decodeSettings (members : List (String × Json)) : Except DecodeError Limits :=
  members.foldlM decodeSetting standard

def check (l : Limits) : Except DecodeError Limits :=
  (ofBounds l.maxEntries l.initial l.max).mapError .refused

def encode (l : Limits) : Json :=
  .obj
    [("initial-strength", l.initial.encode),
     ("max-entries", .int l.maxEntries),
     ("max-strength", l.max.encode)]

def decode : Json → Except DecodeError Limits
  | .obj members => do check (← decodeSettings members)
  | .arr items => do
    let l ← decodeSettings (settingNames.zip items)
    if settingNames.length < items.length then .error (.tooLong items.length)
    else check l
  | j => .error (.invalidType j.found .limits)

end Limits

end AbstractSets
