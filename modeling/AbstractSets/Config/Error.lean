import AbstractSets.Config.Json
import AbstractSets.Error
import AbstractSets.Number.Shortest
import AbstractSets.Text.Quoted

/-!
# Why a setting cannot be read

The causes, each with what was found and what was expected in its place, and the one
function that words them.
-/

namespace AbstractSets

inductive Found where
  | null
  | boolean (b : Bool)
  | integer (n : Int)
  | real (x : Binary64)
  | string (s : String)
  | sequence
  | map
  | bareVariant
  deriving DecidableEq, Repr

inductive Expected where
  | byte
  | count
  | stringOrMap
  | singleKeyMap
  | nothing
  | fullVariant
  | limits
  deriving DecidableEq, Repr

inductive DecodeError where
  | invalidType (found : Found) (expected : Expected)
  | invalidValue (found : Found) (expected : Expected)
  | unknownVariant (name : String)
  | unknownField (name : String)
  | tooLong (length : Nat)
  | refused (reason : SettingError)
  deriving DecidableEq, Repr

/-- What there is to say of a JSON value in place of which something else was expected. -/
def Json.found : Json → Found
  | null => .null
  | bool b => .boolean b
  | int n => .integer n
  | real x => .real x
  | str s => .string s
  | arr _ => .sequence
  | obj _ => .map

namespace Found

def message : Found → String
  | null => "null"
  | boolean b => s!"boolean `{b}`"
  | integer n => s!"integer `{n}`"
  | real x => "floating point `" ++ x.text ++ "`"
  | string s => "string " ++ Text.quoted s
  | sequence => "sequence"
  | map => "map"
  | bareVariant => "unit variant"

end Found

namespace Expected

def message : Expected → String
  | byte => "u8"
  | count => "usize"
  | stringOrMap => "string or map"
  | singleKeyMap => "map with a single key"
  | nothing => "unit"
  | fullVariant => "newtype variant"
  | limits => "struct WideningLimitsOptions"

end Expected

namespace DecodeError

def message : DecodeError → String
  | invalidType f e => "invalid type: " ++ f.message ++ ", expected " ++ e.message
  | invalidValue f e => "invalid value: " ++ f.message ++ ", expected " ++ e.message
  | unknownVariant name => s!"unknown variant `{name}`, expected `Identity` or `Union`"
  | unknownField name =>
    s!"unknown field `{name}`, expected one of `max-entries`, `initial-strength`, `max-strength`"
  | tooLong n => s!"invalid length {n}, expected fewer elements in array"
  | refused reason => reason.message

end DecodeError

end AbstractSets
