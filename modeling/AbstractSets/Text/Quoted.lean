import AbstractSets.Text.Combining
import AbstractSets.Text.Unprintable

/-!
# Quoted text

A text between double quotes, in which everything that could be mistaken or overlooked is
written as an escape: the quote and the backslash, the usual control characters by their
letter, and every other character that is unprintable or combining by its code point.
-/

namespace AbstractSets.Text

def codePointEscape (c : Char) : String :=
  "\\u\x7b" ++ String.ofList (Nat.toDigits 16 c.toNat) ++ "\x7d"

/-- A character as it stands inside quotes. -/
def quotedChar (c : Char) : String :=
  if c = '\x00' then "\\0"
  else if c = '\t' then "\\t"
  else if c = '\n' then "\\n"
  else if c = '\r' then "\\r"
  else if c = '"' then "\\\""
  else if c = '\\' then "\\\\"
  else if ' ' ≤ c && c ≤ '~' then c.toString
  else if isCombining c || isUnprintable c then codePointEscape c
  else c.toString

def quoted (s : String) : String :=
  "\"" ++ String.join (s.toList.map quotedChar) ++ "\""

end AbstractSets.Text
