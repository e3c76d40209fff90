import AbstractSets.Text.Quoted

/-!
# Outlines

The structure of a value, written out for inspection: atoms, records of labelled fields,
and items between brackets. An outline is laid out on one line, or with every item on a
line of its own, four columns further in than the bracket that opens the group.
-/

namespace AbstractSets

inductive Outline where
  | atom (text : String)
  | field (label : String) (item : Outline)
  | record (name : String) (fields : List Outline)
  | group (opener : String) (items : List Outline) (closer : String)

namespace Outline

def quoted (s : String) : Outline := atom (Text.quoted s)

def int (n : Int) : Outline := atom (toString n)

def call (name : String) (args : List Outline) : Outline := group (name ++ "(") args ")"

def tuple (items : List Outline) : Outline := call "" items

def list (items : List Outline) : Outline := group "[" items "]"

def set (items : List Outline) : Outline := group "\x7b" items "\x7d"

def option : Option Outline → Outline
  | none => atom "None"
  | some o => call "Some" [o]

mutual

/-- The outline on one line. -/
def oneLine : Outline → String
  | atom s => s
  | field label item => label ++ ": " ++ oneLine item
  | record name fields => name ++ " \x7b " ++ ", ".intercalate (oneLines fields) ++ " \x7d"
  | group opener items closer => opener ++ ", ".intercalate (oneLines items) ++ closer

def oneLines : List Outline → List String
  | [] => []
  | o :: os => oneLine o :: oneLines os

end

def labelFirst (label : String) : List String → List String
  | [] => []
  | l :: ls => (label ++ l) :: ls

def commaAfterLast : List String → List String
  | [] => []
  | [l] => [l ++ ","]
  | l :: ls => l :: commaAfterLast ls

/-- Lines between an opening and a closing one, four columns further in. Nothing between
them leaves the two on one line. -/
def enclose (opener : String) (inner : List String) (closer : String) : List String :=
  if inner.isEmpty then [opener ++ closer]
  else opener :: inner.map ("    " ++ ·) ++ [closer]

mutual

/-- The outline with every item on lines of its own. -/
def lines : Outline → List String
  | atom s => [s]
  | field label item => labelFirst (label ++ ": ") (lines item)
  | record name fields => enclose (name ++ " \x7b") (itemLines fields) "\x7d"
  | group opener items closer => enclose opener (itemLines items) closer

def itemLines : List Outline → List String
  | [] => []
  | o :: os => commaAfterLast (lines o) ++ itemLines os

end

def indented (o : Outline) : String := "\n".intercalate (lines o)

end Outline

end AbstractSets
