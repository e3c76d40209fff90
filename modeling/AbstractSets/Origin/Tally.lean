import AbstractSets.Text.Digest
import AbstractSets.Value

/-!
# Tallies

A tally counts how often each payload was seen, in the order in which the payloads were
seen first. Tallies of one name are equal, at the most general level all are; merging them
adds up the counts, and always makes a new tally. The payload seen most often stands for
the tally.
-/

namespace AbstractSets

structure Tally where
  name : Option String
  weights : List (String × Nat)
  deriving DecidableEq, Repr

namespace Tally

def once (name : Option String) (payload : String) : Tally := ⟨name, [(payload, 1)]⟩

def addWeight (payload : String) (n : Nat) : List (String × Nat) → List (String × Nat)
  | [] => [(payload, n)]
  | (q, m) :: rest =>
    if q = payload then (q, m + n) :: rest else (q, m) :: addWeight payload n rest

/-- The counts of both lists together, the payloads of the first list first. -/
def addWeights (ws : List (String × Nat)) (vs : List (String × Nat)) : List (String × Nat) :=
  vs.foldl (fun ws (payload, n) => addWeight payload n ws) ws

/-- Both tallies together. The name stays if they have it in common. -/
def add (a b : Tally) : Tally :=
  ⟨if a.name = b.name then a.name else none, addWeights a.weights b.weights⟩

/-- The heavier of two counts, the earlier one on a tie. -/
def heavier (best : Option (String × Nat)) (entry : String × Nat) : Option (String × Nat) :=
  match best with
  | none => some entry
  | some b => if b.2 < entry.2 then some entry else some b

/-- The payload seen most often, the earliest of these. -/
def payload (a : Tally) : String :=
  match a.weights.foldl heavier none with
  | none => ""
  | some (p, _) => p

def count (a : Tally) : Nat := a.weights.foldl (fun n entry => n + entry.2) 0

def weight (a : Tally) (payload : String) : Nat :=
  match a.weights.find? (·.1 == payload) with
  | none => 0
  | some (_, n) => n

def unionEq : Strength → Tally → Tally → Bool
  | .object, _, _ => true
  | _, a, b => a.name == b.name

def unionHash : Strength → Tally → UInt64
  | .object, _ => Digest.start
  | _, a => Digest.ofTexts a.name.toList

def merge (a b : Tally) : Choice Tally := .fresh (a.add b)

end Tally

end AbstractSets
