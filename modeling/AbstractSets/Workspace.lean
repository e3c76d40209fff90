import AbstractSets.ValueSet.Basic

/-!
# Workspaces

A workspace keeps sets under names. Small sets are kept as they are; the tables of large
ones are kept apart, by their stamps, and a name only refers to its table. Names whose sets
were copied from one another so refer to one table. Changing the set of a name writes to
its table in place as long as no other name refers to it, and otherwise leaves that table
alone.
-/

namespace AbstractSets

/-- What a name stands for: a small set, or the stamp of a table. -/
inductive Handle (α : Type) where
  | empty (comparer : Comparer)
  | one (v : Value α) (comparer : Comparer)
  | two (v w : Value α) (comparer : Comparer)
  | many (stamp : Nat)

structure Workspace (α : Type) where
  ledger : Ledger
  tables : Std.TreeMap Nat (Table α)
  handles : Std.TreeMap String (Handle α)

namespace Handle

variable {α : Type}

def refersTo (stamp : Nat) : Handle α → Bool
  | many n => n == stamp
  | _ => false

end Handle

namespace Workspace

variable {α : Type}

def start : Workspace α := ⟨.start, ∅, ∅⟩

def draw {β : Type} (ws : Workspace α) (m : Supply β) : β × Workspace α :=
  let (b, ledger) := m ws.ledger
  (b, { ws with ledger })

def resolve? (ws : Workspace α) : Handle α → Option (ValueSet α)
  | .empty c => some (.empty c)
  | .one v c => some (.one v c)
  | .two v w c => some (.two v w c)
  | .many stamp => ws.tables[stamp]?.map .many

def get? (ws : Workspace α) (name : String) : Option (ValueSet α) :=
  ws.handles[name]?.bind ws.resolve?

def names (ws : Workspace α) : List String := ws.handles.keys

def owners (ws : Workspace α) (stamp : Nat) : Nat :=
  ws.handles.toList.countP (·.2.refersTo stamp)

/-- Keep a set under a name, in place of what the name stood for. -/
def put (ws : Workspace α) (name : String) : ValueSet α → Workspace α
  | .empty c => { ws with handles := ws.handles.insert name (.empty c) }
  | .one v c => { ws with handles := ws.handles.insert name (.one v c) }
  | .two v w c => { ws with handles := ws.handles.insert name (.two v w c) }
  | .many t =>
    { ws with
      tables := ws.tables.insert t.stamp t
      handles := ws.handles.insert name (.many t.stamp) }

/-- Write the changed set of a name back. If no other name refers to the old table, a new
one takes its place. -/
def writeBack (ws : Workspace α) (name : String) (before after : ValueSet α) : Workspace α :=
  match before, after with
  | .many t, .many u =>
    if ws.owners t.stamp = 1 && !ws.tables.contains u.stamp then
      ws.put name (.many { u with stamp := t.stamp })
    else ws.put name (.many u)
  | _, s => ws.put name s

/-- Change the set of a name. The change also gives an answer. There is none if the name is
not in use. -/
def update? {β : Type} (ws : Workspace α) (name : String)
    (change : ValueSet α → Supply (ValueSet α × β)) : Option (β × Workspace α) := do
  let before ← ws.get? name
  let ((after, answer), ws) := ws.draw (change before)
  return (answer, ws.writeBack name before after)

end Workspace

end AbstractSets
