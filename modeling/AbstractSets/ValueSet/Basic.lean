import AbstractSets.Table.Basic

/-!
# Sets of values

A set holds values no two of which are equal under its comparer, in an order that
depends only on how it was built. Up to two values are held directly; from three on they
live in a table, which copies of the set share until one of them changes.

Inserting a value that is equal to one already held merges the two. The merged value may
in turn be equal to others, and then these are merged as well, so a set can shrink. The
flag that comes with an insertion tells whether the set is no longer what it was.
-/

namespace AbstractSets

inductive ValueSet (α : Type) where
  | empty (comparer : Comparer)
  | one (v : Value α) (comparer : Comparer)
  | two (v w : Value α) (comparer : Comparer)
  | many (table : Table α)

inductive Representation where
  | empty
  | one
  | two
  | many
  deriving DecidableEq, Repr

def Representation.ofSize : Nat → Representation
  | 0 => empty
  | 1 => one
  | 2 => two
  | _ => many

namespace ValueSet

variable {α : Type}

def representation : ValueSet α → Representation
  | empty _ => .empty
  | one _ _ => .one
  | two _ _ _ => .two
  | many _ => .many

def values : ValueSet α → List (Value α)
  | empty _ => []
  | one v _ => [v]
  | two v w _ => [v, w]
  | many t => t.values

def comparer : ValueSet α → Comparer
  | empty c => c
  | one _ c => c
  | two _ _ c => c
  | many t => t.comparer

def size : ValueSet α → Nat
  | empty _ => 0
  | one _ _ => 1
  | two _ _ _ => 2
  | many t => t.size

def isEmpty : ValueSet α → Bool
  | empty _ => true
  | _ => false

def singleton (v : Value α) : ValueSet α := one v .identity

def single? : ValueSet α → Option (Value α)
  | one v _ => some v
  | _ => none

@[simp] theorem length_values (s : ValueSet α) : s.values.length = s.size := by
  cases s <;> simp [values, size, Table.values]

variable [DecidableEq α]

/-- Whether two sets are the same storage: small sets when they hold the very same values
in the same order, large ones when they have one table. -/
def sharesStorage : ValueSet α → ValueSet α → Bool
  | empty c, empty d => c == d
  | one v c, one w d => c == d && v == w
  | two v v' c, two w w' d => c == d && v == w && v' == w'
  | many t, many u => t.stamp == u.stamp
  | _, _ => false

@[simp] theorem sharesStorage_self (s : ValueSet α) : s.sharesStorage s = true := by
  cases s <;> simp [sharesStorage]

variable [Kind α]

/-- A set of values no two of which are equal under `c`. -/
def ofDistinct (c : Comparer) : List (Value α) → Supply (ValueSet α)
  | [] => pure (empty c)
  | [v] => pure (one v c)
  | [v, w] => pure (two v w c)
  | vs => return many (← Table.ofDistinct c vs)

@[simp] theorem values_ofDistinct (c : Comparer) (vs : List (Value α)) (l : Ledger) :
    (ofDistinct c vs l).1.values = vs := by
  match vs with
  | [] | [_] | [_, _] => rfl
  | v :: w :: x :: rest => exact Table.values_ofDistinct c (v :: w :: x :: rest) l

@[simp] theorem comparer_ofDistinct (c : Comparer) (vs : List (Value α)) (l : Ledger) :
    (ofDistinct c vs l).1.comparer = c := by
  match vs with
  | [] | [_] | [_, _] => rfl
  | v :: w :: x :: rest => exact Table.comparer_ofDistinct c (v :: w :: x :: rest) l

/-- Whether some value of the set is equal to `v`. -/
def contains : ValueSet α → Value α → Bool
  | many t, v => (t.find? v).isSome
  | s, v => s.values.any (s.comparer.equal · v)

/-- Whether two sets are of one size and every value of the second is in the first. -/
def setEquals (s t : ValueSet α) : Bool :=
  s.size == t.size && t.values.all s.contains

/-- Put `merged` in the place of the first of two values. If it is now equal to the second
one, a single value remains. -/
def replaceFirst (c : Comparer) (merged w : Value α) : Supply (ValueSet α) :=
  if c.equal w merged then return one (← c.merge merged w) c
  else pure (two merged w c)

def replaceSecond (c : Comparer) (v merged : Value α) : Supply (ValueSet α) :=
  if c.equal v merged then return one (← c.merge v merged) c
  else pure (two v merged c)

/-- Put `merged` in the place of a table's entry. Up to two values that remain leave the
table. -/
def replaceEntry (t : Table α) (i : Nat) (merged : Value α) : Supply (ValueSet α) := do
  let t ← t.absorb i merged
  if t.size ≤ 2 then ofDistinct t.comparer t.values
  else return many (← t.restamp)

/-- Add a value, merging it with one that is equal to it. The flag tells whether the set
has changed. -/
def insert (s : ValueSet α) (x : Value α) : Supply (ValueSet α × Bool) :=
  match s with
  | empty c => pure (one x c, true)
  | one v c =>
    if c.equal v x then do
      let merged ← c.merge v x
      if merged = v then return (s, false) else return (one merged c, true)
    else pure (two v x c, true)
  | two v w c =>
    if c.equal v x then do
      let merged ← c.merge v x
      if merged = v then return (s, false) else return (← replaceFirst c merged w, true)
    else if c.equal w x then do
      let merged ← c.merge w x
      if merged = w then return (s, false) else return (← replaceSecond c v merged, true)
    else return (← ofDistinct c [v, w, x], true)
  | many t =>
    match t.find? x with
    | some i => do
      let merged ← t.comparer.merge (t.valueAt i) x
      if merged = t.valueAt i then return (s, false)
      else return (← replaceEntry t i merged, true)
    | none => return (many (← (t.push x).restamp), true)

/-- Add values one after another. The flag tells whether any of them changed the set. -/
def insertAll (s : ValueSet α) : List (Value α) → Supply (ValueSet α × Bool)
  | [] => pure (s, false)
  | v :: vs => do
    let (s, changed) ← s.insert v
    let (s, later) ← s.insertAll vs
    return (s, changed || later)

def ofList (c : Comparer) (vs : List (Value α)) : Supply (ValueSet α) := do
  return (← (empty c).insertAll vs).1

/-- Add the values of `t` to `s`. An empty set takes over a set of the same comparer as it
is. The flag tells whether `s` has changed. -/
def union (s t : ValueSet α) : Supply (ValueSet α × Bool) :=
  if s.isEmpty && s.comparer == t.comparer then pure (t, !t.isEmpty)
  else s.insertAll t.values

/-- The union of several sets, taken in order from the empty set of `c`. -/
def unionAll (c : Comparer) (sets : List (ValueSet α)) : Supply (ValueSet α) :=
  sets.foldlM (fun s t => return (← s.union t).1) (empty c)

end ValueSet

end AbstractSets
