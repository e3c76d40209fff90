import AbstractSets.Comparer
import AbstractSets.Table.Index

/-!
# Tables of distinct values

The storage of a set with three or more values: the entries in order, each with the hash
it had when it was written, and an index of their positions by hash. A table has a stamp,
drawn anew whenever its entries change, so that two tables with one stamp are one table.

Replacing an entry by a merged value may make that value equal to other entries, or move
it to another bucket. `absorb` takes in one entry after another until no entry is equal
any more; each entry taken in leaves the table, so this comes to an end.
-/

namespace AbstractSets

structure Entry (α : Type) where
  hash : UInt64
  value : Value α
  deriving Repr

structure Table (α : Type) where
  stamp : Nat
  comparer : Comparer
  entries : Array (Entry α)
  index : HashIndex

namespace Table

variable {α : Type}

abbrev size (t : Table α) : Nat := t.entries.size

def values (t : Table α) : List (Value α) := t.entries.toList.map (·.value)

def valueAt (t : Table α) (i : Fin t.size) : Value α := t.entries[i].value

/-- The same table as storage of its own. -/
def restamp (t : Table α) : Supply (Table α) := do
  return { t with stamp := ← Supply.draw }

def swapRemove (t : Table α) (i : Fin t.size) : Table α :=
  let last := t.size - 1
  have : last < t.entries.size := Nat.sub_one_lt_of_lt i.isLt
  let removed := t.entries[i]
  let moved := t.entries[last]
  let index := t.index.remove removed.hash i
  { t with
    entries := (t.entries.set i moved).pop
    index := if i.val = last then index else index.renumber moved.hash last i }

@[simp] theorem length_values (t : Table α) : t.values.length = t.size := by
  simp [values]

theorem size_swapRemove (t : Table α) (i : Fin t.size) :
    (t.swapRemove i).size = t.size - 1 := by
  simp [swapRemove, size]

@[simp] theorem comparer_swapRemove (t : Table α) (i : Fin t.size) :
    (t.swapRemove i).comparer = t.comparer := rfl

def empty (c : Comparer) (stamp : Nat) : Table α := ⟨stamp, c, #[], .empty⟩

variable [Kind α]

/-- Add a value after the others. It must not be equal to any of them. -/
def push (t : Table α) (v : Value α) : Table α :=
  let h := t.comparer.hash v
  { t with entries := t.entries.push ⟨h, v⟩, index := t.index.add h t.size }

@[simp] theorem comparer_push (t : Table α) (v : Value α) :
    (t.push v).comparer = t.comparer := rfl

@[simp] theorem values_push (t : Table α) (v : Value α) :
    (t.push v).values = t.values ++ [v] := by
  simp [push, values]

theorem values_foldl_push (t : Table α) (vs : List (Value α)) :
    (vs.foldl push t).values = t.values ++ vs := by
  induction vs generalizing t with
  | nil => simp
  | cons v vs ih => simp [ih]

theorem comparer_foldl_push (t : Table α) (vs : List (Value α)) :
    (vs.foldl push t).comparer = t.comparer := by
  induction vs generalizing t with
  | nil => rfl
  | cons v vs ih => simp [ih]

/-- Write `v` over the entry at position `i` and file the position under the new hash, if the
hash is another one. -/
def set (t : Table α) (i : Nat) (v : Value α) : Table α :=
  if hi : i < t.entries.size then
    let h := t.comparer.hash v
    { t with
      entries := t.entries.set i ⟨h, v⟩
      index :=
        if h = t.entries[i].hash then t.index
        else (t.index.remove t.entries[i].hash i).add h i }
  else t

@[simp] theorem comparer_set (t : Table α) (i : Nat) (v : Value α) :
    (t.set i v).comparer = t.comparer := by
  unfold set
  split <;> rfl

@[simp] theorem values_set (t : Table α) (i : Nat) (v : Value α) :
    (t.set i v).values = t.values.set i v := by
  unfold set
  split
  · simp [values, List.map_set]
  · rename_i h
    simp [values, List.set_eq_of_length_le, Nat.le_of_not_lt h]

variable [DecidableEq α]

/-- The position of an entry equal to `v`, among the positions that `skip` does not rule out. -/
def findBeside (t : Table α) (v : Value α) (skip : Nat → Bool) : Option (Fin t.size) :=
  let h := t.comparer.hash v
  (t.index.bucket h).findSome? fun p =>
    if hp : p < t.size then
      let e := t.entries[p]
      if !skip p && e.hash == h && t.comparer.equal e.value v then some ⟨p, hp⟩ else none
    else none

def find? (t : Table α) (v : Value α) : Option (Fin t.size) :=
  t.findBeside v fun _ => false

/-- Add values after the others, one by one, noting for each whether it is new. -/
def pushAll (t : Table α) : List (Value α) → Supply (Table α)
  | [] => pure t
  | v :: vs => do
    Supply.check (t.find? v).isNone
    (t.push v).pushAll vs

/-- A table of values no two of which are equal. -/
def ofDistinct (c : Comparer) (vs : List (Value α)) : Supply (Table α) := do
  (empty c (← Supply.draw)).pushAll vs

theorem pushAll_fst (t : Table α) (vs : List (Value α)) (l : Ledger) :
    (t.pushAll vs l).1 = vs.foldl push t := by
  induction vs generalizing t l with
  | nil => rfl
  | cons v vs ih => exact ih _ _

@[simp] theorem values_ofDistinct (c : Comparer) (vs : List (Value α)) (l : Ledger) :
    (ofDistinct c vs l).1.values = vs := by
  rw [ofDistinct, Supply.bind_apply, pushAll_fst, values_foldl_push]
  simp [values, empty]

@[simp] theorem comparer_ofDistinct (c : Comparer) (vs : List (Value α)) (l : Ledger) :
    (ofDistinct c vs l).1.comparer = c := by
  rw [ofDistinct, Supply.bind_apply, pushAll_fst, comparer_foldl_push]
  rfl

def findOther? (t : Table α) (v : Value α) (i : Nat) : Option (Fin t.size) :=
  t.findBeside v (· == i)

/-- Replace the entry at `i` by `merged`, which takes in every other entry equal to it. The
entry taken in leaves its place to the last one, so the place of `i` itself can move. -/
def absorb (t : Table α) (i : Nat) (merged : Value α) : Supply (Table α) :=
  match t.findOther? merged i with
  | none => pure (t.set i merged)
  | some j => do
    let merged ← t.comparer.merge merged (t.valueAt j)
    absorb (t.swapRemove j) (if i = t.size - 1 then j.val else i) merged
termination_by t.size
decreasing_by
  rw [size_swapRemove]
  exact Nat.sub_one_lt_of_lt j.isLt

end Table

end AbstractSets
