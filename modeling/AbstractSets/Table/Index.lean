import Std.Data.TreeMap

/-!
# Positions by hash

A multimap from hashes to the positions of the entries that have them. Looking up a hash
gives its bucket, where the positions stand in the order in which they were filed. A position
that becomes another one keeps its place in the bucket.

That order is a choice. A hash table promises none among the entries of one hash, and one that
puts a new entry into the slot of a removed one can have another order from then on. It matters
only where a bucket has several entries equal to the one looked for.
-/

namespace AbstractSets

/-- Which positions are filed under which hash. -/
structure HashIndex where
  buckets : Std.TreeMap UInt64 (List Nat)

namespace HashIndex

def empty : HashIndex := ⟨∅⟩

def bucket (ix : HashIndex) (h : UInt64) : List Nat :=
  ix.buckets.getD h []

def add (ix : HashIndex) (h : UInt64) (p : Nat) : HashIndex :=
  ⟨ix.buckets.insert h (ix.bucket h ++ [p])⟩

def remove (ix : HashIndex) (h : UInt64) (p : Nat) : HashIndex :=
  ⟨ix.buckets.insert h ((ix.bucket h).erase p)⟩

/-- Let position `p` in the bucket of `h` be `q` from now on. -/
def renumber (ix : HashIndex) (h : UInt64) (p q : Nat) : HashIndex :=
  ⟨ix.buckets.insert h ((ix.bucket h).map fun r => if r = p then q else r)⟩

@[simp] theorem bucket_empty (h : UInt64) : empty.bucket h = [] := by
  simp [empty, bucket]

theorem bucket_add (ix : HashIndex) (h k : UInt64) (p : Nat) :
    (ix.add h p).bucket k = if h = k then ix.bucket k ++ [p] else ix.bucket k := by
  by_cases hk : h = k <;> simp [add, bucket, Std.TreeMap.getD_insert, hk]

theorem bucket_remove (ix : HashIndex) (h k : UInt64) (p : Nat) :
    (ix.remove h p).bucket k = if h = k then (ix.bucket k).erase p else ix.bucket k := by
  by_cases hk : h = k <;> simp [remove, bucket, Std.TreeMap.getD_insert, hk]

theorem bucket_renumber (ix : HashIndex) (h k : UInt64) (p q : Nat) :
    (ix.renumber h p q).bucket k =
      if h = k then (ix.bucket k).map fun r => if r = p then q else r else ix.bucket k := by
  by_cases hk : h = k <;> simp [renumber, bucket, Std.TreeMap.getD_insert, hk]

end HashIndex

end AbstractSets
