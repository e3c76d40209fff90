/-!
# Union strengths

How willing a set is to treat two of its values as one. There are four levels; each one
merges everything the level below it merges, and some more. The levels are linearly
ordered by their number, and `stronger?` steps to the next one.
-/

namespace AbstractSets

inductive Strength where
  /-- Values of one type are merged, but nothing is generalised. -/
  | plain
  /-- Classes are merged into the ancestry they share. -/
  | baseClass
  /-- Functions of one name are merged whatever module they come from. -/
  | anyOrigin
  /-- All values of one kind are merged into its most general value. -/
  | object
  deriving DecidableEq, Repr, Inhabited

namespace Strength

def all : List Strength := [plain, baseClass, anyOrigin, object]

def level : Strength → Nat
  | plain => 0
  | baseClass => 1
  | anyOrigin => 2
  | object => 3

def ofLevel? : Nat → Option Strength
  | 0 => some plain
  | 1 => some baseClass
  | 2 => some anyOrigin
  | 3 => some object
  | _ => none

def stronger? : Strength → Option Strength
  | plain => some baseClass
  | baseClass => some anyOrigin
  | anyOrigin => some object
  | object => none

instance : LE Strength where
  le s t := s.level ≤ t.level

instance : LT Strength where
  lt s t := s.level < t.level

instance (s t : Strength) : Decidable (s ≤ t) := inferInstanceAs (Decidable (s.level ≤ t.level))

instance (s t : Strength) : Decidable (s < t) := inferInstanceAs (Decidable (s.level < t.level))

def range (s t : Strength) : List Strength :=
  all.filter fun r => s ≤ r && r ≤ t

theorem le_def {s t : Strength} : s ≤ t ↔ s.level ≤ t.level := Iff.rfl

theorem lt_def {s t : Strength} : s < t ↔ s.level < t.level := Iff.rfl

@[simp] theorem mem_all (s : Strength) : s ∈ all := by
  cases s <;> simp [all]

@[simp] theorem ofLevel?_level (s : Strength) : ofLevel? s.level = some s := by
  cases s <;> rfl

theorem level_le_three (s : Strength) : s.level ≤ 3 := by
  cases s <;> decide

theorem object_le_iff {s : Strength} : object ≤ s ↔ s = object := by
  cases s <;> decide

theorem mem_range {r s t : Strength} : r ∈ range s t ↔ s ≤ r ∧ r ≤ t := by
  simp [range]

end Strength

end AbstractSets
