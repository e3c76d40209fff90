import AbstractSets.Value

/-!
# Comparers

The rule by which a set tells its values apart. Under `identity` every value is its own;
under `union s` values that their kind considers equal at level `s` are merged.
-/

namespace AbstractSets

inductive Comparer where
  | identity
  | union (strength : Strength)
  deriving DecidableEq, Repr, Inhabited

namespace Comparer

variable {α : Type} [DecidableEq α] [Kind α]

def strength? : Comparer → Option Strength
  | identity => none
  | union s => some s

def isUnion : Comparer → Bool
  | identity => false
  | union _ => true

/-- Whether a set treats `v` and `w` as one. A value is always equal to itself, whatever
its kind says. -/
def equal : Comparer → Value α → Value α → Bool
  | identity, v, w => decide (v = w)
  | union s, v, w => decide (v = w) || Kind.unionEq s v.content w.content

def hash : Comparer → Value α → UInt64
  | identity, v => UInt64.ofNat v.id
  | union s, v => Kind.unionHash s v.content

/-- The value that stands for `v`, already held, and `w`. -/
def merge : Comparer → Value α → Value α → Supply (Value α)
  | identity, v, _ => pure v
  | union s, v, w => if v = w then pure v else (Kind.unionMerge s v w).settle

@[simp] theorem equal_identity (v w : Value α) : identity.equal v w = decide (v = w) := rfl

@[simp] theorem equal_self (c : Comparer) (v : Value α) : c.equal v v = true := by
  cases c <;> simp [equal]

@[simp] theorem merge_self (c : Comparer) (v : Value α) : c.merge v v = pure v := by
  cases c <;> simp [merge]

end Comparer

end AbstractSets
