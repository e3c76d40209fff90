import AbstractSets.Comparer

/-!
# What sets ask of kinds

Lookup needs union equality to be symmetric and to be respected by the hash, and nothing
more: it need not be transitive, and a merged value need not be equal to what it was merged
from. Kinds with the further laws are stated relative to a predicate `P` that says which
contents are in use, so that one type of content can hold kinds of both sorts.

The laws are carried over from kinds to comparers, under which a value is equal to itself
whatever its kind says.
-/

namespace AbstractSets

namespace Kind

/-- Union equality is symmetric, and equal contents have equal hashes. -/
class Coherent (α : Type) [Kind α] : Prop where
  unionEq_symm {s : Strength} {a b : α} : unionEq s a b = true → unionEq s b a = true
  unionHash_eq {s : Strength} {a b : α} : unionEq s a b = true → unionHash s a = unionHash s b

/-- On the contents in use, union equality is an equivalence at each level, and merging equal
contents gives one that is in use and equal to them. -/
structure LawfulOn {α : Type} [Kind α] (P : α → Prop) : Prop where
  refl {s : Strength} {a : α} : P a → unionEq s a a = true
  trans {s : Strength} {a b c : α} : P a → P b → P c →
    unionEq s a b = true → unionEq s b c = true → unionEq s a c = true
  merge_mem {s : Strength} {v w : Value α} : P v.content → P w.content →
    unionEq s v.content w.content = true → P (unionMerge s v w).content
  merge_equal {s : Strength} {v w : Value α} : P v.content → P w.content →
    unionEq s v.content w.content = true →
      unionEq s v.content (unionMerge s v w).content = true

/-- On the contents in use, merging equal contents is a join of them, and a value that covers
another one is kept as it is. -/
structure JoinOn {α : Type} [Kind α] (P : α → Prop) (join : Strength → α → α → α) : Prop
    extends LawfulOn P where
  content_merge {s : Strength} {v w : Value α} : P v.content → P w.content →
    unionEq s v.content w.content = true →
      (unionMerge s v w).content = join s v.content w.content
  join_self {s : Strength} {a : α} : P a → join s a a = a
  join_comm {s : Strength} {a b : α} : P a → P b → unionEq s a b = true →
    join s a b = join s b a
  join_assoc {s : Strength} {a b c : α} : P a → P b → P c → unionEq s a b = true →
    unionEq s b c = true → join s (join s a b) c = join s a (join s b c)
  kept_of_join {s : Strength} {v w : Value α} : P v.content → P w.content →
    unionEq s v.content w.content = true → join s v.content w.content = v.content →
      unionMerge s v w = .kept v

/-- On the contents in use, equality at level `r` is transitive, and `join` is a commutative and
associative operation on equal contents. Nothing is said about what merging does. -/
structure MeldsOn {α : Type} [Kind α] (P : α → Prop) (join : Strength → α → α → α)
    (r : Strength) : Prop where
  trans {a b c : α} : P a → P b → P c → unionEq r a b = true → unionEq r b c = true →
    unionEq r a c = true
  join_mem {a b : α} : P a → P b → unionEq r a b = true → P (join r a b)
  equal_join {a b : α} : P a → P b → unionEq r a b = true → unionEq r a (join r a b) = true
  join_comm {a b : α} : P a → P b → unionEq r a b = true → join r a b = join r b a
  join_assoc {a b c : α} : P a → P b → P c → unionEq r a b = true → unionEq r b c = true →
    join r (join r a b) c = join r a (join r b c)

end Kind

namespace Merged

variable {α : Type}

@[simp] theorem content_settle (m : Merged α) (l : Ledger) :
    (m.settle l).1.content = m.content := by
  cases m <;> rfl

@[simp] theorem sound_settle (m : Merged α) (l : Ledger) :
    (m.settle l).2.sound = l.sound := by
  cases m <;> rfl

end Merged

namespace Comparer

open Kind

variable {α : Type} [DecidableEq α] [Kind α]

def Distinct (c : Comparer) (vs : List (Value α)) : Prop :=
  vs.Pairwise fun v w => c.equal v w = false

theorem Distinct.concat {c : Comparer} {vs : List (Value α)} (h : c.Distinct vs)
    {x : Value α} (hx : ∀ v ∈ vs, c.equal v x = false) : c.Distinct (vs ++ [x]) := by
  refine List.pairwise_append.mpr ⟨h, List.pairwise_singleton _ _, ?_⟩
  intro v hv y hy
  rw [List.mem_singleton.mp hy]
  exact hx v hv

theorem Distinct.nodup {c : Comparer} {vs : List (Value α)} (h : c.Distinct vs) : vs.Nodup := by
  refine h.imp fun {v w} hvw heq => ?_
  rw [heq, equal_self] at hvw
  cases hvw

theorem gives_merge (c : Comparer) (v w : Value α) : (c.merge v w).Gives fun _ => True := by
  intro l
  refine ⟨trivial, ?_⟩
  cases c with
  | identity => rfl
  | union s =>
    by_cases h : v = w
    · simp [merge, h]
    · simp [merge, h]

section

variable [Coherent α]

theorem equal_symm {c : Comparer} {v w : Value α} (h : c.equal v w = true) :
    c.equal w v = true := by
  cases c with
  | identity => simpa [eq_comm] using h
  | union s =>
    simp only [equal, Bool.or_eq_true, decide_eq_true_eq] at h ⊢
    exact h.imp Eq.symm Coherent.unionEq_symm

theorem equal_comm (c : Comparer) (v w : Value α) : c.equal v w = c.equal w v :=
  Bool.eq_iff_iff.mpr ⟨equal_symm, equal_symm⟩

theorem hash_eq_of_equal {c : Comparer} {v w : Value α} (h : c.equal v w = true) :
    c.hash v = c.hash w := by
  cases c with
  | identity =>
    have hvw : v = w := by simpa using h
    rw [hvw]
  | union s =>
    simp only [equal, Bool.or_eq_true, decide_eq_true_eq] at h
    rcases h with rfl | h
    · rfl
    · exact Coherent.unionHash_eq h

variable {c : Comparer} {vs ws : List (Value α)}

theorem Distinct.perm (h : c.Distinct vs) (hp : ws.Perm vs) : c.Distinct ws :=
  (hp.pairwise_iff fun {v w} hvw => by rwa [equal_comm]).mpr h

theorem Distinct.equal_eq_false (h : c.Distinct vs) {i j : Nat} {v w : Value α}
    (hv : vs[i]? = some v) (hw : vs[j]? = some w) (hij : i ≠ j) : c.equal v w = false := by
  obtain ⟨hi, rfl⟩ := List.getElem?_eq_some_iff.mp hv
  obtain ⟨hj, rfl⟩ := List.getElem?_eq_some_iff.mp hw
  rcases Nat.lt_or_gt_of_ne hij with hlt | hgt
  · exact List.pairwise_iff_getElem.mp h i j hi hj hlt
  · rw [equal_comm]
    exact List.pairwise_iff_getElem.mp h j i hj hi hgt

theorem Distinct.set (h : c.Distinct vs) {i : Nat} {x : Value α}
    (hx : ∀ j v, vs[j]? = some v → j ≠ i → c.equal v x = false) : c.Distinct (vs.set i x) := by
  refine List.pairwise_iff_getElem.mpr fun p q hp hq hpq => ?_
  rw [List.length_set] at hp hq
  have hpq' := List.pairwise_iff_getElem.mp h p q hp hq hpq
  rw [List.getElem_set, List.getElem_set]
  by_cases hip : i = p
  · have hiq : i ≠ q := by omega
    rw [if_pos hip, if_neg hiq, equal_comm]
    exact hx q _ (List.getElem?_eq_getElem hq) (Ne.symm hiq)
  · rw [if_neg hip]
    by_cases hiq : i = q
    · rw [if_pos hiq]
      exact hx p _ (List.getElem?_eq_getElem hp) (Ne.symm hip)
    · rw [if_neg hiq]
      exact hpq'

end

theorem equal_trans_of {c : Comparer} {u v w : Value α} (huv : c.equal u v = true)
    (hvw : c.equal v w = true)
    (htrans : ∀ s, unionEq s u.content v.content = true → unionEq s v.content w.content = true →
      unionEq s u.content w.content = true) : c.equal u w = true := by
  by_cases heq : u = v
  · rwa [heq]
  by_cases heq' : v = w
  · rwa [← heq']
  cases c with
  | identity => exact absurd (of_decide_eq_true huv) heq
  | union s =>
    simp only [equal, heq, heq', decide_false, Bool.false_or] at huv hvw
    simp only [equal, htrans s huv hvw, Bool.or_true]

section

variable {P : α → Prop} (law : LawfulOn P)

include law

theorem equal_union_iff {s : Strength} {v w : Value α} (hv : P v.content) :
    (union s).equal v w = true ↔ unionEq s v.content w.content = true := by
  simp only [equal, Bool.or_eq_true, decide_eq_true_eq, or_iff_right_iff_imp]
  rintro rfl
  exact law.refl hv

theorem equal_trans {c : Comparer} {u v w : Value α} (hu : P u.content) (hv : P v.content)
    (hw : P w.content) (huv : c.equal u v = true) (hvw : c.equal v w = true) :
    c.equal u w = true :=
  equal_trans_of huv hvw fun _ => law.trans hu hv hw

theorem merge_mem {c : Comparer} {v w : Value α} (hv : P v.content) (hw : P w.content)
    (h : c.equal v w = true) (l : Ledger) : P (c.merge v w l).1.content := by
  cases c with
  | identity => exact hv
  | union s =>
    by_cases hvw : v = w
    · simpa [merge, hvw] using hw
    · rw [equal_union_iff law hv] at h
      simpa [merge, hvw] using law.merge_mem hv hw h

/-- The value that stands for two equal values is equal to the first, and so to both. -/
theorem equal_merge {c : Comparer} {v w : Value α} (hv : P v.content) (hw : P w.content)
    (h : c.equal v w = true) (l : Ledger) : c.equal v (c.merge v w l).1 = true := by
  cases c with
  | identity => exact equal_self _ _
  | union s =>
    by_cases hvw : v = w
    · simp [merge, hvw]
    · rw [equal_union_iff law hv] at h ⊢
      simpa [merge, hvw] using law.merge_equal hv hw h

end

section

variable {P : α → Prop} {join : Strength → α → α → α} (law : JoinOn P join)

include law

theorem content_merge {s : Strength} {v w : Value α} (hv : P v.content) (hw : P w.content)
    (h : unionEq s v.content w.content = true) (l : Ledger) :
    ((union s).merge v w l).1.content = join s v.content w.content := by
  by_cases hvw : v = w
  · subst hvw
    simp [merge, law.join_self hv]
  · simpa [merge, hvw] using law.content_merge hv hw h

theorem merge_eq_of_covers {s : Strength} {v w : Value α} (hv : P v.content)
    (hw : P w.content) (h : unionEq s v.content w.content = true)
    (hcovers : join s v.content w.content = v.content) (l : Ledger) :
    (union s).merge v w l = (v, l) := by
  by_cases hvw : v = w
  · simp [merge, hvw]
  · simp [merge, hvw, law.kept_of_join hv hw h hcovers, Merged.settle]

end

end Comparer

end AbstractSets
