import Mathlib.Order.Nat
import AbstractSets.Limits

/-!
# The order of the levels

The union levels are ordered by their numbers, and this order is linear. The levels at which a
set is widened run from the first one that is at least the initial level and stronger than the
set's own up to the strongest one that the limits allow. There are none just when the set has
reached that one.
-/

namespace AbstractSets

namespace Strength

variable {a b k s t : Strength}

theorem level_injective : Function.Injective level := by
  intro s t h
  rw [← Option.some_inj, ← ofLevel?_level s, h, ofLevel?_level]

instance : LinearOrder Strength := .lift' level level_injective

theorem le_object (s : Strength) : s ≤ object := s.level_le_three

theorem stronger?_eq_some_iff : s.stronger? = some t ↔ t.level = s.level + 1 := by
  cases s <;> cases t <;> decide

theorem stronger?_eq_none_iff : s.stronger? = none ↔ s = object := by
  cases s <;> decide

theorem lt_iff_le_of_stronger? (h : s.stronger? = some t) : k < t ↔ k ≤ s := by
  rw [lt_def, le_def, stronger?_eq_some_iff.mp h, Nat.lt_succ_iff]

theorem range_eq_nil_iff : range a b = [] ↔ b < a := by
  rw [List.eq_nil_iff_forall_not_mem]
  constructor
  · intro h
    by_contra hle
    exact h a (mem_range.mpr ⟨le_rfl, not_lt.mp hle⟩)
  · intro h r hr
    obtain ⟨har, hrb⟩ := mem_range.mp hr
    exact (har.trans hrb).not_gt h

theorem pairwise_range (a b : Strength) : (range a b).Pairwise (· < ·) := by
  have hall : all.Pairwise (· < ·) := by decide
  exact hall.filter _

theorem filter_cons_of_le {rs : List Strength} (h : a ≤ k) :
    (a :: rs).filter (· ≤ k) = a :: rs.filter (· ≤ k) :=
  List.filter_cons_of_pos (decide_eq_true h)

theorem filter_eq_nil_of_lt {rs : List Strength} (h : ∀ r ∈ rs, k < r) :
    rs.filter (· ≤ k) = [] := by
  rw [List.filter_eq_nil_iff]
  intro r hr
  rw [decide_eq_true_eq]
  exact (h r hr).not_ge

theorem filter_range (h : k ≤ b) : (range a b).filter (· ≤ k) = range a k := by
  rw [range, range, List.filter_filter]
  apply List.filter_congr
  intro r _
  rw [Bool.eq_iff_iff]
  simp only [Bool.and_eq_true, decide_eq_true_eq]
  constructor
  · rintro ⟨hrk, har, -⟩
    exact ⟨har, hrk⟩
  · rintro ⟨har, hrk⟩
    exact ⟨hrk, har, hrk.trans h⟩

end Strength

namespace Limits

variable {limits : Limits} {c : Comparer} {a q r : Strength}

theorem ofBounds_eq_ok_iff {n : Nat} {i m : Strength} :
    ofBounds n i m = .ok limits ↔ limits = ⟨n, i, m⟩ ∧ 1 ≤ n ∧ i ≤ m := by
  unfold ofBounds
  by_cases hzero : n = 0
  · rw [if_pos hzero]
    constructor
    · intro h
      cases h
    · rintro ⟨-, hpos, -⟩
      omega
  rw [if_neg hzero]
  by_cases hinverted : m < i
  · rw [if_pos hinverted]
    constructor
    · intro h
      cases h
    · rintro ⟨-, -, hle⟩
      exact absurd hle hinverted.not_ge
  · rw [if_neg hinverted, Except.ok.injEq]
    constructor
    · rintro rfl
      exact ⟨rfl, Nat.one_le_iff_ne_zero.mpr hzero, not_lt.mp hinverted⟩
    · exact fun h => h.1.symm

theorem initial_le_max {n : Nat} {i m : Strength} (h : ofBounds n i m = .ok limits) :
    limits.initial ≤ limits.max := by
  obtain ⟨rfl, -, hle⟩ := ofBounds_eq_ok_iff.mp h
  exact hle

/-- A set that merges nothing, or at a weaker level than the initial one, starts at that one. -/
theorem start?_eq_initial (h : ∀ q, c = .union q → q < limits.initial) :
    limits.start? c = some limits.initial := by
  cases c with
  | identity => rfl
  | union q => rw [start?, if_neg (h q rfl).not_ge]

/-- Any other set starts at the level after its own. -/
theorem start?_union_eq_some_iff (h : limits.initial ≤ q) :
    limits.start? (.union q) = some a ↔ a.level = q.level + 1 := by
  rw [start?, if_pos h, Strength.stronger?_eq_some_iff]

theorem weaker_of_start? (h : limits.start? c = some a) : ∀ q, c = .union q → q < a := by
  rintro q rfl
  by_cases hq : limits.initial ≤ q
  · rw [start?_union_eq_some_iff hq] at h
    rw [Strength.lt_def, h]
    exact Nat.lt_succ_self _
  · rw [start?, if_neg hq] at h
    cases h
    exact not_le.mp hq

theorem levels_of_start? (h : limits.start? c = some a) :
    limits.levels c = Strength.range a limits.max := by
  rw [levels, h]

theorem levels_eq_nil_iff :
    limits.levels c = [] ↔ ∀ a, limits.start? c = some a → limits.max < a := by
  cases h : limits.start? c with
  | none => simp [levels, h]
  | some a => simp [levels_of_start? h, Strength.range_eq_nil_iff]

theorem mem_levels_iff :
    r ∈ limits.levels c ↔ ∃ a, limits.start? c = some a ∧ a ≤ r ∧ r ≤ limits.max := by
  cases h : limits.start? c with
  | none => simp [levels, h]
  | some a => simp [levels_of_start? h, Strength.mem_range]

theorem filter_levels (hstart : limits.start? c = some a) (hr : r ≤ limits.max) :
    (limits.levels c).filter (· ≤ r) = Strength.range a r := by
  rw [levels_of_start? hstart, Strength.filter_range hr]

theorem pairwise_levels (limits : Limits) (c : Comparer) :
    (limits.levels c).Pairwise (· < ·) := by
  cases h : limits.start? c with
  | none => simp [levels, h]
  | some a => exact levels_of_start? h ▸ Strength.pairwise_range a limits.max

theorem weaker_of_mem_levels (h : r ∈ limits.levels c) : ∀ q, c = .union q → q < r := by
  intro q hq
  obtain ⟨a, hstart, har, -⟩ := mem_levels_iff.mp h
  exact (weaker_of_start? hstart q hq).trans_le har

theorem max_mem_levels (h : r ∈ limits.levels c) : limits.max ∈ limits.levels c := by
  obtain ⟨a, hstart, har, hrmax⟩ := mem_levels_iff.mp h
  exact mem_levels_iff.mpr ⟨a, hstart, har.trans hrmax, le_rfl⟩

/-- No level is left to try just when the strongest one allowed has been reached. -/
theorem levels_eq_nil_iff_max_le (hvalid : limits.initial ≤ limits.max) :
    limits.levels c = [] ↔ ∃ q, c = .union q ∧ limits.max ≤ q := by
  rw [levels_eq_nil_iff]
  cases c with
  | identity => simp [start?, hvalid]
  | union q =>
    simp only [Comparer.union.injEq, exists_eq_left']
    by_cases hq : limits.initial ≤ q
    · rw [start?, if_pos hq]
      cases hnext : q.stronger? with
      | none =>
        rw [Strength.stronger?_eq_none_iff.mp hnext]
        simp [Strength.le_object]
      | some a => simp [Strength.lt_iff_le_of_stronger? hnext]
    · have hlt : q < limits.max := (not_le.mp hq).trans_le hvalid
      rw [start?, if_neg hq]
      simp only [Option.some.injEq, forall_eq']
      exact iff_of_false hvalid.not_gt hlt.not_ge

end Limits

end AbstractSets
