import AbstractSets.Proofs.Outcomes
import AbstractSets.Proofs.Runs

/-!
# What the merge flag tells

Rebuilding a set at a stronger level inserts its values into an empty set. If all of them are
added, the new set has the same values in the same order; if not, it has fewer. The flag looks
at the size and for new values, and so tells just whether the set has become smaller.

`Condenses` says this of a step. It carries over from one step to the next, and so to widening,
whose flag is up if that of any step is.
-/

namespace AbstractSets

open Kind

namespace ValueSet

variable {α : Type}

/-- The flag tells whether `t` has fewer values than `s`; if it is down, `t` has the values of `s`
in the same order. -/
structure Condenses (s t : ValueSet α) (merged : Bool) : Prop where
  merged_iff : merged = true ↔ t.size < s.size
  values_eq : merged = false → t.values = s.values

namespace Condenses

variable {s t u : ValueSet α} {merged later : Bool}

theorem refl (s : ValueSet α) : s.Condenses s false :=
  ⟨by simp, fun _ => rfl⟩

theorem size_le (h : s.Condenses t merged) : t.size ≤ s.size := by
  cases merged with
  | true => exact Nat.le_of_lt (h.merged_iff.mp rfl)
  | false =>
    apply Nat.le_of_eq
    rw [← t.length_values, h.values_eq rfl, s.length_values]

theorem trans (h : s.Condenses t merged) (h' : t.Condenses u later) :
    s.Condenses u (merged || later) where
  merged_iff := by
    have hle := h.size_le
    have hle' := h'.size_le
    rw [Bool.or_eq_true, h.merged_iff, h'.merged_iff]
    omega
  values_eq hquiet := by
    obtain ⟨hmerged, hlater⟩ := Bool.or_eq_false_iff.mp hquiet
    exact (h'.values_eq hlater).trans (h.values_eq hmerged)

end Condenses

variable [DecidableEq α] {s t : ValueSet α}

theorem condenses_of_values_eq_or_size_lt (h : t.values = s.values ∨ t.size < s.size) :
    s.Condenses t (t.size != s.size || t.values.any (!s.values.contains ·)) := by
  rcases h with hvalues | hlt
  · have hsize : t.size = s.size := by rw [← t.length_values, hvalues, s.length_values]
    have hquiet : (t.size != s.size || t.values.any (!s.values.contains ·)) = false := by
      simp [hsize, hvalues]
    rw [hquiet]
    exact ⟨by simp [hsize], fun _ => hvalues⟩
  · have hne : t.size ≠ s.size := Nat.ne_of_lt hlt
    have hmerged : (t.size != s.size || t.values.any (!s.values.contains ·)) = true := by
      simp [hne]
    rw [hmerged]
    exact ⟨by simp [hlt], nofun⟩

variable [Kind α] [Coherent α] {r : Strength}

theorem condenses_asUnion (s : ValueSet α) (r : Strength) (l : Ledger) :
    s.Condenses (s.asUnion r l).1.1 (s.asUnion r l).1.2 := by
  rw [asUnion]
  split_ifs
  · exact .refl s
  · have hrebuilt := values_ofList_eq_or_size_lt (.union r) s.values l
    rw [s.length_values] at hrebuilt
    exact condenses_of_values_eq_or_size_lt hrebuilt

theorem condenses_widenThrough (s : ValueSet α) (maxEntries : Nat) (levels : List Strength)
    (l : Ledger) :
    s.Condenses (widenThrough maxEntries levels s l).1.set
      (widenThrough maxEntries levels s l).1.merged := by
  induction levels generalizing s l with
  | nil => exact .refl s
  | cons r rs ih =>
    by_cases hfits : s.size ≤ maxEntries
    · rw [widenThrough, if_pos hfits]
      exact .refl s
    · rw [widenThrough, if_neg hfits]
      exact (condenses_asUnion s r l).trans (ih (s.asUnion r l).1.1 (s.asUnion r l).2)

omit [Coherent α] in
theorem Sound.distinct_of_apart (hs : s.Sound)
    (h : ∀ v ∈ s.values, ∀ w ∈ s.values, v ≠ w → unionEq r v.content w.content = false) :
    (Comparer.union r).Distinct s.values := by
  refine hs.distinct.imp_of_mem fun {v w} hv hw hequal => ?_
  have hne : v ≠ w := by
    rintro rfl
    rw [Comparer.equal_self] at hequal
    cases hequal
  simp [Comparer.equal, hne, h v hv w hw hne]

theorem Sound.asUnion_merged_iff (hs : s.Sound) (hweaker : ∀ q, s.comparer = .union q → q < r)
    (l : Ledger) :
    (s.asUnion r l).1.2 = true ↔
      ∃ v ∈ s.values, ∃ w ∈ s.values, v ≠ w ∧ unionEq r v.content w.content = true := by
  have hmade := asUnion_eq_ofList hweaker l
  constructor
  · intro hmerged
    by_contra hnone
    have hdistinct : (Comparer.union r).Distinct s.values := by
      apply hs.distinct_of_apart
      intro v hv w hw hne
      rw [Bool.eq_false_iff]
      exact fun hequal => hnone ⟨v, hv, w, hw, hne, hequal⟩
    have hvalues : (s.asUnion r l).1.1.values = s.values := by
      rw [hmade, values_ofList_of_distinct hdistinct]
    have hlt := (s.condenses_asUnion r l).merged_iff.mp hmerged
    rw [← length_values, hvalues, s.length_values] at hlt
    exact Nat.lt_irrefl _ hlt
  · rintro ⟨v, hv, w, hw, hne, hequal⟩
    by_contra hquiet
    have hvalues := (s.condenses_asUnion r l).values_eq (Bool.eq_false_iff.mpr hquiet)
    obtain ⟨hsound, hcomparer⟩ := (gives_ofList (.union r) s.values l).1
    rw [← hmade] at hsound hcomparer
    have hdistinct := hsound.distinct
    rw [hcomparer, hvalues] at hdistinct
    obtain ⟨i, hi⟩ := List.mem_iff_getElem?.mp hv
    obtain ⟨j, hj⟩ := List.mem_iff_getElem?.mp hw
    have hij : i ≠ j := by
      rintro rfl
      exact hne (Option.some.inj (hi.symm.trans hj))
    have hapart := hdistinct.equal_eq_false hi hj hij
    simp [Comparer.equal, hequal] at hapart

end ValueSet

/-- The flags of rebuilding and of widening are up just when the set that comes of it has fewer
values, and if they are down it has the same values in the same order. A set that merged at no
level, or at a weaker one, raises the flag just when two of its values are equal at the new level;
no law of the kind is needed for that. -/
theorem merge_flag_iff_size_lt {α : Type} [DecidableEq α] [Kind α] [Coherent α] {s : ValueSet α}
    (hs : s.Reachable) (l : Ledger) :
    (∀ r : Strength,
      let rebuilt := (s.asUnion r l).1
      (rebuilt.2 = true ↔ rebuilt.1.size < s.size) ∧
        (rebuilt.2 = false → rebuilt.1.values = s.values) ∧
        ((∀ q, s.comparer = .union q → q < r) → (rebuilt.2 = true ↔
          ∃ v ∈ s.values, ∃ w ∈ s.values, v ≠ w ∧ unionEq r v.content w.content = true))) ∧
    ∀ limits : Limits,
      let widened := (s.widen limits l).1
      (widened.merged = true ↔ widened.set.size < s.size) ∧
        (widened.merged = false → widened.set.values = s.values) := by
  constructor
  · intro r rebuilt
    have hcondenses := s.condenses_asUnion r l
    exact ⟨hcondenses.merged_iff, hcondenses.values_eq,
      fun hweaker => hs.sound.asUnion_merged_iff hweaker l⟩
  · intro limits widened
    have hcondenses := s.condenses_widenThrough limits.maxEntries (limits.levels s.comparer) l
    exact ⟨hcondenses.merged_iff, hcondenses.values_eq⟩

/-- Two intervals that do not meet, and a third that overlaps both: at the weakest level one is
left of the three. Widening goes on to the last level, but nothing more is merged there. -/
theorem merge_flag_iff_size_lt_overlap :
    let made := ValueSet.ofList .identity [⟨0, Origin.interval ⟨0, 1⟩⟩, ⟨1, .interval ⟨3, 4⟩⟩,
      ⟨2, .interval ⟨1, 3⟩⟩, ⟨3, .moduleObject ⟨"m"⟩⟩] ⟨4, true⟩
    let s := made.1
    let rebuilt := (s.asUnion .plain made.2).1
    let widened := (s.widen ⟨1, .plain, .object⟩ made.2).1
    (s.Reachable ∧ s.size = 4 ∧ s.comparer = .identity) ∧
      rebuilt.1.size = 2 ∧ rebuilt.2 = true ∧
      (∃ v ∈ s.values, ∃ w ∈ s.values, v ≠ w ∧ unionEq .plain v.content w.content = true) ∧
      widened.set.comparer = .union .object ∧ widened.set.size = 2 ∧ widened.merged = true := by
  intro made s rebuilt widened
  have hs : s.Reachable := ValueSet.reachable_ofList _ _ _
  have hidentity : s.comparer = .identity := by decide +kernel
  have hweaker : ∀ q, s.comparer = .union q → q < .plain := by
    intro q hq
    rw [hidentity] at hq
    cases hq
  obtain ⟨hrebuilt, hwidened⟩ := merge_flag_iff_size_lt hs made.2
  obtain ⟨hsize, -, hequal⟩ := hrebuilt .plain
  have hmerged : rebuilt.2 = true := hsize.mpr (by decide +kernel)
  have hmerged' : widened.merged = true :=
    (hwidened ⟨1, .plain, .object⟩).1.mpr (by decide +kernel)
  exact ⟨⟨hs, by decide +kernel, hidentity⟩, by decide +kernel, hmerged,
    (hequal hweaker).mp hmerged, by decide +kernel, by decide +kernel, hmerged'⟩

end AbstractSets
