import AbstractSets.Proofs.Levels
import AbstractSets.Proofs.Runs

/-!
# How far widening goes

Widening rebuilds a set at one level after the other and stops at the first level at which it
fits. `asUnionThrough` rebuilds it at all of its levels, whatever its size. Widening gives what
that makes of the levels it has tried, and those are as few as will do.

The levels of a set are all stronger than its own, and there are none just when the set has
reached the strongest one allowed. So a set that has been widened fits or has no level left, and
widening it again does nothing.
-/

namespace AbstractSets

def WideningEvent.level? : WideningEvent → Option Strength
  | widened strength _ _ => some strength
  | exceeded _ _ => none

def Widening.tried {α : Type} (w : Widening α) : List Strength :=
  w.events.filterMap (·.level?)

namespace ValueSet

variable {α : Type} [DecidableEq α] [Kind α]

/-- Rebuild a set at one level after the other, however large it is. -/
def asUnionThrough : List Strength → ValueSet α → Supply (ValueSet α)
  | [], s => pure s
  | r :: rs, s => do
    let (t, _) ← s.asUnion r
    asUnionThrough rs t

section

variable {s : ValueSet α} {maxEntries : Nat} {r t : Strength} {rs : List Strength} {l : Ledger}

theorem widenThrough_eq_self (h : s.size ≤ maxEntries ∨ rs = []) :
    (widenThrough maxEntries rs s l).1.set = s ∧ (widenThrough maxEntries rs s l).1.tried = [] ∧
      (widenThrough maxEntries rs s l).1.merged = false := by
  cases rs with
  | nil =>
    by_cases hfits : s.size ≤ maxEntries <;>
      simp [widenThrough, hfits, Widening.tried, WideningEvent.level?]
  | cons r rs =>
    have hfits : s.size ≤ maxEntries := h.resolve_right (List.cons_ne_nil r rs)
    simp [widenThrough, hfits, Widening.tried]

theorem widenThrough_cons (hlarge : maxEntries < s.size) (r : Strength) (rs : List Strength)
    (l : Ledger) :
    let rest := (widenThrough maxEntries rs (s.asUnion r l).1.1 (s.asUnion r l).2).1
    (widenThrough maxEntries (r :: rs) s l).1.set = rest.set ∧
      (widenThrough maxEntries (r :: rs) s l).1.tried = r :: rest.tried := by
  rw [widenThrough, if_neg (Nat.not_le_of_lt hlarge)]
  exact ⟨rfl, rfl⟩

theorem asUnionThrough_filter_cons {k : Strength} (h : r ≤ k) :
    asUnionThrough ((r :: rs).filter (· ≤ k)) s l =
      asUnionThrough (rs.filter (· ≤ k)) (s.asUnion r l).1.1 (s.asUnion r l).2 := by
  rw [Strength.filter_cons_of_le h]
  rfl

/-- Widening ends at level `t`: it has tried the levels up to that one, the set was too large at
all of those before, and it fits now or there is no level left. -/
structure EndsAt (maxEntries : Nat) (levels : List Strength) (s : ValueSet α) (l : Ledger)
    (t : Strength) : Prop where
  mem : t ∈ levels
  tried_eq : (widenThrough maxEntries levels s l).1.tried = levels.filter (· ≤ t)
  set_eq : (widenThrough maxEntries levels s l).1.set =
    (asUnionThrough (levels.filter (· ≤ t)) s l).1
  comparer_eq : (widenThrough maxEntries levels s l).1.set.comparer = .union t
  too_large : ∀ k ∈ levels, k < t →
    maxEntries < (asUnionThrough (levels.filter (· ≤ k)) s l).1.size
  fits_or_last : (asUnionThrough (levels.filter (· ≤ t)) s l).1.size ≤ maxEntries ∨
    ∀ k ∈ levels, k ≤ t

theorem EndsAt.here (hsorted : ∀ k ∈ rs, r < k) (hlarge : maxEntries < s.size)
    (hcomparer : (s.asUnion r l).1.1.comparer = .union r)
    (h : (s.asUnion r l).1.1.size ≤ maxEntries ∨ rs = []) :
    EndsAt maxEntries (r :: rs) s l r := by
  obtain ⟨hset, htried⟩ := widenThrough_cons hlarge r rs l
  obtain ⟨hset', htried', -⟩ := widenThrough_eq_self (l := (s.asUnion r l).2) h
  have hclimb : (asUnionThrough ((r :: rs).filter (· ≤ r)) s l).1 = (s.asUnion r l).1.1 := by
    rw [asUnionThrough_filter_cons le_rfl, Strength.filter_eq_nil_of_lt hsorted]
    rfl
  refine ⟨List.mem_cons_self, ?_, ?_, ?_, ?_, ?_⟩
  · rw [htried, htried', Strength.filter_cons_of_le le_rfl,
      Strength.filter_eq_nil_of_lt hsorted]
  · rw [hset, hset', hclimb]
  · rw [hset, hset', hcomparer]
  · intro k hk hkr
    rcases List.mem_cons.mp hk with rfl | hk
    · exact absurd hkr (lt_irrefl _)
    · exact absurd hkr (hsorted k hk).asymm
  · rw [hclimb]
    refine h.imp_right ?_
    rintro rfl k hk
    exact (List.mem_singleton.mp hk).le

theorem EndsAt.later (hsorted : ∀ k ∈ rs, r < k) (hlarge : maxEntries < s.size)
    (hlarge' : maxEntries < (s.asUnion r l).1.1.size)
    (h : EndsAt maxEntries rs (s.asUnion r l).1.1 (s.asUnion r l).2 t) :
    EndsAt maxEntries (r :: rs) s l t := by
  obtain ⟨hset, htried⟩ := widenThrough_cons hlarge r rs l
  have hrt : r ≤ t := (hsorted t h.mem).le
  refine ⟨List.mem_cons_of_mem r h.mem, ?_, ?_, hset ▸ h.comparer_eq, ?_, ?_⟩
  · rw [htried, h.tried_eq, Strength.filter_cons_of_le hrt]
  · rw [hset, h.set_eq, asUnionThrough_filter_cons hrt]
  · intro k hk hkt
    rcases List.mem_cons.mp hk with rfl | hk
    · rw [asUnionThrough_filter_cons le_rfl, Strength.filter_eq_nil_of_lt hsorted]
      exact hlarge'
    · rw [asUnionThrough_filter_cons (hsorted k hk).le]
      exact h.too_large k hk hkt
  · rw [asUnionThrough_filter_cons hrt]
    exact h.fits_or_last.imp_right fun hlast => List.forall_mem_cons.mpr ⟨hrt, hlast⟩

theorem EndsAt.from_start {limits : Limits} {a : Strength}
    (hstart : limits.start? s.comparer = some a)
    (h : EndsAt limits.maxEntries (limits.levels s.comparer) s l t) :
    a ≤ t ∧ t ≤ limits.max ∧ (s.widen limits l).1.tried = Strength.range a t ∧
      (s.widen limits l).1.set = (asUnionThrough (Strength.range a t) s l).1 ∧
      (∀ k, a ≤ k → k < t →
        limits.maxEntries < (asUnionThrough (Strength.range a k) s l).1.size) ∧
      ((asUnionThrough (Strength.range a t) s l).1.size ≤ limits.maxEntries ∨ t = limits.max) := by
  have hmem := h.mem
  rw [Limits.levels_of_start? hstart, Strength.mem_range] at hmem
  obtain ⟨hat, htmax⟩ := hmem
  have htried := h.tried_eq
  have hset := h.set_eq
  have hfits := h.fits_or_last
  rw [Limits.filter_levels hstart htmax] at htried hset hfits
  refine ⟨hat, htmax, htried, hset, fun k hak hkt => ?_, hfits.imp_right fun hlast => ?_⟩
  · have hkmax : k ≤ limits.max := hkt.le.trans htmax
    have hk := h.too_large k (Limits.mem_levels_iff.mpr ⟨a, hstart, hak, hkmax⟩) hkt
    rwa [Limits.filter_levels hstart hkmax] at hk
  · exact htmax.antisymm (hlast limits.max (Limits.max_mem_levels h.mem))

end

variable [Kind.Coherent α] {s : ValueSet α} {limits : Limits}

theorem Sound.exists_endsAt (hs : s.Sound) {maxEntries : Nat} {levels : List Strength}
    (hne : levels ≠ []) (hsorted : levels.Pairwise (· < ·))
    (hweaker : ∀ r ∈ levels, ∀ q, s.comparer = .union q → q < r) (hlarge : maxEntries < s.size)
    (l : Ledger) : ∃ t, EndsAt maxEntries levels s l t := by
  induction levels generalizing s l with
  | nil => exact absurd rfl hne
  | cons r rs ih =>
    obtain ⟨hrest, hsorted'⟩ := List.pairwise_cons.mp hsorted
    obtain ⟨hsound, hcomparer⟩ := (gives_ofList (.union r) s.values l).1
    rw [← asUnion_eq_ofList (hweaker r List.mem_cons_self) l] at hsound hcomparer
    by_cases hstay : (s.asUnion r l).1.1.size ≤ maxEntries ∨ rs = []
    · exact ⟨r, .here hrest hlarge hcomparer hstay⟩
    · obtain ⟨hnot, hne'⟩ := not_or.mp hstay
      have hlarge' := Nat.lt_of_not_le hnot
      have hweaker' : ∀ k ∈ rs, ∀ q, (s.asUnion r l).1.1.comparer = .union q → q < k := by
        intro k hk q hq
        obtain rfl : r = q := Comparer.union.inj (hcomparer.symm.trans hq)
        exact hrest k hk
      obtain ⟨t, ht⟩ := ih hsound hne' hsorted' hweaker' hlarge' (s.asUnion r l).2
      exact ⟨t, .later hrest hlarge hlarge' ht⟩

theorem Sound.exists_widen_endsAt (hs : s.Sound) (hlarge : limits.maxEntries < s.size)
    (hne : limits.levels s.comparer ≠ []) (l : Ledger) :
    ∃ t, EndsAt limits.maxEntries (limits.levels s.comparer) s l t := by
  apply hs.exists_endsAt hne (limits.pairwise_levels s.comparer) _ hlarge
  exact fun r hr => Limits.weaker_of_mem_levels hr

/-- Widening leaves a set as it is, or ends at one of its levels. -/
theorem Sound.widen_cases (hs : s.Sound) (limits : Limits) (l : Ledger) :
    ((s.size ≤ limits.maxEntries ∨ limits.levels s.comparer = []) ∧
      (s.widen limits l).1.set = s) ∨
    ∃ t, EndsAt limits.maxEntries (limits.levels s.comparer) s l t := by
  by_cases hstay : s.size ≤ limits.maxEntries ∨ limits.levels s.comparer = []
  · exact Or.inl ⟨hstay, (widenThrough_eq_self hstay).1⟩
  · obtain ⟨hlarge, hne⟩ := not_or.mp hstay
    exact Or.inr (hs.exists_widen_endsAt (Nat.lt_of_not_le hlarge) hne l)

theorem Sound.widen_fits_or_max_le (hs : s.Sound) (hvalid : limits.initial ≤ limits.max)
    (l : Ledger) :
    (s.widen limits l).1.set.size ≤ limits.maxEntries ∨
      ∃ q, (s.widen limits l).1.set.comparer = .union q ∧ limits.max ≤ q := by
  rcases hs.widen_cases limits l with ⟨hstay, hset⟩ | ⟨t, ht⟩
  · rw [Limits.levels_eq_nil_iff_max_le hvalid] at hstay
    rw [hset]
    exact hstay
  · rcases ht.fits_or_last with hfits | hlast
    · rw [← ht.set_eq] at hfits
      exact Or.inl hfits
    · exact Or.inr ⟨t, ht.comparer_eq, hlast limits.max (Limits.max_mem_levels ht.mem)⟩

theorem Sound.le_comparer_widen (hs : s.Sound) (limits : Limits) (l : Ledger) {q : Strength}
    (hq : s.comparer = .union q) : ∃ r, (s.widen limits l).1.set.comparer = .union r ∧ q ≤ r := by
  rcases hs.widen_cases limits l with ⟨-, hset⟩ | ⟨t, ht⟩
  · exact ⟨q, by rw [hset, hq], le_rfl⟩
  · exact ⟨t, ht.comparer_eq, (Limits.weaker_of_mem_levels ht.mem q hq).le⟩

end ValueSet

/-- The first level to try is the initial one, for a set that merges at no level or at a weaker
one, and otherwise the level after the set's own. Widening leaves a set that fits, or that has no
level to try, as it is. Any other set is rebuilt at one level after the other from the first one
on, and ends at the first level at which it fits, or at the strongest one allowed. So it fits or is
at least at that level, it merges no less than before, and widening it again leaves it as it is. -/
theorem widen_ends_at_first_fit {α : Type} [DecidableEq α] [Kind α] [Kind.Coherent α]
    {s : ValueSet α} (hs : s.Reachable) {maxEntries : Nat} {initial max : Strength}
    {limits : Limits} (hvalid : Limits.ofBounds maxEntries initial max = .ok limits)
    (l : Ledger) :
    let start? := limits.start? s.comparer
    let climbed := fun a k => (ValueSet.asUnionThrough (Strength.range a k) s l).1
    let w := (s.widen limits l).1
    (((∀ q, s.comparer = .union q → q < limits.initial) → start? = some limits.initial) ∧
      ∀ q, s.comparer = .union q → limits.initial ≤ q →
        ∀ a, start? = some a ↔ a.level = q.level + 1) ∧
    (s.size ≤ limits.maxEntries ∨ (∀ a, start? = some a → limits.max < a) →
      w.set.sharesStorage s = true) ∧
    (∀ a, start? = some a → a ≤ limits.max → limits.maxEntries < s.size →
      ∃ t, a ≤ t ∧ t ≤ limits.max ∧ w.tried = Strength.range a t ∧
        w.set = climbed a t ∧ w.set.comparer = .union t ∧
        (∀ k, a ≤ k → k < t → limits.maxEntries < (climbed a k).size) ∧
        ((climbed a t).size ≤ limits.maxEntries ∨ t = limits.max)) ∧
    (w.set.size ≤ limits.maxEntries ∨ ∃ q, w.set.comparer = .union q ∧ limits.max ≤ q) ∧
    (∀ q, s.comparer = .union q → ∃ r, w.set.comparer = .union r ∧ q ≤ r) ∧
    ∀ m, let again := (w.set.widen limits m).1
      again.set.sharesStorage w.set = true ∧ again.merged = false := by
  intro start? climbed w
  have hle := Limits.initial_le_max hvalid
  have hend := hs.sound.widen_fits_or_max_le hle l
  refine ⟨⟨Limits.start?_eq_initial, fun q hq hle a => ?_⟩, fun hstay => ?_,
    fun a hstart hmax hlarge => ?_, hend, ?_, fun m => ?_⟩
  · simp only [start?, hq]
    exact Limits.start?_union_eq_some_iff hle
  · rw [← Limits.levels_eq_nil_iff] at hstay
    have hset : w.set = s := (ValueSet.widenThrough_eq_self hstay).1
    rw [hset]
    exact s.sharesStorage_self
  · have hmem : limits.max ∈ limits.levels s.comparer :=
      Limits.mem_levels_iff.mpr ⟨a, hstart, hmax, le_rfl⟩
    obtain ⟨t, ht⟩ := hs.sound.exists_widen_endsAt hlarge (List.ne_nil_of_mem hmem) l
    obtain ⟨hat, htmax, htried, hset, hbefore, hfits⟩ := ht.from_start hstart
    exact ⟨t, hat, htmax, htried, hset, ht.comparer_eq, hbefore, hfits⟩
  · intro q hq
    exact hs.sound.le_comparer_widen limits l hq
  · rw [← Limits.levels_eq_nil_iff_max_le hle] at hend
    obtain ⟨hset, -, hquiet⟩ := ValueSet.widenThrough_eq_self (l := m) hend
    refine ⟨?_, hquiet⟩
    rw [ValueSet.widen, hset]
    exact w.set.sharesStorage_self

/-- Classes that have an ancestor in common, functions of one name in two modules, and a module:
a set that merges at the weakest level has to go up by two more to fit. -/
theorem widen_ends_at_first_fit_second_level :
    let made := ValueSet.ofList (.union .plain)
      [⟨0, Origin.classObject ⟨"C", ["B", "A"]⟩⟩, ⟨1, .classObject ⟨"D", ["B", "A"]⟩⟩,
        ⟨2, .functionObject ⟨"m", "f"⟩⟩, ⟨3, .functionObject ⟨"n", "f"⟩⟩,
        ⟨4, .moduleObject ⟨"m"⟩⟩] ⟨5, true⟩
    let s := made.1
    let limits : Limits := ⟨3, .plain, .object⟩
    Limits.ofBounds 3 .plain .object = .ok limits ∧
      (s.Reachable ∧ s.size = 5 ∧ limits.start? s.comparer = some .baseClass) ∧
      (s.widen limits made.2).1.set.comparer = .union .anyOrigin ∧
      (s.widen limits made.2).1.tried = Strength.range .baseClass .anyOrigin ∧
      (s.widen limits made.2).1.set =
        (ValueSet.asUnionThrough (Strength.range .baseClass .anyOrigin) s made.2).1 ∧
      limits.maxEntries <
        (ValueSet.asUnionThrough (Strength.range .baseClass .baseClass) s made.2).1.size ∧
      ∀ m, ((s.widen limits made.2).1.set.widen limits m).1.merged = false := by
  intro made s limits
  have hvalid : Limits.ofBounds 3 .plain .object = .ok limits := rfl
  have hs : s.Reachable := ValueSet.reachable_ofList _ _ _
  have hsize : s.size = 5 := by decide +kernel
  have hend : (s.widen limits made.2).1.set.comparer = .union .anyOrigin := by decide +kernel
  have hlarge : limits.maxEntries < s.size := by
    rw [hsize]
    decide
  have hmade : s.comparer = .union .plain := by decide +kernel
  obtain ⟨⟨-, hafter⟩, -, hclimb, -, -, hagain⟩ := widen_ends_at_first_fit hs hvalid made.2
  have hstart : limits.start? s.comparer = some .baseClass :=
    (hafter .plain hmade (by decide) .baseClass).mpr rfl
  obtain ⟨t, -, -, htried, hset, hcomparer, hbefore, -⟩ :=
    hclimb .baseClass hstart (by decide) hlarge
  obtain rfl : t = .anyOrigin := Comparer.union.inj (hcomparer.symm.trans hend)
  exact ⟨hvalid, ⟨hs, hsize, hstart⟩, hcomparer, htried, hset,
    hbefore .baseClass (by decide) (by decide), fun m => (hagain m).2⟩

end AbstractSets
