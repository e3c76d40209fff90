import Mathlib.Data.Fintype.EquivFin
import Mathlib.Data.List.NodupEquivFin
import AbstractSets.Proofs.TakingOver

/-!
# Equal sets match value by value

Two sets are compared by their sizes and by looking up the values of the one in the other. This
looks only one way: it finds an equal in the first set for each value of the second. Yet no two
values of the second set can have the same one, if equality is transitive, since they would be
equal to each other. The sizes agree, so every value of the first set is the equal of some value
of the second, and the values of the two sets match one to one.

A matching can be turned around, and matchings can be put one after the other. So comparing sets
is an equivalence among the sets of one comparer, although the definition is not symmetric.
-/

namespace AbstractSets

open Kind

variable {α : Type} [DecidableEq α] [Kind α]

theorem Comparer.Distinct.eq_of_equal [Coherent α] {c : Comparer} {vs : List (Value α)}
    (h : c.Distinct vs) {v w : Value α} (hv : v ∈ vs) (hw : w ∈ vs) (hequal : c.equal v w = true) :
    v = w := by
  obtain ⟨i, hi⟩ := List.mem_iff_getElem?.mp hv
  obtain ⟨j, hj⟩ := List.mem_iff_getElem?.mp hw
  by_contra hne
  have hij : i ≠ j := by
    rintro rfl
    exact hne (Option.some.inj (hi.symm.trans hj))
  rw [h.equal_eq_false hi hj hij] at hequal
  cases hequal

namespace ValueSet

variable {P : α → Prop} {c : Comparer} {s t u : ValueSet α}

/-- The values of the two sets go together one to one, each with an equal of its own. -/
def Matches (s t : ValueSet α) : Prop :=
  ∃ partner : {v // v ∈ s.values} ≃ {w // w ∈ t.values},
    ∀ v, s.comparer.equal v.1 (partner v).1 = true

theorem matches_self (s : ValueSet α) : s.Matches s :=
  ⟨Equiv.refl _, fun v => s.comparer.equal_self v.1⟩

theorem Sound.card_values (hs : s.Sound) : Fintype.card {v // v ∈ s.values} = s.size := by
  rw [← Fintype.card_congr (hs.distinct.nodup.getEquiv s.values), Fintype.card_fin, length_values]

variable [Coherent α]

theorem Matches.symm (h : s.Matches t) (hcomparer : s.comparer = t.comparer) : t.Matches s := by
  obtain ⟨partner, hequal⟩ := h
  refine ⟨partner.symm, fun w => Comparer.equal_symm ?_⟩
  rw [← hcomparer]
  simpa using hequal (partner.symm w)

theorem Sound.setEquals_iff (hs : s.Sound) :
    s.setEquals t = true ↔
      s.size = t.size ∧ ∀ w ∈ t.values, ∃ v ∈ s.values, s.comparer.equal v w = true := by
  simp only [setEquals, Bool.and_eq_true, beq_iff_eq, List.all_eq_true, hs.contains_iff]

theorem Matches.setEquals (h : s.Matches t) (hs : s.Sound) (ht : t.Sound) :
    s.setEquals t = true := by
  obtain ⟨partner, hequal⟩ := h
  refine hs.setEquals_iff.mpr ⟨?_, fun w hw => ?_⟩
  · rw [← hs.card_values, ← ht.card_values]
    exact Fintype.card_congr partner
  · refine ⟨_, (partner.symm ⟨w, hw⟩).2, ?_⟩
    simpa using hequal (partner.symm ⟨w, hw⟩)

structure ReachableIn (P : α → Prop) (c : Comparer) (s : ValueSet α) : Prop where
  reachable : s.Reachable
  comparer_eq : s.comparer = c
  values_mem : ∀ v ∈ s.values, P v.content

section

variable (htrans : ∀ {r : Strength} {a b d : α}, P a → P b → P d →
  unionEq r a b = true → unionEq r b d = true → unionEq r a d = true)

include htrans

omit [Coherent α] in
theorem Matches.trans (h : s.Matches t) (h' : t.Matches u) (hs : s.ReachableIn P c)
    (ht : t.ReachableIn P c) (hu : u.ReachableIn P c) : s.Matches u := by
  obtain ⟨partner, hequal⟩ := h
  obtain ⟨partner', hequal'⟩ := h'
  refine ⟨partner.trans partner', fun v => ?_⟩
  have hnext := hequal' (partner v)
  rw [ht.comparer_eq, ← hs.comparer_eq] at hnext
  refine Comparer.equal_trans_of (hequal v) hnext fun r => ?_
  exact htrans (hs.values_mem _ v.2) (ht.values_mem _ (partner v).2)
    (hu.values_mem _ (partner' (partner v)).2)

theorem matches_of_setEquals (h : s.setEquals t = true) (hs : s.ReachableIn P c)
    (ht : t.ReachableIn P c) : s.Matches t := by
  have hsound := hs.reachable.sound
  have hsound' := ht.reachable.sound
  obtain ⟨hsize, hfound⟩ := hsound.setEquals_iff.mp h
  choose found hmem hequal using hfound
  let partner : {w // w ∈ t.values} → {v // v ∈ s.values} := fun w => ⟨found w.1 w.2, hmem w.1 w.2⟩
  have hinjective : Function.Injective partner := by
    intro w w' heq
    have hfirst := hequal w.1 w.2
    have hsecond := hequal w'.1 w'.2
    rw [← Subtype.mk.inj heq] at hsecond
    have hww' := Comparer.equal_trans_of (Comparer.equal_symm hfirst) hsecond fun r =>
      htrans (ht.values_mem _ w.2) (hs.values_mem _ (hmem w.1 w.2)) (ht.values_mem _ w'.2)
    rw [hs.comparer_eq, ← ht.comparer_eq] at hww'
    exact Subtype.ext (hsound'.distinct.eq_of_equal w.2 w'.2 hww')
  have hbijective : Function.Bijective partner := by
    rw [Fintype.bijective_iff_injective_and_card, hsound.card_values, hsound'.card_values]
    exact ⟨hinjective, hsize.symm⟩
  refine ⟨(Equiv.ofBijective partner hbijective).symm, fun v => ?_⟩
  obtain ⟨w, rfl⟩ := hbijective.surjective v
  rw [Equiv.ofBijective_symm_apply_apply]
  exact hequal w.1 w.2

theorem setEquals_iff_matches (hs : s.ReachableIn P c) (ht : t.ReachableIn P c) :
    s.setEquals t = true ↔ s.Matches t :=
  ⟨fun h => matches_of_setEquals htrans h hs ht,
    fun h => h.setEquals hs.reachable.sound ht.reachable.sound⟩

end

end ValueSet

/-- Where union equality is an equivalence on the contents in use, comparing sets is one among the
sets that runs make under one comparer: each is equal to itself, and equality can be turned around
and goes on. Two sets are equal just if their values can be matched one to one, each with an
equal. That union equality is reflexive is not needed, since under a comparer any value is equal
to itself. -/
theorem setEquals_equivalence_iff_matching [Coherent α] {P : α → Prop}
    (htrans : ∀ {r : Strength} {a b d : α}, P a → P b → P d →
      unionEq r a b = true → unionEq r b d = true → unionEq r a d = true)
    {c : Comparer} {s t u : ValueSet α} (hs : s.ReachableIn P c) (ht : t.ReachableIn P c)
    (hu : u.ReachableIn P c) :
    s.setEquals s = true ∧ (s.setEquals t = true → t.setEquals s = true) ∧
      (s.setEquals t = true → t.setEquals u = true → s.setEquals u = true) ∧
      (s.setEquals t = true ↔
        ∃ partner : {v // v ∈ s.values} ≃ {w // w ∈ t.values},
          ∀ v, c.equal v.1 (partner v).1 = true) := by
  have hcomparer : s.comparer = t.comparer := hs.comparer_eq.trans ht.comparer_eq.symm
  refine ⟨?_, ?_, ?_, ?_⟩
  · exact s.matches_self.setEquals hs.reachable.sound hs.reachable.sound
  · rw [ValueSet.setEquals_iff_matches htrans hs ht, ValueSet.setEquals_iff_matches htrans ht hs]
    exact fun h => h.symm hcomparer
  · rw [ValueSet.setEquals_iff_matches htrans hs ht, ValueSet.setEquals_iff_matches htrans ht hu,
      ValueSet.setEquals_iff_matches htrans hs hu]
    exact fun h h' => h.trans htrans h' hs ht hu
  · rw [ValueSet.setEquals_iff_matches htrans hs ht, ValueSet.Matches, hs.comparer_eq]

/-- Three sets of other values in other orders. One of them has merged classes, and another one
a value that changed what it is equal to. -/
theorem setEquals_equivalence_iff_matching_mixed :
    let c : Comparer := .union .baseClass
    let s : ValueSet Origin := (ValueSet.ofList c [⟨0, .classObject ⟨"C", ["B", "A"]⟩⟩,
      ⟨1, .relabel ⟨"j", none⟩⟩, ⟨2, .classObject ⟨"D", ["B", "A"]⟩⟩,
      ⟨3, .tally (.once (some "T") "p")⟩] ⟨20, true⟩).1
    let t : ValueSet Origin := (ValueSet.ofList c [⟨4, .tally (.once (some "T") "q")⟩,
      ⟨5, .relabel ⟨"k", none⟩⟩, ⟨6, .relabel ⟨"k", some "j"⟩⟩,
      ⟨7, .classObject ⟨"A", []⟩⟩] ⟨20, true⟩).1
    let u : ValueSet Origin := (ValueSet.ofList c [⟨8, .relabel ⟨"j", some "k"⟩⟩,
      ⟨9, .classObject ⟨"E", ["A"]⟩⟩, ⟨10, .tally (.once (some "T") "p")⟩] ⟨20, true⟩).1
    let P : Origin → Prop := fun a => a.kind ≠ .interval
    (s.ReachableIn P c ∧ t.ReachableIn P c ∧ u.ReachableIn P c) ∧
      s.representation = .many ∧ s.setEquals t = true ∧ t.setEquals u = true ∧
      t.setEquals s = true ∧ s.setEquals u = true ∧
      ∃ partner : {v // v ∈ s.values} ≃ {w // w ∈ t.values},
        ∀ v, c.equal v.1 (partner v).1 = true := by
  intro c s t u P
  have hs : s.ReachableIn P c :=
    ⟨ValueSet.reachable_ofList _ _ _, by decide +kernel, by decide +kernel⟩
  have ht : t.ReachableIn P c :=
    ⟨ValueSet.reachable_ofList _ _ _, by decide +kernel, by decide +kernel⟩
  have hu : u.ReachableIn P c :=
    ⟨ValueSet.reachable_ofList _ _ _, by decide +kernel, by decide +kernel⟩
  have hst : s.setEquals t = true := by decide +kernel
  have htu : t.setEquals u = true := by decide +kernel
  obtain ⟨-, hsymm, hjoined, hmatch⟩ :=
    setEquals_equivalence_iff_matching Origin.transitiveOn.trans hs ht hu
  exact ⟨⟨hs, ht, hu⟩, by decide +kernel, hst, htu, hsymm hst, hjoined hst htu, hmatch.mp hst⟩

end AbstractSets
