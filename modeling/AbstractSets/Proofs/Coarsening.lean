import AbstractSets.Proofs.Membership
import AbstractSets.Proofs.MergeFlag

/-!
# Stronger levels keep no more values

Two sets are made from the same values, under a finer and a coarser comparer. The two runs have
little to do with each other: they merge different values, and in different order. Yet a value
of the coarser set is equal to one of those given, and that one is equal to a value of the finer
set. So every value of the coarser set has a partner in the finer one, and two values with one
partner would be equal to each other. A set holds no two such values, and the coarser set is
thus no larger than the finer one.
-/

namespace AbstractSets

open Kind

variable {α : Type} [DecidableEq α] [Kind α]

/-- Whatever is equal under `c` is equal under `d`. -/
def Comparer.Finer (c d : Comparer) (α : Type) [DecidableEq α] [Kind α] : Prop :=
  ∀ v w : Value α, c.equal v w = true → d.equal v w = true

theorem Comparer.identity_finer (d : Comparer) : Comparer.identity.Finer d α := by
  intro v w h
  obtain rfl : v = w := by simpa using h
  exact d.equal_self v

theorem Origin.union_finer {q r : Strength} (hle : q ≤ r) :
    (Comparer.union q).Finer (.union r) Origin := by
  intro v w h
  simp only [Comparer.equal, Bool.or_eq_true] at h ⊢
  exact h.imp_right (Origin.unionEq_mono hle)

section

variable [Coherent α] {P : α → Prop} (law : LawfulOn P)

include law

/-- Values no two of which are equal are no more than those that they have equals among: what
one of them has taken as its equal is left to no other. -/
theorem Comparer.Distinct.length_le {c : Comparer} {vs ws : List (Value α)} (h : c.Distinct ws)
    (hws : ∀ w ∈ ws, P w.content) (hvs : ∀ v ∈ vs, P v.content)
    (hpartner : ∀ w ∈ ws, ∃ v ∈ vs, c.equal w v = true) : ws.length ≤ vs.length := by
  induction ws generalizing vs with
  | nil => exact Nat.zero_le _
  | cons w ws ih =>
    obtain ⟨hw, hrest⟩ := List.forall_mem_cons.mp hws
    obtain ⟨hapart, hdistinct⟩ := List.pairwise_cons.mp h
    obtain ⟨v, hv, hwv⟩ := hpartner w List.mem_cons_self
    have hlength := List.length_erase_of_mem hv
    have hpos := List.length_pos_of_mem hv
    have hle : ws.length ≤ (vs.erase v).length := by
      apply ih hdistinct hrest fun u hu => hvs u (List.mem_of_mem_erase hu)
      intro w' hw'
      obtain ⟨v', hv', hwv'⟩ := hpartner w' (List.mem_cons_of_mem w hw')
      refine ⟨v', (List.mem_erase_of_ne ?_).mpr hv', hwv'⟩
      rintro rfl
      have hww' := Comparer.equal_trans law hw (hvs v' hv) (hrest w' hw') hwv
        (Comparer.equal_symm hwv')
      rw [hapart w' hw'] at hww'
      cases hww'
    rw [List.length_cons]
    omega

namespace ValueSet

variable {c d : Comparer} {xs : List (Value α)}

theorem exists_equal_ofList_iff (hxs : ∀ x ∈ xs, P x.content) {w : Value α} (hw : P w.content)
    (l : Ledger) :
    (∃ v ∈ (ofList c xs l).1.values, c.equal v w = true) ↔ ∃ x ∈ xs, c.equal x w = true := by
  have hempty : (empty c : ValueSet α).Sound := trivial
  have hsearch := (gives_ofList c xs l).1.1.contains_iff w
  rw [(gives_ofList c xs l).1.2] at hsearch
  have hcontains := hempty.contains_insertAll_iff law (List.forall_mem_nil _) hxs hw l
  have hnone : (empty c : ValueSet α).contains w = false := rfl
  rw [hnone, Bool.false_eq_true, false_or] at hcontains
  exact hsearch.symm.trans hcontains

theorem size_ofList_le (hfiner : c.Finer d α) (hxs : ∀ x ∈ xs, P x.content) (l m : Ledger) :
    (ofList d xs l).1.size ≤ (ofList c xs m).1.size := by
  have hempty (e : Comparer) : (empty e : ValueSet α).Sound := trivial
  have hmem (e : Comparer) (k : Ledger) : ∀ v ∈ (ofList e xs k).1.values, P v.content :=
    (hempty e).values_mem_insertAll law (List.forall_mem_nil _) hxs k
  obtain ⟨hsound, hcomparer⟩ := (gives_ofList d xs l).1
  have hdistinct := hsound.distinct
  rw [hcomparer] at hdistinct
  rw [← length_values, ← length_values]
  apply hdistinct.length_le law (hmem d l) (hmem c m)
  intro w hw
  have hPw := hmem d l w hw
  obtain ⟨x, hx, hxw⟩ := (exists_equal_ofList_iff law hxs hPw l).mp ⟨w, hw, d.equal_self w⟩
  obtain ⟨v, hv, hvx⟩ := (exists_equal_ofList_iff law hxs (hxs x hx) m).mpr ⟨x, hx, c.equal_self x⟩
  have hvw := Comparer.equal_trans law (hmem c m v hv) (hxs x hx) hPw (hfiner v x hvx) hxw
  exact ⟨v, hv, Comparer.equal_symm hvw⟩

theorem size_asUnion_le {s : ValueSet α} {q r : Strength} (hle : q ≤ r)
    (hfiner : (Comparer.union q).Finer (.union r) α) (hP : ∀ v ∈ s.values, P v.content)
    (l m : Ledger) : (s.asUnion r l).1.1.size ≤ (s.asUnion q m).1.1.size := by
  rcases s.asUnion_cases q with ⟨-, hstays⟩ | ⟨hweaker, -⟩
  · rw [hstays]
    exact (s.condenses_asUnion r l).size_le
  · have hweaker' : ∀ p, s.comparer = .union p → p < r :=
      fun p hp => (hweaker p hp).trans_le hle
    rw [asUnion_eq_ofList hweaker, asUnion_eq_ofList hweaker']
    exact size_ofList_le law hfiner hP l m

end ValueSet

end

/-- Among constants, classes, functions, modules and tallies, what is equal at one level is equal
at every stronger one. A set made of such values at a stronger level has no more of them, and
none has more than the set that merges nothing. The same goes for a set that is rebuilt. -/
theorem stronger_keeps_no_more {q r : Strength} (hle : q ≤ r) :
    (∀ xs : List (Value Origin), (∀ x ∈ xs, Origin.Lawful x.content) →
      (∀ v ∈ xs, ∀ w ∈ xs, unionEq q v.content w.content = true →
        unionEq r v.content w.content = true) ∧
      ∀ l m k, (ValueSet.ofList (.union r) xs l).1.size ≤ (ValueSet.ofList (.union q) xs m).1.size ∧
        (ValueSet.ofList (.union q) xs m).1.size ≤ (ValueSet.ofList .identity xs k).1.size) ∧
    ∀ s : ValueSet Origin, s.Reachable → (∀ v ∈ s.values, Origin.Lawful v.content) →
      ∀ l m, (s.asUnion r l).1.1.size ≤ (s.asUnion q m).1.1.size ∧
        (s.asUnion q m).1.1.size ≤ s.size := by
  have hfiner := Origin.union_finer hle
  constructor
  · intro xs hxs
    refine ⟨fun v _ w _ => Origin.unionEq_mono hle, fun l m k => ⟨?_, ?_⟩⟩
    · exact ValueSet.size_ofList_le Origin.lawfulOn hfiner hxs l m
    · exact ValueSet.size_ofList_le Origin.lawfulOn (Comparer.identity_finer _) hxs m k
  · intro s _ hheld l m
    exact ⟨ValueSet.size_asUnion_le Origin.lawfulOn hle hfiner hheld l m,
      (s.condenses_asUnion q m).size_le⟩

/-- Constants, classes and tallies. The set that is rebuilt has merged the constants already. -/
theorem stronger_keeps_no_more_mixed :
    let xs : List (Value Origin) := [⟨0, .constant (.ofInt 1)⟩, ⟨1, .constant (.ofInt 2)⟩,
      ⟨2, .classObject ⟨"C", ["B", "A"]⟩⟩, ⟨3, .classObject ⟨"D", ["A"]⟩⟩,
      ⟨4, .tally (.once (some "T") "p")⟩, ⟨5, .tally (.once none "q")⟩]
    let made := ValueSet.ofList (.union .plain) xs ⟨6, true⟩
    let s := made.1
    (∀ x ∈ xs, Origin.Lawful x.content) ∧ s.Reachable ∧
      (∀ v ∈ s.values, Origin.Lawful v.content) ∧ s.size = 5 ∧
      (∀ l m k,
        (ValueSet.ofList (.union .object) xs l).1.size ≤
          (ValueSet.ofList (.union .baseClass) xs m).1.size ∧
        (ValueSet.ofList (.union .baseClass) xs m).1.size ≤
          (ValueSet.ofList .identity xs k).1.size) ∧
      (s.asUnion .object made.2).1.1.size ≤ (s.asUnion .baseClass made.2).1.1.size ∧
      (s.asUnion .baseClass made.2).1.1.size = 4 ∧ (s.asUnion .object made.2).1.1.size = 3 := by
  intro xs made s
  have hxs : ∀ x ∈ xs, Origin.Lawful x.content := by decide +kernel
  have hs : s.Reachable := ValueSet.reachable_ofList _ _ _
  have hheld : ∀ v ∈ s.values, Origin.Lawful v.content := by decide +kernel
  obtain ⟨hlists, hsets⟩ := stronger_keeps_no_more (q := .baseClass) (r := .object) (by decide)
  exact ⟨hxs, hs, hheld, by decide +kernel, (hlists xs hxs).2,
    (hsets s hs hheld made.2 made.2).1, by decide +kernel, by decide +kernel⟩

end AbstractSets
