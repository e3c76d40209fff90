import AbstractSets.Proofs.OrderIndependence
import AbstractSets.Proofs.Settling

/-!
# What a widened set still knows

A set knows a value if inserting it changes nothing. Rebuilding a set at a stronger level
keeps what it knows, because a content that covers another one at some level does so at every
stronger level. There is one exception. Below the most general level a class covers its
descendants; at that level it covers only itself, and `object` covers all classes. A class
that was merged into an ancestor on the way up can therefore be news to the widened set.
-/

namespace AbstractSets

open Kind

namespace Origin

theorem covers_mono {q r : Strength} (hle : q ≤ r) {a b : Origin}
    (h : r ≠ .object ∨ a.kind ≠ .classObject) (hcovers : Covers join q b a) :
    Covers join r b a := by
  obtain ⟨hequal, hjoin⟩ := hcovers
  have hlevels : q ≠ .object ∧ r ≠ .object ∨ b.kind ≠ .classObject := by
    rcases h with hr | hkind
    · refine Or.inl ⟨?_, hr⟩
      rintro rfl
      exact hr (Strength.object_le_iff.mp hle)
    · rw [kind_eq_of_unionEq hequal]
      exact Or.inr hkind
  refine ⟨unionEq_mono hle hequal, ?_⟩
  rw [join, Choice.join, ← merge_eq_merge hlevels]
  exact hjoin

theorem covers_class_at_object_iff {b : Origin} {c : ClassObject} :
    Covers join .object b (classObject c) ↔ b = classObject c ∨ b = classObject .object := by
  constructor
  · rintro ⟨hequal, hjoin⟩
    obtain ⟨d, rfl⟩ : ∃ d, b = classObject d := by
      cases b with
      | classObject d => exact ⟨d, rfl⟩
      | _ => cases hequal
    rw [(part_classObject .object).join_eq, ClassObject.join_object] at hjoin
    split_ifs at hjoin with hdc
    · exact Or.inl (congrArg classObject hdc)
    · exact Or.inr hjoin.symm
  · rintro (rfl | rfl)
    · exact Covers.refl joinOn trivial
    · refine ⟨rfl, ?_⟩
      rw [(part_classObject .object).join_eq, ClassObject.join_object]
      split_ifs <;> rfl

end Origin

namespace ValueSet

section

variable {α : Type} [DecidableEq α] [Kind α]

def Knows (s : ValueSet α) (v : Value α) : Prop := ∀ l, s.insert v l = ((s, false), l)

variable [Coherent α]

theorem Sound.mem_of_knows_identity {s : ValueSet α} (hs : s.Sound)
    (hidentity : s.comparer = .identity) {v : Value α} (h : s.Knows v) : v ∈ s.values := by
  rcases hs.insert_cases v with ⟨-, heq⟩ | ⟨i, w, hw, hwv, -⟩
  · have hflag := congrArg (fun p => p.1.2) (h .start)
    rw [heq] at hflag
    cases hflag
  · rw [hidentity, Comparer.equal_identity, decide_eq_true_eq] at hwv
    exact hwv ▸ List.mem_of_getElem? hw

theorem SoundOn.knows_iff {P : α → Prop} {join : Strength → α → α → α} {r : Strength}
    {s : ValueSet α} (hs : s.SoundOn P r) (law : JoinOn P join) {v : Value α}
    (hv : P v.content) : s.Knows v ↔ Covered join r s.contents v.content := by
  constructor
  · intro h
    apply hs.covered_of_quiet_insert law hv (l := .start)
    rw [h]
  · exact fun h l => hs.insert_eq_of_covered law hv h l

end

variable {s : ValueSet Origin}

theorem Sound.covered_ofList (hs : s.Sound) (hheld : ∀ v ∈ s.values, Origin.BuiltIn v.content)
    {r : Strength} (hweaker : ∀ q, s.comparer = .union q → q < r) {v : Value Origin}
    (hv : Origin.BuiltIn v.content) (hknows : s.Knows v)
    (h : r ≠ .object ∨ v.content.kind ≠ .classObject) (l : Ledger) :
    Covered Origin.join r (ofList (.union r) s.values l).1.contents v.content := by
  have law := Origin.joinOn
  have hcovers : ∀ a ∈ s.contents,
      Covered Origin.join r (ofList (.union r) s.values l).1.contents a := by
    intro a ha
    obtain ⟨w, hw, rfl⟩ := List.mem_map.mp ha
    exact (soundOn_empty Origin.BuiltIn r).covered_insertAll law hheld (hheld w hw) (Or.inr ha) l
  cases hc : s.comparer with
  | identity =>
    have hmem := hs.mem_of_knows_identity hc hknows
    exact hcovers _ (List.mem_map_of_mem hmem)
  | union q =>
    have hon : s.SoundOn Origin.BuiltIn q := ⟨hs, hc, hheld⟩
    obtain ⟨b, hb, hbv⟩ := (hon.knows_iff law hv).mp hknows
    obtain ⟨d, hd, hdb⟩ := hcovers b hb
    have hPd := (soundOn_ofList law (r := r) hheld l).contents_mem d hd
    exact ⟨d, hd, hdb.trans law hPd (hon.contents_mem b hb) hv
      (Origin.covers_mono (hweaker q hc).le h hbv)⟩

/-- The set knows `v`, unless it is at the most general level and `v` is a class. -/
def Retains (s : ValueSet Origin) (v : Value Origin) : Prop :=
  (s.comparer = .union .object → v.content.kind ≠ .classObject) → s.Knows v

theorem Sound.retains_asUnion (hs : s.Sound)
    (hheld : ∀ v ∈ s.values, Origin.BuiltIn v.content) (r : Strength) (l : Ledger) :
    (∀ v ∈ (s.asUnion r l).1.1.values, Origin.BuiltIn v.content) ∧
      ∀ v, Origin.BuiltIn v.content → s.Retains v → (s.asUnion r l).1.1.Retains v := by
  rcases s.asUnion_cases r with ⟨-, heq⟩ | ⟨hweaker, changed, heq⟩
  · rw [heq]
    exact ⟨hheld, fun _ _ h => h⟩
  · have hobject : s.comparer ≠ .union .object := by
      intro hc
      exact (hweaker .object hc).not_ge r.le_object
    have hon := soundOn_ofList Origin.joinOn (r := r) hheld l
    rw [heq]
    refine ⟨hon.values_mem, fun v hv hretains hclass => ?_⟩
    apply (hon.knows_iff Origin.joinOn hv).mpr
    apply hs.covered_ofList hheld hweaker hv (hretains fun hc => absurd hc hobject)
    by_cases hr : r = .object
    · exact Or.inr (hclass (hr ▸ hon.comparer_eq))
    · exact Or.inl hr

theorem Sound.retains_widenThrough (hs : s.Sound)
    (hheld : ∀ v ∈ s.values, Origin.BuiltIn v.content) (maxEntries : Nat)
    (levels : List Strength) (l : Ledger) :
    (∀ v ∈ (widenThrough maxEntries levels s l).1.set.values, Origin.BuiltIn v.content) ∧
      ∀ v, Origin.BuiltIn v.content → s.Retains v →
        (widenThrough maxEntries levels s l).1.set.Retains v := by
  induction levels generalizing s l with
  | nil => exact ⟨hheld, fun _ _ h => h⟩
  | cons r rs ih =>
    by_cases hfits : s.size ≤ maxEntries
    · rw [widenThrough, if_pos hfits]
      exact ⟨hheld, fun _ _ h => h⟩
    · rw [widenThrough, if_neg hfits]
      have hsound := (hs.gives_asUnion r l).1.1.1
      obtain ⟨hnext, hstep⟩ := hs.retains_asUnion hheld r l
      obtain ⟨hend, hrun⟩ := ih hsound hnext (s.asUnion r l).2
      exact ⟨hend, fun v hv h => hrun v hv (hstep v hv h)⟩

/-- At the most general level, `w` has neither `object` nor some class that `s` has. -/
def Outgrows (w s : ValueSet Origin) : Prop :=
  w.comparer = .union .object ∧ ∃ c, .classObject c ∈ s.values.map (·.content) ∧
    .classObject c ∉ w.values.map (·.content) ∧
      .classObject .object ∉ w.values.map (·.content)

theorem Sound.forall_knows_iff {w : ValueSet Origin} (hw : w.Sound)
    (hwheld : ∀ v ∈ w.values, Origin.BuiltIn v.content)
    (hheld : ∀ v ∈ s.values, Origin.BuiltIn v.content) (h : ∀ v ∈ s.values, w.Retains v) :
    (∀ v ∈ s.values, w.Knows v) ↔ ¬ w.Outgrows s := by
  constructor
  · rintro hknows ⟨hobject, c, hc, hnot, hnot'⟩
    obtain ⟨v, hv, hvc⟩ := List.mem_map.mp hc
    have hon : w.SoundOn Origin.BuiltIn .object := ⟨hw, hobject, hwheld⟩
    obtain ⟨b, hb, hcovers⟩ := (hon.knows_iff Origin.joinOn (hheld v hv)).mp (hknows v hv)
    rw [hvc, Origin.covers_class_at_object_iff] at hcovers
    rcases hcovers with rfl | rfl
    · exact hnot hb
    · exact hnot' hb
  · intro hnot v hv
    by_cases hclass : w.comparer = .union .object ∧ v.content.kind = .classObject
    · obtain ⟨hobject, hkind⟩ := hclass
      have hon : w.SoundOn Origin.BuiltIn .object := ⟨hw, hobject, hwheld⟩
      obtain ⟨c, hc⟩ : ∃ c, v.content = .classObject c := by
        cases hv' : v.content with
        | classObject c => exact ⟨c, rfl⟩
        | _ => simp [hv', Origin.kind] at hkind
      apply (hon.knows_iff Origin.joinOn (hheld v hv)).mpr
      by_contra hnone
      refine hnot ⟨hobject, c, hc ▸ List.mem_map_of_mem hv, fun hmem => ?_, fun hmem => ?_⟩
      · exact hnone ⟨_, hmem, hc ▸ Origin.covers_class_at_object_iff.mpr (Or.inl rfl)⟩
      · exact hnone ⟨_, hmem, hc ▸ Origin.covers_class_at_object_iff.mpr (Or.inr rfl)⟩
    · exact h v hv fun hobject hkind => hclass ⟨hobject, hkind⟩

end ValueSet

/-- Joining a set into what it was widened to changes nothing, and what comes of it is the
widened set itself, unless that set is at the most general level and has outgrown a class: it
then has an ancestor of the class, which is not `object`, in its place. In that case, and in no
other, a change is reported. -/
theorem union_widen_eq_self_iff {s : ValueSet Origin} (hs : s.Reachable)
    (hheld : ∀ v ∈ s.values, Origin.BuiltIn v.content) (limits : Limits) (l m : Ledger) :
    let w := (s.widen limits l).1.set
    (¬ w.Outgrows s → (w.union s m).1.2 = false ∧ (w.union s m).1.1.sharesStorage w = true) ∧
      (w.Outgrows s → (w.union s m).1.2 = true) := by
  intro w
  have hw := (hs.sound.gives_widenThrough limits.maxEntries (limits.levels s.comparer) l).1.1
  obtain ⟨hwheld, hretains⟩ := hs.sound.retains_widenThrough hheld limits.maxEntries
    (limits.levels s.comparer) l
  have hself : ∀ v ∈ s.values, s.Retains v := fun v hv _ k => hs.sound.insert_eq_of_mem hv k
  have hiff := hw.forall_knows_iff hwheld hheld fun v hv =>
    hretains v (hheld v hv) (hself v hv)
  constructor
  · intro hnot
    have hsame : w.union s m = ((w, false), m) :=
      hw.union_eq_of_insert_eq hs.sound (hiff.mpr hnot) m
    rw [hsame]
    exact ⟨rfl, w.sharesStorage_self⟩
  · intro hout
    rw [← Bool.not_eq_false]
    intro hquiet
    have hon : w.SoundOn Origin.BuiltIn .object := ⟨hw, hout.1, hwheld⟩
    have hcovered := (hon.union_quiet_iff Origin.joinOn hs.sound hheld m).mp hquiet
    apply hiff.mp _ hout
    intro v hv
    exact (hon.knows_iff Origin.joinOn (hheld v hv)).mpr (hcovered v hv)

/-- Two classes that have gone up into the ancestor they share, at a level below the most
general one. -/
theorem union_widen_eq_self_iff_ancestor :
    let made := ValueSet.ofList .identity [⟨0, .classObject ⟨"C", ["B", "A"]⟩⟩,
      ⟨1, .classObject ⟨"D", ["B", "A"]⟩⟩, ⟨2, .moduleObject ⟨"m"⟩⟩] ⟨3, true⟩
    let s := made.1
    let widened := s.widen ⟨2, .plain, .object⟩ made.2
    let w := widened.1.set
    s.Reachable ∧ (∀ v ∈ s.values, Origin.BuiltIn v.content) ∧
      w.values.map (·.content) = [.classObject ⟨"B", ["A"]⟩, .moduleObject ⟨"m"⟩] ∧
      ¬ w.Outgrows s ∧ (w.union s widened.2).1.2 = false := by
  intro made s widened w
  have hs : s.Reachable := ValueSet.reachable_ofList _ _ _
  have hheld : ∀ v ∈ s.values, Origin.BuiltIn v.content := by decide +kernel
  have hcomparer : w.comparer = .union .baseClass := by decide +kernel
  have hnot : ¬ w.Outgrows s := by
    rintro ⟨hobject, -⟩
    rw [hcomparer] at hobject
    cases hobject
  have hsame := (union_widen_eq_self_iff hs hheld ⟨2, .plain, .object⟩ made.2 widened.2).1 hnot
  exact ⟨hs, hheld, by decide +kernel, hnot, hsame.1⟩

/-- One entry less allowed, the same set is widened up to the most general level. It still has
the ancestor of the two classes there, and each of them turns that into `object`. -/
theorem union_widen_reports_outgrown_class :
    let made := ValueSet.ofList .identity [⟨0, .classObject ⟨"C", ["B", "A"]⟩⟩,
      ⟨1, .classObject ⟨"D", ["B", "A"]⟩⟩, ⟨2, .moduleObject ⟨"m"⟩⟩] ⟨3, true⟩
    let s := made.1
    let limits : Limits := ⟨1, .plain, .object⟩
    let widened := s.widen limits made.2
    let w := widened.1.set
    let joined := (w.union s widened.2).1
    Limits.ofBounds 1 .plain .object = .ok limits ∧ s.Reachable ∧
      (∀ v ∈ s.values, Origin.BuiltIn v.content) ∧
      w.values.map (·.content) = [.classObject ⟨"B", ["A"]⟩, .moduleObject ⟨"m"⟩] ∧
      joined.1.values.map (·.content) = [.classObject .object, .moduleObject ⟨"m"⟩] ∧
      joined.2 = true ∧ joined.1.sharesStorage w = false := by
  intro made s limits widened w joined
  refine ⟨rfl, ValueSet.reachable_ofList _ _ _, ?_⟩
  decide +kernel

end AbstractSets
