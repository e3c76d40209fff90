import AbstractSets.Proofs.Joining
import AbstractSets.Proofs.Tallies
import Mathlib.Data.List.Forall2

/-!
# Widening level by level and at once

Widening rebuilds a set at one level after the other, so the values that a level sees have been
merged before. What comes of it is, position by position, what rebuilding the set at the last
level alone gives.

To compare the two, `gist t` drops from a content what can depend on the way it has come to
level `t`: the counts of tallies, and at the most general level the lines of classes and the
names of tallies. Merging at any level up to `t` acts on gists as the join at level `t`, and
the first member of a class at level `t` stays the first while classes of weaker levels are
merged. The gists that a set leads to at level `t` are therefore the same before and after it
is rebuilt at a weaker level.
-/

namespace AbstractSets

open Kind

namespace Origin

/-- What of a content is the same whichever way it has come to level `t`. -/
def gist (t : Strength) : Origin → Origin
  | classObject c => classObject (if t = .object then .object else c)
  | tally a => tally ⟨if t = .object then none else a.name, []⟩
  | a => a

variable {q t : Strength} {a b : Origin}

theorem unionEq_gist (t : Strength) (a b : Origin) :
    unionEq t (gist t a) (gist t b) = unionEq t a b := by
  cases a <;> cases b <;> try rfl
  case classObject c d => cases t <;> rfl
  case tally c d => cases t <;> rfl

theorem lawful_gist : Lawful (gist t a) ↔ Lawful a := by
  cases a <;> rfl

theorem kind_gist (t : Strength) (a : Origin) : (gist t a).kind = a.kind := by
  cases a <;> rfl

theorem gist_gist (t : Strength) (a : Origin) : gist t (gist t a) = gist t a := by
  cases a with
  | classObject c => cases t <;> rfl
  | tally c => cases t <;> rfl
  | _ => rfl

/-- The contents that are their own gist at level `t`: all but tallies, and at the most general
level classes. -/
theorem gist_eq_self (h : a.kind ≠ .tally) (h' : t = .object → a.kind ≠ .classObject) :
    gist t a = a := by
  cases a with
  | classObject c =>
    have ht : t ≠ .object := fun ht => h' ht rfl
    rw [gist, if_neg ht]
  | tally c => exact absurd rfl h
  | _ => rfl

theorem eq_of_gist_eq (hgist : gist t a = gist t b) (h : a.kind ≠ .tally)
    (h' : t = .object → a.kind ≠ .classObject) : a = b := by
  have hkind : b.kind = a.kind := by rw [← kind_gist t b, ← hgist, kind_gist]
  rw [← gist_eq_self h h', hgist]
  exact gist_eq_self (hkind ▸ h) fun ht => hkind ▸ h' ht

theorem unionEq_of_gist_eq (hb : Lawful b) (hgist : gist t a = gist t b) :
    unionEq t a b = true := by
  rw [← unionEq_gist, hgist, unionEq_gist]
  exact lawfulOn.refl hb

theorem gist_tally_eq {c d : Tally} (h : unionEq t (tally c) (tally d) = true) :
    gist t (tally c) = gist t (tally d) := by
  rcases Tally.unionEq_iff.mp h with ht | hname
  · simp [gist, ht]
  · simp [gist, hname]

theorem join_gist_self (ha : Lawful a) : join t (gist t a) (gist t a) = gist t a := by
  rcases lawful_iff.mp (lawful_gist (t := t).mpr ha) with hbuiltIn | ⟨c, hc⟩
  · exact joinOn.join_self hbuiltIn
  · cases a with
    | tally c =>
      change tally ((⟨_, []⟩ : Tally).add ⟨_, []⟩) = _
      simp [gist, Tally.add, Tally.addWeights]
    | _ => cases hc

theorem join_eq_join (hle : q ≤ t) (h : t = .object → a.kind ≠ .classObject) (b : Origin) :
    join q a b = join t a b := by
  have hmerge : q ≠ .object ∧ t ≠ .object ∨ a.kind ≠ .classObject := by
    by_cases ht : t = .object
    · exact Or.inr (h ht)
    · refine Or.inl ⟨?_, ht⟩
      rintro rfl
      exact ht (Strength.object_le_iff.mp hle)
  rw [join, Choice.join, merge_eq_merge hmerge]
  rfl

theorem gist_add (t : Strength) (c d : Tally) :
    gist t (tally (c.add d)) = join t (gist t (tally c)) (gist t (tally d)) := by
  change _ = tally ((⟨_, []⟩ : Tally).add ⟨_, []⟩)
  by_cases ht : t = .object
  · simp [gist, ht, Tally.add, Tally.addWeights]
  · simp [gist, ht, Tally.add, Tally.addWeights]

theorem gist_object_of_class (h : a.kind = .classObject) :
    gist .object a = classObject .object := by
  cases a with
  | classObject c => rfl
  | _ => cases h

/-- A merge at a level up to `t`, seen from there. -/
theorem gist_join (hle : q ≤ t) (ha : Lawful a) (h : unionEq q a b = true) :
    gist t (join q a b) = join t (gist t a) (gist t b) := by
  have hkind : (join q a b).kind = a.kind :=
    (kind_eq_of_unionEq (unionEq_join_of_lawful ha h)).symm
  have hkind' := kind_eq_of_unionEq h
  by_cases htally : a.kind = .tally
  · obtain ⟨c, rfl⟩ : ∃ c, a = tally c := by
      cases a with
      | tally c => exact ⟨c, rfl⟩
      | _ => cases htally
    obtain ⟨d, rfl⟩ := exists_tally_of_unionEq h
    exact gist_add t c d
  by_cases hclass : t = .object ∧ a.kind = .classObject
  · obtain ⟨rfl, hclass⟩ := hclass
    rw [gist_object_of_class (hkind.trans hclass), gist_object_of_class hclass,
      gist_object_of_class (hkind' ▸ hclass)]
    exact (joinOn.join_self (a := classObject .object) trivial).symm
  · have hdetermined : t = .object → a.kind ≠ .classObject := fun ht hc => hclass ⟨ht, hc⟩
    rw [gist_eq_self (hkind ▸ htally) (hkind ▸ hdetermined), gist_eq_self htally hdetermined,
      gist_eq_self (hkind' ▸ htally) (hkind' ▸ hdetermined), join_eq_join hle hdetermined]

def IsGist (t : Strength) (a : Origin) : Prop := Lawful a ∧ gist t a = a

theorem isGist_gist (ha : Lawful a) : IsGist t (gist t a) :=
  ⟨lawful_gist.mpr ha, gist_gist t a⟩

theorem IsGist.builtIn_or_eq (ha : IsGist t a) (hb : IsGist t b) (h : unionEq t a b = true) :
    BuiltIn a ∧ BuiltIn b ∨ a = b := by
  rcases lawful_iff.mp ha.1 with hbuiltIn | ⟨c, rfl⟩
  · exact Or.inl ⟨hbuiltIn, builtIn_of_unionEq hbuiltIn h⟩
  · obtain ⟨d, rfl⟩ := exists_tally_of_unionEq h
    refine Or.inr ?_
    rw [← ha.2, ← hb.2]
    exact gist_tally_eq h

theorem IsGist.join_self (ha : IsGist t a) : join t a a = a := by
  have hself := join_gist_self (t := t) ha.1
  rwa [ha.2] at hself

theorem meldsOn_isGist (t : Strength) : MeldsOn (IsGist t) join t where
  trans ha _ _ hab hbc := unionEq_trans_of_lawful ha.1 hab hbc
  join_mem {a b} ha hb h := by
    refine ⟨lawful_of_unionEq ha.1 (unionEq_join_of_lawful ha.1 h), ?_⟩
    rw [gist_join le_rfl ha.1 h, ha.2, hb.2]
  equal_join ha _ h := unionEq_join_of_lawful ha.1 h
  join_comm {a b} ha hb h := by
    rcases ha.builtIn_or_eq hb h with ⟨ha', hb'⟩ | rfl
    · exact joinOn.join_comm ha' hb' h
    · rfl
  join_assoc {a b c} ha hb hc hab hbc := by
    rcases ha.builtIn_or_eq hb hab with ⟨ha', hb'⟩ | rfl
    · exact joinOn.join_assoc ha' hb' (builtIn_of_unionEq hb' hbc) hab hbc
    · rcases ha.builtIn_or_eq hc hbc with ⟨ha', hc'⟩ | rfl
      · exact joinOn.join_assoc ha' ha' hc' hab hbc
      · rw [ha.join_self]

end Origin

namespace ValueSet

variable {q t : Strength} {s : ValueSet Origin}

def gists (t : Strength) (s : ValueSet Origin) : List Origin := s.values.map (·.content.gist t)

theorem gist_merge (hle : q ≤ t) {v w : Value Origin} (hv : Origin.Lawful v.content)
    (h : unionEq q v.content w.content = true) (l : Ledger) :
    ((Comparer.union q).merge v w l).1.content.gist t =
      Origin.join t (v.content.gist t) (w.content.gist t) := by
  by_cases hvw : v = w
  · rw [hvw, Comparer.merge_self, ← hvw]
    exact (Origin.join_gist_self hv).symm
  · rw [Comparer.merge, if_neg hvw, Merged.content_settle, Origin.content_unionMerge,
      Origin.gist_join hle hv h]

theorem SoundOn.joinAll_gists_insert (hs : s.SoundOn Origin.Lawful q) (hle : q ≤ t)
    {x : Value Origin} (hx : Origin.Lawful x.content) (l : Ledger) :
    joinAll Origin.join t [] ((s.insert x l).1.1.gists t) =
      joinInto Origin.join t (x.content.gist t) (joinAll Origin.join t [] (s.gists t)) := by
  rw [gists, hs.sound.values_insert Origin.lawfulOn hs.values_mem hx, hs.comparer_eq]
  refine joinAll_map_upsert (Origin.meldsOn_isGist t) (Origin.isGist_gist hx)
    (fun v hv => Origin.isGist_gist (hs.values_mem v hv)) (List.forall_mem_nil _)
    fun v hv hvx => ?_
  have hPv := hs.values_mem v hv
  rw [Comparer.equal_union_iff Origin.lawfulOn hPv] at hvx
  exact ⟨(Origin.unionEq_gist t _ _).trans (Origin.unionEq_mono hle hvx), gist_merge hle hPv hvx l⟩

theorem SoundOn.joinAll_gists_insertAll (hs : s.SoundOn Origin.Lawful q) (hle : q ≤ t)
    {xs : List (Value Origin)} (hxs : ∀ x ∈ xs, Origin.Lawful x.content) (l : Ledger) :
    joinAll Origin.join t [] ((s.insertAll xs l).1.1.gists t) =
      joinAll Origin.join t (joinAll Origin.join t [] (s.gists t))
        (xs.map (·.content.gist t)) := by
  induction xs generalizing s l with
  | nil => rfl
  | cons x xs ih =>
    obtain ⟨hx, hrest⟩ := List.forall_mem_cons.mp hxs
    have hlater := ih (hs.insert Origin.lawfulOn hx l) hrest (s.insert x l).2
    rw [hs.joinAll_gists_insert hle hx] at hlater
    exact hlater

/-- What a list leads to at level `t`, it also leads to by way of a set at a weaker level. -/
theorem joinAll_gists_ofList (hle : q ≤ t) {xs : List (Value Origin)}
    (hxs : ∀ x ∈ xs, Origin.Lawful x.content) (l : Ledger) :
    joinAll Origin.join t [] ((ofList (.union q) xs l).1.gists t) =
      joinAll Origin.join t [] (xs.map (·.content.gist t)) :=
  (soundOn_empty Origin.Lawful q).joinAll_gists_insertAll hle hxs l

theorem SoundOn.joinAll_gists (hs : s.SoundOn Origin.Lawful t) :
    joinAll Origin.join t [] (s.gists t) = s.gists t := by
  have happart := hs.apart Origin.lawfulOn
  rw [contents, List.pairwise_map] at happart
  apply joinAll_eq_append
  rw [List.nil_append, gists, List.pairwise_map]
  exact happart.imp fun {v w} h => (Origin.unionEq_gist t _ _).trans h

theorem gists_ofList {xs : List (Value Origin)} (hxs : ∀ x ∈ xs, Origin.Lawful x.content)
    (l : Ledger) :
    (ofList (.union t) xs l).1.gists t =
      joinAll Origin.join t [] (xs.map (·.content.gist t)) := by
  have hon := soundOn_ofList_of_lawful Origin.lawfulOn (r := t) hxs l
  rw [← joinAll_gists_ofList le_rfl hxs l, hon.joinAll_gists]

/-- Widening never goes to a weaker level, and at the level it ends at it holds what the values
it began with lead to. -/
theorem Sound.gists_widenThrough (hs : s.Sound)
    (hheld : ∀ v ∈ s.values, Origin.Lawful v.content) (maxEntries : Nat)
    (levels : List Strength) (l : Ledger)
    (hend : (widenThrough maxEntries levels s l).1.set.comparer = .union t) :
    (∀ q, s.comparer = .union q → q ≤ t) ∧
      (widenThrough maxEntries levels s l).1.set.gists t =
        joinAll Origin.join t [] (s.gists t) := by
  have hstay : ∀ u : ValueSet Origin, u.SoundOn Origin.Lawful t →
      (∀ q, u.comparer = .union q → q ≤ t) ∧
        u.gists t = joinAll Origin.join t [] (u.gists t) := by
    intro u hu
    refine ⟨fun q hq => ?_, hu.joinAll_gists.symm⟩
    rw [hu.comparer_eq] at hq
    cases hq
    exact le_rfl
  induction levels generalizing s l with
  | nil => exact hstay s ⟨hs, hend, hheld⟩
  | cons r rs ih =>
    by_cases hfits : s.size ≤ maxEntries
    · rw [widenThrough, if_pos hfits] at hend ⊢
      exact hstay s ⟨hs, hend, hheld⟩
    · rw [widenThrough, if_neg hfits] at hend ⊢
      rcases s.asUnion_cases r with ⟨-, heq⟩ | ⟨hweaker, changed, heq⟩
      · rw [heq] at hend ⊢
        exact ih hs hheld l hend
      · rw [heq] at hend ⊢
        have hon := soundOn_ofList_of_lawful Origin.lawfulOn (r := r) hheld l
        obtain ⟨hlevel, hgists⟩ := ih hon.sound hon.values_mem _ hend
        have hrt : r ≤ t := hlevel r hon.comparer_eq
        refine ⟨fun q hq => (hweaker q hq).le.trans hrt, ?_⟩
        exact hgists.trans (joinAll_gists_ofList hrt hheld l)

end ValueSet

/-- A widened set that has ended under level `t` agrees position by position with the set that
is made of the same values at level `t` alone: the two are of one size, and their values are
equal in pairs. Constants, functions and modules are even the same in both, and below the most
general level so are classes. -/
theorem widen_agrees_with_ofList {s : ValueSet Origin} {t : Strength} (hs : s.Reachable)
    (hheld : ∀ v ∈ s.values, Origin.Lawful v.content) (limits : Limits) (l m : Ledger)
    (hend : (s.widen limits l).1.set.comparer = .union t) :
    let w := (s.widen limits l).1.set
    let d := (ValueSet.ofList (.union t) s.values m).1
    w.size = d.size ∧
      List.Forall₂ (fun v u => unionEq t v.content u.content = true ∧
        (v.content.kind ∈ [.constant, .functionObject, .moduleObject] ∨
          v.content.kind = .classObject ∧ t < .object → v.content = u.content))
        w.values d.values := by
  intro w d
  have hgists : d.gists t = w.gists t :=
    (ValueSet.gists_ofList hheld m).trans (hs.sound.gists_widenThrough hheld _ _ l hend).2.symm
  have hlawful : ∀ u ∈ d.values, Origin.Lawful u.content :=
    (ValueSet.soundOn_ofList_of_lawful Origin.lawfulOn hheld m).values_mem
  rw [ValueSet.gists, ValueSet.gists, ← List.forall₂_eq_eq_eq, List.forall₂_map_left_iff,
    List.forall₂_map_right_iff] at hgists
  have hpairs := (List.forall₂_and_left d.values w.values).mpr ⟨hlawful, hgists⟩
  refine ⟨?_, (hpairs.imp ?_).flip⟩
  · rw [← w.length_values, ← d.length_values, hgists.length_eq]
  · rintro u v ⟨hu, huv⟩
    refine ⟨Origin.unionEq_of_gist_eq hu huv.symm, fun hkind => ?_⟩
    apply Origin.eq_of_gist_eq huv.symm
    · intro htally
      simp [htally] at hkind
    · rintro rfl hclass
      simp [hclass] at hkind

/-- Two classes, two constants, a module and two tallies of one name, widened in two steps. The
classes become the ancestor they share. -/
theorem widen_agrees_with_ofList_mixed :
    let made := ValueSet.ofList .identity [⟨0, .classObject ⟨"C", ["B", "A"]⟩⟩,
      ⟨1, .constant (.ofInt 1)⟩, ⟨2, .tally (.once (some "T") "p")⟩,
      ⟨3, .classObject ⟨"D", ["B", "A"]⟩⟩, ⟨4, .constant (.ofInt 2)⟩,
      ⟨5, .tally (.once (some "T") "q")⟩, ⟨6, .moduleObject ⟨"m"⟩⟩] ⟨7, true⟩
    let s := made.1
    let w := (s.widen ⟨4, .plain, .object⟩ made.2).1.set
    let d := (ValueSet.ofList (.union .baseClass) s.values made.2).1
    (s.Reachable ∧ (∀ v ∈ s.values, Origin.Lawful v.content) ∧
      w.comparer = .union .baseClass) ∧
      w.values.map (·.content) = [.classObject ⟨"B", ["A"]⟩, .constant (.bare "int"),
        .tally ⟨some "T", [("p", 1), ("q", 1)]⟩, .moduleObject ⟨"m"⟩] ∧
      (w.size = 4 ∧ w.size = d.size) ∧
      List.Forall₂ (fun v u => unionEq .baseClass v.content u.content = true)
        w.values d.values := by
  intro made s w d
  have hs : s.Reachable := ValueSet.reachable_ofList _ _ _
  have hheld : ∀ v ∈ s.values, Origin.Lawful v.content := by decide +kernel
  have hend : w.comparer = .union .baseClass := by decide +kernel
  obtain ⟨hsize, hpairs⟩ :=
    widen_agrees_with_ofList hs hheld ⟨4, .plain, .object⟩ made.2 made.2 hend
  exact ⟨⟨hs, hheld, hend⟩, by decide +kernel, ⟨by decide +kernel, hsize⟩,
    hpairs.imp fun _ _ h => h.1⟩

end AbstractSets
