import Mathlib.Data.List.Pairwise
import AbstractSets.Proofs.Covering
import AbstractSets.Proofs.OriginLaws

/-!
# The order of arrival does not matter

What a set of joinable contents ends up with can be said without the order in which they
came: it covers each of them, and each content it holds is the least one that covers all
those equal to it. Two sets for which this holds of the same contents hold the same contents
themselves, because either of two contents that belong to one class covers the other.
-/

namespace AbstractSets

open Kind

variable {α : Type} [Kind α] {P : α → Prop} {join : Strength → α → α → α} {r : Strength}

/-- What there is to say about the contents `bs` of a set that has taken in just `as`. -/
structure SumsUp (P : α → Prop) (join : Strength → α → α → α) (r : Strength)
    (as bs : List α) : Prop where
  covered : ∀ a ∈ as, Covered join r bs a
  occurs : ∀ b ∈ bs, ∃ a ∈ as, unionEq r b a = true
  least : ∀ b ∈ bs, ∀ u, P u → unionEq r u b = true →
    (∀ a ∈ as, unionEq r u a = true → Covers join r u a) → Covers join r u b

theorem SumsUp.congr {as as' bs : List α} (h : SumsUp P join r as bs)
    (hsame : ∀ a, a ∈ as' ↔ a ∈ as) : SumsUp P join r as' bs where
  covered a ha := h.covered a ((hsame a).mp ha)
  occurs b hb := by
    obtain ⟨a, ha, hba⟩ := h.occurs b hb
    exact ⟨a, (hsame a).mpr ha, hba⟩
  least b hb u hu hub hall := h.least b hb u hu hub fun a ha => hall a ((hsame a).mpr ha)

section

variable [Coherent α]

instance : Std.Symm fun b c : α => unionEq r b c = false where
  symm _ _ h := Bool.eq_false_iff.mpr fun h' => Bool.eq_false_iff.mp h (Coherent.unionEq_symm h')

variable (law : JoinOn P join)

include law

theorem SumsUp.joinInto {as bs : List α} (h : SumsUp P join r as bs) (has : ∀ a ∈ as, P a)
    (hbs : ∀ b ∈ bs, P b) {a : α} (ha : P a) :
    SumsUp P join r (as ++ [a]) (joinInto join r a bs) := by
  refine ⟨?_, ?_, ?_⟩
  · intro c hc
    rcases List.mem_append.mp hc with hold | hnew
    · exact (h.covered c hold).joinInto law ha hbs (has c hold)
    · rw [List.mem_singleton.mp hnew]
      exact covered_joinInto_self law ha hbs
  · intro c hc
    rcases mem_upsert hc with hmem | rfl | ⟨b, hb, hequal, rfl⟩
    · obtain ⟨d, hd, hcd⟩ := h.occurs c hmem
      exact ⟨d, List.mem_append_left _ hd, hcd⟩
    · exact ⟨c, List.mem_concat_self, law.refl ha⟩
    · exact ⟨a, List.mem_concat_self, (covers_join_right law (hbs b hb) ha hequal).1⟩
  · intro c hc u hu huc hall
    have hold : ∀ d ∈ as, unionEq r u d = true → Covers join r u d :=
      fun d hd => hall d (List.mem_append_left _ hd)
    rcases mem_upsert hc with hmem | rfl | ⟨b, hb, hequal, rfl⟩
    · exact h.least c hmem u hu huc hold
    · exact hall c List.mem_concat_self huc
    · have hPb := hbs b hb
      have hPc := join_mem law hPb ha hequal
      have hub := law.trans hu hPc hPb huc (covers_join_left law hPb ha hequal).1
      have hua := law.trans hu hPc ha huc (covers_join_right law hPb ha hequal).1
      exact covers_join law hu hPb ha (h.least b hb u hu hub hold)
        (hall a List.mem_concat_self hua)

end

namespace ValueSet

variable [DecidableEq α] {s t : ValueSet α} (law : JoinOn P join)

include law

omit law in
theorem SoundOn.apart (hs : s.SoundOn P r) (lawful : LawfulOn P) :
    s.contents.Pairwise fun b c => unionEq r b c = false := by
  rw [contents, List.pairwise_map]
  refine hs.sound.distinct.imp_of_mem fun {v w} hv _ h => ?_
  rw [hs.comparer_eq, Bool.eq_false_iff] at h
  rw [Bool.eq_false_iff]
  intro hequal
  exact h ((Comparer.equal_union_iff lawful (hs.values_mem v hv)).mpr hequal)

theorem SoundOn.nodup_contents (hs : s.SoundOn P r) : s.contents.Nodup := by
  refine (hs.apart law.toLawfulOn).imp_of_mem fun {b c} hb _ h hbc => ?_
  subst hbc
  rw [law.refl (hs.contents_mem b hb)] at h
  cases h

variable [Coherent α] {as : List α}

theorem SoundOn.covers_of_equal (hs : s.SoundOn P r) (has : ∀ a ∈ as, P a)
    (h : SumsUp P join r as s.contents) {a b : α} (ha : a ∈ as) (hb : b ∈ s.contents)
    (hequal : unionEq r b a = true) : Covers join r b a := by
  obtain ⟨d, hd, hda⟩ := h.covered a ha
  have hdb : d = b := by
    by_contra hne
    have hfalse := (hs.apart law.toLawfulOn).forall hd hb hne
    have htrue := law.trans (hs.contents_mem d hd) (has a ha) (hs.contents_mem b hb) hda.1
      (Coherent.unionEq_symm hequal)
    rw [htrue] at hfalse
    cases hfalse
  rw [← hdb]
  exact hda

theorem SoundOn.mem_contents_of_sumsUp (hs : s.SoundOn P r) (ht : t.SoundOn P r)
    (has : ∀ a ∈ as, P a) (h : SumsUp P join r as s.contents)
    (h' : SumsUp P join r as t.contents) {b : α} (hb : b ∈ s.contents) : b ∈ t.contents := by
  obtain ⟨a, ha, hba⟩ := h.occurs b hb
  obtain ⟨c, hc, hca⟩ := h'.covered a ha
  have hPb := hs.contents_mem b hb
  have hPc := ht.contents_mem c hc
  have hcb := law.trans hPc (has a ha) hPb hca.1 (Coherent.unionEq_symm hba)
  -- Each of the two covers all that the other one is the least to cover.
  have hleft : Covers join r b c := by
    apply h'.least c hc b hPb (Coherent.unionEq_symm hcb)
    intro d hd hbd
    exact hs.covers_of_equal law has h hd hb hbd
  have hright : Covers join r c b := by
    apply h.least b hb c hPc hcb
    intro d hd hcd
    exact ht.covers_of_equal law has h' hd hc hcd
  rw [hleft.antisymm law hPb hPc hright]
  exact hc

theorem SoundOn.contents_perm (hs : s.SoundOn P r) (ht : t.SoundOn P r)
    (has : ∀ a ∈ as, P a) (h : SumsUp P join r as s.contents)
    (h' : SumsUp P join r as t.contents) : s.contents.Perm t.contents := by
  rw [List.perm_ext_iff_of_nodup (hs.nodup_contents law) (ht.nodup_contents law)]
  intro a
  constructor
  · exact hs.mem_contents_of_sumsUp law ht has h h'
  · exact ht.mem_contents_of_sumsUp law hs has h' h

theorem SoundOn.sumsUp_insertAll (hs : s.SoundOn P r) (has : ∀ a ∈ as, P a)
    (h : SumsUp P join r as s.contents) {xs : List (Value α)} (hxs : ∀ x ∈ xs, P x.content)
    (l : Ledger) :
    SumsUp P join r (as ++ xs.map (·.content)) (s.insertAll xs l).1.1.contents := by
  induction xs generalizing s as l with
  | nil =>
    rw [List.map_nil, List.append_nil]
    exact h
  | cons x xs ih =>
    obtain ⟨hx, hrest⟩ := List.forall_mem_cons.mp hxs
    have hnext := h.joinInto law has hs.contents_mem hx
    rw [← hs.contents_insert law hx l] at hnext
    have hlater := ih (hs.insert law.toLawfulOn hx l)
      (List.forall_mem_append.mpr ⟨has, List.forall_mem_singleton.mpr hx⟩) hnext hrest
      (s.insert x l).2
    rwa [List.append_assoc] at hlater

theorem sumsUp_ofList {xs : List (Value α)} (hxs : ∀ x ∈ xs, P x.content) (l : Ledger) :
    SumsUp P join r (xs.map (·.content)) (ofList (.union r) xs l).1.contents :=
  (soundOn_empty P r).sumsUp_insertAll law (List.forall_mem_nil _)
    ⟨List.forall_mem_nil _, List.forall_mem_nil _, List.forall_mem_nil _⟩ hxs l

theorem soundOn_ofList {xs : List (Value α)} (hxs : ∀ x ∈ xs, P x.content) (l : Ledger) :
    (ofList (.union r) xs l).1.SoundOn P r :=
  soundOn_ofList_of_lawful law.toLawfulOn hxs l

theorem SoundOn.setEquals_of_perm (hs : s.SoundOn P r) (ht : t.SoundOn P r)
    (h : s.contents.Perm t.contents) : s.setEquals t = true := by
  have hsize : s.size = t.size := by
    simpa [contents] using h.length_eq
  have hall : ∀ w ∈ t.values, s.contains w = true := by
    intro w hw
    have hmem : w.content ∈ s.contents := h.mem_iff.mpr (List.mem_map_of_mem hw)
    obtain ⟨v, hv, hvw⟩ := List.mem_map.mp hmem
    refine (hs.sound.contains_iff w).mpr ⟨v, hv, ?_⟩
    rw [hs.comparer_eq, Comparer.equal_union_iff law.toLawfulOn (hs.values_mem v hv), hvw]
    exact law.refl (ht.values_mem w hw)
  simp only [setEquals, Bool.and_eq_true, beq_iff_eq, List.all_eq_true]
  exact ⟨hsize, hall⟩

end ValueSet

/-- Two lists in which the same contents occur, in whatever order, however often and in
whichever values, make sets of the same size and the same contents, each equal to the other. -/
theorem ofList_union_irrespective_of_order (r : Strength) {xs ys : List (Value Origin)}
    (hxs : ∀ x ∈ xs, Origin.BuiltIn x.content)
    (hsame : ∀ a, a ∈ xs.map (·.content) ↔ a ∈ ys.map (·.content)) (l m : Ledger) :
    let s := (ValueSet.ofList (.union r) xs l).1
    let t := (ValueSet.ofList (.union r) ys m).1
    s.size = t.size ∧ (s.values.map (·.content)).Perm (t.values.map (·.content)) ∧
      s.setEquals t = true ∧ t.setEquals s = true := by
  intro s t
  have hys : ∀ y ∈ ys, Origin.BuiltIn y.content := by
    intro y hy
    obtain ⟨x, hx, hxy⟩ := List.mem_map.mp ((hsame _).mpr (List.mem_map_of_mem hy))
    exact hxy ▸ hxs x hx
  have hs : s.SoundOn Origin.BuiltIn r := ValueSet.soundOn_ofList Origin.joinOn hxs l
  have ht : t.SoundOn Origin.BuiltIn r := ValueSet.soundOn_ofList Origin.joinOn hys m
  have hsums := ValueSet.sumsUp_ofList Origin.joinOn (r := r) hxs l
  have hsums' := (ValueSet.sumsUp_ofList Origin.joinOn (r := r) hys m).congr hsame
  have has : ∀ a ∈ xs.map (·.content), Origin.BuiltIn a := by
    simpa using hxs
  have hperm : s.contents.Perm t.contents :=
    hs.contents_perm Origin.joinOn ht has hsums hsums'
  have hsize : s.size = t.size := by
    simpa [ValueSet.contents] using hperm.length_eq
  exact ⟨hsize, hperm, hs.setEquals_of_perm Origin.joinOn ht hperm,
    ht.setEquals_of_perm Origin.joinOn hs hperm.symm⟩

/-- Functions of one name from two modules, constants of one type and classes that share an
ancestor, in two orders. -/
theorem ofList_union_irrespective_of_order_mixed :
    let xs : List (Value Origin) :=
      [⟨0, .functionObject ⟨"b", "f"⟩⟩, ⟨1, .functionObject ⟨"a", "f"⟩⟩,
        ⟨2, .constant (.ofInt 1)⟩, ⟨3, .constant (.ofInt 2)⟩,
        ⟨4, .classObject ⟨"C", ["B", "A"]⟩⟩, ⟨5, .classObject ⟨"D", ["B", "A"]⟩⟩]
    let ys : List (Value Origin) :=
      [⟨9, .classObject ⟨"D", ["B", "A"]⟩⟩, ⟨2, .constant (.ofInt 2)⟩,
        ⟨1, .functionObject ⟨"a", "f"⟩⟩, ⟨7, .classObject ⟨"C", ["B", "A"]⟩⟩,
        ⟨8, .constant (.ofInt 2)⟩, ⟨3, .constant (.ofInt 1)⟩, ⟨0, .functionObject ⟨"b", "f"⟩⟩]
    let s := (ValueSet.ofList (.union .anyOrigin) xs ⟨6, true⟩).1
    let t := (ValueSet.ofList (.union .anyOrigin) ys ⟨10, true⟩).1
    (∀ x ∈ xs, Origin.BuiltIn x.content) ∧
      (∀ a, a ∈ xs.map (·.content) ↔ a ∈ ys.map (·.content)) ∧
      s.values.map (·.content) = [.functionObject ⟨"a", "f"⟩, .constant (.bare "int"),
        .classObject ⟨"B", ["A"]⟩] ∧
      s.size = t.size ∧ (s.values.map (·.content)).Perm (t.values.map (·.content)) ∧
      s.setEquals t = true ∧ t.setEquals s = true := by
  intro xs ys s t
  have hxs : ∀ x ∈ xs, Origin.BuiltIn x.content := by decide
  have hsame : ∀ a, a ∈ xs.map (·.content) ↔ a ∈ ys.map (·.content) := by
    intro a
    simp only [xs, ys, List.map_cons, List.map_nil, List.mem_cons, List.not_mem_nil, or_false]
    tauto
  have hsets := ofList_union_irrespective_of_order .anyOrigin hxs hsame ⟨6, true⟩ ⟨10, true⟩
  exact ⟨hxs, hsame, by decide +kernel, hsets⟩

end AbstractSets
