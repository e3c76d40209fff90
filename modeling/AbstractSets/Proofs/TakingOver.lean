import AbstractSets.Proofs.Lockstep
import AbstractSets.Proofs.Runs

/-!
# Taking a set over is adding its values

An empty set takes over a set of its own comparer as it is, with its table. Adding the values of
that set one by one would give the same values in the same order, since no two of them are equal.

A table that is taken over can have its positions filed in another order than one that is filled
anew, and this order decides which of several equal entries is found. If equality is transitive
there are never several, and a union of many sets comes to what making a set from all their values
does. If it is not, what comes in afterwards can meet another entry first, and the values can end
up in another order. Merging has to go by contents as well: the two ways draw different numbers,
and a merge that writes them into the contents shows it.
-/

namespace AbstractSets

open Kind Supply

namespace ValueSet

variable {α : Type} [DecidableEq α] [Kind α] {P : α → Prop} {fixed : Value α → Prop}
  {l₀ m₀ : Ledger} {T : Value α → Value α → Prop} {a b s t : ValueSet α}

theorem insertAll_append (s : ValueSet α) (xs ys : List (Value α)) :
    s.insertAll (xs ++ ys) = do
      let p ← s.insertAll xs
      let q ← p.1.insertAll ys
      return (q.1, p.2 || q.2) := by
  induction xs generalizing s with
  | nil => rfl
  | cons x xs ih =>
    funext l
    simp [insertAll, ih, Bool.or_assoc]

variable [Coherent α]

theorem Sound.advances_insertAll_of_distinct (hs : s.Sound) {xs : List (Value α)}
    (h : s.comparer.Distinct (s.values ++ xs)) : (s.insertAll xs).Advances := by
  intro l
  induction xs generalizing s l with
  | nil => exact le_rfl
  | cons x xs ih =>
    obtain ⟨hsound, -, hrest, heq⟩ := hs.insertAll_cons_of_distinct h l
    rw [heq]
    exact (advances_append s x l).trans (ih hsound hrest _)

theorem Sound.insertAll_empty (ht : t.Sound) (l : Ledger) :
    let made := ((empty t.comparer).insertAll t.values l).1
    made.1.SoundUnder t.comparer ∧ made.1.values = t.values ∧ made.2 = !t.isEmpty := by
  have hempty : (empty t.comparer : ValueSet α).Sound := trivial
  refine ⟨(hempty.gives_insertAll t.values l).1, ?_, ?_⟩
  · exact hempty.values_insertAll_of_distinct ht.distinct l
  · rw [ht.isEmpty_eq]
    exact hempty.changed_insertAll_of_distinct ht.distinct l

/-- Adding a set to one of two that mirror each other, and its values to the other. -/
theorem Mirrors.inStep_union (law : TransitiveOn P fixed) (h : Mirrors T a b) (ht : t.Sound)
    (hT : ∀ v ∈ t.values, T v v) :
    InStep P fixed l₀ m₀ T (a.union t) (b.insertAll t.values)
      fun T' p q => Mirrors T' p.1 q.1 := by
  rcases a.union_cases t with ⟨hnil, hcomparer, heq⟩ | heq
  · have hnil' : b.values = [] := by
      rw [← List.length_eq_zero_iff, ← h.paired.length_eq, hnil, List.length_nil]
    have hdistinct : b.comparer.Distinct (b.values ++ t.values) := by
      rw [hnil', List.nil_append, ← h.comparer_eq, hcomparer]
      exact ht.distinct
    rw [heq]
    refine .of_advances (fun _ => le_rfl)
      (h.sound_right.advances_insertAll_of_distinct hdistinct) fun l m => ?_
    obtain ⟨hsound, hkept⟩ := (h.sound_right.gives_insertAll t.values m).1
    refine ⟨ht, hsound, hcomparer.symm.trans (h.comparer_eq.trans hkept.symm), ?_⟩
    rw [h.sound_right.values_insertAll_of_distinct hdistinct, hnil', List.nil_append]
    exact List.forall₂_same.mpr hT
  · rw [heq]
    exact h.inStep_insertAll law hT

theorem Mirrors.inStep_unions (law : TransitiveOn P fixed) {sets : List (ValueSet α)}
    (h : Mirrors T a b) (hsets : ∀ t ∈ sets, t.Sound)
    (hT : ∀ t ∈ sets, ∀ v ∈ t.values, T v v) :
    InStep P fixed l₀ m₀ T (sets.foldlM (fun s t => return (← s.union t).1) a)
      (b.insertAll (sets.flatMap (·.values))) fun T' a' q => Mirrors T' a' q.1 := by
  induction sets generalizing a b T with
  | nil => exact .pure h
  | cons t sets ih =>
    obtain ⟨ht, hrest⟩ := List.forall_mem_cons.mp hsets
    obtain ⟨hTt, hTrest⟩ := List.forall_mem_cons.mp hT
    have hfirst : InStep P fixed l₀ m₀ T (do return (← a.union t).1) (b.insertAll t.values)
        fun T' a' q => Mirrors T' a' q.1 := h.inStep_union law ht hTt
    rw [List.foldlM_cons, List.flatMap_cons, insertAll_append]
    refine hfirst.bind fun l m T' hle hmirrors => ?_
    exact ih hmirrors hrest fun u hu v hv => hle _ _ (hTrest u hu v hv)

theorem exists_pairing_unionAll_ofList (law : TransitiveOn P fixed) (c : Comparer)
    {sets : List (ValueSet α)} (hsets : ∀ t ∈ sets, t.Sound)
    {l m : Ledger}
    (hfixed : ∀ u, fixed u → P u.content ∧ u.id < l.next ∧ u.id < m.next)
    (hvalues : ∀ t ∈ sets, ∀ v ∈ t.values, P v.content ∧ v.id < l.next ∧ v.id < m.next) :
    let joined := unionAll c sets l
    let made := ofList c (sets.flatMap (·.values)) m
    ∃ T, Pairing P fixed l m T joined.2 made.2 ∧ Mirrors T joined.1 made.1 := by
  let known (v : Value α) : Prop := fixed v ∨ ∃ t ∈ sets, v ∈ t.values
  have hknown : ∀ v, known v → P v.content ∧ v.id < l.next ∧ v.id < m.next := by
    rintro v (hv | ⟨t, ht, hv⟩)
    · exact hfixed v hv
    · exact hvalues t ht v hv
  let same (v w : Value α) : Prop := v = w ∧ known v
  have hstart : Pairing P fixed l m same l m :=
    { content := fun hT => congrArg _ hT.1
      mem := fun hT => (hknown _ hT.2).1
      aligned := fun hT hT' => by rw [hT.1, hT'.1]
      issued := fun ⟨hvw, hv⟩ => ⟨(hknown _ hv).2.1, hvw ▸ (hknown _ hv).2.2⟩
      kept_or_made := fun hT => Or.inl hT.1
      fixed_mem := fun hu => ⟨rfl, Or.inl hu⟩
      started := ⟨le_rfl, le_rfl⟩ }
  have hempty : Mirrors same (empty c) (empty c) := ⟨trivial, trivial, rfl, .nil⟩
  obtain ⟨T, -, hpairing, hmirrors⟩ :=
    hempty.inStep_unions law hsets (fun t ht v hv => ⟨rfl, Or.inr ⟨t, ht, hv⟩⟩) l m hstart
  exact ⟨T, hpairing, hmirrors⟩

end ValueSet

open ValueSet

/-- An empty set that takes another one over has the flag, the representation and the values that it
would have if they were inserted one by one. Where equality is transitive and merging goes by
contents, so does a union of any sets, whatever their comparers, and making a set from all their
values: the contents are the same place by place, and either the values are as well or both have
been made on the way. -/
theorem unionAll_agrees_with_insertion {α : Type} [DecidableEq α] [Kind α] [Coherent α] :
    (∀ t : ValueSet α, t.Reachable → ∀ l m : Ledger,
      let taken := ((empty t.comparer).union t l).1
      let built := ((empty t.comparer).insertAll t.values m).1
      taken.2 = built.2 ∧ taken.1.representation = built.1.representation ∧
        taken.1.values = built.1.values) ∧
    ∀ (P : α → Prop) (fixed : Value α → Prop), TransitiveOn P fixed →
      ∀ (c : Comparer) (sets : List (ValueSet α)) (l m : Ledger), (∀ t ∈ sets, t.Reachable) →
        (∀ u, fixed u → P u.content ∧ u.id < l.next ∧ u.id < m.next) →
        (∀ t ∈ sets, ∀ v ∈ t.values, P v.content ∧ v.id < l.next ∧ v.id < m.next) →
        let joined := (unionAll c sets l).1
        let made := (ofList c (sets.flatMap (·.values)) m).1
        joined.comparer = made.comparer ∧ joined.representation = made.representation ∧
          List.Forall₂ (fun v w => v.content = w.content ∧
            (v = w ∨ l.next ≤ v.id ∧ m.next ≤ w.id)) joined.values made.values := by
  constructor
  · intro t ht l m taken built
    obtain ⟨⟨hsound, -⟩, hvalues, hflag⟩ := ht.sound.insertAll_empty m
    have htaken : taken = (t, !t.isEmpty) := by
      simp [taken, union, isEmpty, comparer]
    rw [htaken, ht.sound.representation_eq, hsound.representation_eq, hvalues, hflag]
    exact ⟨rfl, rfl, rfl⟩
  · intro P fixed law c sets l m hreachable hfixed hvalues joined made
    obtain ⟨T, hpairing, hmirrors⟩ := exists_pairing_unionAll_ofList law c
      (fun t ht => (hreachable t ht).sound) hfixed hvalues
    refine ⟨hmirrors.comparer_eq, hmirrors.representation_eq, ?_⟩
    exact hmirrors.paired.imp fun v w hT =>
      ⟨hpairing.content hT, hpairing.kept_or_made hT⟩

namespace Origin

theorem kind_content_map {κ : Type} (embed : κ → Origin) {k : OriginKind}
    (hkind : ∀ x, (embed x).kind = k) (choice : Choice κ) (a b : κ) :
    ((choice.map embed).content (embed a) (embed b)).kind = k := by
  rw [Choice.content_map, hkind]

theorem kind_content_merge (s : Strength) {a b : Origin} (h : a.kind = b.kind) :
    ((merge s a b).content a b).kind = a.kind := by
  cases a <;> cases b <;> try cases h
  case constant a b => exact kind_content_map constant (fun _ => rfl) (a.merge b) a b
  case classObject a b => exact kind_content_map classObject (fun _ => rfl) (a.merge s b) a b
  case functionObject a b => exact kind_content_map functionObject (fun _ => rfl) (a.merge b) a b
  case moduleObject a b => exact kind_content_map moduleObject (fun _ => rfl) (a.merge b) a b
  case tally a b => exact kind_content_map tally (fun _ => rfl) (a.merge b) a b
  case interval a b => exact kind_content_map interval (fun _ => rfl) (a.merge b) a b
  case relabel a b => exact kind_content_map relabel (fun _ => rfl) (a.merge b) a b

/-- Overlap is the only equality of origins that is not transitive. -/
theorem transitiveOn : TransitiveOn (fun a : Origin => a.kind ≠ .interval) fun _ => False where
  trans {s a b c} ha _ _ hab hbc := by
    cases a with
    | interval i => exact absurd rfl ha
    | relabel r =>
      cases b <;> try cases hab
      cases c <;> try cases hbc
      simp_all [Kind.unionEq, unionEq, Relabel.unionEq]
    | _ => exact unionEq_trans_of_lawful trivial hab hbc
  merge_alike {s v w v' w'} _ _ _ hv hw := by
    change Merged.Alike _ v w v' w' ((merge s v.content w.content).between v w)
      ((merge s v'.content w'.content).between v' w')
    rw [← hv, ← hw]
    exact Choice.alike_between _ v w v' w'
  merge_mem {s v w} hv _ h := by
    rw [content_unionMerge]
    exact (kind_content_merge s (kind_eq_of_unionEq h)).trans_ne hv

end Origin

/-- The set that is taken over has merged classes, and one that keeps everything apart brings a
value that makes two others of it equal. -/
theorem unionAll_agrees_with_insertion_rekeyed :
    let c : Comparer := .union .baseClass
    let s : ValueSet Origin := (ofList c [⟨0, .classObject ⟨"C", ["B", "A"]⟩⟩,
      ⟨1, .relabel ⟨"j", none⟩⟩, ⟨2, .relabel ⟨"k", none⟩⟩,
      ⟨3, .classObject ⟨"D", ["B", "A"]⟩⟩, ⟨4, .moduleObject ⟨"m"⟩⟩] ⟨10, true⟩).1
    let t : ValueSet Origin := (ofList .identity [⟨5, .relabel ⟨"k", some "j"⟩⟩,
      ⟨6, .tally (.once none "p")⟩, ⟨7, .classObject ⟨"E", ["A"]⟩⟩,
      ⟨8, .tally (.once none "q")⟩] ⟨10, true⟩).1
    let sets : List (ValueSet Origin) := [empty .identity, s, t]
    let taken := ((empty c).union s ⟨20, true⟩).1
    let built := ((empty c).insertAll s.values ⟨30, true⟩).1
    let joined := (unionAll c sets ⟨20, true⟩).1
    let made := (ofList c (sets.flatMap (·.values)) ⟨30, true⟩).1
    (∀ u ∈ sets, u.Reachable) ∧
      (∀ u ∈ sets, ∀ v ∈ u.values, v.content.kind ≠ .interval ∧ v.id < 20 ∧ v.id < 30) ∧
      joined.values = [⟨23, .classObject ⟨"A", []⟩⟩, ⟨4, .moduleObject ⟨"m"⟩⟩,
        ⟨20, .relabel ⟨"j", none⟩⟩, ⟨25, .tally ⟨none, [("p", 1), ("q", 1)]⟩⟩] ∧
      (taken.2 = built.2 ∧ taken.1.representation = built.1.representation ∧
        taken.1.values = built.1.values) ∧
      joined.comparer = made.comparer ∧ joined.representation = made.representation ∧
      List.Forall₂ (fun v w => v.content = w.content ∧ (v = w ∨ 20 ≤ v.id ∧ 30 ≤ w.id))
        joined.values made.values := by
  intro c s t sets taken built joined made
  have hempty : (empty .identity : ValueSet Origin).Reachable :=
    reachable_ofList .identity [] ⟨10, true⟩
  have hs : s.Reachable := reachable_ofList _ _ _
  have ht : t.Reachable := reachable_ofList _ _ _
  have hsets : ∀ u ∈ sets, u.Reachable := by
    intro u hu
    rcases List.mem_cons.mp hu with rfl | hu
    · exact hempty
    rcases List.mem_cons.mp hu with rfl | hu
    · exact hs
    · rw [List.mem_singleton.mp hu]
      exact ht
  have hvalues : ∀ u ∈ sets, ∀ v ∈ u.values,
      v.content.kind ≠ .interval ∧ v.id < 20 ∧ v.id < 30 := by
    decide +kernel
  obtain ⟨htaken, hunions⟩ := unionAll_agrees_with_insertion (α := Origin)
  have hsame : s.comparer = c := by decide +kernel
  have hover := htaken s hs ⟨20, true⟩ ⟨30, true⟩
  rw [hsame] at hover
  have hjoined := hunions _ _ Origin.transitiveOn c sets ⟨20, true⟩ ⟨30, true⟩ hsets
    (fun _ => False.elim) hvalues
  exact ⟨hsets, hvalues, by decide +kernel, hover, hjoined⟩

/-- Overlapping intervals, where it does make a difference. The first set has moved one of its
entries, and in its table this entry is still filed where it was. The interval that comes in next
overlaps this entry and another, and meets the one or the other first. -/
theorem unionAll_differs_for_overlap :
    let c : Comparer := .union .plain
    let s : ValueSet Origin := (ofList c [⟨0, .interval ⟨0, 1⟩⟩, ⟨1, .interval ⟨3, 4⟩⟩,
      ⟨2, .interval ⟨10, 11⟩⟩, ⟨3, .interval ⟨20, 21⟩⟩, ⟨4, .interval ⟨13, 14⟩⟩,
      ⟨5, .interval ⟨1, 3⟩⟩] ⟨7, true⟩).1
    let t : ValueSet Origin := (ofList c [⟨6, .interval ⟨11, 13⟩⟩] ⟨7, true⟩).1
    (s.Reachable ∧ t.Reachable ∧ s.comparer = c ∧ t.comparer = c) ∧
      (unionAll c [s, t] ⟨20, true⟩).1.values.map (·.content) =
        [.interval ⟨0, 4⟩, .interval ⟨20, 21⟩, .interval ⟨10, 14⟩] ∧
      (ofList c ([s, t].flatMap (·.values)) ⟨20, true⟩).1.values.map (·.content) =
        [.interval ⟨0, 4⟩, .interval ⟨10, 14⟩, .interval ⟨20, 21⟩] := by
  intro c s t
  have hs : s.Reachable := reachable_ofList _ _ _
  have ht : t.Reachable := reachable_ofList _ _ _
  exact ⟨⟨hs, ht, by decide +kernel, by decide +kernel⟩, by decide +kernel, by decide +kernel⟩

structure Trail where
  key : String
  last : Option Nat
  deriving DecidableEq, Repr

/-- Trails of one key are equal, and what two of them are merged into is not decided by their
contents. -/
instance : Kind Trail where
  unionEq _ a b := a.key == b.key
  unionHash _ a := Digest.ofText a.key
  unionMerge _ v _ := .made ⟨v.content.key, some v.id⟩

instance : Coherent Trail where
  unionEq_symm h := beq_iff_eq.mpr (beq_iff_eq.mp h).symm
  unionHash_eq h := congrArg Digest.ofText (beq_iff_eq.mp h)

/-- Equality is transitive here. Only the set that is filled anew draws a stamp for its table, which
shifts the numbers of the values made later. -/
theorem unionAll_differs_for_trails :
    let c : Comparer := .union .plain
    let s : ValueSet Trail :=
      (ofList c [⟨0, "a", none⟩, ⟨1, "b", none⟩, ⟨2, "c", none⟩] ⟨7, true⟩).1
    let t : ValueSet Trail := (ofList .identity [⟨3, "a", none⟩, ⟨4, "a", none⟩] ⟨7, true⟩).1
    (s.Reachable ∧ t.Reachable) ∧
      (∀ (q : Strength) (a b d : Trail), unionEq q a b = true → unionEq q b d = true →
        unionEq q a d = true) ∧
      (unionAll c [s, t] ⟨20, true⟩).1.values.map (·.content) =
        [⟨"a", some 20⟩, ⟨"b", none⟩, ⟨"c", none⟩] ∧
      (ofList c ([s, t].flatMap (·.values)) ⟨20, true⟩).1.values.map (·.content) =
        [⟨"a", some 21⟩, ⟨"b", none⟩, ⟨"c", none⟩] := by
  intro c s t
  have hs : s.Reachable := reachable_ofList _ _ _
  have ht : t.Reachable := reachable_ofList _ _ _
  have htrans (q : Strength) (a b d : Trail) (hab : unionEq q a b = true)
      (hbd : unionEq q b d = true) : unionEq q a d = true :=
    beq_iff_eq.mpr ((beq_iff_eq.mp hab).trans (beq_iff_eq.mp hbd))
  exact ⟨⟨hs, ht⟩, htrans, by decide +kernel, by decide +kernel⟩

end AbstractSets
