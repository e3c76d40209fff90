import AbstractSets.Proofs.Placement
import AbstractSets.Proofs.Runs
import AbstractSets.Proofs.Tallies

/-!
# Which values a set contains

Looking a value up agrees with comparing it to every value held, for the small sets by
definition and for tables because their index is right. That the index is right is kept by each
operation on tables on its own, also in the middle of `absorb`, where the entry that is being
replaced still has its old value and hash.

For lawful kinds what a set contains can be followed through an insertion. The merged value
takes the place of one that it is equal to, so what was contained stays contained, and nothing
comes in but what is equal to the new value.
-/

namespace AbstractSets

open Kind

namespace Table

section

variable {α : Type} [Kind α]

theorem Filed.foldl_push {t : Table α} (ht : t.Filed) (vs : List (Value α)) :
    (vs.foldl Table.push t).Filed := by
  induction vs generalizing t with
  | nil => exact ht
  | cons v vs ih => exact ih (ht.push v)

end

variable {α : Type} [DecidableEq α] [Kind α]

theorem filed_ofDistinct (c : Comparer) (vs : List (Value α)) (l : Ledger) :
    (ofDistinct c vs l).1.Filed := by
  rw [ofDistinct, Supply.bind_apply, pushAll_fst]
  exact (filed_empty c _).foldl_push vs

theorem Filed.absorb {t : Table α} (ht : t.Filed) {i : Nat} (hi : i < t.size)
    (merged : Value α) (l : Ledger) : (t.absorb i merged l).1.Filed := by
  induction t, i, merged using Table.absorb.induct generalizing l with
  | case1 t i merged hf =>
    rw [Table.absorb, hf]
    exact ht.set hi merged
  | case2 t i merged j hf ih =>
    rw [Table.absorb, hf]
    exact ih _ (ht.swapRemove j) (slot_lt_size_swapRemove hi hf) _

end Table

/-- In a set that some run makes, looking a value up agrees with comparing it to all values
held, and a table has every position filed once, under the hash kept with its entry, which is
the hash of the value there. Tables are made that way, and pushing, writing over, taking out and
absorbing entries keep them so. -/
theorem contains_iff_linear_search {α : Type} [DecidableEq α] [Kind α] [Coherent α] :
    (∀ s : ValueSet α, s.Reachable →
      (∀ v, s.contains v = true ↔ ∃ w ∈ s.values, s.comparer.equal w v = true) ∧
        ∀ t, s = .many t → t.Filed) ∧
    (∀ (c : Comparer) (vs : List (Value α)) (l : Ledger), (Table.ofDistinct c vs l).1.Filed) ∧
    ∀ t : Table α, t.Filed →
      (∀ v, (t.find? v).isSome = true ↔ ∃ w ∈ t.values, t.comparer.equal w v = true) ∧
        (∀ v, (t.push v).Filed) ∧ (∀ i, (t.swapRemove i).Filed) ∧
        ∀ i, i < t.size → ∀ v, (t.set i v).Filed ∧ ∀ l, (t.absorb i v l).1.Filed := by
  refine ⟨fun s hs => ⟨hs.sound.contains_iff, ?_⟩, Table.filed_ofDistinct, fun t ht => ?_⟩
  · rintro t rfl
    exact hs.sound.1.filed
  · exact ⟨ht.isSome_find?_iff, ht.push, ht.swapRemove,
      fun i hi v => ⟨ht.set hi v, ht.absorb hi v⟩⟩

/-- Five intervals, the first three of which have gone into one that overlaps them all. What
moved up in the table is still found. -/
theorem contains_iff_linear_search_moved :
    let xs : List (Value Origin) :=
      [⟨0, .interval ⟨0, 1⟩⟩, ⟨1, .interval ⟨3, 4⟩⟩, ⟨2, .interval ⟨6, 7⟩⟩,
        ⟨3, .interval ⟨9, 10⟩⟩, ⟨4, .interval ⟨12, 13⟩⟩, ⟨5, .interval ⟨1, 6⟩⟩]
    let s := (ValueSet.ofList (.union .plain) xs ⟨6, true⟩).1
    s.Reachable ∧ s.representation = .many ∧ s.size = 3 ∧
      s.contains ⟨6, .interval ⟨13, 20⟩⟩ = true ∧ s.contains ⟨7, .interval ⟨8, 8⟩⟩ = false := by
  intro xs s
  have hs : s.Reachable := ValueSet.reachable_ofList _ _ _
  have hsearch := ((contains_iff_linear_search (α := Origin)).1 s hs).1
  refine ⟨hs, by decide +kernel, by decide +kernel, (hsearch _).mpr ?_, ?_⟩
  · decide +kernel
  · rw [Bool.eq_false_iff, Ne, hsearch]
    decide +kernel

namespace ValueSet

variable {α : Type} [DecidableEq α] [Kind α] [Coherent α] {P : α → Prop} (law : LawfulOn P)
  {s t : ValueSet α} {x w : Value α}

include law

theorem exists_equal_place_iff {c : Comparer} {vs : List (Value α)}
    (hvs : ∀ v ∈ vs, P v.content) (hx : P x.content) (hw : P w.content) (l : Ledger) :
    (∃ v ∈ place c x l vs, c.equal v w = true) ↔
      (∃ v ∈ vs, c.equal v w = true) ∨ c.equal x w = true := by
  apply exists_mem_upsert_iff
  · intro v hv hvx
    have hP := Comparer.merge_mem law (hvs v hv) hx hvx l
    have hequal := Comparer.equal_merge law (hvs v hv) hx hvx l
    constructor
    · exact Comparer.equal_trans law (hvs v hv) hP hw hequal
    · exact Comparer.equal_trans law hP (hvs v hv) hw (Comparer.equal_symm hequal)
  · intro v hv hvx hxw
    exact Comparer.equal_trans law (hvs v hv) hx hw hvx hxw

theorem Sound.contains_insert_iff (hs : s.Sound) (hP : ∀ v ∈ s.values, P v.content)
    (hx : P x.content) (hw : P w.content) (l : Ledger) :
    (s.insert x l).1.1.contains w = true ↔
      s.contains w = true ∨ s.comparer.equal x w = true := by
  obtain ⟨hsound, hcomparer⟩ := (hs.gives_insert x l).1
  rw [hsound.contains_iff, hcomparer, hs.values_insert law hP hx, hs.contains_iff]
  exact exists_equal_place_iff law hP hx hw l

theorem Sound.contains_insertAll_iff (hs : s.Sound) (hP : ∀ v ∈ s.values, P v.content)
    {xs : List (Value α)} (hxs : ∀ x ∈ xs, P x.content) (hw : P w.content) (l : Ledger) :
    (s.insertAll xs l).1.1.contains w = true ↔
      s.contains w = true ∨ ∃ x ∈ xs, s.comparer.equal x w = true := by
  induction xs generalizing s l with
  | nil => simp [insertAll]
  | cons x xs ih =>
    obtain ⟨hx, hrest⟩ := List.forall_mem_cons.mp hxs
    obtain ⟨hsound, hcomparer⟩ := (hs.gives_insert x l).1
    have hlater := ih hsound (hs.values_mem_insert law hP hx l) hrest (s.insert x l).2
    rw [hs.contains_insert_iff law hP hx hw, hcomparer, or_assoc] at hlater
    rw [List.exists_mem_cons_iff]
    exact hlater

theorem Sound.contains_union_iff (hs : s.Sound) (ht : t.Sound)
    (hP : ∀ v ∈ s.values, P v.content) (hQ : ∀ v ∈ t.values, P v.content) (hw : P w.content)
    (l : Ledger) :
    (s.union t l).1.1.contains w = true ↔
      s.contains w = true ∨ ∃ v ∈ t.values, s.comparer.equal v w = true := by
  rcases s.union_cases t with ⟨hnil, hcomparer, heq⟩ | heq
  · rw [heq, hs.contains_iff, hnil, hcomparer]
    simpa using ht.contains_iff w
  · rw [heq]
    exact hs.contains_insertAll_iff law hP hQ hw l

end ValueSet

/-- Under a lawful kind, what a set contains after an insertion is what it contained before and
what is equal to the new value; and what it contains after a union is what it contained before
and what is equal, under its own comparer, to some value of the other set. Constants, classes,
functions, modules and tallies are lawful. -/
theorem contains_after_insert_or_union {α : Type} [DecidableEq α] [Kind α] [Coherent α]
    {P : α → Prop} (law : LawfulOn P) {s t : ValueSet α} (hs : s.Reachable) (ht : t.Reachable)
    (hheld : ∀ v ∈ s.values, P v.content) (hother : ∀ v ∈ t.values, P v.content)
    {v w : Value α} (hv : P v.content) (hw : P w.content) (l : Ledger) :
    ((s.insert v l).1.1.contains w = true ↔
      s.contains w = true ∨ s.comparer.equal v w = true) ∧
    ((s.union t l).1.1.contains w = true ↔
      s.contains w = true ∨ ∃ u ∈ t.values, s.comparer.equal u w = true) ∧
    LawfulOn Origin.Lawful :=
  ⟨hs.sound.contains_insert_iff law hheld hv hw l,
    hs.sound.contains_union_iff law ht.sound hheld hother hw l, Origin.lawfulOn⟩

/-- A tally is not in a set of another tally, a class and a module. It is in their union with an
identity set that has a tally of its name. -/
theorem contains_after_insert_or_union_mixed :
    let s := (ValueSet.ofList (.union .baseClass) [⟨0, .classObject ⟨"C", ["B", "A"]⟩⟩,
      ⟨1, .tally (.once (some "T") "p")⟩, ⟨2, .moduleObject ⟨"m"⟩⟩] ⟨10, true⟩).1
    let t := (ValueSet.ofList .identity [⟨3, .constant (.ofInt 1)⟩,
      ⟨4, .tally (.once (some "U") "q")⟩] ⟨10, true⟩).1
    let v : Value Origin := ⟨5, .classObject ⟨"D", ["B", "A"]⟩⟩
    let w : Value Origin := ⟨6, .tally (.once (some "U") "r")⟩
    (s.Reachable ∧ t.Reachable ∧ (∀ v ∈ s.values, Origin.Lawful v.content) ∧
      ∀ v ∈ t.values, Origin.Lawful v.content) ∧
      (s.insert v ⟨10, true⟩).1.1.contains w = false ∧
      (s.union t ⟨10, true⟩).1.1.contains w = true := by
  intro s t v w
  have hs : s.Reachable := ValueSet.reachable_ofList _ _ _
  have ht : t.Reachable := ValueSet.reachable_ofList _ _ _
  have hheld : ∀ v ∈ s.values, Origin.Lawful v.content := by decide +kernel
  have hother : ∀ v ∈ t.values, Origin.Lawful v.content := by decide +kernel
  obtain ⟨hinsert, hunion, -⟩ := contains_after_insert_or_union Origin.lawfulOn hs ht hheld hother
    (v := v) (w := w) trivial trivial ⟨10, true⟩
  refine ⟨⟨hs, ht, hheld, hother⟩, ?_, hunion.mpr (Or.inr ?_)⟩
  · rw [Bool.eq_false_iff, Ne, hinsert]
    decide +kernel
  · decide +kernel

end AbstractSets
