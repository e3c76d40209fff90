import AbstractSets.Proofs.Placement

/-!
# Covering

Where merging is a join, a content covers another one if it is equal to it and joining the
other into it gives nothing new. Among equal contents this is an order, in which the join of
two is the least content that covers both.

Inserting a value acts on the contents of a set as `joinInto`. All that was covered stays
covered, the new content is covered from now on, and an insertion of something covered does
nothing at all.
-/

namespace AbstractSets

open Kind

section

variable {α : Type} [Kind α] (join : Strength → α → α → α) (r : Strength)

/-- `b` is equal to `a`, and joining `a` into it leaves it as it is. -/
def Covers (b a : α) : Prop := unionEq r b a = true ∧ join r b a = b

/-- Some content of the list covers `a`. -/
def Covered (bs : List α) (a : α) : Prop := ∃ b ∈ bs, Covers join r b a

/-- Join `a` into the first content equal to it, or add it at the end. -/
def joinInto (a : α) : List α → List α :=
  upsert (unionEq r · a) (join r · a) a

end

section

variable {α : Type} [Kind α] {P : α → Prop} {join : Strength → α → α → α} {r : Strength}
  {a b c u : α} {bs : List α}

variable (law : JoinOn P join)

include law

theorem join_mem (ha : P a) (hb : P b) (h : unionEq r a b = true) : P (join r a b) := by
  have hmem := law.merge_mem (v := ⟨0, a⟩) (w := ⟨1, b⟩) ha hb h
  rwa [law.content_merge ha hb h] at hmem

theorem equal_join (ha : P a) (hb : P b) (h : unionEq r a b = true) :
    unionEq r a (join r a b) = true := by
  have hequal := law.merge_equal (v := ⟨0, a⟩) (w := ⟨1, b⟩) ha hb h
  rwa [law.content_merge ha hb h] at hequal

theorem meldsOn (r : Strength) : MeldsOn P join r where
  trans := law.trans
  join_mem := join_mem law
  equal_join := equal_join law
  join_comm := law.join_comm
  join_assoc := law.join_assoc

theorem Covers.refl (ha : P a) : Covers join r a a :=
  ⟨law.refl ha, law.join_self ha⟩

theorem Covers.trans (ha : P a) (hb : P b) (hc : P c) (hab : Covers join r a b)
    (hbc : Covers join r b c) : Covers join r a c := by
  refine ⟨law.trans ha hb hc hab.1 hbc.1, ?_⟩
  calc
    join r a c = join r (join r a b) c := by rw [hab.2]
    _ = join r a (join r b c) := law.join_assoc ha hb hc hab.1 hbc.1
    _ = join r a b := by rw [hbc.2]
    _ = a := hab.2

theorem Covers.antisymm (ha : P a) (hb : P b) (hab : Covers join r a b)
    (hba : Covers join r b a) : a = b := by
  calc
    a = join r a b := hab.2.symm
    _ = join r b a := law.join_comm ha hb hab.1
    _ = b := hba.2

omit law in
theorem joinInto_mem_of_join (hjoin : ∀ {a b}, P a → P b → unionEq r a b = true → P (join r a b))
    (ha : P a) (hbs : ∀ b ∈ bs, P b) : ∀ b ∈ joinInto join r a bs, P b := by
  intro d hd
  rcases mem_upsert hd with hmem | rfl | ⟨b, hb, hequal, rfl⟩
  · exact hbs d hmem
  · exact ha
  · exact hjoin (hbs b hb) ha hequal

theorem joinInto_mem (ha : P a) (hbs : ∀ b ∈ bs, P b) : ∀ b ∈ joinInto join r a bs, P b :=
  joinInto_mem_of_join (join_mem law) ha hbs

variable [Coherent α]

theorem covers_join_right (ha : P a) (hb : P b) (h : unionEq r a b = true) :
    Covers join r (join r a b) b := by
  have hab := join_mem law ha hb h
  refine ⟨law.trans hab ha hb (Coherent.unionEq_symm (equal_join law ha hb h)) h, ?_⟩
  rw [law.join_assoc ha hb hb h (law.refl hb), law.join_self hb]

theorem covers_join_left (ha : P a) (hb : P b) (h : unionEq r a b = true) :
    Covers join r (join r a b) a := by
  rw [law.join_comm ha hb h]
  exact covers_join_right law hb ha (Coherent.unionEq_symm h)

theorem covers_join (hu : P u) (ha : P a) (hb : P b) (hua : Covers join r u a)
    (hub : Covers join r u b) : Covers join r u (join r a b) := by
  have h : unionEq r a b = true := law.trans ha hu hb (Coherent.unionEq_symm hua.1) hub.1
  refine ⟨law.trans hu ha (join_mem law ha hb h) hua.1 (equal_join law ha hb h), ?_⟩
  rw [← law.join_assoc hu ha hb hua.1 h, hua.2, hub.2]

theorem covered_joinInto_self (ha : P a) (hbs : ∀ b ∈ bs, P b) :
    Covered join r (joinInto join r a bs) a := by
  rcases new_mem_upsert with hmem | ⟨b, hb, hequal, hmem⟩
  · exact ⟨a, hmem, Covers.refl law ha⟩
  · exact ⟨_, hmem, covers_join_right law (hbs b hb) ha hequal⟩

theorem covered_joinInto_of_mem (ha : P a) (hbs : ∀ b ∈ bs, P b) (hb : b ∈ bs) :
    Covered join r (joinInto join r a bs) b := by
  rcases mem_upsert_of_mem hb with hmem | ⟨hequal, hmem⟩
  · exact ⟨b, hmem, Covers.refl law (hbs b hb)⟩
  · exact ⟨_, hmem, covers_join_left law (hbs b hb) ha hequal⟩

theorem Covered.joinInto (ha : P a) (hbs : ∀ b ∈ bs, P b) (hc : P c)
    (h : Covered join r bs c) : Covered join r (joinInto join r a bs) c := by
  obtain ⟨b, hb, hbc⟩ := h
  obtain ⟨d, hd, hdb⟩ := covered_joinInto_of_mem law (r := r) ha hbs hb
  have hPd := joinInto_mem law ha hbs d hd
  exact ⟨d, hd, hdb.trans law hPd (hbs b hb) hc hbc⟩

end

namespace ValueSet

variable {α : Type} [DecidableEq α] [Kind α]

def contents (s : ValueSet α) : List α := s.values.map (·.content)

/-- A sound set under level `r` that holds nothing but contents in use. -/
structure SoundOn (P : α → Prop) (r : Strength) (s : ValueSet α) : Prop where
  sound : s.Sound
  comparer_eq : s.comparer = .union r
  values_mem : ∀ v ∈ s.values, P v.content

theorem soundOn_empty (P : α → Prop) (r : Strength) :
    (empty (.union r) : ValueSet α).SoundOn P r :=
  ⟨trivial, rfl, List.forall_mem_nil _⟩

theorem SoundOn.contents_mem {P : α → Prop} {r : Strength} {s : ValueSet α}
    (hs : s.SoundOn P r) : ∀ a ∈ s.contents, P a := by
  intro a ha
  obtain ⟨v, hv, rfl⟩ := List.mem_map.mp ha
  exact hs.values_mem v hv

variable [Coherent α] {P : α → Prop} {join : Strength → α → α → α} {r : Strength}
  {s : ValueSet α} (law : JoinOn P join)

include law

omit [Coherent α] in
theorem map_content_place {x : Value α} {vs : List (Value α)} (hx : P x.content)
    (hvs : ∀ v ∈ vs, P v.content) (l : Ledger) :
    (place (.union r) x l vs).map (·.content) =
      joinInto join r x.content (vs.map (·.content)) := by
  have hiff := fun v hv => Comparer.equal_union_iff law.toLawfulOn (s := r) (w := x) (hvs v hv)
  apply map_upsert
  · intro v hv
    exact Bool.eq_iff_iff.mpr (hiff v hv).symm
  · intro v hv h
    exact Comparer.content_merge law (hvs v hv) hx ((hiff v hv).mp h) l

theorem SoundOn.contents_insert (hs : s.SoundOn P r) {x : Value α} (hx : P x.content)
    (l : Ledger) : (s.insert x l).1.1.contents = joinInto join r x.content s.contents := by
  rw [contents, hs.sound.values_insert law.toLawfulOn hs.values_mem hx, hs.comparer_eq]
  exact map_content_place law hx hs.values_mem l

omit law in
theorem SoundOn.insert (hs : s.SoundOn P r) (lawful : LawfulOn P) {x : Value α}
    (hx : P x.content) (l : Ledger) : (s.insert x l).1.1.SoundOn P r := by
  obtain ⟨hsound, hcomparer⟩ := (hs.sound.gives_insert x l).1
  exact ⟨hsound, hcomparer.trans hs.comparer_eq,
    hs.sound.values_mem_insert lawful hs.values_mem hx l⟩

omit law in
theorem SoundOn.insertAll (hs : s.SoundOn P r) (lawful : LawfulOn P) {xs : List (Value α)}
    (hxs : ∀ x ∈ xs, P x.content) (l : Ledger) : (s.insertAll xs l).1.1.SoundOn P r := by
  obtain ⟨hsound, hcomparer⟩ := (hs.sound.gives_insertAll xs l).1
  exact ⟨hsound, hcomparer.trans hs.comparer_eq,
    hs.sound.values_mem_insertAll lawful hs.values_mem hxs l⟩

omit law in
theorem soundOn_ofList_of_lawful (lawful : LawfulOn P) {xs : List (Value α)}
    (hxs : ∀ x ∈ xs, P x.content) (l : Ledger) : (ofList (.union r) xs l).1.SoundOn P r :=
  (soundOn_empty P r).insertAll lawful hxs l

/-- A set that covers a content keeps everything as it was when the content comes again. -/
theorem SoundOn.insert_eq_of_covered (hs : s.SoundOn P r) {x : Value α} (hx : P x.content)
    (h : Covered join r s.contents x.content) (l : Ledger) :
    s.insert x l = ((s, false), l) := by
  obtain ⟨b, hb, hcovers⟩ := h
  obtain ⟨v, hv, rfl⟩ := List.mem_map.mp hb
  obtain ⟨j, hj⟩ := List.mem_iff_getElem?.mp hv
  have hequal : s.comparer.equal v x = true := by
    rw [hs.comparer_eq]
    exact (Comparer.equal_union_iff law.toLawfulOn (hs.values_mem v hv)).mpr hcovers.1
  rcases hs.sound.insert_cases x with ⟨hnone, -⟩ | ⟨i, w, hw, hwx, heq⟩
  · rw [hnone v hv] at hequal
    cases hequal
  · have hij : i = j := by
      by_contra hne
      rw [hs.sound.equal_eq_false_of_ne law.toLawfulOn hs.values_mem hj hw hne hx hequal] at hwx
      cases hwx
    obtain rfl : v = w := Option.some.inj (hj.symm.trans (hij ▸ hw))
    have hmerge := Comparer.merge_eq_of_covers law (hs.values_mem v hv) hx hcovers.1 hcovers.2 l
    simp [heq, mergeAt, hs.comparer_eq, hmerge]

end ValueSet

end AbstractSets
