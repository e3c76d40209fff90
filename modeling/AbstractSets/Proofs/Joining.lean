import AbstractSets.Proofs.OrderIndependence
import AbstractSets.Proofs.Runs

/-!
# Joining sets

The union of two sets of joinable contents is the set made from both lists of contents, in
the same order. It makes no difference that the second set brings contents that have been
joined already: joining a join in is joining its parts in one after the other, and a content
whose class is there can wait until others have come in.

`joinAll` is what a run of insertions does to the contents. Its associativity is the law from
which everything about unions follows.
-/

namespace AbstractSets

open Kind

/-- Join contents into `bs`, one after the other. -/
def joinAll {α : Type} [Kind α] (join : Strength → α → α → α) (r : Strength) (bs as : List α) :
    List α :=
  as.foldl (fun bs a => joinInto join r a bs) bs

section

variable {α : Type} [Kind α] {P : α → Prop} {join : Strength → α → α → α} {r : Strength}

@[simp] theorem joinAll_nil (bs : List α) : joinAll join r bs [] = bs := rfl

@[simp] theorem joinAll_cons (bs : List α) (a : α) (as : List α) :
    joinAll join r bs (a :: as) = joinAll join r (joinInto join r a bs) as := rfl

theorem joinAll_append (bs as cs : List α) :
    joinAll join r bs (as ++ cs) = joinAll join r (joinAll join r bs as) cs :=
  List.foldl_append

theorem joinInto_nil (a : α) : joinInto join r a [] = [a] := rfl

theorem joinInto_cons_of_equal {a b : α} (h : unionEq r b a = true) (bs : List α) :
    joinInto join r a (b :: bs) = join r b a :: bs :=
  if_pos h

theorem joinInto_cons_of_not_equal {a b : α} (h : ¬ unionEq r b a = true) (bs : List α) :
    joinInto join r a (b :: bs) = b :: joinInto join r a bs :=
  if_neg h

theorem joinAll_mem_of_join {as bs : List α}
    (hjoin : ∀ {a b}, P a → P b → unionEq r a b = true → P (join r a b)) (has : ∀ a ∈ as, P a)
    (hbs : ∀ b ∈ bs, P b) : ∀ b ∈ joinAll join r bs as, P b := by
  induction as generalizing bs with
  | nil => exact hbs
  | cons a as ih =>
    obtain ⟨ha, hrest⟩ := List.forall_mem_cons.mp has
    exact ih hrest (joinInto_mem_of_join hjoin ha hbs)

variable (melds : MeldsOn P join r)

include melds

variable [Coherent α]

theorem equal_congr_right {a b c : α} (ha : P a) (hb : P b) (hc : P c)
    (h : unionEq r a b = true) : unionEq r c a = true ↔ unionEq r c b = true := by
  constructor
  · exact fun hca => melds.trans hc ha hb hca h
  · exact fun hcb => melds.trans hc hb ha hcb (Coherent.unionEq_symm h)

theorem equal_congr_left {a b c : α} (ha : P a) (hb : P b) (hc : P c)
    (h : unionEq r a b = true) : unionEq r a c = true ↔ unionEq r b c = true := by
  constructor
  · exact fun hac => melds.trans hb ha hc (Coherent.unionEq_symm h) hac
  · exact fun hbc => melds.trans ha hb hc h hbc

theorem equal_join_iff {a b c : α} (ha : P a) (hb : P b) (hc : P c)
    (h : unionEq r a b = true) : unionEq r (join r a b) c = true ↔ unionEq r a c = true :=
  (equal_congr_left melds ha (melds.join_mem ha hb h) hc (melds.equal_join ha hb h)).symm

theorem exists_equal_joinInto_iff {a c : α} {bs : List α} (ha : P a) (hc : P c)
    (hbs : ∀ x ∈ bs, P x) :
    (∃ b ∈ joinInto join r c bs, unionEq r b a = true) ↔
      (∃ b ∈ bs, unionEq r b a = true) ∨ unionEq r c a = true := by
  apply exists_mem_upsert_iff
  · exact fun b hb hbc => equal_join_iff melds (hbs b hb) hc ha hbc
  · exact fun b hb hbc hca => melds.trans (hbs b hb) hc ha hbc hca

/-- A join comes in as its parts would, one after the other. -/
theorem joinInto_join {a b : α} {bs : List α} (ha : P a) (hb : P b) (hbs : ∀ x ∈ bs, P x)
    (h : unionEq r a b = true) :
    joinInto join r (join r a b) bs = joinInto join r b (joinInto join r a bs) := by
  have hab := melds.join_mem ha hb h
  have hequal := melds.equal_join ha hb h
  induction bs with
  | nil => rw [joinInto_nil, joinInto_nil, joinInto_cons_of_equal h]
  | cons x bs ih =>
    obtain ⟨hx, hrest⟩ := List.forall_mem_cons.mp hbs
    by_cases hxa : unionEq r x a = true
    · have hxab := (equal_congr_right melds ha hab hx hequal).mp hxa
      have hxb := (equal_join_iff melds hx ha hb hxa).mpr (melds.trans hx ha hb hxa h)
      rw [joinInto_cons_of_equal hxab, joinInto_cons_of_equal hxa, joinInto_cons_of_equal hxb,
        melds.join_assoc hx ha hb hxa h]
    · have hxab := mt (equal_congr_right melds ha hab hx hequal).mpr hxa
      have hxb := mt (equal_congr_right melds ha hb hx h).mpr hxa
      rw [joinInto_cons_of_not_equal hxab, joinInto_cons_of_not_equal hxa,
        joinInto_cons_of_not_equal hxb, ih hrest]

theorem joinInto_right_comm {a c : α} {bs : List α} (ha : P a) (hc : P c)
    (hbs : ∀ x ∈ bs, P x) (hthere : ∃ b ∈ bs, unionEq r b a = true) :
    joinInto join r c (joinInto join r a bs) = joinInto join r a (joinInto join r c bs) := by
  induction bs with
  | nil =>
    obtain ⟨b, hb, -⟩ := hthere
    cases hb
  | cons x bs ih =>
    obtain ⟨hx, hrest⟩ := List.forall_mem_cons.mp hbs
    by_cases hxa : unionEq r x a = true
    · by_cases hxc : unionEq r x c = true
      · have hac := melds.trans ha hx hc (Coherent.unionEq_symm hxa) hxc
        rw [joinInto_cons_of_equal hxa,
          joinInto_cons_of_equal ((equal_join_iff melds hx ha hc hxa).mpr hxc),
          joinInto_cons_of_equal hxc,
          joinInto_cons_of_equal ((equal_join_iff melds hx hc ha hxc).mpr hxa),
          melds.join_assoc hx ha hc hxa hac, melds.join_comm ha hc hac,
          melds.join_assoc hx hc ha hxc (Coherent.unionEq_symm hac)]
      · rw [joinInto_cons_of_equal hxa,
          joinInto_cons_of_not_equal (mt (equal_join_iff melds hx ha hc hxa).mp hxc),
          joinInto_cons_of_not_equal hxc, joinInto_cons_of_equal hxa]
    · have hlater : ∃ b ∈ bs, unionEq r b a = true := by
        obtain ⟨b, hb, hba⟩ := hthere
        rcases List.mem_cons.mp hb with rfl | hb
        · exact absurd hba hxa
        · exact ⟨b, hb, hba⟩
      rw [joinInto_cons_of_not_equal hxa]
      by_cases hxc : unionEq r x c = true
      · rw [joinInto_cons_of_equal hxc, joinInto_cons_of_equal hxc,
          joinInto_cons_of_not_equal (mt (equal_join_iff melds hx hc ha hxc).mp hxa)]
      · rw [joinInto_cons_of_not_equal hxc, joinInto_cons_of_not_equal hxc,
          joinInto_cons_of_not_equal hxa, ih hrest hlater]

theorem joinInto_joinAll_of_there {a : α} {as bs : List α} (ha : P a) (has : ∀ x ∈ as, P x)
    (hbs : ∀ x ∈ bs, P x) (hthere : ∃ b ∈ bs, unionEq r b a = true) :
    joinInto join r a (joinAll join r bs as) = joinAll join r (joinInto join r a bs) as := by
  induction as generalizing bs with
  | nil => rfl
  | cons c as ih =>
    obtain ⟨hc, hrest⟩ := List.forall_mem_cons.mp has
    have hthere' := (exists_equal_joinInto_iff melds ha hc hbs).mpr (Or.inl hthere)
    rw [joinAll_cons, joinAll_cons, ih hrest (joinInto_mem_of_join melds.join_mem hc hbs) hthere',
      joinInto_right_comm melds ha hc hbs hthere]

/-- Contents come from the elements of a list, and in the list one of them is changed so that its
content takes in that of `x`, or else `x` is added. For the contents that come this is joining
that of `x` in after them. -/
theorem joinAll_map_upsert {β : Type} {f : β → α} {hit : β → Bool} {change : β → β} {x : β}
    {xs : List β} {bs : List α} (hx : P (f x)) (hxs : ∀ y ∈ xs, P (f y)) (hbs : ∀ b ∈ bs, P b)
    (hhit : ∀ y ∈ xs, hit y = true →
      unionEq r (f y) (f x) = true ∧ f (change y) = join r (f y) (f x)) :
    joinAll join r bs ((upsert hit change x xs).map f) =
      joinInto join r (f x) (joinAll join r bs (xs.map f)) := by
  induction xs generalizing bs with
  | nil => rfl
  | cons y xs ih =>
    obtain ⟨hy, hrest⟩ := List.forall_mem_cons.mp hxs
    obtain ⟨hyx, hhit'⟩ := List.forall_mem_cons.mp hhit
    have hbs' := joinInto_mem_of_join melds.join_mem hy hbs
    rw [upsert]
    split_ifs with hit
    · obtain ⟨hequal, hchange⟩ := hyx hit
      have hthere := (exists_equal_joinInto_iff melds hx hy hbs).mpr (Or.inr hequal)
      have hcome : ∀ a ∈ xs.map f, P a := by simpa using hrest
      rw [List.map_cons, List.map_cons, joinAll_cons, joinAll_cons, hchange,
        joinInto_join melds hy hx hbs hequal,
        joinInto_joinAll_of_there melds hx hcome hbs' hthere]
    · rw [List.map_cons, List.map_cons, joinAll_cons, joinAll_cons, ih hrest hbs' hhit']

theorem joinAll_joinInto {a : α} {as bs : List α} (ha : P a) (has : ∀ x ∈ as, P x)
    (hbs : ∀ x ∈ bs, P x) :
    joinAll join r bs (joinInto join r a as) = joinInto join r a (joinAll join r bs as) := by
  have hcome : joinAll join r bs ((joinInto join r a as).map id) =
      joinInto join r a (joinAll join r bs (as.map id)) :=
    joinAll_map_upsert melds ha has hbs fun b _ hba => ⟨hba, rfl⟩
  rwa [List.map_id, List.map_id] at hcome

omit melds in
theorem joinAll_assoc (law : JoinOn P join) {as bs cs : List α} (has : ∀ x ∈ as, P x)
    (hbs : ∀ x ∈ bs, P x) (hcs : ∀ x ∈ cs, P x) :
    joinAll join r as (joinAll join r bs cs) = joinAll join r (joinAll join r as bs) cs := by
  induction cs generalizing bs with
  | nil => rfl
  | cons c cs ih =>
    obtain ⟨hc, hrest⟩ := List.forall_mem_cons.mp hcs
    rw [joinAll_cons, joinAll_cons, ih (joinInto_mem law hc hbs) hrest,
      joinAll_joinInto (meldsOn law r) hc hbs has]

omit melds [Coherent α] in
theorem joinAll_eq_append {as bs : List α}
    (h : (bs ++ as).Pairwise fun b c => unionEq r b c = false) :
    joinAll join r bs as = bs ++ as := by
  induction as generalizing bs with
  | nil => simp
  | cons a as ih =>
    have hnone : ∀ b ∈ bs, unionEq r b a = false := fun b hb =>
      (List.pairwise_append.mp h).2.2 b hb a List.mem_cons_self
    have hnew : joinInto join r a bs = bs ++ [a] := upsert_eq_concat hnone
    rw [joinAll_cons, hnew, ih (by simpa using h), List.append_assoc, List.singleton_append]

end

namespace ValueSet

variable {α : Type} [DecidableEq α] [Kind α] [Coherent α] {P : α → Prop}
  {join : Strength → α → α → α} {r : Strength} {s t : ValueSet α} (law : JoinOn P join)

include law

theorem SoundOn.contents_insertAll (hs : s.SoundOn P r) {xs : List (Value α)}
    (hxs : ∀ x ∈ xs, P x.content) (l : Ledger) :
    (s.insertAll xs l).1.1.contents = joinAll join r s.contents (xs.map (·.content)) := by
  induction xs generalizing s l with
  | nil => rfl
  | cons x xs ih =>
    obtain ⟨hx, hrest⟩ := List.forall_mem_cons.mp hxs
    have hlater := ih (hs.insert law.toLawfulOn hx l) hrest (s.insert x l).2
    rw [hs.contents_insert law hx l] at hlater
    exact hlater

theorem contents_ofList {xs : List (Value α)} (hxs : ∀ x ∈ xs, P x.content) (l : Ledger) :
    (ofList (.union r) xs l).1.contents = joinAll join r [] (xs.map (·.content)) :=
  (soundOn_empty P r).contents_insertAll law hxs l

/-- An empty set takes the other one over as it is, which is what joining its contents in one
by one would come to. -/
theorem SoundOn.contents_union (hs : s.SoundOn P r) (ht : t.SoundOn P r) (l : Ledger) :
    (s.union t l).1.1.contents = joinAll join r s.contents t.contents := by
  rcases s.union_cases t with ⟨hnil, -, heq⟩ | heq
  · have hcontents : s.contents = [] := by rw [contents, hnil, List.map_nil]
    have happart : ([] ++ t.contents).Pairwise fun b c => unionEq r b c = false :=
      ht.apart law.toLawfulOn
    rw [heq, hcontents]
    exact (joinAll_eq_append happart).symm
  · rw [heq]
    exact hs.contents_insertAll law ht.values_mem l

theorem SoundOn.union (hs : s.SoundOn P r) (ht : t.SoundOn P r) (l : Ledger) :
    (s.union t l).1.1.SoundOn P r := by
  rcases s.union_cases t with ⟨-, -, heq⟩ | heq
  · rw [heq]
    exact ht
  · rw [heq]
    exact hs.insertAll law.toLawfulOn ht.values_mem l

theorem SoundOn.contents_union_assoc {u : ValueSet α} (hs : s.SoundOn P r)
    (ht : t.SoundOn P r) (hu : u.SoundOn P r) (l m n k : Ledger) :
    ((s.union t l).1.1.union u m).1.1.contents =
      (s.union (t.union u n).1.1 k).1.1.contents := by
  rw [(hs.union law ht l).contents_union law hu, hs.contents_union law ht,
    hs.contents_union law (ht.union law hu n), ht.contents_union law hu,
    joinAll_assoc law hs.contents_mem ht.contents_mem hu.contents_mem]

omit [Coherent α] in
theorem SoundOn.sumsUp_contents (hs : s.SoundOn P r) :
    SumsUp P join r s.contents s.contents where
  covered b hb := ⟨b, hb, Covers.refl law (hs.contents_mem b hb)⟩
  occurs b hb := ⟨b, hb, law.refl (hs.contents_mem b hb)⟩
  least b hb _ _ hub hall := hall b hb hub

theorem SoundOn.sumsUp_union (hs : s.SoundOn P r) (ht : t.SoundOn P r) (l : Ledger) :
    SumsUp P join r (s.contents ++ t.contents) (s.union t l).1.1.contents := by
  have hsums := hs.sumsUp_insertAll law hs.contents_mem (hs.sumsUp_contents law)
    ht.values_mem l
  rw [hs.contents_insertAll law ht.values_mem] at hsums
  rw [hs.contents_union law ht]
  exact hsums

theorem SoundOn.contents_union_perm (hs : s.SoundOn P r) (ht : t.SoundOn P r) (l m : Ledger) :
    (s.union t l).1.1.contents.Perm (t.union s m).1.1.contents := by
  have hboth : ∀ a ∈ s.contents ++ t.contents, P a :=
    List.forall_mem_append.mpr ⟨hs.contents_mem, ht.contents_mem⟩
  have hswap : ∀ a, a ∈ s.contents ++ t.contents ↔ a ∈ t.contents ++ s.contents := by
    intro a
    rw [List.mem_append, List.mem_append, or_comm]
  exact (hs.union law ht l).contents_perm law (ht.union law hs m) hboth
    (hs.sumsUp_union law ht l) ((ht.sumsUp_union law hs m).congr hswap)

end ValueSet

structure ValueSet.JoinableAt (r : Strength) (s : ValueSet Origin) : Prop where
  reachable : s.Reachable
  comparer_eq : s.comparer = .union r
  builtIn : ∀ v ∈ s.values, Origin.BuiltIn v.content

theorem ValueSet.JoinableAt.soundOn {r : Strength} {s : ValueSet Origin}
    (hs : s.JoinableAt r) : s.SoundOn Origin.BuiltIn r :=
  ⟨hs.reachable.sound, hs.comparer_eq, hs.builtIn⟩

/-- Making a set from two lists is making one from each and joining the two, with the same
contents in the same order. So for sets of the joinable kinds at one level, union is
associative, commutative up to order and idempotent on contents. -/
theorem ofList_append_eq_union (r : Strength) {xs ys : List (Value Origin)}
    (hxs : ∀ x ∈ xs, Origin.BuiltIn x.content) (hys : ∀ y ∈ ys, Origin.BuiltIn y.content) :
    (∀ l m n k : Ledger,
      let s := (ValueSet.ofList (.union r) xs l).1
      let t := (ValueSet.ofList (.union r) ys m).1
      (ValueSet.ofList (.union r) (xs ++ ys) k).1.values.map (·.content) =
        (s.union t n).1.1.values.map (·.content)) ∧
    ∀ s t u : ValueSet Origin, s.JoinableAt r → t.JoinableAt r → u.JoinableAt r →
      ∀ l m n k : Ledger,
        ((s.union t l).1.1.union u m).1.1.values.map (·.content) =
          (s.union (t.union u n).1.1 k).1.1.values.map (·.content) ∧
        ((s.union t l).1.1.values.map (·.content)).Perm
          ((t.union s m).1.1.values.map (·.content)) ∧
        (s.union s l).1.1.values.map (·.content) = s.values.map (·.content) := by
  have law := Origin.joinOn
  refine ⟨?_, ?_⟩
  · intro l m n k s t
    have hs : s.SoundOn Origin.BuiltIn r := ValueSet.soundOn_ofList law hxs l
    have ht : t.SoundOn Origin.BuiltIn r := ValueSet.soundOn_ofList law hys m
    have hxs' : ∀ a ∈ xs.map (·.content), Origin.BuiltIn a := by simpa using hxs
    have hys' : ∀ a ∈ ys.map (·.content), Origin.BuiltIn a := by simpa using hys
    calc
      (ValueSet.ofList (.union r) (xs ++ ys) k).1.contents
        = joinAll Origin.join r [] (xs.map (·.content) ++ ys.map (·.content)) := by
          rw [ValueSet.contents_ofList law (List.forall_mem_append.mpr ⟨hxs, hys⟩),
            List.map_append]
      _ = joinAll Origin.join r s.contents (ys.map (·.content)) := by
          rw [joinAll_append, ValueSet.contents_ofList law hxs]
      _ = joinAll Origin.join r s.contents t.contents := by
          rw [ValueSet.contents_ofList law hys,
            joinAll_assoc law hs.contents_mem (List.forall_mem_nil _) hys', joinAll_nil]
      _ = (s.union t n).1.1.contents := (hs.contents_union law ht n).symm
  · intro s t u hs ht hu l m n k
    refine ⟨hs.soundOn.contents_union_assoc law ht.soundOn hu.soundOn l m n k,
      hs.soundOn.contents_union_perm law ht.soundOn l m, ?_⟩
    rw [hs.reachable.sound.union_self]

/-- The second list brings classes that have gone up into an ancestor before they meet the
class of the first list, and a module that the first list does not have. -/
theorem ofList_append_eq_union_mixed :
    let xs : List (Value Origin) :=
      [⟨0, .constant (.ofInt 1)⟩, ⟨1, .classObject ⟨"C", ["B", "A"]⟩⟩]
    let ys : List (Value Origin) :=
      [⟨2, .classObject ⟨"D", ["B", "A"]⟩⟩, ⟨3, .moduleObject ⟨"m"⟩⟩,
        ⟨4, .classObject ⟨"E", ["A"]⟩⟩, ⟨5, .constant (.ofInt 2)⟩]
    let s := (ValueSet.ofList (.union .baseClass) xs ⟨6, true⟩).1
    let t := (ValueSet.ofList (.union .baseClass) ys ⟨6, true⟩).1
    (∀ x ∈ xs, Origin.BuiltIn x.content) ∧ (∀ y ∈ ys, Origin.BuiltIn y.content) ∧
      t.values.map (·.content) =
        [.classObject ⟨"A", []⟩, .moduleObject ⟨"m"⟩, .constant (.ofInt 2)] ∧
      (ValueSet.ofList (.union .baseClass) (xs ++ ys) ⟨6, true⟩).1.values.map (·.content) =
        (s.union t ⟨9, true⟩).1.1.values.map (·.content) ∧
      ((s.union t ⟨9, true⟩).1.1.values.map (·.content)).Perm
        ((t.union s ⟨9, true⟩).1.1.values.map (·.content)) := by
  intro xs ys s t
  have hxs : ∀ x ∈ xs, Origin.BuiltIn x.content := by decide
  have hys : ∀ y ∈ ys, Origin.BuiltIn y.content := by decide
  have hs : s.JoinableAt .baseClass :=
    ⟨ValueSet.reachable_ofList _ _ _, by decide +kernel, by decide +kernel⟩
  have ht : t.JoinableAt .baseClass :=
    ⟨ValueSet.reachable_ofList _ _ _, by decide +kernel, by decide +kernel⟩
  obtain ⟨hjoined, hlaws⟩ := ofList_append_eq_union .baseClass hxs hys
  have hunion := hjoined ⟨6, true⟩ ⟨6, true⟩ ⟨9, true⟩ ⟨6, true⟩
  have hcomm := hlaws s t t hs ht ht ⟨9, true⟩ ⟨9, true⟩ ⟨9, true⟩ ⟨9, true⟩
  exact ⟨hxs, hys, by decide +kernel, hunion, hcomm.2.1⟩

end AbstractSets
