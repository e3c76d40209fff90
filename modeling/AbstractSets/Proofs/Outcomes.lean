import AbstractSets.Proofs.SetInvariant

/-!
# What an insertion leads to

An insertion adds the value at the end, keeps the set, writes another value over one that is
held, or leaves fewer values than there were. `Outcome` lists these cases with their flags; what
they are worth is read off from the list alone, without the ways to hold values or a kind's laws.

A set can only grow by having a value added at its end. After a run of insertions it therefore
holds as many values as there were and came only if it holds just these, in order. Values that
are equal to none before them are all added.
-/

namespace AbstractSets

open Kind

namespace Table

variable {α : Type} [DecidableEq α] [Kind α]

theorem size_absorb_le (t : Table α) (i : Nat) (merged : Value α) (l : Ledger) :
    (t.absorb i merged l).1.size ≤ t.size := by
  induction t, i, merged using Table.absorb.induct generalizing l with
  | case1 t i merged hf =>
    rw [Table.absorb, hf]
    exact Nat.le_of_eq (t.size_set i merged)
  | case2 t i merged j hf ih =>
    have hrest := ih (t.comparer.merge merged (t.valueAt j) l).1
      (t.comparer.merge merged (t.valueAt j) l).2
    rw [size_swapRemove] at hrest
    rw [Table.absorb, hf]
    exact Nat.le_trans hrest (Nat.sub_le _ 1)

/-- Replacing an entry writes over it, or takes others in and leaves a smaller table. -/
theorem absorb_cases (t : Table α) (i : Nat) (merged : Value α) :
    t.absorb i merged = pure (t.set i merged) ∨ ∀ l, (t.absorb i merged l).1.size < t.size := by
  rw [Table.absorb]
  cases hf : t.findOther? merged i with
  | none => exact Or.inl rfl
  | some j =>
    refine Or.inr fun l => ?_
    have hle := (t.swapRemove j).size_absorb_le (if i = t.size - 1 then j.val else i)
      (t.comparer.merge merged (t.valueAt j) l).1 (t.comparer.merge merged (t.valueAt j) l).2
    have hpos := j.pos
    rw [size_swapRemove] at hle
    exact Nat.lt_of_le_of_lt hle (Nat.sub_one_lt_of_lt hpos)

end Table

namespace ValueSet

variable {α : Type} [DecidableEq α] [Kind α] {s t : ValueSet α} {x : Value α} {changed : Bool}

theorem values_replaceEntry (t : Table α) (i : Nat) (merged : Value α) (l : Ledger) :
    (replaceEntry t i merged l).1.values = (t.absorb i merged l).1.values := by
  rw [replaceEntry, Supply.bind_apply, Supply.ite_apply]
  split_ifs
  · exact values_ofDistinct _ _ _
  · rfl

theorem replaceAt_cases {i : Nat} (hi : i < s.size) (merged : Value α) (l : Ledger) :
    (s.replaceAt i merged l).1.values = s.values.set i merged ∨
      (s.replaceAt i merged l).1.size < s.size := by
  cases s with
  | empty c => cases hi
  | one v c =>
    obtain rfl : i = 0 := Nat.lt_one_iff.mp hi
    exact Or.inl rfl
  | two v w c =>
    match i, hi with
    | 0, _ =>
      by_cases hw : c.equal w merged = true
      · exact Or.inr (by simp [replaceAt, replaceFirst, hw, size])
      · exact Or.inl (by simp [replaceAt, replaceFirst, hw, values])
    | 1, _ =>
      by_cases hv : c.equal v merged = true
      · exact Or.inr (by simp [replaceAt, replaceSecond, hv, size])
      · exact Or.inl (by simp [replaceAt, replaceSecond, hv, values])
  | many t =>
    rw [← length_values, replaceAt, values_replaceEntry, Table.length_values]
    rcases t.absorb_cases i merged with hset | hsmaller
    · rw [hset]
      exact Or.inl (t.values_set i merged)
    · exact Or.inr (hsmaller l)

/-- What an insertion of `x` into `s` leads to, and the flag that comes with it. -/
inductive Outcome (s : ValueSet α) (x : Value α) : ValueSet α → Bool → Prop where
  | added {t : ValueSet α} (hvalues : t.values = s.values ++ [x]) : Outcome s x t true
  | kept : Outcome s x s false
  | replaced {t : ValueSet α} {i : Nat} {v merged : Value α} (hv : s.values[i]? = some v)
      (hmerged : merged ≠ v) (hvalues : t.values = s.values.set i merged) : Outcome s x t true
  | shrunk {t : ValueSet α} (hsize : t.size < s.size) : Outcome s x t true

omit [DecidableEq α] [Kind α] in
theorem Outcome.quiet_iff (h : Outcome s x t changed) :
    changed = false ↔ t.values = s.values := by
  cases h with
  | added hvalues => simp [hvalues]
  | kept => simp
  | replaced hv hmerged hvalues =>
    rename_i i v merged
    refine ⟨nofun, fun hsame => ?_⟩
    have hat : (s.values.set i merged)[i]? = some merged :=
      List.getElem?_set_self (List.getElem?_eq_some_iff.mp hv).1
    rw [← hvalues, hsame, hv] at hat
    exact absurd (Option.some.inj hat).symm hmerged
  | shrunk hsize =>
    refine ⟨nofun, fun hsame => ?_⟩
    rw [← t.length_values, hsame, s.length_values] at hsize
    exact absurd hsize (Nat.lt_irrefl _)

omit [DecidableEq α] [Kind α] in
theorem Outcome.values_eq_or_size_le (h : Outcome s x t changed) :
    t.values = s.values ++ [x] ∨ t.size ≤ s.size := by
  cases h with
  | added hvalues => exact Or.inl hvalues
  | kept => exact Or.inr (Nat.le_refl _)
  | replaced hv hmerged hvalues =>
    refine Or.inr (Nat.le_of_eq ?_)
    rw [← t.length_values, hvalues, List.length_set, s.length_values]
  | shrunk hsize => exact Or.inr (Nat.le_of_lt hsize)

section

variable [Coherent α]

theorem Sound.outcome_insert (hs : s.Sound) (x : Value α) (l : Ledger) :
    Outcome s x (s.insert x l).1.1 (s.insert x l).1.2 := by
  rcases hs.insert_cases x with ⟨hnone, heq⟩ | ⟨i, v, hv, -, heq⟩
  · rw [heq]
    exact .added (hs.gives_append hnone l).1.2
  · rw [heq]
    by_cases hmerged : (s.comparer.merge v x l).1 = v
    · have hrun : (s.mergeAt i v x l).1 = (s, false) := by simp [mergeAt, hmerged]
      rw [hrun]
      exact .kept
    · have hrun : (s.mergeAt i v x l).1 =
          ((s.replaceAt i (s.comparer.merge v x l).1 (s.comparer.merge v x l).2).1, true) := by
        simp [mergeAt, hmerged]
      rw [hrun]
      rcases replaceAt_cases (lt_size_of_getElem? hv) (s.comparer.merge v x l).1
        (s.comparer.merge v x l).2 with hvalues | hsize
      · exact .replaced hv hmerged hvalues
      · exact .shrunk hsize

/-- After a run of insertions all values that came stand after those that were there, or the set
has fewer than both together. -/
theorem Sound.insertAll_values_eq_or_size_lt (hs : s.Sound) (xs : List (Value α)) (l : Ledger) :
    (s.insertAll xs l).1.1.values = s.values ++ xs ∨
      (s.insertAll xs l).1.1.size < s.size + xs.length := by
  induction xs generalizing s l with
  | nil => exact Or.inl (List.append_nil _).symm
  | cons x xs ih =>
    have hrest := ih (hs.gives_insert x l).1.1 (s.insert x l).2
    have hrun : (s.insertAll (x :: xs) l).1.1 =
        ((s.insert x l).1.1.insertAll xs (s.insert x l).2).1.1 := rfl
    rw [← hrun] at hrest
    rw [List.length_cons]
    rcases (hs.outcome_insert x l).values_eq_or_size_le with hadded | hle
    · have hsize : (s.insert x l).1.1.size = s.size + 1 := by
        rw [← length_values, hadded, List.length_append, s.length_values, List.length_singleton]
      rcases hrest with hvalues | hlt
      · exact Or.inl (by rw [hvalues, hadded, List.append_assoc, List.singleton_append])
      · exact Or.inr (by omega)
    · have hbound : (s.insertAll (x :: xs) l).1.1.size ≤ (s.insert x l).1.1.size + xs.length := by
        rcases hrest with hvalues | hlt
        · apply Nat.le_of_eq
          rw [← length_values, hvalues, List.length_append, length_values]
        · omega
      exact Or.inr (by omega)

theorem Sound.insert_eq_append (hs : s.Sound) (hx : ∀ v ∈ s.values, s.comparer.equal v x = false) :
    s.insert x = do return (← s.append x, true) := by
  rcases hs.insert_cases x with ⟨-, heq⟩ | ⟨i, v, hv, hequal, -⟩
  · exact heq
  · rw [hx v (List.mem_of_getElem? hv)] at hequal
    cases hequal

theorem Sound.insertAll_cons_of_distinct (hs : s.Sound) {xs : List (Value α)}
    (h : s.comparer.Distinct (s.values ++ x :: xs)) (l : Ledger) :
    let u := s.append x l
    let rest := u.1.insertAll xs u.2
    u.1.Sound ∧ u.1.values = s.values ++ [x] ∧ u.1.comparer.Distinct (u.1.values ++ xs) ∧
      s.insertAll (x :: xs) l = ((rest.1.1, true), rest.2) := by
  have hnone : ∀ v ∈ s.values, s.comparer.equal v x = false := fun v hv =>
    (List.pairwise_append.mp h).2.2 v hv x List.mem_cons_self
  obtain ⟨⟨hsound, hcomparer⟩, hvalues⟩ := (hs.gives_append hnone l).1
  refine ⟨hsound, hvalues, ?_, ?_⟩
  · rw [hcomparer, hvalues, List.append_assoc]
    exact h
  · simp [insertAll, hs.insert_eq_append hnone]

/-- Values that are equal to none before them are added one after the other. -/
theorem Sound.values_insertAll_of_distinct (hs : s.Sound) {xs : List (Value α)}
    (h : s.comparer.Distinct (s.values ++ xs)) (l : Ledger) :
    (s.insertAll xs l).1.1.values = s.values ++ xs := by
  induction xs generalizing s l with
  | nil => exact (List.append_nil _).symm
  | cons x xs ih =>
    obtain ⟨hsound, hvalues, hrest, heq⟩ := hs.insertAll_cons_of_distinct h l
    have hlater := ih hsound hrest (s.append x l).2
    rw [heq, hlater, hvalues, List.append_assoc, List.singleton_append]

theorem Sound.changed_insertAll_of_distinct (hs : s.Sound) {xs : List (Value α)}
    (h : s.comparer.Distinct (s.values ++ xs)) (l : Ledger) :
    (s.insertAll xs l).1.2 = !xs.isEmpty := by
  cases xs with
  | nil => rfl
  | cons x xs =>
    obtain ⟨-, -, -, heq⟩ := hs.insertAll_cons_of_distinct h l
    rw [heq]
    rfl

theorem Sound.union_of_distinct (hs : s.Sound) (ht : t.Sound)
    (h : s.comparer.Distinct (s.values ++ t.values)) (l : Ledger) :
    (s.union t l).1.1.values = s.values ++ t.values ∧
      (s.union t l).1.2 = !t.values.isEmpty := by
  rcases s.union_cases t with ⟨hnil, -, heq⟩ | heq
  · rw [heq, hnil, ht.isEmpty_eq]
    exact ⟨rfl, rfl⟩
  · rw [heq]
    exact ⟨hs.values_insertAll_of_distinct h l, hs.changed_insertAll_of_distinct h l⟩

theorem values_ofList_eq_or_size_lt (c : Comparer) (xs : List (Value α)) (l : Ledger) :
    (ofList c xs l).1.values = xs ∨ (ofList c xs l).1.size < xs.length := by
  have hempty : (empty c : ValueSet α).Sound := trivial
  have hrun := hempty.insertAll_values_eq_or_size_lt xs l
  rwa [show (empty c : ValueSet α).size + xs.length = xs.length from Nat.zero_add _] at hrun

theorem values_ofList_of_distinct {c : Comparer} {xs : List (Value α)} (h : c.Distinct xs)
    (l : Ledger) : (ofList c xs l).1.values = xs := by
  have hempty : (empty c : ValueSet α).Sound := trivial
  exact hempty.values_insertAll_of_distinct h l

end

end ValueSet

end AbstractSets
