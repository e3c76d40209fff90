import Mathlib.Logic.Function.Basic
import AbstractSets.Proofs.Runs

/-!
# Where new tables come from

A heap says which table has which stamp. A call on sets that live in a heap gives sets that
live in a larger heap: the tables that were there are there still, as they were, and every
other one has a stamp that has just been drawn. Nothing is asked of the kind of the values.
-/

namespace AbstractSets

abbrev Heap (α : Type) := Nat → Option (Table α)

namespace Heap

variable {α : Type}

/-- Tables are found under the stamps they have, and these have all been drawn. -/
def Issued (h : Heap α) (l : Ledger) : Prop := ∀ n t, h n = some t → t.stamp = n ∧ n < l.next

/-- What `h` has, `h'` has as well. -/
def Extends (h' h : Heap α) : Prop := ∀ n t, h n = some t → h' n = some t

theorem Issued.mono {h : Heap α} {l l' : Ledger} (hl : h.Issued l) (hle : l.next ≤ l'.next) :
    h.Issued l' := by
  intro n t hn
  obtain ⟨hstamp, hlt⟩ := hl n t hn
  exact ⟨hstamp, hlt.trans_le hle⟩

theorem Extends.refl (h : Heap α) : h.Extends h := fun _ _ hn => hn

theorem Extends.trans {h h' h'' : Heap α} (hext : h''.Extends h') (hext' : h'.Extends h) :
    h''.Extends h :=
  fun n t hn => hext n t (hext' n t hn)

end Heap

namespace ValueSet

variable {α : Type}

/-- The set is small, or its table is in the heap. -/
def LivesIn (h : Heap α) (s : ValueSet α) : Prop := ∀ t, s = many t → h t.stamp = some t

theorem LivesIn.mono {h h' : Heap α} {s : ValueSet α} (hs : s.LivesIn h)
    (hext : h'.Extends h) : s.LivesIn h' :=
  fun t ht => hext _ t (hs t ht)

theorem livesIn_empty (h : Heap α) (c : Comparer) : (empty c : ValueSet α).LivesIn h := nofun

theorem livesIn_one (h : Heap α) (v : Value α) (c : Comparer) : (one v c).LivesIn h := nofun

theorem livesIn_two (h : Heap α) (v w : Value α) (c : Comparer) : (two v w c).LivesIn h := nofun

end ValueSet

namespace Supply

variable {α β γ : Type} {h : Heap α} {sets : β → List (ValueSet α)}
  {sets' : γ → List (ValueSet α)}

/-- The sets in what a computation gives live in a heap that extends `h`. -/
def Allocates (m : Supply β) (h : Heap α) (sets : β → List (ValueSet α)) : Prop :=
  ∀ l, h.Issued l →
    ∃ h', h'.Extends h ∧ h'.Issued (m l).2 ∧ ∀ s ∈ sets (m l).1, s.LivesIn h'

def Advances (m : Supply β) : Prop := ∀ l, l.next ≤ (m l).2.next

theorem Advances.bind {m : Supply β} {f : β → Supply γ} (hm : m.Advances)
    (hf : ∀ b, (f b).Advances) : (m >>= f).Advances :=
  fun l => (hm l).trans (hf _ _)

theorem Advances.allocates {m : Supply β} (hm : m.Advances) :
    m.Allocates h fun _ => [] :=
  fun l hl => ⟨h, .refl h, hl.mono (hm l), List.forall_mem_nil _⟩

theorem Allocates.pure {b : β} (hb : ∀ s ∈ sets b, s.LivesIn h) :
    (Pure.pure b : Supply β).Allocates h sets :=
  fun _ hl => ⟨h, .refl h, hl, hb⟩

theorem Allocates.bind {m : Supply β} {f : β → Supply γ} (hm : m.Allocates h sets)
    (hf : ∀ b h', h'.Extends h → (∀ s ∈ sets b, s.LivesIn h') → (f b).Allocates h' sets') :
    (m >>= f).Allocates h sets' := by
  intro l hl
  obtain ⟨h', hext, hl', hsets⟩ := hm l hl
  obtain ⟨h'', hext', hl'', hsets'⟩ := hf _ h' hext hsets (m l).2 hl'
  exact ⟨h'', hext'.trans hext, hl'', hsets'⟩

theorem allocates_table {m : Supply (Table α)}
    (hm : ∀ l, (m l).1.stamp = l.next ∧ (m l).2.next = l.next + 1) :
    m.Allocates h fun t => [.many t] := by
  intro l hl
  obtain ⟨hstamp, hnext⟩ := hm l
  refine ⟨Function.update h l.next (some (m l).1), ?_, ?_, ?_⟩
  · intro n t hn
    have hne : n ≠ l.next := Nat.ne_of_lt (hl n t hn).2
    rwa [Function.update_of_ne hne]
  · intro n t hn
    by_cases hne : n = l.next
    · subst hne
      rw [Function.update_self] at hn
      rw [← Option.some.inj hn, hnext]
      exact ⟨hstamp, Nat.lt_succ_self _⟩
    · rw [Function.update_of_ne hne] at hn
      obtain ⟨hstamp', hlt⟩ := hl n t hn
      exact ⟨hstamp', by omega⟩
  · refine List.forall_mem_singleton.mpr fun t ht => ?_
    obtain rfl : (m l).1 = t := ValueSet.many.inj ht
    rw [hstamp, Function.update_self]

end Supply

variable {α : Type} [DecidableEq α] [Kind α]

theorem Comparer.advances_merge (c : Comparer) (v w : Value α) : (c.merge v w).Advances := by
  intro l
  cases c with
  | identity => exact Nat.le_refl _
  | union s =>
    by_cases hvw : v = w
    · simp [merge, hvw]
    · cases hm : Kind.unionMerge s v w with
      | kept u => simp [merge, hvw, hm, Merged.settle]
      | made a => simp [merge, hvw, hm, Merged.settle, Value.make, Ledger.advance]

namespace Table

omit [DecidableEq α] in
theorem stamp_foldl_push (t : Table α) (vs : List (Value α)) :
    (vs.foldl push t).stamp = t.stamp := by
  induction vs generalizing t with
  | nil => rfl
  | cons v vs ih => exact ih _

theorem next_pushAll (t : Table α) (vs : List (Value α)) (l : Ledger) :
    (t.pushAll vs l).2.next = l.next := by
  induction vs generalizing t l with
  | nil => rfl
  | cons v vs ih => exact ih _ _

theorem stamp_ofDistinct (c : Comparer) (vs : List (Value α)) (l : Ledger) :
    (ofDistinct c vs l).1.stamp = l.next ∧ (ofDistinct c vs l).2.next = l.next + 1 := by
  rw [ofDistinct, Supply.bind_apply, pushAll_fst, stamp_foldl_push]
  exact ⟨rfl, next_pushAll _ vs _⟩

theorem advances_absorb (t : Table α) (i : Nat) (merged : Value α) :
    (t.absorb i merged).Advances := by
  induction t, i, merged using Table.absorb.induct with
  | case1 t i merged hf =>
    rw [Table.absorb, hf]
    exact fun l => Nat.le_refl _
  | case2 t i merged j hf ih =>
    rw [Table.absorb, hf]
    exact (t.comparer.advances_merge merged (t.valueAt j)).bind ih

end Table

namespace ValueSet

variable {h : Heap α} {s t : ValueSet α}

theorem allocates_ofDistinct (c : Comparer) (vs : List (Value α)) :
    (ofDistinct c vs).Allocates h fun s => [s] := by
  match vs with
  | [] => exact .pure (List.forall_mem_singleton.mpr (livesIn_empty h c))
  | [v] => exact .pure (List.forall_mem_singleton.mpr (livesIn_one h v c))
  | [v, w] => exact .pure (List.forall_mem_singleton.mpr (livesIn_two h v w c))
  | v :: w :: x :: rest =>
    exact (Supply.allocates_table (Table.stamp_ofDistinct c _)).bind fun t h' _ ht => .pure ht

theorem allocates_replaceFirst (c : Comparer) (merged w : Value α) :
    (replaceFirst c merged w).Allocates h fun s => [s] := by
  rw [replaceFirst]
  split_ifs
  · refine (c.advances_merge merged w).allocates.bind fun m h' _ _ => ?_
    exact .pure (List.forall_mem_singleton.mpr (livesIn_one h' m c))
  · exact .pure (List.forall_mem_singleton.mpr (livesIn_two h merged w c))

theorem allocates_replaceSecond (c : Comparer) (v merged : Value α) :
    (replaceSecond c v merged).Allocates h fun s => [s] := by
  rw [replaceSecond]
  split_ifs
  · refine (c.advances_merge v merged).allocates.bind fun m h' _ _ => ?_
    exact .pure (List.forall_mem_singleton.mpr (livesIn_one h' m c))
  · exact .pure (List.forall_mem_singleton.mpr (livesIn_two h v merged c))

omit [DecidableEq α] [Kind α] in
theorem allocates_restamp (t : Table α) : t.restamp.Allocates h fun u => [many u] :=
  Supply.allocates_table fun _ => ⟨rfl, rfl⟩

theorem allocates_replaceEntry (t : Table α) (i : Nat) (merged : Value α) :
    (replaceEntry t i merged).Allocates h fun s => [s] := by
  refine (t.advances_absorb i merged).allocates.bind fun u h' _ _ => ?_
  split_ifs
  · exact allocates_ofDistinct u.comparer u.values
  · exact (allocates_restamp u).bind fun u' h'' _ hu => .pure hu

theorem allocates_mergeThen (hs : s.LivesIn h) (c : Comparer) (v x : Value α)
    {replace : Value α → Supply (ValueSet α)}
    (hreplace : ∀ m h', (replace m).Allocates h' fun s => [s]) :
    (do
      let merged ← c.merge v x
      if merged = v then return (s, false) else return (← replace merged, true) :
        Supply (ValueSet α × Bool)).Allocates h fun p => [p.1] := by
  refine (c.advances_merge v x).allocates.bind fun m h' hext _ => ?_
  split_ifs
  · exact .pure (List.forall_mem_singleton.mpr (hs.mono hext))
  · exact (hreplace m h').bind fun u h'' _ hu => .pure hu

theorem LivesIn.allocates_insert (hs : s.LivesIn h) (x : Value α) :
    (s.insert x).Allocates h fun p => [p.1] := by
  cases s with
  | empty c => exact .pure (List.forall_mem_singleton.mpr (livesIn_one h x c))
  | one v c =>
    rw [insert]
    split_ifs
    · exact allocates_mergeThen hs c v x fun m h' =>
        .pure (List.forall_mem_singleton.mpr (livesIn_one h' m c))
    · exact .pure (List.forall_mem_singleton.mpr (livesIn_two h v x c))
  | two v w c =>
    rw [insert]
    split_ifs
    · exact allocates_mergeThen hs c v x fun m h' => allocates_replaceFirst c m w
    · exact allocates_mergeThen hs c w x fun m h' => allocates_replaceSecond c v m
    · exact (allocates_ofDistinct c [v, w, x]).bind fun u h' _ hu => .pure hu
  | many t =>
    rw [insert]
    cases t.find? x with
    | none => exact (allocates_restamp (t.push x)).bind fun u h' _ hu => .pure hu
    | some i =>
      exact allocates_mergeThen hs t.comparer (t.valueAt i) x fun m h' =>
        allocates_replaceEntry t i m

theorem LivesIn.allocates_insertAll (hs : s.LivesIn h) (xs : List (Value α)) :
    (s.insertAll xs).Allocates h fun p => [p.1] := by
  induction xs generalizing s h with
  | nil => exact .pure (List.forall_mem_singleton.mpr hs)
  | cons x xs ih =>
    refine (hs.allocates_insert x).bind fun p h' _ hp => ?_
    refine (ih (hp p.1 List.mem_cons_self)).bind fun q h'' _ hq => ?_
    exact .pure hq

theorem allocates_ofList (c : Comparer) (xs : List (Value α)) :
    (ofList c xs).Allocates h fun s => [s] :=
  ((livesIn_empty h c).allocates_insertAll xs).bind fun _ _ _ hp => .pure hp

theorem LivesIn.allocates_union (hs : s.LivesIn h) (ht : t.LivesIn h) :
    (s.union t).Allocates h fun p => [p.1] := by
  rcases s.union_cases t with ⟨-, -, heq⟩ | heq
  · rw [heq]
    exact .pure (List.forall_mem_singleton.mpr ht)
  · rw [heq]
    exact hs.allocates_insertAll t.values

theorem allocates_unionAll (c : Comparer) {sets : List (ValueSet α)}
    (h' : ∀ t ∈ sets, t.LivesIn h) : (unionAll c sets).Allocates h fun s => [s] := by
  suffices hfold : ∀ (h : Heap α) (s : ValueSet α), (∀ t ∈ sets, t.LivesIn h) → s.LivesIn h →
      (sets.foldlM (fun (s t : ValueSet α) => return (← s.union t).1) s).Allocates h
        fun s => [s] from
    hfold h (empty c) h' (livesIn_empty h c)
  clear h'
  induction sets with
  | nil => exact fun h s _ hs => .pure (List.forall_mem_singleton.mpr hs)
  | cons t sets ih =>
    intro h s hsets hs
    obtain ⟨ht, hrest⟩ := List.forall_mem_cons.mp hsets
    have hstep : (do return (← s.union t).1 : Supply (ValueSet α)).Allocates h fun s => [s] :=
      (hs.allocates_union ht).bind fun p h' _ hp => .pure hp
    rw [List.foldlM_cons]
    refine hstep.bind fun u h' hext hu => ?_
    exact ih h' u (fun w hw => (hrest w hw).mono hext) (hu u List.mem_cons_self)

theorem LivesIn.allocates_splitAt (hs : s.LivesIn h) (accept : Nat → Value α → Bool) :
    (s.splitAt accept).Allocates h fun sides => [sides.matching, sides.remaining] := by
  have hnone := livesIn_empty h s.comparer
  rw [splitAt]
  split_ifs
  · exact .pure (List.forall_mem_cons.mpr ⟨hs, List.forall_mem_singleton.mpr hnone⟩)
  · exact .pure (List.forall_mem_cons.mpr ⟨hnone, List.forall_mem_singleton.mpr hs⟩)
  · refine (allocates_ofDistinct _ _).bind fun m h' _ hm => ?_
    refine (allocates_ofDistinct _ _).bind fun r h'' hext hr => ?_
    have hm' := (hm m List.mem_cons_self).mono hext
    exact .pure (List.forall_mem_cons.mpr ⟨hm', hr⟩)

theorem LivesIn.allocates_splitView {β : Type} (hs : s.LivesIn h)
    (view : Value α → Option β) :
    (s.splitView view).Allocates h fun sides => [sides.remaining] := by
  refine (hs.allocates_splitAt fun _ v => (view v).isSome).bind fun sides h' _ hsides => ?_
  exact .pure (List.forall_mem_singleton.mpr (hsides _ (by simp)))

theorem LivesIn.allocates_asUnion (hs : s.LivesIn h) (r : Strength) :
    (s.asUnion r).Allocates h fun p => [p.1] := by
  rcases s.asUnion_cases r with ⟨-, heq⟩ | ⟨-, changed, heq⟩
  · rw [heq]
    exact .pure (List.forall_mem_singleton.mpr hs)
  · rw [heq]
    exact (allocates_ofList (.union r) s.values).bind fun u h' _ hu => .pure hu

theorem LivesIn.allocates_widenThrough (hs : s.LivesIn h) (maxEntries : Nat)
    (levels : List Strength) :
    (widenThrough maxEntries levels s).Allocates h fun w => [w.set] := by
  induction levels generalizing s h with
  | nil => exact .pure (List.forall_mem_singleton.mpr hs)
  | cons r rs ih =>
    rw [widenThrough]
    split_ifs
    · exact .pure (List.forall_mem_singleton.mpr hs)
    · refine (hs.allocates_asUnion r).bind fun p h' _ hp => ?_
      refine (ih (hp p.1 List.mem_cons_self)).bind fun w h'' _ hw => ?_
      exact .pure hw

end ValueSet

namespace Operation

omit [DecidableEq α] [Kind α] in
theorem allocates_withSet {h : Heap α} {pool : List (ValueSet α)} {i : Nat}
    {make : ValueSet α → Supply (List (ValueSet α))} (hpool : ∀ s ∈ pool, s.LivesIn h)
    (hmake : ∀ s, s.LivesIn h → (make s).Allocates h id) :
    (withSet pool i make).Allocates h id := by
  unfold withSet
  cases hi : pool[i]? with
  | none => exact .pure (List.forall_mem_nil _)
  | some s => exact hmake s (hpool s (List.mem_of_getElem? hi))

theorem allocates_apply (op : Operation α) {h : Heap α} {pool : List (ValueSet α)}
    (hpool : ∀ s ∈ pool, s.LivesIn h) : (op.apply pool).Allocates h id := by
  cases op with
  | empty c => exact .pure (List.forall_mem_singleton.mpr (ValueSet.livesIn_empty h c))
  | singleton v => exact .pure (List.forall_mem_singleton.mpr (ValueSet.livesIn_one h v _))
  | ofList c vs => exact (ValueSet.allocates_ofList c vs).bind fun s h' _ hs => .pure hs
  | insert i v =>
    refine allocates_withSet hpool fun s hs => ?_
    exact (hs.allocates_insert v).bind fun p h' _ hp => .pure hp
  | union i j =>
    refine allocates_withSet hpool fun s hs => allocates_withSet hpool fun t ht => ?_
    exact (hs.allocates_union ht).bind fun p h' _ hp => .pure hp
  | unionAll c is =>
    have hsets : ∀ t ∈ is.filterMap (pool[·]?), t.LivesIn h := by
      intro t ht
      obtain ⟨i, -, hi⟩ := List.mem_filterMap.mp ht
      exact hpool t (List.mem_of_getElem? hi)
    exact (ValueSet.allocates_unionAll c hsets).bind fun s h' _ hs => .pure hs
  | splitAt i accept =>
    refine allocates_withSet hpool fun s hs => ?_
    exact (hs.allocates_splitAt accept).bind fun sides h' _ hsides => .pure hsides
  | splitView i view =>
    refine allocates_withSet hpool fun s hs => ?_
    exact (hs.allocates_splitView view).bind fun sides h' _ hsides => .pure hsides
  | asUnion i r =>
    refine allocates_withSet hpool fun s hs => ?_
    exact (hs.allocates_asUnion r).bind fun p h' _ hp => .pure hp
  | widen i l =>
    refine allocates_withSet hpool fun s hs => ?_
    exact (hs.allocates_widenThrough l.maxEntries (l.levels s.comparer)).bind
      fun w h' _ hw => .pure hw

end Operation

end AbstractSets
