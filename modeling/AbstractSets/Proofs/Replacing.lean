import Mathlib.Data.List.Perm.Subperm
import AbstractSets.Proofs.Conservation

/-!
# Replacing an entry, round by round

An entry is replaced in rounds. A round looks beside the slot that is to be overwritten for an
entry equal to the merged value. That entry leaves the table, the last one moves into its place,
and the merged value becomes what stands for both. The last entry may be the one in the slot, and
then the slot moves with it.

`Replacing` says how far this has got, and `Rounds` what some rounds have taken in, in order. A
round takes one of the values beside the slot and leaves the others, so the rounds come to an end
before the slot is the only one left, and what they have not taken in is still there. Equality
need not be transitive, nor need a merged value be equal to what it was merged from.
-/

namespace AbstractSets

open Kind
open scoped List

/-- The entry in `slot` is to become `merged`. -/
structure Replacing (α : Type) where
  table : Table α
  slot : Nat
  merged : Value α
  ledger : Ledger

namespace Replacing

variable {α : Type}

def beside (r : Replacing α) : List (Value α) := r.table.values.eraseIdx r.slot

theorem length_beside {r : Replacing α} (hslot : r.slot < r.table.size) :
    r.beside.length = r.table.size - 1 := by
  rw [beside, List.length_eraseIdx_of_lt (by simpa using hslot), Table.length_values]

structure Ready [DecidableEq α] [Kind α] (r : Replacing α) : Prop where
  sound : r.table.Sound
  slot_lt : r.slot < r.table.size

variable [DecidableEq α] [Kind α]

def next? (r : Replacing α) : Option (Fin r.table.size) := r.table.findOther? r.merged r.slot

def takeIn (r : Replacing α) (j : Fin r.table.size) : Replacing α :=
  let both := r.table.comparer.merge r.merged (r.table.valueAt j) r.ledger
  { table := r.table.swapRemove j
    slot := if r.slot = r.table.size - 1 then j.val else r.slot
    merged := both.1
    ledger := both.2 }

def finish (r : Replacing α) : Table α × Ledger := (r.table.set r.slot r.merged, r.ledger)

/-- Rounds lead from one state to another and take in a list of values, the first one first. -/
inductive Rounds : Replacing α → List (Value α) → Replacing α → Prop where
  | nil (r : Replacing α) : Rounds r [] r
  | cons {r last : Replacing α} {j : Fin r.table.size} {taken : List (Value α)}
      (hnext : r.next? = some j) (hlater : Rounds (r.takeIn j) taken last) :
      Rounds r (r.table.valueAt j :: taken) last

variable {r last : Replacing α} {j : Fin r.table.size} {taken : List (Value α)}

theorem beside_perm_of_next (hslot : r.slot < r.table.size) (hnext : r.next? = some j) :
    r.beside.Perm (r.table.valueAt j :: (r.takeIn j).beside) :=
  Table.eraseIdx_perm_cons_swapRemove hslot hnext

theorem Ready.takeIn [Coherent α] (hr : r.Ready) (hnext : r.next? = some j) :
    (r.takeIn j).Ready where
  sound := hr.sound.swapRemove j
  slot_lt := Table.slot_lt_size_swapRemove hr.slot_lt hnext

theorem Ready.values_finish (hr : r.Ready) :
    r.finish.1.values.Perm (r.merged :: r.beside) := by
  rw [finish, Table.values_set]
  exact List.set_perm_cons_eraseIdx (by simpa using hr.slot_lt) r.merged

theorem Ready.sound_finish [Coherent α] (hr : r.Ready) (hnext : r.next? = none) :
    r.finish.1.Sound :=
  hr.sound.set hr.slot_lt hnext

namespace Rounds

theorem comparer_eq (h : Rounds r taken last) : last.table.comparer = r.table.comparer := by
  induction h with
  | nil r => rfl
  | cons hnext _ ih => exact ih

theorem foldlM_merge (h : Rounds r taken last) :
    taken.foldlM r.table.comparer.merge r.merged r.ledger = (last.merged, last.ledger) := by
  induction h with
  | nil r => rfl
  | cons hnext _ ih =>
    rw [List.foldlM_cons, Supply.bind_apply]
    exact ih

variable [Coherent α]

theorem ready (h : Rounds r taken last) (hr : r.Ready) : last.Ready := by
  induction h with
  | nil r => exact hr
  | cons hnext _ ih => exact ih (hr.takeIn hnext)

/-- What was beside the slot has been taken in, or is beside the slot still. -/
theorem beside_perm (h : Rounds r taken last) (hr : r.Ready) :
    r.beside.Perm (taken ++ last.beside) := by
  induction h with
  | nil r => exact .refl _
  | @cons r last j taken hnext _ ih =>
    calc r.beside
        _ ~ r.table.valueAt j :: (r.takeIn j).beside := beside_perm_of_next hr.slot_lt hnext
        _ ~ r.table.valueAt j :: (taken ++ last.beside) := (ih (hr.takeIn hnext)).cons _

theorem length_taken_le (h : Rounds r taken last) (hr : r.Ready) :
    taken.length ≤ r.table.size - 1 := by
  have hlength := (h.beside_perm hr).length_eq
  rw [length_beside hr.slot_lt, List.length_append] at hlength
  omega

theorem subperm (h : Rounds r taken last) (hr : r.Ready) : taken.Subperm r.beside :=
  (List.sublist_append_left taken last.beside).subperm.trans (h.beside_perm hr).symm.subperm

theorem beside_perm_diff (h : Rounds r taken last) (hr : r.Ready) :
    last.beside.Perm (r.beside.diff taken) := by
  -- The lists agree once what was taken in is put before both.
  apply (List.perm_append_left_iff taken).mp
  calc taken ++ last.beside
      _ ~ r.beside := (h.beside_perm hr).symm
      _ ~ taken ++ r.beside.diff taken := ?_
  exact (List.subperm_append_diff_self_of_count_le fun v _ => (h.subperm hr).count_le v).symm

end Rounds

/-- Rounds go on until no entry is equal any more, and then the slot is written over. -/
theorem exists_rounds_absorb (t : Table α) (i : Nat) (merged : Value α) (l : Ledger) :
    ∃ taken last, Rounds ⟨t, i, merged, l⟩ taken last ∧ last.next? = none ∧
      t.absorb i merged l = last.finish := by
  induction t, i, merged using Table.absorb.induct generalizing l with
  | case1 t i merged hf =>
    refine ⟨[], ⟨t, i, merged, l⟩, .nil _, hf, ?_⟩
    rw [Table.absorb, hf]
    rfl
  | case2 t i merged j hf ih =>
    let both := t.comparer.merge merged (t.valueAt j) l
    obtain ⟨taken, last, hrounds, hnone, hlast⟩ := ih both.1 both.2
    have hnext : next? ⟨t, i, merged, l⟩ = some j := hf
    refine ⟨t.valueAt j :: taken, last, .cons hnext hrounds, hnone, ?_⟩
    rw [Table.absorb, hf]
    exact hlast

end Replacing

open Replacing

variable {α : Type} [DecidableEq α] [Kind α]

/-- Replacing an entry of a sound table takes in fewer values than there are entries, and every
round has a slot in the table to go on with. In the end the table is sound, with its comparer. It
holds the values from beside the entry that were not taken in, each of them once, and one more,
which is the merged value with those taken in merged into it, in the order in which they left the
table. -/
theorem absorb_ends_and_loses_nothing [Coherent α] {t : Table α} (ht : t.Sound) {i : Nat}
    (hi : i < t.size) (merged : Value α) (l : Ledger) :
    let start : Replacing α := ⟨t, i, merged, l⟩
    let result := t.absorb i merged l
    (∀ taken r, Rounds start taken r → taken.length ≤ t.size - 1 ∧ r.slot < r.table.size) ∧
      ∃ taken last, Rounds start taken last ∧ last.next? = none ∧ result = last.finish ∧
        result.1.Sound ∧ result.1.comparer = t.comparer ∧
        taken.Subperm (t.values.eraseIdx i) ∧
        (∀ v ∈ t.values.eraseIdx i, v ∉ taken → result.1.values.count v = 1) ∧
        let folded := taken.foldlM t.comparer.merge merged l
        result.1.values.Perm (folded.1 :: (t.values.eraseIdx i).diff taken) ∧
          result.2 = folded.2 := by
  intro start result
  have hstart : start.Ready := ⟨ht, hi⟩
  refine ⟨fun taken r h => ⟨h.length_taken_le hstart, (h.ready hstart).slot_lt⟩, ?_⟩
  obtain ⟨taken, last, hrounds, hnone, hresult⟩ : ∃ taken last, Rounds start taken last ∧
      last.next? = none ∧ result = last.finish := exists_rounds_absorb t i merged l
  have hlast := hrounds.ready hstart
  have hsound : result.1.Sound := by
    rw [hresult]
    exact hlast.sound_finish hnone
  have hfolded : taken.foldlM t.comparer.merge merged l = (last.merged, last.ledger) :=
    hrounds.foldlM_merge
  have hvalues : result.1.values.Perm (last.merged :: start.beside.diff taken) := by
    rw [hresult]
    exact hlast.values_finish.trans ((hrounds.beside_perm_diff hstart).cons _)
  refine ⟨taken, last, hrounds, hnone, hresult, hsound, ?_, hrounds.subperm hstart, ?_, ?_⟩
  · rw [hresult]
    exact (Table.comparer_set _ _ _).trans hrounds.comparer_eq
  · intro v hv htaken
    have hkept : v ∈ start.beside.diff taken := List.mem_diff_of_mem hv htaken
    exact List.count_eq_one_of_mem hsound.distinct.nodup
      (hvalues.mem_iff.mpr (List.mem_cons_of_mem _ hkept))
  · rw [hfolded]
    exact ⟨hvalues, congrArg Prod.snd hresult⟩

/-- The last of four entries is replaced by a value of key `b`. The first entry is taken in and
gives it the key `c`, while the slot moves to the front; then the entry of key `c` is taken in, and
the entry of key `d` is left. -/
theorem absorb_ends_and_loses_nothing_moved :
    let vs : List (Value Origin) := [⟨0, .relabel ⟨"b", some "c"⟩⟩, ⟨1, .relabel ⟨"d", none⟩⟩,
      ⟨2, .relabel ⟨"c", none⟩⟩, ⟨3, .relabel ⟨"a", none⟩⟩]
    let t : Table Origin := (Table.ofDistinct (.union .plain) vs ⟨5, true⟩).1
    let merged : Value Origin := ⟨4, .relabel ⟨"b", none⟩⟩
    let result := t.absorb 3 merged ⟨6, true⟩
    (t.Sound ∧ 3 < t.size) ∧
      result.1.values = [⟨6, .relabel ⟨"c", none⟩⟩, ⟨1, .relabel ⟨"d", none⟩⟩] ∧
      result.1.Sound ∧
      ∃ taken last, Rounds ⟨t, 3, merged, ⟨6, true⟩⟩ taken last ∧ taken.length ≤ 3 ∧
        result.1.values.Perm
          ((taken.foldlM t.comparer.merge merged ⟨6, true⟩).1 :: (vs.eraseIdx 3).diff taken) := by
  intro vs t merged result
  have hapart : (Comparer.union .plain).Distinct vs := by
    unfold Comparer.Distinct
    decide +kernel
  have hsound : t.Sound := (Table.gives_ofDistinct hapart _).1
  have hlt : 3 < t.size := by decide +kernel
  have hheld : t.values = vs := Table.values_ofDistinct _ _ _
  obtain ⟨hends, taken, last, hrounds, -, -, hresult, -, -, -, hvalues, -⟩ :=
    absorb_ends_and_loses_nothing hsound hlt merged ⟨6, true⟩
  rw [hheld] at hvalues
  exact ⟨⟨hsound, hlt⟩, by decide +kernel, hresult, taken, last, hrounds, (hends _ _ hrounds).1,
    hvalues⟩

end AbstractSets
