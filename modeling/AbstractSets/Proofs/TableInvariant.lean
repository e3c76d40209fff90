import Mathlib.Data.List.Nodup
import Mathlib.Data.List.Perm.Basic
import Mathlib.Logic.Function.Basic
import AbstractSets.Proofs.Contract
import AbstractSets.Table.Basic

/-!
# The invariant of tables

An index stands for a partial function from positions to hashes: a position is in the
bucket of the hash it has, once, and in no other. Every operation on tables changes that
function at one position or at two, and the index follows it. With the hashes up to date,
looking a value up in its bucket misses no entry that is equal to it.

While an entry is being replaced its old value stays in the table, so the values are
pairwise unequal at every step of `absorb` and not only at its end.
-/

namespace AbstractSets

namespace HashIndex

/-- The index files exactly the positions that have a hash, each under that hash and once. -/
structure Files (ix : HashIndex) (hashAt : Nat → Option UInt64) : Prop where
  mem_iff (h : UInt64) (p : Nat) : p ∈ ix.bucket h ↔ hashAt p = some h
  nodup (h : UInt64) : (ix.bucket h).Nodup

variable {ix : HashIndex} {hashAt : Nat → Option UInt64}

theorem files_empty : empty.Files fun _ => none := by
  refine ⟨fun h p => ?_, fun h => ?_⟩ <;> simp

theorem Files.add (hf : ix.Files hashAt) {p : Nat} (hp : hashAt p = none) (h : UInt64) :
    (ix.add h p).Files (Function.update hashAt p (some h)) := by
  have hfree : ∀ k, p ∉ ix.bucket k := fun k hk => by simp [hf.mem_iff, hp] at hk
  refine ⟨fun k q => ?_, fun k => ?_⟩
  · rw [bucket_add]
    by_cases hq : q = p
    · subst hq
      by_cases hk : h = k <;> simp [hk, hfree]
    · by_cases hk : h = k <;> simp [hk, hq, hf.mem_iff]
  · rw [bucket_add]
    by_cases hk : h = k
    · rw [if_pos hk, List.nodup_append]
      refine ⟨hf.nodup k, List.nodup_singleton p, fun q hq r hr heq => hfree k ?_⟩
      rwa [← List.mem_singleton.mp hr, ← heq]
    · simpa [hk] using hf.nodup k

theorem Files.remove (hf : ix.Files hashAt) {p : Nat} {h : UInt64} (hp : hashAt p = some h) :
    (ix.remove h p).Files (Function.update hashAt p none) := by
  refine ⟨fun k q => ?_, fun k => ?_⟩
  · rw [bucket_remove]
    by_cases hq : q = p
    · subst hq
      by_cases hk : h = k
      · simp [hk, (hf.nodup k).mem_erase_iff]
      · simp [hk, hf.mem_iff, hp]
    · by_cases hk : h = k
      · simp [hk, hq, (hf.nodup k).mem_erase_iff, hf.mem_iff]
      · simp [hk, hq, hf.mem_iff]
  · rw [bucket_remove]
    by_cases hk : h = k
    · simpa [hk] using (hf.nodup k).erase p
    · simpa [hk] using hf.nodup k

theorem Files.renumber (hf : ix.Files hashAt) {p q : Nat} {h : UInt64} (hp : hashAt p = some h)
    (hq : hashAt q = none) :
    (ix.renumber h p q).Files (Function.update (Function.update hashAt p none) q (some h)) := by
  have hfree : ∀ k, q ∉ ix.bucket k := fun k hk => by simp [hf.mem_iff, hq] at hk
  have hpq : p ≠ q := by
    rintro rfl
    rw [hp] at hq
    cases hq
  refine ⟨fun k r => ?_, fun k => ?_⟩
  · rw [bucket_renumber, Function.update_apply, Function.update_apply]
    by_cases hk : h = k
    · rw [if_pos hk, List.mem_map]
      simp only [hf.mem_iff]
      grind
    · rw [if_neg hk, hf.mem_iff]
      grind
  · rw [bucket_renumber]
    by_cases hk : h = k
    · rw [if_pos hk]
      refine List.Nodup.map_on (fun r hr r' hr' heq => ?_) (hf.nodup k)
      have hrq : r ≠ q := fun heq => hfree k (heq ▸ hr)
      have hrq' : r' ≠ q := fun heq => hfree k (heq ▸ hr')
      grind
    · simpa [hk] using hf.nodup k

end HashIndex

namespace Table

variable {α : Type}

def hashAt (t : Table α) (p : Nat) : Option UInt64 := t.entries[p]?.map (·.hash)

theorem entry_swapRemove (t : Table α) (i : Fin t.size) (p : Nat) :
    (t.swapRemove i).entries[p]? =
      if p = t.size - 1 then none
      else if p = i.val then t.entries[t.size - 1]? else t.entries[p]? := by
  have hi : i.val < t.entries.size := i.isLt
  have hlast : t.entries.size - 1 < t.entries.size := by omega
  simp only [swapRemove, Array.getElem?_pop, Array.size_set, Array.getElem?_set, size]
  by_cases hp : p < t.entries.size - 1
  · have hne : p ≠ t.entries.size - 1 := by omega
    rw [if_pos hp, if_neg hne]
    by_cases hip : i.val = p
    · rw [if_pos hip, if_pos hip.symm, Array.getElem?_eq_getElem hlast]
    · rw [if_neg hip, if_neg (Ne.symm hip)]
  · rw [if_neg hp]
    by_cases hne : p = t.entries.size - 1
    · rw [if_pos hne]
    · have hip : p ≠ i.val := by omega
      rw [if_neg hne, if_neg hip, Array.getElem?_eq_none (by omega)]

theorem getElem?_values_swapRemove_eq (t : Table α) (i : Fin t.size) (p : Nat) :
    (t.swapRemove i).values[p]? =
      if p = t.size - 1 then none
      else if p = i.val then t.values[t.size - 1]? else t.values[p]? := by
  simp only [values, List.getElem?_map, Array.getElem?_toList, entry_swapRemove]
  split_ifs <;> rfl

theorem getElem?_values (t : Table α) (i : Fin t.size) :
    t.values[i.val]? = some (t.valueAt i) := by
  have hi : i.val < t.entries.size := i.isLt
  simp [values, valueAt, hi]

theorem dropLast_set_perm {β : Type} (front : List β) (x : β) {i : Nat} (hi : i ≤ front.length) :
    ((front ++ [x]).set i x).dropLast.Perm ((front ++ [x]).eraseIdx i) := by
  rcases Nat.lt_or_eq_of_le hi with hlt | rfl
  · rw [List.set_append_left _ _ hlt, List.dropLast_concat,
      List.eraseIdx_append_of_lt_length hlt]
    exact (List.set_perm_cons_eraseIdx hlt x).trans (List.perm_append_singleton x _).symm
  · rw [List.set_append_right _ _ (Nat.le_refl _),
      List.eraseIdx_append_of_length_le (Nat.le_refl _)]
    simp

theorem values_swapRemove (t : Table α) (i : Fin t.size) {x : Value α}
    (hx : t.values.getLast? = some x) : (t.swapRemove i).values = (t.values.set i x).dropLast := by
  have hi : i.val < t.entries.size := i.isLt
  have hlast : t.entries.size - 1 < t.entries.size := by omega
  have hmoved : t.entries[t.entries.size - 1].value = x := by
    simpa [values, List.getLast?_eq_getElem?, hlast] using hx
  simp [swapRemove, values, List.map_dropLast, List.map_set, hmoved]

theorem values_swapRemove_perm (t : Table α) (i : Fin t.size) :
    (t.swapRemove i).values.Perm (t.values.eraseIdx i) := by
  have hi : i.val < t.values.length := by simp
  obtain ⟨front, x, hsplit⟩ : ∃ front x, t.values = front ++ [x] :=
    t.values.eq_nil_or_concat'.resolve_left (List.ne_nil_of_length_pos (Nat.zero_lt_of_lt hi))
  have hx : t.values.getLast? = some x := by rw [hsplit, List.getLast?_concat]
  rw [t.values_swapRemove i hx]
  rw [hsplit, List.length_append, List.length_singleton] at hi
  rw [hsplit]
  exact dropLast_set_perm front x (Nat.le_of_lt_succ hi)

section

variable [Kind α]

/-- Every position is filed once, under the hash kept with its entry, and that hash is the
one of the value now at this position. -/
structure Filed (t : Table α) : Prop where
  index : t.index.Files t.hashAt
  hash {p : Nat} {e : Entry α} : t.entries[p]? = some e → e.hash = t.comparer.hash e.value

theorem filed_empty (c : Comparer) (stamp : Nat) : (empty c stamp : Table α).Filed := by
  refine ⟨?_, fun h => by simp [empty] at h⟩
  have hnone : (empty c stamp : Table α).hashAt = fun _ => none := by
    funext p
    simp [hashAt, empty]
  rw [hnone]
  exact HashIndex.files_empty

theorem Filed.push {t : Table α} (ht : t.Filed) (v : Value α) : (t.push v).Filed := by
  have hat : (t.push v).hashAt = Function.update t.hashAt t.size (some (t.comparer.hash v)) := by
    funext p
    by_cases hp : p = t.size
    · simp [hashAt, Table.push, hp]
    · simp [hashAt, Table.push, Array.getElem?_push, hp]
  refine ⟨?_, fun {p e} he => ?_⟩
  · rw [hat]
    exact ht.index.add (by simp [hashAt]) _
  · simp only [Table.push, Array.getElem?_push] at he
    split_ifs at he with hp
    · rw [← Option.some.inj he]
      rfl
    · exact ht.hash he

theorem size_set (t : Table α) (i : Nat) (v : Value α) : (t.set i v).size = t.size := by
  rw [← length_values, values_set, List.length_set, length_values]

theorem Filed.set {t : Table α} (ht : t.Filed) {i : Nat} (hi : i < t.size) (v : Value α) :
    (t.set i v).Filed := by
  have hset : t.set i v = { t with
      entries := t.entries.set i ⟨t.comparer.hash v, v⟩
      index :=
        if t.comparer.hash v = t.entries[i].hash then t.index
        else (t.index.remove t.entries[i].hash i).add (t.comparer.hash v) i } := by
    rw [Table.set, dif_pos hi]
  have hold : t.hashAt i = some t.entries[i].hash := by simp [hashAt, hi]
  have hat : (t.set i v).hashAt =
      Function.update (Function.update t.hashAt i none) i (some (t.comparer.hash v)) := by
    funext p
    by_cases hp : p = i
    · simp [hashAt, hset, hp]
    · simp [hashAt, hset, hp, Ne.symm hp]
  refine ⟨?_, fun {p e} he => ?_⟩
  · rw [hat, hset]
    by_cases hhash : t.comparer.hash v = t.entries[i].hash
    · rw [if_pos hhash, Function.update_idem, hhash, ← hold, Function.update_eq_self]
      exact ht.index
    · rw [if_neg hhash]
      exact (ht.index.remove hold).add (by simp) _
  · rw [hset, Array.getElem?_set] at he
    split_ifs at he with hp
    · rw [comparer_set, ← Option.some.inj he]
    · rw [comparer_set]
      exact ht.hash he

theorem Filed.swapRemove {t : Table α} (ht : t.Filed) (i : Fin t.size) :
    (t.swapRemove i).Filed := by
  have hi : i.val < t.entries.size := i.isLt
  have hlast : t.entries.size - 1 < t.entries.size := by omega
  have hold : t.hashAt i = some t.entries[i].hash := by simp [hashAt, hi]
  have hmoved : t.hashAt (t.entries.size - 1) = some t.entries[t.entries.size - 1].hash := by
    simp [hashAt, hlast]
  refine ⟨?_, fun {p e} he => ?_⟩
  · by_cases hend : i.val = t.entries.size - 1
    · have hat : (t.swapRemove i).hashAt = Function.update t.hashAt i none := by
        funext p
        by_cases hp : p = i.val
        · simp [hashAt, entry_swapRemove, hp, hend]
        · simp [hashAt, entry_swapRemove, hp, ← hend]
      rw [hat]
      simpa [Table.swapRemove, hend] using ht.index.remove hold
    · have hat : (t.swapRemove i).hashAt =
          Function.update (Function.update (Function.update t.hashAt i none)
            (t.entries.size - 1) none) i (some t.entries[t.entries.size - 1].hash) := by
        funext p
        by_cases hp : p = i.val
        · simp [hashAt, entry_swapRemove, hp, hend, hlast]
        · by_cases hq : p = t.entries.size - 1
          · simp [hashAt, entry_swapRemove, hq, Ne.symm hend]
          · simp [hashAt, entry_swapRemove, hp, hq]
      have hfiles := (ht.index.remove hold).renumber (p := t.entries.size - 1) (q := i.val)
        (by simpa [Ne.symm hend] using hmoved) (by simp)
      rw [hat]
      simpa [Table.swapRemove, hend] using hfiles
  · rw [entry_swapRemove] at he
    split_ifs at he
    · exact ht.hash he
    · exact ht.hash he

end

variable [DecidableEq α] [Kind α]

theorem equal_of_findBeside {t : Table α} {v : Value α} {skip : Nat → Bool} {i : Fin t.size}
    (h : t.findBeside v skip = some i) :
    skip i = false ∧ t.comparer.equal (t.valueAt i) v = true := by
  obtain ⟨p, -, hp⟩ := List.exists_of_findSome?_eq_some h
  simp only [Option.dite_none_right_eq_some, Option.ite_none_right_eq_some,
    Bool.and_eq_true, Bool.not_eq_true'] at hp
  obtain ⟨hlt, ⟨⟨hskip, -⟩, heq⟩, hi⟩ := hp
  rw [← Option.some.inj hi]
  exact ⟨hskip, heq⟩

/-- The slot that `absorb` goes on with is a slot still: it follows the last entry if that is
the one moved. -/
theorem slot_lt_size_swapRemove {t : Table α} {i : Nat} (hi : i < t.size) {merged : Value α}
    {j : Fin t.size} (h : t.findOther? merged i = some j) :
    (if i = t.size - 1 then j.val else i) < (t.swapRemove j).size := by
  have hj := j.isLt
  have hji : j.val ≠ i := by simpa using (equal_of_findBeside h).1
  rw [size_swapRemove]
  split_ifs <;> omega

/-- A table whose index is right and no two of whose values are equal. -/
structure Sound (t : Table α) : Prop where
  filed : t.Filed
  distinct : t.comparer.Distinct t.values

theorem sound_empty (c : Comparer) (stamp : Nat) : (empty c stamp : Table α).Sound :=
  ⟨filed_empty c stamp, List.Pairwise.nil⟩

theorem Sound.withStamp {t : Table α} (ht : t.Sound) (n : Nat) :
    ({ t with stamp := n } : Table α).Sound :=
  ⟨⟨ht.filed.index, ht.filed.hash⟩, ht.distinct⟩

theorem Sound.restamp {t : Table α} (ht : t.Sound) (l : Ledger) : (t.restamp l).1.Sound :=
  ht.withStamp _

section

variable [Kind.Coherent α]

/-- Looking in one bucket finds nothing only if no value outside `skip` is equal: an equal
one has the same hash, and its position is filed under that hash. -/
theorem Filed.findBeside_eq_none_iff {t : Table α} (ht : t.Filed) (v : Value α)
    (skip : Nat → Bool) :
    t.findBeside v skip = none ↔
      ∀ p w, t.values[p]? = some w → skip p = false → t.comparer.equal w v = false := by
  constructor
  · intro h p w hw hp
    by_contra heq
    rw [Bool.not_eq_false] at heq
    obtain ⟨e, he, rfl⟩ : ∃ e, t.entries[p]? = some e ∧ e.value = w := by
      simpa [values] using hw
    obtain ⟨hlt, hentry⟩ := Array.getElem?_eq_some_iff.mp he
    have hhash : e.hash = t.comparer.hash v := (ht.hash he).trans (Comparer.hash_eq_of_equal heq)
    have hmem : p ∈ t.index.bucket (t.comparer.hash v) := by
      rw [ht.index.mem_iff, hashAt, he, Option.map_some, hhash]
    have hfound := List.findSome?_eq_none_iff.mp h p hmem
    simp [hlt, hentry, hp, heq, hhash] at hfound
  · intro h
    cases hf : t.findBeside v skip with
    | none => rfl
    | some i =>
      obtain ⟨hi, heq⟩ := equal_of_findBeside hf
      rw [h i _ (t.getElem?_values i) hi] at heq
      cases heq

theorem Filed.find?_eq_none_iff {t : Table α} (ht : t.Filed) (v : Value α) :
    t.find? v = none ↔ ∀ w ∈ t.values, t.comparer.equal w v = false := by
  rw [find?, ht.findBeside_eq_none_iff]
  constructor
  · intro h w hw
    obtain ⟨p, hp⟩ := List.mem_iff_getElem?.mp hw
    exact h p w hp rfl
  · intro h p w hp _
    exact h w (List.mem_of_getElem? hp)

theorem Filed.isSome_find?_iff {t : Table α} (ht : t.Filed) (v : Value α) :
    (t.find? v).isSome = true ↔ ∃ w ∈ t.values, t.comparer.equal w v = true := by
  rw [← Option.not_isNone, Bool.not_eq_true', Bool.eq_false_iff, Ne,
    Option.isNone_iff_eq_none, ht.find?_eq_none_iff]
  simp

theorem Filed.findOther?_eq_none_iff {t : Table α} (ht : t.Filed) (v : Value α) (i : Nat) :
    t.findOther? v i = none ↔
      ∀ p w, t.values[p]? = some w → p ≠ i → t.comparer.equal w v = false := by
  rw [findOther?, ht.findBeside_eq_none_iff]
  simp only [beq_eq_false_iff_ne]

theorem Sound.push {t : Table α} (ht : t.Sound) {v : Value α} (hv : t.find? v = none) :
    (t.push v).Sound := by
  refine ⟨ht.filed.push v, ?_⟩
  rw [values_push, comparer_push]
  exact ht.distinct.concat ((ht.filed.find?_eq_none_iff v).mp hv)

theorem Sound.swapRemove {t : Table α} (ht : t.Sound) (i : Fin t.size) :
    (t.swapRemove i).Sound := by
  refine ⟨ht.filed.swapRemove i, ?_⟩
  rw [comparer_swapRemove]
  have hrest : t.comparer.Distinct (t.values.eraseIdx i) :=
    List.Pairwise.sublist (List.eraseIdx_sublist t.values i.val) ht.distinct
  exact hrest.perm (t.values_swapRemove_perm i)

theorem Sound.set {t : Table α} (ht : t.Sound) {i : Nat} (hi : i < t.size) {v : Value α}
    (hv : t.findOther? v i = none) : (t.set i v).Sound := by
  refine ⟨ht.filed.set hi v, ?_⟩
  rw [comparer_set, values_set]
  exact ht.distinct.set ((ht.filed.findOther?_eq_none_iff v i).mp hv)

theorem Sound.gives_absorb {t : Table α} (ht : t.Sound) {i : Nat} (hi : i < t.size)
    (merged : Value α) :
    (t.absorb i merged).Gives fun u => u.Sound ∧ u.comparer = t.comparer ∧ 0 < u.size := by
  induction t, i, merged using Table.absorb.induct with
  | case1 t i merged hf =>
    rw [Table.absorb, hf]
    apply Supply.Gives.pure
    refine ⟨ht.set hi hf, comparer_set t i merged, ?_⟩
    rw [size_set]
    exact Nat.zero_lt_of_lt hi
  | case2 t i merged j hf ih =>
    have hi' := slot_lt_size_swapRemove hi hf
    rw [Table.absorb, hf]
    exact (t.comparer.gives_merge merged (t.valueAt j)).bind fun m _ => ih m (ht.swapRemove j) hi'

theorem Filed.absorb_eq_set {t : Table α} (ht : t.Filed) {i : Nat} {merged : Value α}
    (h : ∀ p w, t.values[p]? = some w → p ≠ i → t.comparer.equal w merged = false) :
    t.absorb i merged = pure (t.set i merged) := by
  rw [Table.absorb, (ht.findOther?_eq_none_iff merged i).mpr h]

theorem Sound.gives_pushAll {t : Table α} (ht : t.Sound) {vs : List (Value α)}
    (h : t.comparer.Distinct (t.values ++ vs)) :
    (t.pushAll vs).Gives fun u => u.Sound := by
  induction vs generalizing t with
  | nil => exact Supply.Gives.pure ht
  | cons v vs ih =>
    have hnew : t.find? v = none := by
      rw [ht.filed.find?_eq_none_iff]
      intro w hw
      exact (List.pairwise_append.mp h).2.2 w hw v List.mem_cons_self
    have hrest : (t.push v).comparer.Distinct ((t.push v).values ++ vs) := by
      rw [comparer_push, values_push, List.append_assoc]
      exact h
    intro l
    obtain ⟨hsound, hl⟩ := ih (ht.push hnew) hrest l
    have hrun : t.pushAll (v :: vs) l = (t.push v).pushAll vs l := by
      simp [pushAll, hnew]
    rw [hrun]
    exact ⟨hsound, hl⟩

theorem gives_ofDistinct {c : Comparer} {vs : List (Value α)} (h : c.Distinct vs) :
    (ofDistinct c vs).Gives fun u => u.Sound :=
  Supply.gives_draw.bind fun n _ =>
    (sound_empty c n).gives_pushAll (by simpa [empty, values] using h)

end

end Table

end AbstractSets
