import AbstractSets.Proofs.Allocation
import AbstractSets.Proofs.Tallies

/-!
# What merging conserves

If merging always makes a new value and a measure of the contents adds up on the way, the
measure of all values together stays what it is, whatever becomes of the sets they are in. This
needs the values to be pairwise different, since one that is met twice is counted once.

`Conserves` says of a computation that it turns some of the values in play into others and
leaves the rest alone. It is stated with the rest in view, so that what a computation does to one
entry carries over to its set, and what it does to one set to all of them.
-/

namespace AbstractSets

open Kind
open scoped List

/-- On the contents in use, a merge makes a new one, and its measure is that of both. -/
def Kind.AddsUp {α : Type} [Kind α] (P : α → Prop) (measure : α → Nat) : Prop :=
  ∀ (s : Strength) (v w : Value α), P v.content → P w.content →
    ∃ a, unionMerge s v w = .made a ∧ P a ∧ measure a = measure v.content + measure w.content

/-- Pairwise different values made before ledger `l`, with contents in use, that measure `n`
together. -/
structure Stock {α : Type} (P : α → Prop) (measure : α → Nat) (n : Nat) (l : Ledger)
    (vs : List (Value α)) : Prop where
  nodup : vs.Nodup
  issued : ∀ v ∈ vs, v.id < l.next
  mem : ∀ v ∈ vs, P v.content
  total : (vs.map fun v => measure v.content).sum = n

namespace Stock

variable {α : Type} {P : α → Prop} {measure : α → Nat} {n : Nat} {l l' : Ledger}
  {vs ws : List (Value α)}

theorem perm (h : Stock P measure n l vs) (hperm : ws.Perm vs) : Stock P measure n l ws where
  nodup := hperm.nodup_iff.mpr h.nodup
  issued v hv := h.issued v (hperm.mem_iff.mp hv)
  mem v hv := h.mem v (hperm.mem_iff.mp hv)
  total := (hperm.map _).sum_nat.trans h.total

theorem mono (h : Stock P measure n l vs) (hle : l.next ≤ l'.next) : Stock P measure n l' vs where
  nodup := h.nodup
  issued v hv := (h.issued v hv).trans_le hle
  mem := h.mem
  total := h.total

end Stock

namespace Supply

variable {α β γ : Type} {P : α → Prop} {measure : α → Nat} {vs ws : List (Value α)}
  {out : β → List (Value α)} {out' : γ → List (Value α)}

/-- Of the values in play, a computation turns `vs` into those it puts out. -/
def Conserves (P : α → Prop) (measure : α → Nat) (m : Supply β) (vs : List (Value α))
    (out : β → List (Value α)) : Prop :=
  ∀ n l rest, Stock P measure n l (vs ++ rest) →
    Stock P measure n (m l).2 (out (m l).1 ++ rest)

theorem Conserves.bind {m : Supply β} {f : β → Supply γ} (hm : m.Conserves P measure vs out)
    (hf : ∀ l, (f (m l).1).Conserves P measure (out (m l).1) out') :
    (m >>= f).Conserves P measure vs out' :=
  fun n l rest h => hf l n (m l).2 rest (hm n l rest h)

theorem Conserves.bind_pure {m : Supply β} {g : β → γ} (hm : m.Conserves P measure vs out)
    (hout : ∀ b, (out' (g b)).Perm (out b)) :
    (do return g (← m) : Supply γ).Conserves P measure vs out' :=
  fun n l rest h => (hm n l rest h).perm ((hout _).append_right rest)

theorem Conserves.of_perm {m : Supply β} (hm : m.Conserves P measure ws out)
    (hperm : vs.Perm ws) : m.Conserves P measure vs out :=
  fun n l rest h => hm n l rest (h.perm (hperm.symm.append_right rest))

theorem Conserves.frame {m : Supply β} (hm : m.Conserves P measure vs out)
    (others : List (Value α)) :
    m.Conserves P measure (vs ++ others) fun b => out b ++ others := by
  intro n l rest h
  rw [List.append_assoc] at h ⊢
  exact hm n l (others ++ rest) h

theorem Advances.conserves {m : Supply β} (hm : m.Advances)
    (hout : ∀ l, (out (m l).1).Perm vs) : m.Conserves P measure vs out :=
  fun _ l rest h => (h.mono (hm l)).perm ((hout l).append_right rest)

theorem conserves_pure {b : β} (hout : (out b).Perm vs) :
    (pure b : Supply β).Conserves P measure vs out :=
  Advances.conserves (fun _ => Nat.le_refl _) fun _ => hout

end Supply

open Supply

theorem perm_cons_eraseIdx {β : Type} {bs : List β} {i : Nat} {b : β} (h : bs[i]? = some b) :
    bs.Perm (b :: bs.eraseIdx i) := by
  obtain ⟨hi, rfl⟩ := List.getElem?_eq_some_iff.mp h
  exact (List.getElem_cons_eraseIdx_perm hi).symm

variable {α : Type} [DecidableEq α] [Kind α] {P : α → Prop} {measure : α → Nat}

/-- Two different values that count as one become a single new one. -/
theorem Comparer.conserves_merge (adds : AddsUp P measure) {c : Comparer} {v w : Value α}
    (h : c.equal v w = true) : (c.merge v w).Conserves P measure [v, w] fun m => [m] := by
  intro n l rest hstock
  obtain ⟨hv, hrest⟩ := List.nodup_cons.mp hstock.nodup
  have hvw : v ≠ w := fun heq => hv (heq ▸ List.mem_cons_self)
  obtain ⟨hPv, hPrest⟩ := List.forall_mem_cons.mp hstock.mem
  obtain ⟨hPw, hPrest⟩ := List.forall_mem_cons.mp hPrest
  have hissued : ∀ u ∈ rest, u.id < l.next := fun u hu =>
    hstock.issued u (List.mem_cons_of_mem v (List.mem_cons_of_mem w hu))
  cases c with
  | identity => exact absurd (of_decide_eq_true h) hvw
  | union s =>
    obtain ⟨a, hmade, hPa, hmeasure⟩ := adds s v w hPv hPw
    have hrun : (Comparer.union s).merge v w l = (⟨l.next, a⟩, l.advance) := by
      simp [merge, hvw, hmade, Merged.settle, Value.make]
    have hfresh : (⟨l.next, a⟩ : Value α) ∉ rest := fun hin =>
      Nat.lt_irrefl _ (hissued _ hin)
    rw [hrun]
    refine ⟨List.nodup_cons.mpr ⟨hfresh, hrest.of_cons⟩, ?_, ?_, ?_⟩
    · exact List.forall_mem_cons.mpr ⟨Nat.lt_succ_self _, fun u hu => (hissued u hu).trans
        (Nat.lt_succ_self _)⟩
    · exact List.forall_mem_cons.mpr ⟨hPa, hPrest⟩
    · rw [← hstock.total]
      simp [hmeasure, Nat.add_assoc]

namespace Table

variable {t : Table α} {i : Nat}

omit [DecidableEq α] [Kind α] in
theorem conserves_restamp (t : Table α) :
    t.restamp.Conserves P measure t.values (·.values) :=
  Advances.conserves (fun _ => Nat.le_succ _) fun _ => .refl _

omit [DecidableEq α] [Kind α] in
theorem getElem?_values_swapRemove {j : Fin t.size} (hji : j.val ≠ i) :
    (t.swapRemove j).values[if i = t.size - 1 then j.val else i]? = t.values[i]? := by
  rw [getElem?_values_swapRemove_eq]
  by_cases hlast : i = t.size - 1
  · have hj : j.val ≠ t.size - 1 := hlast ▸ hji
    rw [if_pos hlast, if_neg hj, if_pos rfl, hlast]
  · rw [if_neg hlast, if_neg hlast, if_neg hji.symm]

/-- The values beside the one at `i` are the one at `j` and, once that is taken out, those
beside the place that the one at `i` is in then. -/
theorem eraseIdx_perm_cons_swapRemove (hi : i < t.size) {merged : Value α} {j : Fin t.size}
    (h : t.findOther? merged i = some j) :
    (t.values.eraseIdx i).Perm (t.valueAt j ::
      (t.swapRemove j).values.eraseIdx (if i = t.size - 1 then j.val else i)) := by
  have hji : j.val ≠ i := by simpa using (equal_of_findBeside h).1
  obtain ⟨v, hv⟩ : ∃ v, t.values[i]? = some v := ⟨t.valueAt ⟨i, hi⟩, t.getElem?_values ⟨i, hi⟩⟩
  have hbeside := perm_cons_eraseIdx hv
  have htaken := perm_cons_eraseIdx (t.getElem?_values j)
  have hmoved := perm_cons_eraseIdx ((getElem?_values_swapRemove hji).trans hv)
  apply List.Perm.cons_inv (a := v)
  calc v :: t.values.eraseIdx i
      _ ~ t.values := hbeside.symm
      _ ~ t.valueAt j :: t.values.eraseIdx j := htaken
      _ ~ t.valueAt j :: (t.swapRemove j).values := (t.values_swapRemove_perm j).symm.cons _
      _ ~ t.valueAt j :: v :: (t.swapRemove j).values.eraseIdx _ := hmoved.cons _
      _ ~ v :: t.valueAt j :: (t.swapRemove j).values.eraseIdx _ := .swap _ _ _

theorem conserves_absorb [Coherent α] (adds : AddsUp P measure) (hi : i < t.size)
    (merged : Value α) :
    (t.absorb i merged).Conserves P measure (merged :: t.values.eraseIdx i) (·.values) := by
  induction t, i, merged using Table.absorb.induct with
  | case1 t i merged hf =>
    rw [Table.absorb, hf]
    apply conserves_pure
    rw [values_set]
    exact List.set_perm_cons_eraseIdx (by simpa using hi) merged
  | case2 t i merged j hf ih =>
    have hequal := Comparer.equal_symm (equal_of_findBeside hf).2
    rw [Table.absorb, hf]
    refine Conserves.of_perm ?_ ((eraseIdx_perm_cons_swapRemove hi hf).cons merged)
    exact ((Comparer.conserves_merge adds hequal).frame _).bind fun l =>
      ih _ (slot_lt_size_swapRemove hi hf)

end Table

namespace ValueSet

variable {s : ValueSet α}

theorem advances_ofDistinct (c : Comparer) (vs : List (Value α)) :
    (ofDistinct c vs).Advances := by
  intro l
  match vs with
  | [] | [_] | [_, _] => exact Nat.le_refl _
  | v :: w :: x :: rest =>
    exact (Nat.le_succ _).trans_eq (Table.stamp_ofDistinct c (v :: w :: x :: rest) l).2.symm

theorem conserves_ofDistinct (c : Comparer) (vs : List (Value α)) :
    (ofDistinct c vs).Conserves P measure vs (·.values) :=
  (advances_ofDistinct c vs).conserves fun l => .of_eq (values_ofDistinct c vs l)

theorem advances_append (s : ValueSet α) (x : Value α) : (s.append x).Advances := by
  cases s with
  | two v w c => exact advances_ofDistinct c [v, w, x]
  | many t => exact fun l => Nat.le_succ _
  | _ => exact fun l => Nat.le_refl _

theorem advances_splitAt (s : ValueSet α) (accept : Nat → Value α → Bool) :
    (s.splitAt accept).Advances := by
  rw [splitAt]
  split_ifs
  · exact fun l => Nat.le_refl _
  · exact fun l => Nat.le_refl _
  · exact (advances_ofDistinct _ _).bind fun m => (advances_ofDistinct _ _).bind fun r l =>
      Nat.le_refl _

theorem splitAt_perm (s : ValueSet α) (accept : Nat → Value α → Bool) (l : Ledger) :
    ((s.splitAt accept l).1.matching.values ++ (s.splitAt accept l).1.remaining.values).Perm
      s.values := by
  rw [splitAt]
  split_ifs
  · exact .of_eq (List.append_nil _)
  · exact .refl _
  · rw [Supply.bind_apply, Supply.bind_apply, Supply.pure_apply, values_ofDistinct,
      values_ofDistinct, ← List.map_append]
    refine ((List.filter_append_perm (fun p : Value α × Bool => p.2) _).map (·.1)).trans
      (.of_eq ?_)
    rw [List.map_map]
    exact List.zipIdx_map_fst 0 s.values

variable [Coherent α]

theorem conserves_replaceAt (adds : AddsUp P measure) {i : Nat} (hi : i < s.size)
    (merged : Value α) :
    (s.replaceAt i merged).Conserves P measure (merged :: s.values.eraseIdx i) (·.values) := by
  cases s with
  | empty c => cases hi
  | one v c =>
    obtain rfl : i = 0 := Nat.lt_one_iff.mp hi
    exact conserves_pure (.refl _)
  | two v w c =>
    match i, hi with
    | 0, _ =>
      rw [replaceAt, replaceFirst]
      split_ifs with hw
      · exact (Comparer.conserves_merge adds (Comparer.equal_symm hw)).bind_pure fun m => .refl _
      · exact conserves_pure (.refl _)
    | 1, _ =>
      rw [replaceAt, replaceSecond]
      refine Conserves.of_perm ?_ (.swap v merged [])
      split_ifs with hv
      · exact (Comparer.conserves_merge adds hv).bind_pure fun m => .refl _
      · exact conserves_pure (.refl _)
  | many t =>
    refine (Table.conserves_absorb adds hi merged).bind fun l => ?_
    split_ifs
    · exact conserves_ofDistinct _ _
    · exact (Table.conserves_restamp _).bind_pure fun u => .refl _

theorem conserves_mergeAt (adds : AddsUp P measure) {i : Nat} {v x : Value α}
    (hv : s.values[i]? = some v) (h : s.comparer.equal v x = true) :
    (s.mergeAt i v x).Conserves P measure (s.values ++ [x]) (·.1.values) := by
  have hi := lt_size_of_getElem? hv
  have hheld := perm_cons_eraseIdx hv
  have hperm : (s.values ++ [x]).Perm ([v, x] ++ s.values.eraseIdx i) :=
    (List.perm_append_singleton x _).trans ((hheld.cons x).trans (.swap _ _ _))
  refine Conserves.of_perm ?_ hperm
  refine ((Comparer.conserves_merge adds h).frame _).bind fun l => ?_
  split_ifs with hsame
  · rw [hsame]
    exact conserves_pure hheld
  · exact (conserves_replaceAt adds hi _).bind_pure fun t => .refl _

theorem Sound.conserves_insert (hs : s.Sound) (adds : AddsUp P measure) (x : Value α) :
    (s.insert x).Conserves P measure (s.values ++ [x]) (·.1.values) := by
  rcases hs.insert_cases x with ⟨hx, heq⟩ | ⟨i, v, hv, hequal, heq⟩
  · rw [heq]
    have happend : (s.append x).Conserves P measure (s.values ++ [x]) (·.values) :=
      (s.advances_append x).conserves fun l => .of_eq (hs.gives_append hx l).1.2
    exact happend.bind_pure fun t => .refl _
  · rw [heq]
    exact conserves_mergeAt adds hv hequal

theorem Sound.conserves_insertAll (hs : s.Sound) (adds : AddsUp P measure)
    (xs : List (Value α)) :
    (s.insertAll xs).Conserves P measure (s.values ++ xs) (·.1.values) := by
  induction xs generalizing s with
  | nil => exact conserves_pure (.of_eq (List.append_nil _).symm)
  | cons x xs ih =>
    refine Conserves.of_perm ?_ (.of_eq (List.append_cons s.values x xs))
    refine ((hs.conserves_insert adds x).frame xs).bind fun l => ?_
    exact (ih (hs.gives_insert x l).1.1).bind_pure fun r => .refl _

theorem conserves_ofList (adds : AddsUp P measure) (c : Comparer) (xs : List (Value α)) :
    (ofList c xs).Conserves P measure xs (·.values) := by
  have hempty : (empty c : ValueSet α).Sound := trivial
  exact (hempty.conserves_insertAll adds xs).bind_pure fun r => .refl _

theorem conserves_asUnion (adds : AddsUp P measure) (s : ValueSet α) (r : Strength) :
    (s.asUnion r).Conserves P measure s.values (·.1.values) := by
  rcases s.asUnion_cases r with ⟨-, heq⟩ | ⟨-, changed, heq⟩
  · rw [heq]
    exact conserves_pure (.refl _)
  · rw [heq]
    exact (conserves_ofList adds _ s.values).bind_pure fun t => .refl _

theorem conserves_widenThrough (adds : AddsUp P measure) (s : ValueSet α) (maxEntries : Nat)
    (levels : List Strength) :
    (widenThrough maxEntries levels s).Conserves P measure s.values (·.set.values) := by
  induction levels generalizing s with
  | nil => exact conserves_pure (.refl _)
  | cons r rs ih =>
    rw [widenThrough]
    split_ifs
    · exact conserves_pure (.refl _)
    · refine (conserves_asUnion adds s r).bind fun l => ?_
      exact (ih _).bind_pure fun w => .refl _

end ValueSet

inductive Regrouping (α : Type) where
  | asUnion (r : Strength)
  | widen (limits : Limits)
  | split (accept : Nat → Value α → Bool)

namespace Regrouping

def onSet (i : Nat) : Regrouping α → Operation α
  | asUnion r => .asUnion i r
  | widen limits => .widen i limits
  | split accept => .splitAt i accept

/-- Regroup sets one after the other. What becomes of a set takes its place in the pool. -/
def run : List (Nat × Regrouping α) → List (ValueSet α) → Supply (List (ValueSet α))
  | [], pool => pure pool
  | (i, step) :: steps, pool => do
    run steps (pool.eraseIdx i ++ (← (step.onSet i).apply pool))

omit [DecidableEq α] [Kind α] in
theorem conserves_withSet (pool : List (ValueSet α)) (i : Nat)
    {make : ValueSet α → Supply (List (ValueSet α))}
    (h : ∀ s, (make s).Conserves P measure s.values (·.flatMap (·.values))) :
    (Operation.withSet pool i make).Conserves P measure (pool.flatMap (·.values))
      fun made => (pool.eraseIdx i ++ made).flatMap (·.values) := by
  unfold Operation.withSet
  cases hi : pool[i]? with
  | none =>
    rw [List.eraseIdx_of_length_le (List.getElem?_eq_none_iff.mp hi)]
    apply conserves_pure
    rw [List.append_nil]
  | some s =>
    have hframed := (h s).frame ((pool.eraseIdx i).flatMap (·.values))
    have hwhole := hframed.of_perm ((perm_cons_eraseIdx hi).flatMap_right _)
    refine hwhole.bind_pure (g := id) fun made => ?_
    rw [id, List.flatMap_append]
    exact List.perm_append_comm

variable [Coherent α]

theorem conserves_step (adds : AddsUp P measure) (step : Regrouping α) (i : Nat)
    (pool : List (ValueSet α)) :
    ((step.onSet i).apply pool).Conserves P measure (pool.flatMap (·.values))
      fun made => (pool.eraseIdx i ++ made).flatMap (·.values) := by
  cases step with
  | asUnion r =>
    refine conserves_withSet pool i fun s => ?_
    exact (ValueSet.conserves_asUnion adds s r).bind_pure fun p => by simp
  | widen limits =>
    refine conserves_withSet pool i fun s => ?_
    exact (ValueSet.conserves_widenThrough adds s _ _).bind_pure fun w => by simp
  | split accept =>
    refine conserves_withSet pool i fun s => ?_
    have hsides : (s.splitAt accept).Conserves P measure s.values
        fun sides => sides.matching.values ++ sides.remaining.values :=
      (s.advances_splitAt accept).conserves (s.splitAt_perm accept)
    exact hsides.bind_pure fun sides => by simp

theorem conserves_run (adds : AddsUp P measure) (steps : List (Nat × Regrouping α))
    (pool : List (ValueSet α)) :
    (run steps pool).Conserves P measure (pool.flatMap (·.values)) (·.flatMap (·.values)) := by
  induction steps generalizing pool with
  | nil => exact conserves_pure (.refl _)
  | cons entry steps ih =>
    obtain ⟨i, step⟩ := entry
    exact (conserves_step adds step i pool).bind fun l => ih _

/-- What a set is made of is conserved while it is made and while it is regrouped. -/
theorem conserves_run_ofList (adds : AddsUp P measure) (c : Comparer) (xs : List (Value α))
    (steps : List (Nat × Regrouping α)) :
    (do run steps [← ValueSet.ofList c xs] : Supply (List (ValueSet α))).Conserves P measure xs
      (·.flatMap (·.values)) := by
  refine (ValueSet.conserves_ofList adds c xs).bind fun l => ?_
  exact (conserves_run adds steps _).of_perm (by simp)

end Regrouping

namespace Tally

theorem weight_once (name : Option String) (payload q : String) :
    (once name payload).weight q = if payload = q then 1 else 0 := by
  simp [weight_eq, once, weightIn]

theorem sum_weight_once (seen : List (Option String × String)) (payload : String) :
    (seen.map fun p => (once p.1 p.2).weight payload).sum = (seen.map (·.2)).count payload := by
  induction seen with
  | nil => rfl
  | cons p seen ih =>
    rw [List.map_cons, List.sum_cons, ih, weight_once, List.map_cons, List.count_cons,
      Nat.add_comm]
    simp only [beq_iff_eq]

end Tally

namespace Origin

def weight (payload : String) : Origin → Nat
  | tally a => a.weight payload
  | _ => 0

def count : Origin → Nat
  | tally a => a.count
  | _ => 0

def ListedTally (a : Origin) : Prop := ∃ t : Tally, a = tally t ∧ t.Listed

theorem addsUp_listedTally {measure : Origin → Nat}
    (h : ∀ a b : Tally, b.Listed →
      measure (tally (a.add b)) = measure (tally a) + measure (tally b)) :
    AddsUp ListedTally measure := by
  rintro s v w ⟨a, hv, ha⟩ ⟨b, hw, hb⟩
  refine ⟨tally (a.add b), unionMerge_tally hv hw s, ⟨a.add b, rfl, ha.add b⟩, ?_⟩
  rw [hv, hw, h a b hb]

end Origin

/-- Different tallies of one sighting each are put into a set under some comparer, and the set is
rebuilt, widened and split in any way, with both sides of each split kept. In the sets that this
leads to, every payload has been seen as often as there were tallies of it at first, and there
are as many sightings as there were tallies. -/
theorem regrouping_conserves_sightings {xs : List (Value Origin)}
    {seen : List (Option String × String)} {l : Ledger} (hapart : xs.Nodup)
    (hissued : ∀ x ∈ xs, x.id < l.next)
    (hseen : xs.map (·.content) = seen.map fun p => .tally (.once p.1 p.2))
    (c : Comparer) (steps : List (Nat × Regrouping Origin)) :
    let made := ValueSet.ofList c xs l
    let values := (Regrouping.run steps [made.1] made.2).1.flatMap (·.values)
    (∀ v ∈ values, ∃ t, v.content = .tally t) ∧
      (∀ payload, (values.map (·.content.weight payload)).sum =
        (seen.map (·.2)).count payload) ∧
      (values.map (·.content.count)).sum = seen.length := by
  intro made values
  have hlisted : ∀ x ∈ xs, Origin.ListedTally x.content := by
    intro x hx
    have hin := List.mem_map_of_mem (f := (·.content)) hx
    rw [hseen] at hin
    obtain ⟨p, -, hp⟩ := List.mem_map.mp hin
    exact ⟨_, hp.symm, Tally.listed_once p.1 p.2⟩
  have hstock : ∀ measure : Origin → Nat, AddsUp Origin.ListedTally measure →
      Stock Origin.ListedTally measure (seen.map fun p => measure (.tally (.once p.1 p.2))).sum
        (Regrouping.run steps [made.1] made.2).2 values := by
    intro measure adds
    have htotal : (xs.map fun x => measure x.content).sum =
        (seen.map fun p => measure (.tally (.once p.1 p.2))).sum := by
      have hmeasured := congrArg (List.map measure) hseen
      rw [List.map_map, List.map_map] at hmeasured
      exact congrArg List.sum hmeasured
    have hrun := Regrouping.conserves_run_ofList adds c xs steps _ l []
      (by rw [List.append_nil]; exact ⟨hapart, hissued, hlisted, htotal⟩)
    rwa [List.append_nil] at hrun
  have hweight : ∀ payload, AddsUp Origin.ListedTally (Origin.weight payload) := fun payload =>
    Origin.addsUp_listedTally fun a b hb => Tally.weight_add a hb payload
  have hcount : AddsUp Origin.ListedTally Origin.count :=
    Origin.addsUp_listedTally fun a b _ => Tally.count_add a b
  refine ⟨fun v hv => ?_, fun payload => ?_, ?_⟩
  · obtain ⟨t, ht, -⟩ := (hstock _ hcount).mem v hv
    exact ⟨t, ht⟩
  · exact (hstock _ (hweight payload)).total.trans (Tally.sum_weight_once seen payload)
  · have hone : (seen.map fun p => Origin.count (.tally (.once p.1 p.2))) = seen.map fun _ => 1 :=
      rfl
    rw [(hstock _ hcount).total, hone]
    simp

/-- Six tallies, one of them without a name, in a set of four that is split in two. One half is
widened until a single tally is left, the other half is rebuilt at the most general level. -/
theorem regrouping_conserves_sightings_split :
    let seen := [(some "T", "p"), (some "U", "q"), (some "T", "q"), (none, "p"), (some "V", "p"),
      (some "U", "q")]
    let xs : List (Value Origin) := seen.mapIdx fun i p => ⟨i, .tally (.once p.1 p.2)⟩
    let steps : List (Nat × Regrouping Origin) :=
      [(0, .split fun i _ => i < 2), (0, .widen ⟨1, .plain, .object⟩), (0, .asUnion .object)]
    let made := ValueSet.ofList (.union .plain) xs ⟨6, true⟩
    let sets := (Regrouping.run steps [made.1] made.2).1
    let values := sets.flatMap (·.values)
    (xs.Nodup ∧ (∀ x ∈ xs, x.id < 6) ∧
      xs.map (·.content) = seen.map fun p => .tally (.once p.1 p.2)) ∧
      made.1.size = 4 ∧ sets.map (·.size) = [1, 1] ∧
      (values.map (·.content.weight "p")).sum = 3 ∧ (values.map (·.content.count)).sum = 6 := by
  intro seen xs steps made sets values
  have hapart : xs.Nodup := by decide +kernel
  have hissued : ∀ x ∈ xs, x.id < 6 := by decide +kernel
  have hseen : xs.map (·.content) = seen.map fun p => .tally (.once p.1 p.2) := rfl
  obtain ⟨-, hweight, hcount⟩ := regrouping_conserves_sightings (l := ⟨6, true⟩) hapart hissued
    hseen (.union .plain) steps
  exact ⟨⟨hapart, hissued, hseen⟩, by decide +kernel, by decide +kernel, hweight "p", hcount⟩

end AbstractSets
