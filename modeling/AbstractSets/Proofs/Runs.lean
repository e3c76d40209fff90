import AbstractSets.Proofs.OriginLaws
import AbstractSets.Proofs.SetInvariant

/-!
# Runs of set operations

A run makes sets one call after the other. A call refers to the sets it uses by their
positions among those made before, and what it makes is added after them; the old sets stay,
so a later call may go on from any of them. Changing a set in place and making a changed
copy are therefore one and the same call.

Every set that a run can make is sound, and on the way no check fails.
-/

namespace AbstractSets

inductive Operation (α : Type) : Type 1 where
  | empty (c : Comparer)
  | singleton (v : Value α)
  | ofList (c : Comparer) (vs : List (Value α))
  | insert (set : Nat) (v : Value α)
  | union (set other : Nat)
  | unionAll (c : Comparer) (sets : List Nat)
  | splitAt (set : Nat) (accept : Nat → Value α → Bool)
  | splitView {β : Type} (set : Nat) (view : Value α → Option β)
  | asUnion (set : Nat) (r : Strength)
  | widen (set : Nat) (limits : Limits)

namespace Operation

variable {α : Type}

/-- What the comparer of a set made by a call has to be. -/
def Fits (pool : List (ValueSet α)) : Operation α → ValueSet α → Prop
  | empty c, s => s.comparer = c
  | singleton _, s => s.comparer = .identity
  | ofList c _, s => s.comparer = c
  | insert i _, s => ∃ t, pool[i]? = some t ∧ s.comparer = t.comparer
  | union i _, s => ∃ t, pool[i]? = some t ∧ s.comparer = t.comparer
  | unionAll c _, s => s.comparer = c
  | splitAt i _, s => ∃ t, pool[i]? = some t ∧ s.comparer = t.comparer
  | splitView i _, s => ∃ t, pool[i]? = some t ∧ s.comparer = t.comparer
  | asUnion i r, s => ∃ t, pool[i]? = some t ∧ s.comparer = t.comparer.raise r
  | widen i l, s => ∃ t, pool[i]? = some t ∧
      (s = t ∨ ∃ r ∈ l.levels t.comparer, s.comparer = .union r)

variable [DecidableEq α] [Kind α]

def withSet (pool : List (ValueSet α)) (i : Nat)
    (make : ValueSet α → Supply (List (ValueSet α))) : Supply (List (ValueSet α)) :=
  match pool[i]? with
  | some s => make s
  | none => pure []

def apply (pool : List (ValueSet α)) : Operation α → Supply (List (ValueSet α))
  | empty c => pure [.empty c]
  | singleton v => pure [.singleton v]
  | ofList c vs => return [← ValueSet.ofList c vs]
  | insert i v => withSet pool i fun s => return [(← s.insert v).1]
  | union i j => withSet pool i fun s => withSet pool j fun t => return [(← s.union t).1]
  | unionAll c is => return [← ValueSet.unionAll c (is.filterMap (pool[·]?))]
  | splitAt i accept => withSet pool i fun s => do
    let sides ← s.splitAt accept
    return [sides.matching, sides.remaining]
  | splitView i view => withSet pool i fun s => return [(← s.splitView view).remaining]
  | asUnion i r => withSet pool i fun s => return [(← s.asUnion r).1]
  | widen i l => withSet pool i fun s => return [(← s.widen l).set]

def run : List (Operation α) → List (ValueSet α) → Supply (List (ValueSet α))
  | [], pool => pure pool
  | op :: ops, pool => do run ops (pool ++ (← op.apply pool))

omit [DecidableEq α] [Kind α] in
theorem gives_withSet {pool : List (ValueSet α)} {i : Nat}
    {make : ValueSet α → Supply (List (ValueSet α))} {Q : ValueSet α → Prop}
    (h : ∀ s, pool[i]? = some s → (make s).Gives fun made => ∀ t ∈ made, Q t) :
    (withSet pool i make).Gives fun made => ∀ t ∈ made, Q t := by
  unfold withSet
  cases hi : pool[i]? with
  | none => exact Supply.Gives.pure (by simp)
  | some s => exact h s hi

variable [Kind.Coherent α]

theorem gives_apply (op : Operation α) {pool : List (ValueSet α)} (h : ∀ s ∈ pool, s.Sound) :
    (op.apply pool).Gives fun made => ∀ s ∈ made, s.Sound ∧ op.Fits pool s := by
  have hat : ∀ {i : Nat} {s : ValueSet α}, pool[i]? = some s → s.Sound :=
    fun hi => h _ (List.mem_of_getElem? hi)
  cases op with
  | empty c => exact Supply.Gives.pure (List.forall_mem_singleton.mpr ⟨trivial, rfl⟩)
  | singleton v => exact Supply.Gives.pure (List.forall_mem_singleton.mpr ⟨trivial, rfl⟩)
  | ofList c vs =>
    refine (ValueSet.gives_ofList c vs).bind fun s hs => ?_
    exact Supply.Gives.pure (List.forall_mem_singleton.mpr hs)
  | insert i v =>
    refine gives_withSet fun t hi => ((hat hi).gives_insert v).bind fun r hr => ?_
    exact Supply.Gives.pure (List.forall_mem_singleton.mpr ⟨hr.1, t, hi, hr.2⟩)
  | union i j =>
    refine gives_withSet fun t hi => gives_withSet fun u hj => ?_
    refine ((hat hi).gives_union (hat hj)).bind fun r hr => ?_
    exact Supply.Gives.pure (List.forall_mem_singleton.mpr ⟨hr.1, t, hi, hr.2⟩)
  | unionAll c is =>
    have hsets : ∀ t ∈ is.filterMap (pool[·]?), t.Sound := by
      intro t ht
      obtain ⟨i, -, hi⟩ := List.mem_filterMap.mp ht
      exact hat hi
    refine (ValueSet.gives_unionAll c hsets).bind fun s hs => ?_
    exact Supply.Gives.pure (List.forall_mem_singleton.mpr hs)
  | splitAt i accept =>
    refine gives_withSet fun t hi => ((hat hi).gives_splitAt accept).bind fun sides hs => ?_
    apply Supply.Gives.pure
    simp only [List.mem_cons, List.not_mem_nil, or_false, forall_eq_or_imp, forall_eq]
    exact ⟨⟨hs.1.1, t, hi, hs.1.2⟩, hs.2.1, t, hi, hs.2.2⟩
  | splitView i view =>
    refine gives_withSet fun t hi => ((hat hi).gives_splitView view).bind fun sides hs => ?_
    exact Supply.Gives.pure (List.forall_mem_singleton.mpr ⟨hs.1, t, hi, hs.2⟩)
  | asUnion i r =>
    refine gives_withSet fun t hi => ((hat hi).gives_asUnion r).bind fun p hp => ?_
    exact Supply.Gives.pure (List.forall_mem_singleton.mpr ⟨hp.1.1, t, hi, hp.1.2⟩)
  | widen i l =>
    refine gives_withSet fun t hi =>
      ((hat hi).gives_widenThrough l.maxEntries (l.levels t.comparer)).bind fun w hw => ?_
    exact Supply.Gives.pure (List.forall_mem_singleton.mpr ⟨hw.1, t, hi, hw.2⟩)

theorem gives_run (ops : List (Operation α)) {pool : List (ValueSet α)}
    (h : ∀ s ∈ pool, s.Sound) : (run ops pool).Gives fun sets => ∀ s ∈ sets, s.Sound := by
  induction ops generalizing pool with
  | nil => exact Supply.Gives.pure h
  | cons op ops ih =>
    refine (op.gives_apply h).bind fun made hmade => ih fun s hs => ?_
    rcases List.mem_append.mp hs with hold | hnew
    · exact h s hold
    · exact (hmade s hnew).1

/-- Whatever calls have been made, the next one makes sets of values that are pairwise
unequal, held in the way that fits their number, under the comparer that the call asks for;
and no check has failed, so every table was built of distinct values. -/
theorem run_apply_sound (ops : List (Operation α)) (op : Operation α) (l : Ledger) :
    let before := run ops [] l
    let after := op.apply before.1 before.2
    after.2.sound = l.sound ∧ ∀ s ∈ after.1,
      (∀ (i j : Nat) (v w : Value α), s.values[i]? = some v → s.values[j]? = some w → i ≠ j →
        s.comparer.equal v w = false) ∧
      s.representation = .ofSize s.values.length ∧ op.Fits before.1 s := by
  intro before after
  have hnil : ∀ s ∈ ([] : List (ValueSet α)), s.Sound := List.forall_mem_nil _
  obtain ⟨hpool, hl⟩ := gives_run ops hnil l
  obtain ⟨hmade, hl'⟩ := op.gives_apply hpool before.2
  refine ⟨hl'.trans hl, fun s hs => ?_⟩
  obtain ⟨hsound, hfits⟩ := hmade s hs
  refine ⟨fun i j v w hv hw hij => ?_, hsound.representation_eq, hfits⟩
  exact hsound.distinct.equal_eq_false hv hw hij

/-- Three intervals and one that overlaps them all: the table they are in collapses into a
single value. -/
theorem run_apply_sound_overlap :
    let ops : List (Operation Origin) :=
      [.ofList (.union .plain)
        [⟨0, .interval ⟨0, 1⟩⟩, ⟨1, .interval ⟨3, 4⟩⟩, ⟨2, .interval ⟨6, 7⟩⟩]]
    let op : Operation Origin := .insert 0 ⟨3, .interval ⟨1, 6⟩⟩
    let before := run ops [] ⟨4, true⟩
    let after := op.apply before.1 before.2
    before.1.map (·.representation) = [.many] ∧ after.1.map (·.representation) = [.one] ∧
      after.2.sound = true ∧ ∀ s ∈ after.1, s.representation = .ofSize s.values.length := by
  intro ops op before after
  obtain ⟨hsound, hsets⟩ := run_apply_sound ops op ⟨4, true⟩
  exact ⟨by decide +kernel, by decide +kernel, hsound, fun s hs => (hsets s hs).2.1⟩

end Operation

namespace ValueSet

variable {α : Type} [DecidableEq α] [Kind α]

/-- A set that some run makes. -/
def Reachable (s : ValueSet α) : Prop :=
  ∃ (ops : List (Operation α)) (l : Ledger), s ∈ (Operation.run ops [] l).1

theorem Reachable.sound [Kind.Coherent α] {s : ValueSet α} (h : s.Reachable) : s.Sound := by
  obtain ⟨ops, l, hs⟩ := h
  exact (Operation.gives_run ops (List.forall_mem_nil _) l).1 s hs

theorem reachable_singleton (v : Value α) : (singleton v).Reachable :=
  ⟨[.singleton v], .start, List.mem_singleton_self _⟩

theorem reachable_ofList (c : Comparer) (vs : List (Value α)) (l : Ledger) :
    (ofList c vs l).1.Reachable :=
  ⟨[.ofList c vs], l, List.mem_singleton_self _⟩

end ValueSet

end AbstractSets
