import AbstractSets.Proofs.Conservation
import AbstractSets.Proofs.Outcomes
import AbstractSets.Proofs.Runs

/-!
# Splitting a set and joining the sides

A split asks for a yes or no at each position, and the answers may depend on the position as well
as on the value. `pick` selects the values with a yes in their old order; the two sides hold what
is picked by the answers and by their opposites. Either side is the set itself as soon as it has
received every value, also if the set is empty and both have.

The values on the two sides are pairwise unequal because they were so in the set. Joining the
sides therefore merges nothing: the values of the second side come to stand after those of the
first, whatever laws their kind has.
-/

namespace AbstractSets

open Kind

def pick {β : Type} (keep : Nat → β → Bool) (bs : List β) : List β :=
  (bs.zipIdx.filter fun p => keep p.2 p.1).map (·.1)

section

variable {β : Type} {keep : Nat → β → Bool} {bs : List β}

theorem pick_eq_self (h : ∀ p ∈ bs.zipIdx, keep p.2 p.1 = true) : pick keep bs = bs := by
  rw [pick, List.filter_eq_self.mpr h]
  exact List.zipIdx_map_fst 0 bs

theorem pick_eq_nil (h : ∀ p ∈ bs.zipIdx, keep p.2 p.1 = false) : pick keep bs = [] := by
  rw [pick, List.map_eq_nil_iff, List.filter_eq_nil_iff]
  intro p hp
  rw [h p hp]
  exact Bool.false_ne_true

theorem pick_ne_nil {p : β × Nat} (hp : p ∈ bs.zipIdx) (h : keep p.2 p.1 = true) :
    pick keep bs ≠ [] :=
  List.ne_nil_of_mem (List.mem_map_of_mem (List.mem_filter.mpr ⟨hp, h⟩))

theorem pick_eq_filter (test : β → Bool) (bs : List β) :
    pick (fun _ b => test b) bs = bs.filter test := by
  have hmap := List.filter_map (f := fun p : β × Nat => p.1) (p := test) (l := bs.zipIdx)
  rw [List.zipIdx_map_fst] at hmap
  exact hmap.symm

end

namespace ValueSet

variable {α : Type} [DecidableEq α] [Kind α] {s : ValueSet α}

/-- All values go to one side, which then is the set itself, or both sides receive some. -/
theorem splitAt_cases (s : ValueSet α) (accept : Nat → Value α → Bool) (l : Ledger) :
    let sides := (s.splitAt accept l).1
    let accepted := pick accept s.values
    let rejected := pick (fun i v => !accept i v) s.values
    (sides = ⟨s, empty s.comparer⟩ ∧ accepted = s.values ∧ rejected = []) ∨
      (sides = ⟨empty s.comparer, s⟩ ∧ accepted = [] ∧ rejected = s.values) ∨
      (sides.matching.values = accepted ∧ sides.remaining.values = rejected) ∧
        accepted ≠ [] ∧ rejected ≠ [] := by
  intro sides accepted rejected
  have hside : ∀ keep : Value α × Bool → Bool,
      ((s.values.zipIdx.map fun p => (p.1, accept p.2 p.1)).filter keep).map (·.1) =
        pick (fun i v => keep (v, accept i v)) s.values := by
    intro keep
    rw [List.filter_map, List.map_map]
    rfl
  simp only [sides, splitAt, List.all_map, List.any_map]
  split_ifs with hall hnone
  · have hyes : ∀ p ∈ s.values.zipIdx, accept p.2 p.1 = true := List.all_eq_true.mp hall
    exact Or.inl ⟨rfl, pick_eq_self hyes, pick_eq_nil fun p hp => by rw [hyes p hp]; rfl⟩
  · have hno : ∀ p ∈ s.values.zipIdx, accept p.2 p.1 = false := by simpa using hnone
    exact Or.inr (Or.inl ⟨rfl, pick_eq_nil hno, pick_eq_self fun p hp => by rw [hno p hp]; rfl⟩)
  · obtain ⟨p, hp, hrejected⟩ : ∃ p ∈ s.values.zipIdx, accept p.2 p.1 = false := by
      simpa using hall
    obtain ⟨q, hq, haccepted⟩ : ∃ p ∈ s.values.zipIdx, accept p.2 p.1 = true := by
      simpa using hnone
    refine Or.inr (Or.inr ⟨⟨?_, ?_⟩, pick_ne_nil hq haccepted, pick_ne_nil hp ?_⟩)
    · exact (values_ofDistinct _ _ _).trans (hside _)
    · exact (values_ofDistinct _ _ _).trans (hside _)
    · rw [hrejected]
      rfl

theorem values_splitAt (s : ValueSet α) (accept : Nat → Value α → Bool) (l : Ledger) :
    (s.splitAt accept l).1.matching.values = pick accept s.values ∧
      (s.splitAt accept l).1.remaining.values = pick (fun i v => !accept i v) s.values := by
  rcases s.splitAt_cases accept l with ⟨hsides, hyes, hno⟩ | ⟨hsides, hyes, hno⟩ | ⟨hvalues, -⟩
  · rw [hsides, hyes, hno]
    exact ⟨rfl, rfl⟩
  · rw [hsides, hyes, hno]
    exact ⟨rfl, rfl⟩
  · exact hvalues

theorem Sound.sharesStorage_splitAt (hs : s.Sound) (accept : Nat → Value α → Bool) (l : Ledger) :
    let sides := (s.splitAt accept l).1
    ∀ side ∈ [sides.matching, sides.remaining],
      side.size = s.size → side.sharesStorage s = true := by
  intro sides
  rw [List.forall_mem_cons, List.forall_mem_singleton]
  have hempty : (empty s.comparer : ValueSet α).size = s.size →
      (empty s.comparer).sharesStorage s = true := by
    intro hsize
    have hnil : s.values = [] := List.length_eq_zero_iff.mp (s.length_values.trans hsize.symm)
    conv_lhs => rw [hs.eq_empty_of_values_eq_nil hnil]
    exact sharesStorage_self _
  have hself : s.size = s.size → s.sharesStorage s = true := fun _ => s.sharesStorage_self
  rcases s.splitAt_cases accept l with ⟨hsides, -⟩ | ⟨hsides, -⟩ | ⟨⟨hyes, hno⟩, hne, hne'⟩
  · rw [show sides = _ from hsides]
    exact ⟨hself, hempty⟩
  · rw [show sides = _ from hsides]
    exact ⟨hempty, hself⟩
  · have htotal : (sides.matching.values ++ sides.remaining.values).length = s.values.length :=
      (s.splitAt_perm accept l).length_eq
    have hpos : 0 < sides.matching.size := by
      rw [← length_values, show sides.matching.values = _ from hyes]
      exact List.length_pos_iff.mpr hne
    have hpos' : 0 < sides.remaining.size := by
      rw [← length_values, show sides.remaining.values = _ from hno]
      exact List.length_pos_iff.mpr hne'
    rw [List.length_append, length_values, length_values, length_values] at htotal
    constructor <;> intro hsize <;> omega

variable [Coherent α]

/-- The sides of a set have no two equal values between them, so joining them merges nothing. -/
theorem Sound.union_splitAt (hs : s.Sound) (accept : Nat → Value α → Bool) (l m : Ledger) :
    let sides := (s.splitAt accept l).1
    (sides.matching.union sides.remaining m).1.1.values =
        sides.matching.values ++ sides.remaining.values ∧
      (sides.matching.union sides.remaining m).1.2 = !sides.remaining.values.isEmpty := by
  intro sides
  obtain ⟨⟨hmatching, hcomparer⟩, hremaining, -⟩ := (hs.gives_splitAt accept l).1
  apply hmatching.union_of_distinct hremaining
  rw [hcomparer]
  exact hs.distinct.perm (s.splitAt_perm accept l)

end ValueSet

/-- However the answers fall at the positions of a set, a split picks the accepted values for one
side and the rejected ones for the other, in their old order. Both sides have the comparer of the
set and are held as their number asks for, and one that has received every value is the set
itself. Joining them gives the accepted values followed by the rejected ones, with the flag up
just when there are any of the latter. Splitting by a view shows the values that the view accepts,
in order, and leaves what a split by the same test leaves. -/
theorem split_picks_and_union_appends {α : Type} [DecidableEq α] [Kind α] [Coherent α]
    {s : ValueSet α} (hs : s.Reachable) (l m : Ledger) :
    (∀ accept : Nat → Value α → Bool,
      let sides := (s.splitAt accept l).1
      let joined := (sides.matching.union sides.remaining m).1
      (sides.matching.values = pick accept s.values ∧
        sides.remaining.values = pick (fun i v => !accept i v) s.values) ∧
      (∀ side ∈ [sides.matching, sides.remaining], side.comparer = s.comparer ∧
        side.representation = .ofSize side.values.length ∧
        (side.size = s.size → side.sharesStorage s = true)) ∧
      joined.1.values = sides.matching.values ++ sides.remaining.values ∧
      (joined.2 = true ↔ sides.remaining.values ≠ [])) ∧
    ∀ (β : Type) (view : Value α → Option β),
      let sides := (s.splitView view l).1
      sides.matching = s.values.filterMap view ∧
        sides.remaining.values = s.values.filter (fun v => (view v).isNone) ∧
        sides.remaining = (s.split (fun v => (view v).isSome) l).1.remaining := by
  constructor
  · intro accept sides joined
    obtain ⟨hmatching, hremaining⟩ := (hs.sound.gives_splitAt accept l).1
    have hshares := hs.sound.sharesStorage_splitAt accept l
    obtain ⟨hvalues, hflag⟩ := hs.sound.union_splitAt accept l m
    refine ⟨s.values_splitAt accept l, ?_, hvalues, ?_⟩
    · rw [List.forall_mem_cons, List.forall_mem_singleton] at hshares ⊢
      exact ⟨⟨hmatching.2, hmatching.1.representation_eq, hshares.1⟩,
        hremaining.2, hremaining.1.representation_eq, hshares.2⟩
    · rw [show joined.2 = !sides.remaining.values.isEmpty from hflag]
      simp
  · intro β view sides
    refine ⟨rfl, ?_, rfl⟩
    have hrest := (s.values_splitAt (fun _ v => (view v).isSome) l).2
    simp only [pick_eq_filter, Option.not_isSome] at hrest
    exact hrest

/-- Five intervals and a module. Every other value is accepted, three on each side; put together
again they are six values still, in another order. -/
theorem split_picks_and_union_appends_alternating :
    let made := ValueSet.ofList (.union .plain) [⟨0, Origin.interval ⟨0, 1⟩⟩,
      ⟨1, .interval ⟨3, 4⟩⟩, ⟨2, .moduleObject ⟨"m"⟩⟩, ⟨3, .interval ⟨6, 7⟩⟩,
      ⟨4, .interval ⟨9, 10⟩⟩, ⟨5, .interval ⟨12, 13⟩⟩] ⟨6, true⟩
    let s := made.1
    let split := s.splitAt (fun i _ => i % 2 == 0) made.2
    let joined := (split.1.matching.union split.1.remaining split.2).1
    s.Reachable ∧ split.1.matching.values.map (·.id) = [0, 2, 4] ∧
      split.1.remaining.values.map (·.id) = [1, 3, 5] ∧
      joined.1.values = split.1.matching.values ++ split.1.remaining.values ∧
      joined.2 = true := by
  intro made s split joined
  have hs : s.Reachable := ValueSet.reachable_ofList _ _ _
  have hmatching : split.1.matching.values.map (·.id) = [0, 2, 4] := by decide +kernel
  have hremaining : split.1.remaining.values.map (·.id) = [1, 3, 5] := by decide +kernel
  have hne : split.1.remaining.values ≠ [] := by decide +kernel
  clear_value s made
  obtain ⟨-, -, hvalues, hflag⟩ :=
    (split_picks_and_union_appends hs made.2 split.2).1 (fun i _ => i % 2 == 0)
  exact ⟨hs, hmatching, hremaining, hvalues, hflag.mpr hne⟩

end AbstractSets
