import Mathlib.Data.List.Pairwise
import Mathlib.Data.Set.List
import Mathlib.Logic.Relation
import AbstractSets.Proofs.Absorption

/-!
# Overlapping intervals merge into the hulls of their components

Overlap is not transitive, and a merged interval can reach others that none of its parts did.
Still the outcome is canonical. An interval that a set holds at any time is an island: any two of
its numbers lie in given intervals inside it that are linked by a chain of overlaps. Merging two
islands that overlap gives an island again, whichever two they are.

In the end the islands are disjoint, and each given interval is inside one of them. Then no chain
of overlaps leaves an island, so that each is the hull of one whole component of what was given.
This leaves no room for the order of arrival, for repetitions, or for the order of lookup.
-/

namespace AbstractSets

open Kind

namespace Interval

instance : Membership Int Interval where
  mem i n := i.lo ≤ n ∧ n ≤ i.hi

def Inside (i j : Interval) : Prop := j.lo ≤ i.lo ∧ i.hi ≤ j.hi

def Touch (is : List Interval) (a b : Interval) : Prop :=
  a ∈ is ∧ b ∈ is ∧ ∃ n : Int, n ∈ a ∧ n ∈ b

/-- A chain of given intervals leads from one to the other, each of which overlaps the next. -/
def Linked (is : List Interval) : Interval → Interval → Prop := Relation.ReflTransGen (Touch is)

/-- `j` is the smallest interval around a group of them. -/
structure IsHull (j : Interval) (group : Interval → Prop) : Prop where
  inside : ∀ a, group a → a.Inside j
  lo : ∃ a, group a ∧ a.lo = j.lo
  hi : ∃ a, group a ∧ a.hi = j.hi

/-- Any two numbers of `i` lie in given intervals that are inside `i` and linked. -/
structure Island (is : List Interval) (i : Interval) : Prop where
  lo_le_hi : i.lo ≤ i.hi
  linked : ∀ n ∈ i, ∀ p ∈ i, ∃ a ∈ is, ∃ b ∈ is,
    (n ∈ a ∧ a.Inside i) ∧ (p ∈ b ∧ b.Inside i) ∧ Linked is a b

/-- Disjoint islands that all given intervals are inside. -/
structure Resolves (is js : List Interval) : Prop where
  apart : js.Pairwise fun a b => ∀ n : Int, ¬ (n ∈ a ∧ n ∈ b)
  island : ∀ j ∈ js, Island is j
  inside : ∀ i ∈ is, ∃ j ∈ js, i.Inside j

variable {is js : List Interval} {i j k : Interval} {n p q : Int} {s : Strength}

theorem lo_mem (h : i.lo ≤ i.hi) : i.lo ∈ i := ⟨le_refl _, h⟩

theorem hi_mem (h : i.lo ≤ i.hi) : i.hi ∈ i := ⟨h, le_refl _⟩

theorem Inside.refl (i : Interval) : i.Inside i := ⟨le_refl _, le_refl _⟩

theorem Inside.trans (h : i.Inside j) (h' : j.Inside k) : i.Inside k :=
  ⟨h'.1.trans h.1, h.2.trans h'.2⟩

theorem Inside.mem (h : i.Inside j) (hn : n ∈ i) : n ∈ j :=
  ⟨h.1.trans hn.1, hn.2.trans h.2⟩

theorem unionEq_of_mem (s : Strength) (hi : n ∈ i) (hj : n ∈ j) : unionEq s i j = true := by
  simp only [unionEq, Bool.and_eq_true, decide_eq_true_eq]
  exact ⟨hi.1.trans hj.2, hj.1.trans hi.2⟩

theorem exists_mem_of_unionEq (hi : i.lo ≤ i.hi) (hj : j.lo ≤ j.hi)
    (h : unionEq s i j = true) : ∃ q : Int, q ∈ i ∧ q ∈ j := by
  simp only [unionEq, Bool.and_eq_true, decide_eq_true_eq] at h
  exact ⟨max i.lo j.lo, ⟨by omega, by omega⟩, ⟨by omega, by omega⟩⟩

theorem inside_hull_left (i j : Interval) : i.Inside (i.hull j) :=
  ⟨min_le_left _ _, le_max_left _ _⟩

theorem inside_hull_right (i j : Interval) : j.Inside (i.hull j) :=
  ⟨min_le_right _ _, le_max_right _ _⟩

theorem mem_or_mem_of_mem_hull (hi : q ∈ i) (hj : q ∈ j) (hn : n ∈ i.hull j) :
    n ∈ i ∨ n ∈ j := by
  obtain ⟨hlo, hhi⟩ := hn
  obtain ⟨hilo, hihi⟩ := hi
  obtain ⟨hjlo, hjhi⟩ := hj
  simp only [hull] at hlo hhi
  by_cases hin : i.lo ≤ n ∧ n ≤ i.hi
  · exact Or.inl hin
  · exact Or.inr ⟨by omega, by omega⟩

theorem merge_content_eq_hull (i j : Interval) : (merge i j).content i j = i.hull j := by
  unfold merge
  split_ifs with h
  · rfl
  · obtain ⟨hlo, hhi⟩ := not_or.mp h
    rw [hull, min_eq_left (not_lt.mp hlo), max_eq_left (not_lt.mp hhi)]
    rfl

theorem IsHull.eq {group : Interval → Prop} (hj : IsHull j group) (hk : IsHull k group) :
    j = k := by
  obtain ⟨a, ha, halo⟩ := hj.lo
  obtain ⟨b, hb, hbhi⟩ := hj.hi
  obtain ⟨c, hc, hclo⟩ := hk.lo
  obtain ⟨d, hd, hdhi⟩ := hk.hi
  have hlo : j.lo = k.lo :=
    le_antisymm (hclo ▸ (hj.inside c hc).1) (halo ▸ (hk.inside a ha).1)
  have hhi : j.hi = k.hi :=
    le_antisymm (hbhi ▸ (hk.inside b hb).2) (hdhi ▸ (hj.inside d hd).2)
  cases j
  cases k
  simp_all

theorem linked_congr {ks : List Interval} (hsame : ∀ i, i ∈ ks ↔ i ∈ is) :
    Linked ks = Linked is := by
  have htouch : Touch ks = Touch is := by
    funext a b
    simp only [Touch, hsame]
  rw [Linked, Linked, htouch]

theorem island_of_mem (h : i ∈ is) (hle : i.lo ≤ i.hi) : Island is i where
  lo_le_hi := hle
  linked _ hn _ hp := ⟨i, h, i, h, ⟨hn, .refl i⟩, ⟨hp, .refl i⟩, .refl⟩

theorem Island.linked_across (hi : Island is i) (hj : Island is j) (hqi : q ∈ i) (hqj : q ∈ j)
    (hn : n ∈ i) (hp : p ∈ j) :
    ∃ a ∈ is, ∃ b ∈ is, (n ∈ a ∧ a.Inside i) ∧ (p ∈ b ∧ b.Inside j) ∧ Linked is a b := by
  obtain ⟨a, ha, b, hb, hna, ⟨hqb, -⟩, hab⟩ := hi.linked n hn q hqi
  obtain ⟨c, hc, d, hd, ⟨hqc, -⟩, hpd, hcd⟩ := hj.linked q hqj p hp
  have hbc : Touch is b c := ⟨hb, hc, q, hqb, hqc⟩
  exact ⟨a, ha, d, hd, hna, hpd, (hab.tail hbc).trans hcd⟩

theorem Island.hull (hi : Island is i) (hj : Island is j) (hqi : q ∈ i) (hqj : q ∈ j) :
    Island is (i.hull j) := by
  have hleft := inside_hull_left i j
  have hright := inside_hull_right i j
  constructor
  · exact hleft.1.trans (hi.lo_le_hi.trans hleft.2)
  · intro n hn p hp
    rcases mem_or_mem_of_mem_hull hqi hqj hn with hn | hn <;>
      rcases mem_or_mem_of_mem_hull hqi hqj hp with hp | hp
    · obtain ⟨a, ha, b, hb, hna, hpb, hab⟩ := hi.linked n hn p hp
      exact ⟨a, ha, b, hb, ⟨hna.1, hna.2.trans hleft⟩, ⟨hpb.1, hpb.2.trans hleft⟩, hab⟩
    · obtain ⟨a, ha, b, hb, hna, hpb, hab⟩ := hi.linked_across hj hqi hqj hn hp
      exact ⟨a, ha, b, hb, ⟨hna.1, hna.2.trans hleft⟩, ⟨hpb.1, hpb.2.trans hright⟩, hab⟩
    · obtain ⟨a, ha, b, hb, hna, hpb, hab⟩ := hj.linked_across hi hqj hqi hn hp
      exact ⟨a, ha, b, hb, ⟨hna.1, hna.2.trans hright⟩, ⟨hpb.1, hpb.2.trans hleft⟩, hab⟩
    · obtain ⟨a, ha, b, hb, hna, hpb, hab⟩ := hj.linked n hn p hp
      exact ⟨a, ha, b, hb, ⟨hna.1, hna.2.trans hright⟩, ⟨hpb.1, hpb.2.trans hright⟩, hab⟩

namespace Resolves

theorem covers_iff (h : Resolves is js) (n : Int) :
    (∃ j ∈ js, n ∈ j) ↔ ∃ i ∈ is, n ∈ i := by
  constructor
  · rintro ⟨j, hj, hn⟩
    obtain ⟨a, ha, -, -, ⟨hna, -⟩, -⟩ := (h.island j hj).linked n hn n hn
    exact ⟨a, ha, hna⟩
  · rintro ⟨i, hi, hn⟩
    obtain ⟨j, hj, hinside⟩ := h.inside i hi
    exact ⟨j, hj, hinside.mem hn⟩

theorem eq_of_mem (h : Resolves is js) (hj : j ∈ js) (hk : k ∈ js) (hnj : n ∈ j)
    (hnk : n ∈ k) : j = k := by
  by_contra hne
  have hsymm : Std.Symm fun a b : Interval => ∀ n : Int, ¬ (n ∈ a ∧ n ∈ b) :=
    ⟨fun _ _ hab n hn => hab n hn.symm⟩
  exact h.apart.forall hj hk hne n ⟨hnj, hnk⟩

/-- No chain of overlaps leads out of an island. -/
theorem inside_of_linked (h : Resolves is js) (hj : j ∈ js) (hi : i.Inside j)
    (hlinked : Linked is i k) : k.Inside j := by
  induction hlinked with
  | refl => exact hi
  | tail _ htouch ih =>
    obtain ⟨-, hc, n, hnb, hnc⟩ := htouch
    obtain ⟨j', hj', hinside⟩ := h.inside _ hc
    rwa [h.eq_of_mem hj hj' (ih.mem hnb) (hinside.mem hnc)]

theorem isHull (h : Resolves is js) (hj : j ∈ js) (hi : i ∈ is) (hle : i.lo ≤ i.hi)
    (hinside : i.Inside j) : IsHull j (Linked is i) := by
  have hisland := h.island j hj
  have hstart : i.lo ∈ j := hinside.mem (lo_mem hle)
  -- Whatever number of `j` we look at, a chain leads from `i` to an interval around it.
  have hreach : ∀ p ∈ j, ∃ b, Linked is i b ∧ p ∈ b ∧ b.Inside j := by
    intro p hp
    obtain ⟨a, ha, b, -, ⟨hmem, -⟩, hpb, hab⟩ := hisland.linked i.lo hstart p hp
    have htouch : Touch is i a := ⟨hi, ha, i.lo, lo_mem hle, hmem⟩
    exact ⟨b, .head htouch hab, hpb⟩
  refine ⟨fun k hk => h.inside_of_linked hj hinside hk, ?_, ?_⟩
  · obtain ⟨b, hb, hmem, hbj⟩ := hreach j.lo (lo_mem hisland.lo_le_hi)
    exact ⟨b, hb, le_antisymm hmem.1 hbj.1⟩
  · obtain ⟨b, hb, hmem, hbj⟩ := hreach j.hi (hi_mem hisland.lo_le_hi)
    exact ⟨b, hb, le_antisymm hbj.2 hmem.2⟩

theorem mem_iff (h : Resolves is js) (hle : ∀ i ∈ is, i.lo ≤ i.hi) (j : Interval) :
    j ∈ js ↔ ∃ i ∈ is, IsHull j (Linked is i) := by
  constructor
  · intro hj
    have hlo := lo_mem (h.island j hj).lo_le_hi
    obtain ⟨a, ha, -, -, ⟨-, hinside⟩, -⟩ := (h.island j hj).linked j.lo hlo j.lo hlo
    exact ⟨a, ha, h.isHull hj ha (hle a ha) hinside⟩
  · rintro ⟨i, hi, hhull⟩
    obtain ⟨k, hk, hinside⟩ := h.inside i hi
    rw [hhull.eq (h.isHull hk hi (hle i hi) hinside)]
    exact hk

theorem nodup (h : Resolves is js) : js.Nodup := by
  refine h.apart.imp_of_mem fun {a b} ha _ hab heq => ?_
  have hlo := lo_mem (h.island a ha).lo_le_hi
  exact hab a.lo ⟨hlo, heq ▸ hlo⟩

theorem perm {ks ls : List Interval} (h : Resolves is js) (h' : Resolves ks ls)
    (hle : ∀ i ∈ is, i.lo ≤ i.hi) (hsame : ∀ i, i ∈ ks ↔ i ∈ is) : ls.Perm js := by
  rw [List.perm_ext_iff_of_nodup h'.nodup h.nodup]
  intro j
  rw [h.mem_iff hle, h'.mem_iff fun i hi => hle i ((hsame i).mp hi), linked_congr hsame]
  simp only [hsame]

end Resolves

def HoldsIsland (is : List Interval) (v : Value Origin) : Prop :=
  ∃ i, v.content = .interval i ∧ Island is i

def Below (v w : Value Origin) : Prop :=
  ∀ i, v.content = .interval i → ∃ j, w.content = .interval j ∧ i.Inside j

instance : IsPreorder (Value Origin) Below where
  refl _ i hi := ⟨i, hi, .refl i⟩
  trans _ _ _ h h' i hi := by
    obtain ⟨j, hj, hij⟩ := h i hi
    obtain ⟨k, hk, hjk⟩ := h' j hj
    exact ⟨k, hk, hij.trans hjk⟩

variable {v w : Value Origin}

theorem content_merge (hv : v.content = .interval i) (hw : w.content = .interval j)
    (l : Ledger) : ((Comparer.union s).merge v w l).1.content = .interval (i.hull j) := by
  have hjoin : Origin.join s (.interval i) (.interval j) = .interval (i.hull j) := by
    rw [← merge_content_eq_hull]
    exact Choice.content_map Origin.interval (merge i j) i j
  rw [Comparer.merge, Supply.ite_apply]
  split_ifs with hvw
  · obtain rfl : i = j := by
      rw [hvw, hw] at hv
      exact (Origin.interval.inj hv).symm
    rw [Supply.pure_apply, hv]
    simp [hull]
  · rw [Merged.content_settle, Origin.content_unionMerge, hv, hw, hjoin]

theorem exists_common_of_equal (hi : Island is i) (hj : Island is j)
    (hv : v.content = .interval i) (hw : w.content = .interval j)
    (h : (Comparer.union s).equal v w = true) : ∃ q : Int, q ∈ i ∧ q ∈ j := by
  simp only [Comparer.equal, Bool.or_eq_true, decide_eq_true_eq] at h
  rcases h with rfl | hequal
  · obtain rfl : i = j := Origin.interval.inj (hv.symm.trans hw)
    exact ⟨i.lo, lo_mem hi.lo_le_hi, lo_mem hi.lo_le_hi⟩
  · rw [hv, hw] at hequal
    exact exists_mem_of_unionEq (s := s) hi.lo_le_hi hj.lo_le_hi hequal

theorem HoldsIsland.merge (hv : HoldsIsland is v) (hw : HoldsIsland is w)
    (h : (Comparer.union s).equal v w = true) (l : Ledger) :
    HoldsIsland is ((Comparer.union s).merge v w l).1 := by
  obtain ⟨i, hvi, hi⟩ := hv
  obtain ⟨j, hwj, hj⟩ := hw
  obtain ⟨q, hqi, hqj⟩ := exists_common_of_equal hi hj hvi hwj h
  exact ⟨_, content_merge hvi hwj l, hi.hull hj hqi hqj⟩

theorem HoldsIsland.below_merge (hv : HoldsIsland is v) (hw : HoldsIsland is w) (l : Ledger) :
    Below v ((Comparer.union s).merge v w l).1 ∧ Below w ((Comparer.union s).merge v w l).1 := by
  obtain ⟨i, hvi, -⟩ := hv
  obtain ⟨j, hwj, -⟩ := hw
  have hmerged := content_merge (s := s) hvi hwj l
  constructor
  · intro k hk
    obtain rfl : i = k := Origin.interval.inj (hvi.symm.trans hk)
    exact ⟨_, hmerged, inside_hull_left i j⟩
  · intro k hk
    obtain rfl : j = k := Origin.interval.inj (hwj.symm.trans hk)
    exact ⟨_, hmerged, inside_hull_right i j⟩

theorem mem_iff_of_contents {xs : List (Value Origin)}
    (h : xs.map (·.content) = is.map .interval) (i : Interval) :
    i ∈ is ↔ ∃ x ∈ xs, x.content = .interval i := by
  have hinjective : Function.Injective Origin.interval := fun _ _ => Origin.interval.inj
  rw [← List.mem_map_of_injective hinjective, ← h, List.mem_map]

/-- However given intervals are taken in, what is held in the end resolves them. -/
theorem resolves_of_absorbsAll {xs ws : List (Value Origin)}
    (hxs : xs.map (·.content) = is.map .interval) (hle : ∀ i ∈ is, i.lo ≤ i.hi)
    (h : (Comparer.union s).AbsorbsAll [] xs ws) :
    ∃ js : List Interval, ws.map (·.content) = js.map .interval ∧ Resolves is js := by
  have hgiven : ∀ x ∈ xs, HoldsIsland is x := by
    intro x hx
    have hmem : x.content ∈ is.map .interval := hxs ▸ List.mem_map_of_mem hx
    obtain ⟨i, hi, hcontent⟩ := List.mem_map.mp hmem
    exact ⟨i, hcontent.symm, island_of_mem hi (hle i hi)⟩
  have hmerge : ∀ v w l, HoldsIsland is v → HoldsIsland is w →
      (Comparer.union s).equal v w = true → HoldsIsland is ((Comparer.union s).merge v w l).1 :=
    fun _ _ l hv hw hequal => hv.merge hw hequal l
  have hheld := h.forall_mem hmerge (List.forall_mem_nil _) hgiven
  have habove := h.exists_above hmerge Below
    (fun _ _ l hv hw _ => hv.below_merge hw l) (List.forall_mem_nil _) hgiven
  have hrange : ws.map (·.content) ∈ Set.range (List.map Origin.interval) := by
    rw [Set.range_list_map]
    intro a ha
    obtain ⟨w, hw, rfl⟩ := List.mem_map.mp ha
    obtain ⟨j, hj, -⟩ := hheld w hw
    exact ⟨j, hj.symm⟩
  obtain ⟨js, hjs⟩ := hrange
  refine ⟨js, hjs.symm, ?_, ?_, ?_⟩
  · have hdistinct : (ws.map (·.content)).Pairwise fun a b => Kind.unionEq s a b = false := by
      rw [List.pairwise_map]
      refine (h.distinct List.Pairwise.nil).imp fun {v w} hvw => ?_
      exact (Bool.or_eq_false_iff.mp hvw).2
    rw [← hjs, List.pairwise_map] at hdistinct
    refine hdistinct.imp fun {a b} hab n hn => ?_
    exact Bool.eq_false_iff.mp hab (unionEq_of_mem s hn.1 hn.2)
  · intro j hj
    obtain ⟨w, hw, hcontent⟩ := (mem_iff_of_contents hjs.symm j).mp hj
    obtain ⟨k, hk, hisland⟩ := hheld w hw
    rwa [Origin.interval.inj (hcontent.symm.trans hk)]
  · intro i hi
    obtain ⟨x, hx, hcontent⟩ := (mem_iff_of_contents hxs i).mp hi
    obtain ⟨w, hw, hbelow⟩ := habove x hx
    obtain ⟨j, hj, hinside⟩ := hbelow i hcontent
    exact ⟨j, (mem_iff_of_contents hjs.symm j).mpr ⟨w, hw, hj⟩, hinside⟩

end Interval

/-- A set made from intervals takes them in one after the other, and however that is done, whatever
is found first, and at whatever level, the intervals held in the end are disjoint, have the numbers
of those given, and are the hulls of their components. The same comes out for any other list
with the same intervals in it. -/
theorem ofList_intervals_canonical {xs : List (Value Origin)} {is : List Interval}
    (hxs : xs.map (·.content) = is.map .interval) (hle : ∀ i ∈ is, i.lo ≤ i.hi)
    (s : Strength) :
    (∀ l, (Comparer.union s).AbsorbsAll [] xs (ValueSet.ofList (.union s) xs l).1.values) ∧
    ∀ ws, (Comparer.union s).AbsorbsAll [] xs ws →
      ∃ js : List Interval, ws.map (·.content) = js.map .interval ∧
        js.Pairwise (fun a b => ∀ n : Int, ¬ (n ∈ a ∧ n ∈ b)) ∧
        (∀ n : Int, (∃ j ∈ js, n ∈ j) ↔ ∃ i ∈ is, n ∈ i) ∧
        (∀ j, j ∈ js ↔ ∃ i ∈ is, Interval.IsHull j (Interval.Linked is i)) ∧
        ∀ (r : Strength) (ys us : List (Value Origin)) (ks : List Interval),
          ys.map (·.content) = ks.map .interval → (∀ i, i ∈ ks ↔ i ∈ is) →
          (Comparer.union r).AbsorbsAll [] ys us →
          (us.map (·.content)).Perm (ws.map (·.content)) := by
  refine ⟨ValueSet.absorbsAll_ofList (.union s) xs, ?_⟩
  intro ws hws
  obtain ⟨js, hjs, hresolves⟩ := Interval.resolves_of_absorbsAll hxs hle hws
  refine ⟨js, hjs, hresolves.apart, hresolves.covers_iff, hresolves.mem_iff hle, ?_⟩
  intro r ys us ks hys hsame hus
  obtain ⟨ls, hls, hresolves'⟩ :=
    Interval.resolves_of_absorbsAll hys (fun i hi => hle i ((hsame i).mp hi)) hus
  rw [hls, hjs]
  exact (hresolves.perm hresolves' hle hsame).map Origin.interval

/-- Five intervals apart from each other, of which three are bridged one by one, against the
bridges first, with one interval given twice. -/
theorem ofList_intervals_canonical_bridged :
    let is : List Interval := [⟨0, 1⟩, ⟨4, 5⟩, ⟨8, 9⟩, ⟨20, 21⟩, ⟨-7, -7⟩, ⟨5, 8⟩, ⟨1, 4⟩]
    let ks : List Interval := [⟨5, 8⟩, ⟨1, 4⟩, ⟨20, 21⟩, ⟨0, 1⟩, ⟨4, 5⟩, ⟨1, 4⟩, ⟨-7, -7⟩, ⟨8, 9⟩]
    let xs : List (Value Origin) := (is.map Origin.interval).mapIdx fun n i => ⟨n, i⟩
    let ys : List (Value Origin) := (ks.map Origin.interval).mapIdx fun n i => ⟨n, i⟩
    let s := (ValueSet.ofList (.union .plain) xs ⟨7, true⟩).1
    let t := (ValueSet.ofList (.union .object) ys ⟨8, true⟩).1
    xs.map (·.content) = is.map .interval ∧ (∀ i ∈ is, i.lo ≤ i.hi) ∧
      ys.map (·.content) = ks.map .interval ∧ (∀ i, i ∈ ks ↔ i ∈ is) ∧
      s.values.map (·.content) = [.interval ⟨0, 9⟩, .interval ⟨20, 21⟩, .interval ⟨-7, -7⟩] ∧
      (t.values.map (·.content)).Perm (s.values.map (·.content)) := by
  intro is ks xs ys s t
  have hxs : xs.map (·.content) = is.map .interval := by decide
  have hys : ys.map (·.content) = ks.map .interval := by decide
  have hle : ∀ i ∈ is, i.lo ≤ i.hi := by decide
  have hsame : ∀ i, i ∈ ks ↔ i ∈ is := by
    intro i
    simp only [is, ks, List.mem_cons, List.not_mem_nil, or_false]
    tauto
  obtain ⟨hrun, hall⟩ := ofList_intervals_canonical hxs hle .plain
  obtain ⟨js, -, -, -, -, hothers⟩ := hall s.values (hrun ⟨7, true⟩)
  have hrun' := ValueSet.absorbsAll_ofList (.union .object) ys ⟨8, true⟩
  exact ⟨hxs, hle, hys, hsame, by decide +kernel, hothers .object ys t.values ks hys hsame hrun'⟩

end AbstractSets
