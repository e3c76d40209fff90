import AbstractSets.Proofs.Tallies

/-!
# Sums of tallies

A tally that is gathered from single sightings lists each payload once and lists none that was not
seen. Adding one to another adds up their counts payload by payload; the payloads of the first
keep their places, and those that only the second has seen follow in their order there.

Counting a payload once more makes no difference to where it stands, so it can be done before or
after others are counted once the payload is listed. Hence addition is associative to the letter,
order included, and the sum of a sequence does not depend on its brackets.
-/

namespace AbstractSets

namespace Tally

def payloads (a : Tally) : List String := a.weights.map (·.1)

/-- A tally of one sighting, or the sum of two that are gathered. -/
inductive Gathered : Tally → Prop where
  | once (name : Option String) (payload : String) : Gathered (once name payload)
  | add {a b : Tally} (ha : Gathered a) (hb : Gathered b) : Gathered (a.add b)

section Weights

variable {p : String} {n : Nat} {ws : List (String × Nat)}

theorem addWeight_add (p : String) (m n : Nat) (ws : List (String × Nat)) :
    addWeight p (m + n) ws = addWeight p n (addWeight p m ws) := by
  induction ws with
  | nil => simp [addWeight]
  | cons entry rest ih =>
    obtain ⟨k, w⟩ := entry
    by_cases hk : k = p
    · simp [addWeight, hk, Nat.add_assoc]
    · simp [addWeight, hk, ih]

theorem mem_fst_addWeight (p : String) (n : Nat) (ws : List (String × Nat)) :
    p ∈ (addWeight p n ws).map (·.1) := by
  rw [map_fst_addWeight]
  split_ifs with hp
  · exact hp
  · exact List.mem_append_right _ (List.mem_singleton_self p)

theorem mem_fst_addWeight_of_mem (hp : p ∈ ws.map (·.1)) (q : String) (n : Nat) :
    p ∈ (addWeight q n ws).map (·.1) := by
  rw [map_fst_addWeight]
  split_ifs
  · exact hp
  · exact List.mem_append_left _ hp

theorem addWeight_comm (hp : p ∈ ws.map (·.1)) (n : Nat) (q : String) (m : Nat) :
    addWeight q m (addWeight p n ws) = addWeight p n (addWeight q m ws) := by
  induction ws with
  | nil => cases hp
  | cons entry rest ih =>
    obtain ⟨k, w⟩ := entry
    by_cases hkp : k = p
    · subst hkp
      by_cases hkq : k = q
      · simp [addWeight, hkq, Nat.add_right_comm]
      · simp [addWeight, hkq]
    · have hrest : p ∈ rest.map (·.1) := by
        simpa [Ne.symm hkp] using hp
      by_cases hkq : k = q
      · subst hkq
        simp [addWeight, hkp]
      · simp [addWeight, hkp, hkq, ih hrest]

theorem addWeights_addWeight_left (hp : p ∈ ws.map (·.1)) (n : Nat) (vs : List (String × Nat)) :
    addWeights (addWeight p n ws) vs = addWeight p n (addWeights ws vs) := by
  induction vs generalizing ws with
  | nil => rfl
  | cons entry rest ih =>
    obtain ⟨q, m⟩ := entry
    rw [addWeights_cons, addWeights_cons, addWeight_comm hp]
    exact ih (mem_fst_addWeight_of_mem hp q m)

theorem addWeights_addWeight_right (ws : List (String × Nat)) (p : String) (n : Nat)
    (vs : List (String × Nat)) :
    addWeights ws (addWeight p n vs) = addWeight p n (addWeights ws vs) := by
  induction vs generalizing ws with
  | nil => rfl
  | cons entry rest ih =>
    obtain ⟨q, m⟩ := entry
    by_cases hq : q = p
    · subst hq
      calc addWeights ws (addWeight q n ((q, m) :: rest))
          _ = addWeights (addWeight q (m + n) ws) rest := by
            rw [addWeight, if_pos rfl, addWeights_cons]
          _ = addWeights (addWeight q n (addWeight q m ws)) rest := by rw [addWeight_add]
          _ = addWeight q n (addWeights (addWeight q m ws) rest) :=
            addWeights_addWeight_left (mem_fst_addWeight q m ws) n rest
    · rw [addWeight, if_neg hq]
      exact ih (addWeight q m ws)

theorem addWeights_assoc (us vs ws : List (String × Nat)) :
    addWeights (addWeights us vs) ws = addWeights us (addWeights vs ws) := by
  induction ws generalizing vs with
  | nil => rfl
  | cons entry rest ih =>
    obtain ⟨p, n⟩ := entry
    calc addWeights (addWeights us vs) ((p, n) :: rest)
        _ = addWeights (addWeight p n (addWeights us vs)) rest := addWeights_cons _ p n rest
        _ = addWeights (addWeights us (addWeight p n vs)) rest := by
          rw [addWeights_addWeight_right]
        _ = addWeights us (addWeights (addWeight p n vs) rest) := ih _

theorem one_le_of_mem_addWeight (hws : ∀ e ∈ ws, 1 ≤ e.2) (hn : 1 ≤ n) :
    ∀ e ∈ addWeight p n ws, 1 ≤ e.2 := by
  induction ws with
  | nil => exact List.forall_mem_singleton.mpr hn
  | cons entry rest ih =>
    obtain ⟨k, w⟩ := entry
    obtain ⟨hw, hrest⟩ := List.forall_mem_cons.mp hws
    rw [addWeight]
    split_ifs
    · exact List.forall_mem_cons.mpr ⟨Nat.le_add_right_of_le hw, hrest⟩
    · exact List.forall_mem_cons.mpr ⟨hw, ih hrest⟩

theorem one_le_of_mem_addWeights (hws : ∀ e ∈ ws, 1 ≤ e.2) {vs : List (String × Nat)}
    (hvs : ∀ e ∈ vs, 1 ≤ e.2) : ∀ e ∈ addWeights ws vs, 1 ≤ e.2 := by
  induction vs generalizing ws with
  | nil => exact hws
  | cons entry rest ih =>
    obtain ⟨hn, hrest⟩ := List.forall_mem_cons.mp hvs
    exact ih (one_le_of_mem_addWeight hws hn) hrest

theorem map_fst_addWeights (ws : List (String × Nat)) {vs : List (String × Nat)}
    (hvs : (vs.map (·.1)).Nodup) :
    (addWeights ws vs).map (·.1) =
      ws.map (·.1) ++ (vs.map (·.1)).filter (· ∉ ws.map (·.1)) := by
  induction vs generalizing ws with
  | nil => simp
  | cons entry rest ih =>
    obtain ⟨q, n⟩ := entry
    obtain ⟨hq, hrest⟩ := List.nodup_cons.mp hvs
    rw [addWeights_cons, ih _ hrest, map_fst_addWeight, List.map_cons]
    by_cases hin : q ∈ ws.map (·.1)
    · rw [if_pos hin, List.filter_cons_of_neg (by simpa using hin)]
    · have hcongr : (rest.map (·.1)).filter (· ∉ ws.map (·.1) ++ [q]) =
          (rest.map (·.1)).filter (· ∉ ws.map (·.1)) := by
        apply List.filter_congr
        intro p hp
        have hpq : p ≠ q := fun heq => hq (heq ▸ hp)
        simp [hpq]
      rw [if_neg hin, hcongr, List.filter_cons_of_pos (by simpa using hin), List.append_assoc]
      rfl

end Weights

variable {a b : Tally}

theorem payloads_add (a : Tally) (hb : b.Listed) :
    (a.add b).payloads = a.payloads ++ b.payloads.filter (· ∉ a.payloads) :=
  map_fst_addWeights a.weights hb

theorem name_add_eq_some_iff {n : String} :
    (a.add b).name = some n ↔ a.name = some n ∧ b.name = some n := by
  by_cases h : a.name = b.name
  · simp [add, h]
  · simp only [add, if_neg h]
    grind

theorem name_add_assoc (a b c : Tally) : ((a.add b).add c).name = (a.add (b.add c)).name := by
  apply Option.ext
  intro n
  simp only [name_add_eq_some_iff, and_assoc]

theorem add_assoc (a b c : Tally) : (a.add b).add c = a.add (b.add c) := by
  have hboth := congrArg₂ Tally.mk (name_add_assoc a b c)
    (addWeights_assoc a.weights b.weights c.weights)
  exact hboth

/-- At least one payload is listed, each is listed once, and each has been seen. -/
structure Counted (a : Tally) : Prop where
  listed : a.Listed
  seen : ∀ e ∈ a.weights, 1 ≤ e.2
  ne_nil : a.weights ≠ []

theorem counted_once (name : Option String) (payload : String) : (once name payload).Counted where
  listed := listed_once name payload
  seen := List.forall_mem_singleton.mpr (Nat.le_refl 1)
  ne_nil := List.cons_ne_nil _ _

theorem Counted.add (ha : a.Counted) (hb : b.Counted) : (a.add b).Counted where
  listed := ha.listed.add b
  seen := one_le_of_mem_addWeights ha.seen hb.seen
  ne_nil := by
    intro hnil
    have hpayloads := payloads_add a hb.listed
    rw [payloads, hnil, List.map_nil] at hpayloads
    have hempty := (List.append_eq_nil_iff.mp hpayloads.symm).1
    exact ha.ne_nil (List.map_eq_nil_iff.mp hempty)

theorem Gathered.counted (ha : a.Gathered) : a.Counted := by
  induction ha with
  | once name payload => exact counted_once name payload
  | add _ _ ha hb => exact ha.add hb

/-- The entry weighs more than all before it in the list, and no less than all after it. -/
def Heaviest (ws : List (String × Nat)) (entry : String × Nat) : Prop :=
  ∃ before after, ws = before ++ entry :: after ∧ (∀ e ∈ before, e.2 < entry.2) ∧
    ∀ e ∈ after, e.2 ≤ entry.2

namespace Heaviest

variable {ws : List (String × Nat)} {best : String × Nat}

theorem le (h : Heaviest ws best) : ∀ e ∈ ws, e.2 ≤ best.2 := by
  obtain ⟨before, after, rfl, hbefore, hafter⟩ := h
  intro e he
  rcases List.mem_append.mp he with hin | hin
  · exact Nat.le_of_lt (hbefore e hin)
  · rcases List.mem_cons.mp hin with rfl | hin
    · exact Nat.le_refl _
    · exact hafter e hin

theorem heavier (h : Heaviest ws best) (entry : String × Nat) :
    ∃ next, heavier (some best) entry = some next ∧ Heaviest (ws ++ [entry]) next := by
  by_cases hlt : best.2 < entry.2
  · refine ⟨entry, by simp [Tally.heavier, hlt], ws, [], rfl, ?_, List.forall_mem_nil _⟩
    intro e he
    exact Nat.lt_of_le_of_lt (h.le e he) hlt
  · obtain ⟨before, after, rfl, hbefore, hafter⟩ := h
    refine ⟨best, by simp [Tally.heavier, hlt], before, after ++ [entry], by simp, hbefore, ?_⟩
    intro e he
    rcases List.mem_append.mp he with hin | hin
    · exact hafter e hin
    · rw [List.mem_singleton.mp hin]
      omega

theorem foldl_heavier (h : Heaviest ws best) (vs : List (String × Nat)) :
    ∃ last, vs.foldl Tally.heavier (some best) = some last ∧ Heaviest (ws ++ vs) last := by
  induction vs generalizing ws best with
  | nil =>
    rw [List.append_nil]
    exact ⟨best, rfl, h⟩
  | cons entry rest ih =>
    obtain ⟨next, hnext, hheaviest⟩ := h.heavier entry
    rw [List.foldl_cons, hnext, List.append_cons]
    exact ih hheaviest

end Heaviest

theorem Counted.heaviest_payload (ha : a.Counted) : ∃ n, Heaviest a.weights (a.payload, n) := by
  obtain ⟨entry, rest, hweights⟩ := List.exists_cons_of_ne_nil ha.ne_nil
  have hfirst : Heaviest [entry] entry :=
    ⟨[], [], rfl, List.forall_mem_nil _, List.forall_mem_nil _⟩
  obtain ⟨⟨p, n⟩, hlast, hheaviest⟩ := hfirst.foldl_heavier rest
  have hfold : a.weights.foldl heavier none = some (p, n) := by
    rw [hweights, List.foldl_cons]
    exact hlast
  have hpayload : a.payload = p := by rw [payload, hfold]
  refine ⟨n, ?_⟩
  rw [hpayload, hweights]
  exact hheaviest

/-- A sequence of tallies with brackets that say which two are added when. -/
inductive Bracketing where
  | leaf (a : Tally)
  | node (left right : Bracketing)

namespace Bracketing

def leaves : Bracketing → List Tally
  | leaf a => [a]
  | node left right => left.leaves ++ right.leaves

def total : Bracketing → Tally
  | leaf a => a
  | node left right => left.total.add right.total

theorem foldl_add_leaves (x : Bracketing) (a : Tally) :
    x.leaves.foldl add a = a.add x.total := by
  induction x generalizing a with
  | leaf b => rfl
  | node left right hleft hright =>
    rw [leaves, List.foldl_append, hleft, hright, add_assoc, total]

theorem exists_leaves_eq_cons (x : Bracketing) : ∃ a rest, x.leaves = a :: rest := by
  induction x with
  | leaf a => exact ⟨a, [], rfl⟩
  | node left right hleft _ =>
    obtain ⟨a, rest, hrest⟩ := hleft
    exact ⟨a, rest ++ right.leaves, by rw [leaves, hrest, List.cons_append]⟩

/-- Any brackets come to the same as adding one tally after the other to the first. -/
theorem total_eq_foldl {x : Bracketing} {a : Tally} {rest : List Tally}
    (h : x.leaves = a :: rest) : x.total = rest.foldl add a := by
  induction x generalizing a rest with
  | leaf b =>
    obtain ⟨rfl, rfl⟩ := List.cons.inj h
    rfl
  | node left right hleft _ =>
    obtain ⟨b, front, hfront⟩ := left.exists_leaves_eq_cons
    rw [leaves, hfront, List.cons_append] at h
    obtain ⟨rfl, rfl⟩ := List.cons.inj h
    rw [List.foldl_append, ← hleft hfront, foldl_add_leaves, total]

theorem total_eq_of_leaves_eq {x y : Bracketing} (h : x.leaves = y.leaves) :
    x.total = y.total := by
  obtain ⟨a, rest, hx⟩ := x.exists_leaves_eq_cons
  rw [total_eq_foldl hx, total_eq_foldl (h ▸ hx)]

theorem gathered_total {x : Bracketing} (hx : ∀ a ∈ x.leaves, a.Gathered) : x.total.Gathered := by
  induction x with
  | leaf a => exact hx a (List.mem_singleton_self a)
  | node left right hleft hright =>
    obtain ⟨hl, hr⟩ := List.forall_mem_append.mp hx
    exact .add (hleft hl) (hright hr)

theorem weight_total {x : Bracketing} (hx : ∀ a ∈ x.leaves, a.Gathered) (payload : String) :
    x.total.weight payload = (x.leaves.map (·.weight payload)).sum := by
  induction x with
  | leaf a => simp [total, leaves]
  | node left right hleft hright =>
    obtain ⟨hl, hr⟩ := List.forall_mem_append.mp hx
    rw [total, weight_add _ (gathered_total hr).counted.listed, hleft hl, hright hr, leaves,
      List.map_append, List.sum_append_nat]

theorem name_total_eq_some_iff (x : Bracketing) (n : String) :
    x.total.name = some n ↔ ∀ a ∈ x.leaves, a.name = some n := by
  induction x with
  | leaf a => simp [total, leaves]
  | node left right hleft hright =>
    rw [total, name_add_eq_some_iff, hleft, hright, leaves, List.forall_mem_append]

end Bracketing

end Tally

open Tally

/-- Tallies that are gathered from single sightings list each payload once and with a count of at
least one. Values that hold tallies are merged by adding these up. A sum counts each payload as
often as both its parts, and lists the payloads of the first part and then those that are new in
the second. However a sequence of such tallies is bracketed, the sum is the same tally, and it has
a name just if all of them have that name. The payload that stands for a tally is the first of
those with the greatest count. -/
theorem gathered_tallies_add_up {a b : Tally} (ha : a.Gathered) (hb : b.Gathered)
    {x y : Bracketing} (hx : ∀ c ∈ x.leaves, c.Gathered) (hleaves : x.leaves = y.leaves) :
    (a.payloads.Nodup ∧ ∀ e ∈ a.weights, 1 ≤ e.2) ∧
      (∀ (s : Strength) (v w : Value Origin), v.content = .tally a → w.content = .tally b →
        Kind.unionMerge s v w = .made (.tally (a.add b))) ∧
      (∀ p, (a.add b).weight p = a.weight p + b.weight p) ∧
      (a.add b).payloads = a.payloads ++ b.payloads.filter (· ∉ a.payloads) ∧
      (x.total.Gathered ∧ x.total = y.total) ∧
      (∀ p, x.total.weight p = (x.leaves.map (·.weight p)).sum) ∧
      (∀ n, x.total.name = some n ↔ ∀ c ∈ x.leaves, c.name = some n) ∧
      ∃ before n after, a.weights = before ++ (a.payload, n) :: after ∧
        (∀ e ∈ before, e.2 < n) ∧ ∀ e ∈ after, e.2 ≤ n := by
  have hacounted := ha.counted
  have hbcounted := hb.counted
  refine ⟨⟨hacounted.listed, hacounted.seen⟩, ?_, weight_add a hbcounted.listed,
    payloads_add a hbcounted.listed, ⟨Bracketing.gathered_total hx, ?_⟩,
    Bracketing.weight_total hx, x.name_total_eq_some_iff, ?_⟩
  · intro s v w hv hw
    exact Origin.unionMerge_tally hv hw s
  · exact Bracketing.total_eq_of_leaves_eq hleaves
  · obtain ⟨n, before, after, hheaviest⟩ := hacounted.heaviest_payload
    exact ⟨before, n, after, hheaviest⟩

/-- Three sightings of one name and one of another, added up in two ways. -/
theorem gathered_tallies_add_up_two_ways :
    let q : Tally := .once (some "T") "q"
    let p : Tally := .once (some "T") "p"
    let r : Tally := .once (some "U") "r"
    let a := q.add (p.add p)
    let x : Bracketing := .node (.node (.leaf q) (.leaf r)) (.node (.leaf p) (.leaf p))
    let y : Bracketing := .node (.leaf q) (.node (.node (.leaf r) (.leaf p)) (.leaf p))
    (a.Gathered ∧ r.Gathered ∧ (∀ c ∈ x.leaves, c.Gathered) ∧ x.leaves = y.leaves) ∧
      a.payload = "p" ∧ (a.add r).weight "p" = 2 ∧ (a.add r).payloads = ["q", "p", "r"] ∧
      Kind.unionMerge .object (⟨0, .tally a⟩ : Value Origin) ⟨1, .tally r⟩ =
        .made (.tally ⟨none, [("q", 1), ("p", 2), ("r", 1)]⟩) ∧
      x.total = ⟨none, [("q", 1), ("r", 1), ("p", 2)]⟩ ∧ x.total = y.total ∧
      x.total.weight "p" = 2 ∧ ∀ n, x.total.name ≠ some n := by
  intro q p r a x y
  have hp : p.Gathered := .once _ _
  have hq : q.Gathered := .once _ _
  have hr : r.Gathered := .once _ _
  have ha : a.Gathered := .add hq (.add hp hp)
  have hx : ∀ c ∈ x.leaves, c.Gathered := by
    simp [x, Bracketing.leaves, hp, hq, hr]
  obtain ⟨-, hmerge, hweight, hpayloads, ⟨-, htotal⟩, hsum, hname, -⟩ :=
    gathered_tallies_add_up ha hr (x := x) (y := y) hx rfl
  refine ⟨⟨ha, hr, hx, rfl⟩, by decide +kernel, (hweight "p").trans (by decide +kernel),
    hpayloads.trans (by decide +kernel), hmerge _ _ _ rfl rfl, by decide +kernel, htotal,
    (hsum "p").trans (by decide +kernel), fun n hn => ?_⟩
  have hall := (hname n).mp hn
  have hboth : some "T" = some "U" :=
    (hall q (by simp [x, Bracketing.leaves])).trans (hall r (by simp [x, Bracketing.leaves])).symm
  exact absurd hboth (by decide +kernel)

end AbstractSets
