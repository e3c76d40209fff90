import Mathlib.Algebra.GroupWithZero.Nat
import Mathlib.Data.List.Nodup
import AbstractSets.Proofs.OriginLaws

/-!
# The laws of tallies

Merging two tallies adds up what they have counted, payload by payload and in all. Payloads
that are listed once in each of them are listed once in the sum, so looking one up finds all
that was counted for it.

Tallies are lawful: their equality is an equivalence at every level, and a sum is equal to its
parts. Their merging is no join, because a tally added to itself counts everything twice.
-/

namespace AbstractSets

namespace Tally

@[simp] theorem addWeights_nil (ws : List (String × Nat)) : addWeights ws [] = ws := rfl

@[simp] theorem addWeights_cons (ws : List (String × Nat)) (p : String) (n : Nat)
    (vs : List (String × Nat)) :
    addWeights ws ((p, n) :: vs) = addWeights (addWeight p n ws) vs := rfl

def weightIn (payload : String) : List (String × Nat) → Nat
  | [] => 0
  | (q, n) :: rest => if q = payload then n else weightIn payload rest

theorem weight_eq (a : Tally) (payload : String) :
    a.weight payload = weightIn payload a.weights := by
  obtain ⟨name, weights⟩ := a
  unfold weight
  induction weights with
  | nil => rfl
  | cons entry rest ih =>
    obtain ⟨q, n⟩ := entry
    by_cases hq : q = payload
    · simp [weightIn, hq]
    · simpa [weightIn, hq] using ih

theorem weightIn_eq_zero {payload : String} {ws : List (String × Nat)}
    (h : payload ∉ ws.map (·.1)) : weightIn payload ws = 0 := by
  induction ws with
  | nil => rfl
  | cons entry rest ih =>
    obtain ⟨hne, hrest⟩ := not_or.mp (mt List.mem_cons.mpr h)
    rw [weightIn, if_neg (Ne.symm hne), ih hrest]

theorem weightIn_addWeight (payload q : String) (n : Nat) (ws : List (String × Nat)) :
    weightIn payload (addWeight q n ws) = weightIn payload ws + if q = payload then n else 0 := by
  induction ws with
  | nil => simp [addWeight, weightIn]
  | cons entry rest ih =>
    obtain ⟨k, m⟩ := entry
    by_cases hk : k = q
    · subst hk
      by_cases hp : k = payload <;> simp [addWeight, weightIn, hp]
    · by_cases hp : k = payload
      · subst hp
        simp [addWeight, weightIn, hk, Ne.symm hk]
      · simp [addWeight, weightIn, hk, hp, ih]

theorem weightIn_addWeights (payload : String) (ws : List (String × Nat))
    {vs : List (String × Nat)} (hvs : (vs.map (·.1)).Nodup) :
    weightIn payload (addWeights ws vs) = weightIn payload ws + weightIn payload vs := by
  induction vs generalizing ws with
  | nil => rfl
  | cons entry rest ih =>
    obtain ⟨q, n⟩ := entry
    obtain ⟨hq, hrest⟩ := List.nodup_cons.mp hvs
    rw [addWeights_cons, ih _ hrest, weightIn_addWeight, weightIn]
    by_cases hp : q = payload
    · subst hp
      rw [if_pos rfl, if_pos rfl, weightIn_eq_zero hq, Nat.add_zero]
    · rw [if_neg hp, if_neg hp, Nat.add_zero]

theorem map_fst_addWeight (q : String) (n : Nat) (ws : List (String × Nat)) :
    (addWeight q n ws).map (·.1) =
      if q ∈ ws.map (·.1) then ws.map (·.1) else ws.map (·.1) ++ [q] := by
  induction ws with
  | nil => rfl
  | cons entry rest ih =>
    obtain ⟨k, m⟩ := entry
    by_cases hk : k = q
    · simp [addWeight, hk]
    · rw [addWeight, if_neg hk, List.map_cons, ih]
      by_cases hq : q ∈ rest.map (·.1) <;> simp [hq, Ne.symm hk]

theorem nodup_addWeights {ws : List (String × Nat)} (hws : (ws.map (·.1)).Nodup)
    (vs : List (String × Nat)) : ((addWeights ws vs).map (·.1)).Nodup := by
  induction vs generalizing ws with
  | nil => exact hws
  | cons entry rest ih =>
    apply ih
    rw [map_fst_addWeight]
    split_ifs with hq
    · exact hws
    · rw [← List.concat_eq_append]
      exact hws.concat hq

theorem count_eq_sum (a : Tally) : a.count = (a.weights.map (·.2)).sum := by
  rw [count, List.sum_eq_foldl, List.foldl_map]

theorem sum_addWeight (q : String) (n : Nat) (ws : List (String × Nat)) :
    ((addWeight q n ws).map (·.2)).sum = (ws.map (·.2)).sum + n := by
  induction ws with
  | nil => simp [addWeight]
  | cons entry rest ih =>
    obtain ⟨k, m⟩ := entry
    by_cases hk : k = q
    · simp only [addWeight, if_pos hk, List.map_cons, List.sum_cons]
      omega
    · simp only [addWeight, if_neg hk, List.map_cons, List.sum_cons, ih]
      omega

theorem sum_addWeights (ws vs : List (String × Nat)) :
    ((addWeights ws vs).map (·.2)).sum = (ws.map (·.2)).sum + (vs.map (·.2)).sum := by
  induction vs generalizing ws with
  | nil => rfl
  | cons entry rest ih =>
    rw [addWeights_cons, ih, sum_addWeight, List.map_cons, List.sum_cons]
    omega

def Listed (a : Tally) : Prop := (a.weights.map (·.1)).Nodup

theorem listed_once (name : Option String) (payload : String) : (once name payload).Listed :=
  List.nodup_singleton payload

variable {a b : Tally}

theorem Listed.add (ha : a.Listed) (b : Tally) : (a.add b).Listed :=
  nodup_addWeights ha b.weights

theorem weight_add (a : Tally) (hb : b.Listed) (payload : String) :
    (a.add b).weight payload = a.weight payload + b.weight payload := by
  simp only [weight_eq]
  exact weightIn_addWeights payload a.weights hb

theorem count_add (a b : Tally) : (a.add b).count = a.count + b.count := by
  simp only [count_eq_sum]
  exact sum_addWeights a.weights b.weights

theorem unionEq_iff {s : Strength} : unionEq s a b = true ↔ s = .object ∨ a.name = b.name := by
  cases s <;> simp [unionEq]

theorem unionEq_add {s : Strength} (h : unionEq s a b = true) : unionEq s a (a.add b) = true := by
  rw [unionEq_iff] at h ⊢
  rcases h with hs | hname
  · exact Or.inl hs
  · exact Or.inr (by rw [add, if_pos hname])

end Tally

namespace Origin

/-- The kinds whose equality is an equivalence that merging respects. -/
def Lawful : Origin → Prop
  | constant _ | classObject _ | functionObject _ | moduleObject _ | tally _ => True
  | interval _ | relabel _ => False

instance : DecidablePred Lawful
  | constant _ | classObject _ | functionObject _ | moduleObject _ | tally _ => .isTrue trivial
  | interval _ | relabel _ => .isFalse id

variable {s : Strength} {a b c : Origin}

theorem unionMerge_tally {v w : Value Origin} {t u : Tally} (hv : v.content = tally t)
    (hw : w.content = tally u) (s : Strength) :
    Kind.unionMerge s v w = .made (tally (t.add u)) := by
  change (merge s v.content w.content).between v w = _
  rw [hv, hw]
  rfl

theorem lawful_iff : Lawful a ↔ BuiltIn a ∨ ∃ t, a = tally t := by
  cases a <;> simp [Lawful, BuiltIn]

theorem builtIn_of_unionEq (ha : BuiltIn a) (h : unionEq s a b = true) : BuiltIn b := by
  obtain ⟨κ, embed, equal, rule, part, x, rfl⟩ := exists_part s ha
  obtain ⟨y, rfl⟩ := part.closed h
  exact part.builtIn y

theorem exists_tally_of_unionEq {t : Tally} (h : unionEq s (tally t) b = true) :
    ∃ u, b = tally u := by
  cases b with
  | tally u => exact ⟨u, rfl⟩
  | _ => cases h

theorem lawful_of_unionEq (ha : Lawful a) (h : unionEq s a b = true) : Lawful b := by
  rw [lawful_iff] at ha ⊢
  rcases ha with ha | ⟨t, rfl⟩
  · exact Or.inl (builtIn_of_unionEq ha h)
  · exact Or.inr (exists_tally_of_unionEq h)

theorem unionEq_join_of_lawful (ha : Lawful a) (h : unionEq s a b = true) :
    unionEq s a (join s a b) = true := by
  rcases lawful_iff.mp ha with hbuiltIn | ⟨t, rfl⟩
  · exact (unionEq_join hbuiltIn h).2
  · obtain ⟨u, rfl⟩ := exists_tally_of_unionEq h
    exact Tally.unionEq_add h

theorem unionEq_trans_of_lawful (ha : Lawful a) (hab : unionEq s a b = true)
    (hbc : unionEq s b c = true) : unionEq s a c = true := by
  rcases lawful_iff.mp ha with hbuiltIn | ⟨t, rfl⟩
  · have hb := builtIn_of_unionEq hbuiltIn hab
    exact joinOn.trans hbuiltIn hb (builtIn_of_unionEq hb hbc) hab hbc
  · obtain ⟨u, rfl⟩ := exists_tally_of_unionEq hab
    obtain ⟨w, rfl⟩ := exists_tally_of_unionEq hbc
    have htu := Tally.unionEq_iff.mp hab
    have huw := Tally.unionEq_iff.mp hbc
    exact Tally.unionEq_iff.mpr (by grind)

theorem lawfulOn : Kind.LawfulOn Lawful where
  refl {s a} ha := by
    rcases lawful_iff.mp ha with hbuiltIn | ⟨t, rfl⟩
    · exact joinOn.refl hbuiltIn
    · exact Tally.unionEq_iff.mpr (Or.inr rfl)
  trans ha _ _ hab hbc := unionEq_trans_of_lawful ha hab hbc
  merge_mem {s v w} hv _ h := by
    rw [content_unionMerge]
    exact lawful_of_unionEq hv (unionEq_join_of_lawful hv h)
  merge_equal {s v w} hv _ h := by
    rw [content_unionMerge]
    exact unionEq_join_of_lawful hv h

end Origin

end AbstractSets
