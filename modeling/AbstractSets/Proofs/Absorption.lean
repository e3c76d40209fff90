import AbstractSets.Proofs.Conservation
import AbstractSets.Proofs.Outcomes

/-!
# Taking values in, whichever is found first

Where equality is not transitive, a value can be equal to several of those held, and which of
them it meets first is up to the order in which they are looked up. `Comparer.Absorbs` leaves
this open: a value that is equal to none of those held is added, and one that is equal to some
is merged with any of these, either way round, and what comes out is taken in by the others.

Insertion into a sound set is one way to do this, in all four ways to hold values. What holds of
every way to take values in thus holds of a set, and does not depend on its order of lookup.
-/

namespace AbstractSets

open Kind

variable {α : Type} [DecidableEq α] [Kind α]

namespace Comparer

/-- The values held, `vs`, take in `x` and become `ws`, in whatever order these are. -/
inductive Absorbs (c : Comparer) : List (Value α) → Value α → List (Value α) → Prop where
  | add {vs ws : List (Value α)} {x : Value α} (hnone : ∀ v ∈ vs, c.equal v x = false)
      (hperm : ws.Perm (x :: vs)) : Absorbs c vs x ws
  | merge {vs rest ws : List (Value α)} {v x merged : Value α} (l : Ledger)
      (hperm : vs.Perm (v :: rest)) (hequal : c.equal v x = true)
      (hmerged : merged = (c.merge v x l).1 ∨ merged = (c.merge x v l).1)
      (hrest : Absorbs c rest merged ws) : Absorbs c vs x ws

inductive AbsorbsAll (c : Comparer) : List (Value α) → List (Value α) → List (Value α) → Prop where
  | nil (vs : List (Value α)) : AbsorbsAll c vs [] vs
  | cons {vs ws us xs : List (Value α)} {x : Value α} (hfirst : c.Absorbs vs x ws)
      (hlater : AbsorbsAll c ws xs us) : AbsorbsAll c vs (x :: xs) us

variable {c : Comparer} {vs ws xs : List (Value α)} {x : Value α}

theorem Absorbs.distinct [Coherent α] (h : c.Absorbs vs x ws) (hvs : c.Distinct vs) :
    c.Distinct ws := by
  induction h with
  | add hnone hperm =>
    refine Distinct.perm (List.pairwise_cons.mpr ⟨?_, hvs⟩) hperm
    intro v hv
    rw [equal_comm]
    exact hnone v hv
  | merge l hperm _ _ _ ih => exact ih (List.pairwise_cons.mp (hvs.perm hperm.symm)).2

theorem AbsorbsAll.distinct [Coherent α] (h : c.AbsorbsAll vs xs ws) (hvs : c.Distinct vs) :
    c.Distinct ws := by
  induction h with
  | nil vs => exact hvs
  | cons hfirst _ ih => exact ih (hfirst.distinct hvs)

section

variable [Coherent α] {P : Value α → Prop}
  (hmerge : ∀ v w l, P v → P w → c.equal v w = true → P (c.merge v w l).1)

include hmerge

theorem Absorbs.forall_mem (h : c.Absorbs vs x ws) (hvs : ∀ v ∈ vs, P v) (hx : P x) :
    ∀ w ∈ ws, P w := by
  induction h with
  | add hnone hperm =>
    intro w hw
    exact List.forall_mem_cons.mpr ⟨hx, hvs⟩ w (hperm.mem_iff.mp hw)
  | merge l hperm hequal hmerged _ ih =>
    obtain ⟨hv, hrest⟩ :=
      List.forall_mem_cons.mp fun v hv => hvs v (hperm.mem_iff.mpr hv)
    apply ih hrest
    rcases hmerged with rfl | rfl
    · exact hmerge _ _ l hv hx hequal
    · exact hmerge _ _ l hx hv (equal_symm hequal)

theorem AbsorbsAll.forall_mem (h : c.AbsorbsAll vs xs ws) (hvs : ∀ v ∈ vs, P v)
    (hxs : ∀ x ∈ xs, P x) : ∀ w ∈ ws, P w := by
  induction h with
  | nil vs => exact hvs
  | cons hfirst _ ih =>
    obtain ⟨hx, hrest⟩ := List.forall_mem_cons.mp hxs
    exact ih (hfirst.forall_mem hmerge hvs hx) hrest

/-- If merging goes up in a preorder, all that was held or came in is below something held in
the end. -/
theorem Absorbs.exists_above (below : Value α → Value α → Prop) [IsPreorder (Value α) below]
    (hup : ∀ v w l, P v → P w → c.equal v w = true →
      below v (c.merge v w l).1 ∧ below w (c.merge v w l).1)
    (h : c.Absorbs vs x ws) (hvs : ∀ v ∈ vs, P v) (hx : P x) :
    ∀ v ∈ x :: vs, ∃ w ∈ ws, below v w := by
  induction h with
  | add hnone hperm =>
    intro v hv
    exact ⟨v, hperm.mem_iff.mpr hv, refl v⟩
  | @merge vs rest ws v x merged l hperm hequal hmerged _ ih =>
    obtain ⟨hv, hrest⟩ :=
      List.forall_mem_cons.mp fun v hv => hvs v (hperm.mem_iff.mpr hv)
    have hboth : P merged ∧ below v merged ∧ below x merged := by
      rcases hmerged with rfl | rfl
      · exact ⟨hmerge _ _ l hv hx hequal, hup _ _ l hv hx hequal⟩
      · exact ⟨hmerge _ _ l hx hv (equal_symm hequal), (hup _ _ l hx hv (equal_symm hequal)).symm⟩
    obtain ⟨hP, hbelow, hbelow'⟩ := hboth
    have hlater := ih hrest hP
    obtain ⟨w, hw, hmw⟩ := hlater merged List.mem_cons_self
    intro u hu
    rcases List.mem_cons.mp hu with rfl | hu
    · exact ⟨w, hw, IsTrans.trans _ _ _ hbelow' hmw⟩
    · rcases List.mem_cons.mp (hperm.mem_iff.mp hu) with rfl | hu
      · exact ⟨w, hw, IsTrans.trans _ _ _ hbelow hmw⟩
      · exact hlater u (List.mem_cons_of_mem merged hu)

theorem AbsorbsAll.exists_above (below : Value α → Value α → Prop) [IsPreorder (Value α) below]
    (hup : ∀ v w l, P v → P w → c.equal v w = true →
      below v (c.merge v w l).1 ∧ below w (c.merge v w l).1)
    (h : c.AbsorbsAll vs xs ws) (hvs : ∀ v ∈ vs, P v) (hxs : ∀ x ∈ xs, P x) :
    ∀ v ∈ vs ++ xs, ∃ w ∈ ws, below v w := by
  induction h with
  | nil vs =>
    intro v hv
    rw [List.append_nil] at hv
    exact ⟨v, hv, refl v⟩
  | @cons vs ws us xs x hfirst hlater ih =>
    obtain ⟨hx, hrest⟩ := List.forall_mem_cons.mp hxs
    have hnow := hfirst.exists_above hmerge below hup hvs hx
    have hthen := ih (hfirst.forall_mem hmerge hvs hx) hrest
    intro v hv
    by_cases hcame : v ∈ xs
    · exact hthen v (List.mem_append_right ws hcame)
    · have hmem : v ∈ x :: vs := by
        simp only [List.mem_append, List.mem_cons, hcame, or_false] at hv ⊢
        exact hv.symm
      obtain ⟨w, hw, hvw⟩ := hnow v hmem
      obtain ⟨u, hu, hwu⟩ := hthen w (List.mem_append_left xs hw)
      exact ⟨u, hu, IsTrans.trans _ _ _ hvw hwu⟩

end

end Comparer

variable [Coherent α]

/-- The entries beside the one that is replaced take in the merged value. -/
theorem Table.Filed.absorbs_absorb {t : Table α} (ht : t.Filed) {i : Nat} (hi : i < t.size)
    (merged : Value α) (l : Ledger) :
    t.comparer.Absorbs (t.values.eraseIdx i) merged (t.absorb i merged l).1.values := by
  induction t, i, merged using Table.absorb.induct generalizing l with
  | case1 t i merged hf =>
    have hnone := (ht.findOther?_eq_none_iff merged i).mp hf
    rw [Table.absorb, hf]
    change t.comparer.Absorbs (t.values.eraseIdx i) merged (t.set i merged).values
    rw [values_set]
    refine .add ?_ (List.set_perm_cons_eraseIdx (by simpa using hi) merged)
    intro v hv
    obtain ⟨p, hp, hpi⟩ := List.mem_eraseIdx_iff_getElem?.mp hv
    exact hnone p v hpi hp
  | case2 t i merged j hf ih =>
    have hrest := ih (t.comparer.merge merged (t.valueAt j) l).1 (ht.swapRemove j)
      (slot_lt_size_swapRemove hi hf) (t.comparer.merge merged (t.valueAt j) l).2
    rw [Table.absorb, hf]
    exact .merge l (eraseIdx_perm_cons_swapRemove hi hf) (equal_of_findBeside hf).2
      (Or.inr rfl) hrest

namespace ValueSet

variable {s : ValueSet α}

theorem Sound.absorbs_replaceAt (hs : s.Sound) {i : Nat} (hi : i < s.size) (merged : Value α)
    (l : Ledger) :
    s.comparer.Absorbs (s.values.eraseIdx i) merged (s.replaceAt i merged l).1.values := by
  have halone : ∀ (c : Comparer) (v : Value α), c.Absorbs [] v [v] :=
    fun c v => .add (List.forall_mem_nil _) (.refl _)
  cases s with
  | empty c => cases hi
  | one v c =>
    obtain rfl : i = 0 := Nat.lt_one_iff.mp hi
    exact halone c merged
  | two v w c =>
    match i, hi with
    | 0, _ =>
      rw [replaceAt, replaceFirst]
      split_ifs with hw
      · exact .merge l (.refl _) hw (Or.inr rfl) (halone c _)
      · exact .add (List.forall_mem_singleton.mpr (Bool.eq_false_iff.mpr hw)) (.refl _)
    | 1, _ =>
      rw [replaceAt, replaceSecond]
      split_ifs with hv
      · exact .merge l (.refl _) hv (Or.inl rfl) (halone c _)
      · exact .add (List.forall_mem_singleton.mpr (Bool.eq_false_iff.mpr hv)) (.swap _ _ _)
  | many t =>
    rw [replaceAt, values_replaceEntry]
    exact hs.1.filed.absorbs_absorb hi merged l

theorem Sound.absorbs_insert (hs : s.Sound) (x : Value α) (l : Ledger) :
    s.comparer.Absorbs s.values x (s.insert x l).1.1.values := by
  rcases hs.insert_cases x with ⟨hx, heq⟩ | ⟨i, v, hv, hequal, heq⟩
  · have happend : (s.append x l).1.values = s.values ++ [x] := (hs.gives_append hx l).1.2
    refine .add hx ?_
    rw [heq]
    exact (List.Perm.of_eq happend).trans (List.perm_append_singleton x s.values)
  · have hheld := perm_cons_eraseIdx hv
    refine .merge l hheld hequal (Or.inl rfl) ?_
    rw [heq, mergeAt, Supply.bind_apply, Supply.ite_apply]
    split_ifs with hsame
    · rw [hsame]
      have hapart := List.pairwise_cons.mp (hs.distinct.perm hheld.symm)
      refine .add ?_ hheld
      intro w hw
      rw [Comparer.equal_comm]
      exact hapart.1 w hw
    · exact hs.absorbs_replaceAt (lt_size_of_getElem? hv) _ _

theorem Sound.absorbsAll_insertAll (hs : s.Sound) (xs : List (Value α)) (l : Ledger) :
    s.comparer.AbsorbsAll s.values xs (s.insertAll xs l).1.1.values := by
  induction xs generalizing s l with
  | nil => exact .nil _
  | cons x xs ih =>
    obtain ⟨hsound, hcomparer⟩ := (hs.gives_insert x l).1
    have hlater := ih hsound (s.insert x l).2
    rw [hcomparer] at hlater
    exact .cons (hs.absorbs_insert x l) hlater

/-- A set made from values is one way of taking them in one after the other. -/
theorem absorbsAll_ofList (c : Comparer) (xs : List (Value α)) (l : Ledger) :
    c.AbsorbsAll [] xs (ofList c xs l).1.values := by
  have hempty : (empty c : ValueSet α).Sound := trivial
  exact hempty.absorbsAll_insertAll xs l

end ValueSet

end AbstractSets
