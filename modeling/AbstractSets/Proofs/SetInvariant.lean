import AbstractSets.Proofs.Levels
import AbstractSets.Proofs.TableInvariant
import AbstractSets.ValueSet.Split
import AbstractSets.ValueSet.Widen

/-!
# The invariant of sets

A sound set holds values no two of which are equal, in the way that fits their number.
Inserting a value does one of two things, however the set is held: it adds the value at the
end, if none of those held is equal to it, or it merges it into one that is. `append` and
`mergeAt` name the two, and `insert_cases` says that there is no other. What follows about
insertion is read off from these; the four ways to hold values are told apart only here.
-/

namespace AbstractSets

/-- The comparer of a set rebuilt at level `r`: a level that is at least as strong stays. -/
def Comparer.raise (c : Comparer) (r : Strength) : Comparer :=
  match c with
  | identity => union r
  | union s => if r ≤ s then union s else union r

namespace ValueSet

variable {α : Type} [DecidableEq α] [Kind α]

def append (s : ValueSet α) (x : Value α) : Supply (ValueSet α) :=
  match s with
  | empty c => pure (one x c)
  | one v c => pure (two v x c)
  | two v w c => ofDistinct c [v, w, x]
  | many t => return many (← (t.push x).restamp)

def replaceAt (s : ValueSet α) (i : Nat) (merged : Value α) : Supply (ValueSet α) :=
  match s, i with
  | empty c, _ => pure (empty c)
  | one _ c, _ => pure (one merged c)
  | two _ w c, 0 => replaceFirst c merged w
  | two v _ c, _ + 1 => replaceSecond c v merged
  | many t, i => replaceEntry t i merged

def mergeAt (s : ValueSet α) (i : Nat) (v x : Value α) : Supply (ValueSet α × Bool) := do
  let merged ← s.comparer.merge v x
  if merged = v then return (s, false) else return (← s.replaceAt i merged, true)

omit [DecidableEq α] [Kind α] in
theorem lt_size_of_getElem? {s : ValueSet α} {i : Nat} {v : Value α}
    (hv : s.values[i]? = some v) : i < s.size := by
  rw [← length_values]
  exact (List.getElem?_eq_some_iff.mp hv).1

/-- No two values are equal, and a table is used from three values on. -/
def Sound : ValueSet α → Prop
  | empty _ => True
  | one _ _ => True
  | two v w c => c.equal v w = false
  | many t => t.Sound ∧ 3 ≤ t.size

def SoundUnder (c : Comparer) (s : ValueSet α) : Prop := s.Sound ∧ s.comparer = c

theorem Sound.distinct {s : ValueSet α} (hs : s.Sound) : s.comparer.Distinct s.values := by
  cases s with
  | empty c => exact List.Pairwise.nil
  | one v c => exact List.pairwise_singleton _ v
  | two v w c =>
    refine List.pairwise_cons.mpr ⟨?_, List.pairwise_singleton _ w⟩
    intro u hu
    rw [List.mem_singleton.mp hu]
    exact hs
  | many t => exact hs.1.distinct

theorem Sound.representation_eq {s : ValueSet α} (hs : s.Sound) :
    s.representation = .ofSize s.values.length := by
  cases s with
  | empty c => rfl
  | one v c => rfl
  | two v w c => rfl
  | many t =>
    obtain ⟨n, hn⟩ := Nat.exists_eq_add_of_le' hs.2
    have hlen : (many t).values.length = n + 3 := (t.length_values).trans hn
    rw [hlen]
    rfl

theorem Sound.eq_empty_of_values_eq_nil {s : ValueSet α} (hs : s.Sound) (h : s.values = []) :
    s = empty s.comparer := by
  cases s with
  | empty c => rfl
  | one v c => cases h
  | two v w c => cases h
  | many t =>
    have hsize : t.size = 0 := by
      rw [← Table.length_values]
      exact congrArg List.length h
    have hthree := hs.2
    omega

theorem Sound.isEmpty_eq {s : ValueSet α} (hs : s.Sound) : s.isEmpty = s.values.isEmpty := by
  cases s with
  | empty c => rfl
  | one v c => rfl
  | two v w c => rfl
  | many t =>
    have hne : t.values ≠ [] := by
      rw [← List.length_pos_iff, t.length_values]
      exact Nat.lt_of_lt_of_le (by decide) hs.2
    rw [values, List.isEmpty_eq_false_iff.mpr hne]
    rfl

/-- Adding to a set is adding value by value, except that an empty set can take over another
one as it is. -/
theorem union_cases (s t : ValueSet α) :
    (s.values = [] ∧ s.comparer = t.comparer ∧ s.union t = pure (t, !t.isEmpty)) ∨
      s.union t = s.insertAll t.values := by
  by_cases h : (s.isEmpty && s.comparer == t.comparer) = true
  · refine Or.inl ?_
    rw [union, if_pos h]
    rw [Bool.and_eq_true, beq_iff_eq] at h
    refine ⟨?_, h.2, rfl⟩
    cases s with
    | empty c => rfl
    | _ => cases h.1
  · exact Or.inr (by rw [union, if_neg h])

theorem insertAll_eq_of_insert_eq {s : ValueSet α} {vs : List (Value α)}
    (h : ∀ v ∈ vs, ∀ l, s.insert v l = ((s, false), l)) (l : Ledger) :
    s.insertAll vs l = ((s, false), l) := by
  induction vs with
  | nil => rfl
  | cons v vs ih =>
    obtain ⟨hv, hrest⟩ := List.forall_mem_cons.mp h
    simp [insertAll, hv l, ih hrest]

theorem Sound.union_eq_of_insert_eq {s t : ValueSet α} (hs : s.Sound) (ht : t.Sound)
    (h : ∀ v ∈ t.values, ∀ l, s.insert v l = ((s, false), l)) (l : Ledger) :
    s.union t l = ((s, false), l) := by
  rcases s.union_cases t with ⟨hnil, hcomparer, heq⟩ | heq
  · have hempty := hs.eq_empty_of_values_eq_nil hnil
    have htnil : t.values = [] := by
      rw [List.eq_nil_iff_forall_not_mem]
      intro v hv
      have hsame := h v hv l
      rw [hempty] at hsame
      cases hsame
    have hst : t = s := by
      rw [ht.eq_empty_of_values_eq_nil htnil, ← hcomparer]
      exact hempty.symm
    rw [heq, hst, hempty]
    rfl
  · rw [heq]
    exact insertAll_eq_of_insert_eq h l

/-- A set stays as it is at a level it has reached, and is rebuilt at a stronger one. -/
theorem asUnion_cases (s : ValueSet α) (r : Strength) :
    ((∃ q, s.comparer = .union q ∧ r ≤ q) ∧ s.asUnion r = pure (s, false)) ∨
      (∀ q, s.comparer = .union q → q < r) ∧ ∃ changed : ValueSet α → Bool,
        s.asUnion r = do
          let t ← ofList (.union r) s.values
          return (t, changed t) := by
  by_cases h : s.comparer.strength?.any (r ≤ ·) = true
  · refine Or.inl ⟨?_, by rw [asUnion, if_pos h]⟩
    cases hc : s.comparer with
    | identity => simp [hc, Comparer.strength?] at h
    | union q => exact ⟨q, rfl, by simpa [hc, Comparer.strength?] using h⟩
  · refine Or.inr ⟨fun q hc => ?_, _, by rw [asUnion, if_neg h]⟩
    have hrq : ¬ r ≤ q := by simpa [hc, Comparer.strength?] using h
    exact not_le.mp hrq

theorem asUnion_eq_ofList {s : ValueSet α} {r : Strength}
    (hweaker : ∀ q, s.comparer = .union q → q < r) (l : Ledger) :
    (s.asUnion r l).1.1 = (ofList (.union r) s.values l).1 := by
  rcases s.asUnion_cases r with ⟨⟨q, hc, hrq⟩, -⟩ | ⟨-, changed, heq⟩
  · exact absurd hrq (Nat.not_le_of_lt (hweaker q hc))
  · rw [heq]
    rfl

variable [Kind.Coherent α]

theorem gives_ofDistinct {c : Comparer} {vs : List (Value α)} (h : c.Distinct vs) :
    (ofDistinct c vs).Gives (SoundUnder c) := by
  match vs with
  | [] => exact Supply.Gives.pure ⟨trivial, rfl⟩
  | [v] => exact Supply.Gives.pure ⟨trivial, rfl⟩
  | [v, w] =>
    exact Supply.Gives.pure ⟨(List.pairwise_cons.mp h).1 w List.mem_cons_self, rfl⟩
  | v :: w :: x :: rest =>
    intro l
    obtain ⟨hsound, hl⟩ := Table.gives_ofDistinct h l
    have hsize : (Table.ofDistinct c (v :: w :: x :: rest) l).1.size = rest.length + 3 := by
      rw [← Table.length_values, Table.values_ofDistinct]
      rfl
    exact ⟨⟨⟨hsound, hsize ▸ Nat.le_add_left 3 _⟩, comparer_ofDistinct c _ l⟩, hl⟩

theorem Sound.contains_iff {s : ValueSet α} (hs : s.Sound) (x : Value α) :
    s.contains x = true ↔ ∃ v ∈ s.values, s.comparer.equal v x = true := by
  cases s with
  | empty c => simp [contains]
  | one v c => simp [contains]
  | two v w c => simp [contains]
  | many t => exact hs.1.filed.isSome_find?_iff x

theorem Sound.insert_cases {s : ValueSet α} (hs : s.Sound) (x : Value α) :
    ((∀ v ∈ s.values, s.comparer.equal v x = false) ∧
      s.insert x = (do return (← s.append x, true))) ∨
    ∃ i v, s.values[i]? = some v ∧ s.comparer.equal v x = true ∧ s.insert x = s.mergeAt i v x := by
  cases s with
  | empty c => exact Or.inl ⟨by simp [values], rfl⟩
  | one v c =>
    by_cases hv : c.equal v x = true
    · exact Or.inr ⟨0, v, rfl, hv, by simp [insert, hv]; rfl⟩
    · exact Or.inl ⟨by simpa [values, comparer] using hv, by simp [insert, hv]; rfl⟩
  | two v w c =>
    by_cases hv : c.equal v x = true
    · exact Or.inr ⟨0, v, rfl, hv, by simp [insert, hv]; rfl⟩
    · by_cases hw : c.equal w x = true
      · exact Or.inr ⟨1, w, rfl, hw, by simp [insert, hv, hw]; rfl⟩
      · exact Or.inl ⟨by simp [values, comparer, hv, hw], by simp [insert, hv, hw]; rfl⟩
  | many t =>
    cases hf : t.find? x with
    | none =>
      refine Or.inl ⟨(hs.1.filed.find?_eq_none_iff x).mp hf, ?_⟩
      simp only [insert, hf]
      rfl
    | some i =>
      refine Or.inr ⟨i, t.valueAt i, t.getElem?_values i, (Table.equal_of_findBeside hf).2, ?_⟩
      simp only [insert, hf]
      rfl

theorem Sound.insert_eq_of_mem {s : ValueSet α} (hs : s.Sound) {v : Value α}
    (hv : v ∈ s.values) (l : Ledger) : s.insert v l = ((s, false), l) := by
  obtain ⟨j, hj⟩ := List.mem_iff_getElem?.mp hv
  rcases hs.insert_cases v with ⟨hnone, -⟩ | ⟨i, w, hw, hwv, heq⟩
  · have hself := hnone v hv
    rw [Comparer.equal_self] at hself
    cases hself
  · have hij : i = j := by
      by_contra hne
      rw [hs.distinct.equal_eq_false hw hj hne] at hwv
      cases hwv
    obtain rfl : w = v := Option.some.inj (hw.symm.trans (hij ▸ hj))
    simp [heq, mergeAt]

theorem Sound.union_self {s : ValueSet α} (hs : s.Sound) (l : Ledger) :
    s.union s l = ((s, false), l) :=
  hs.union_eq_of_insert_eq hs (fun _ hv m => hs.insert_eq_of_mem hv m) l

theorem Sound.gives_append {s : ValueSet α} (hs : s.Sound) {x : Value α}
    (hx : ∀ v ∈ s.values, s.comparer.equal v x = false) :
    (s.append x).Gives fun t => t.SoundUnder s.comparer ∧ t.values = s.values ++ [x] := by
  cases s with
  | empty c => exact Supply.Gives.pure ⟨⟨trivial, rfl⟩, rfl⟩
  | one v c => exact Supply.Gives.pure ⟨⟨hx v List.mem_cons_self, rfl⟩, rfl⟩
  | two v w c =>
    intro l
    obtain ⟨hsound, hl⟩ := gives_ofDistinct (hs.distinct.concat hx) l
    exact ⟨⟨hsound, values_ofDistinct c _ l⟩, hl⟩
  | many t =>
    have hpush : (t.push x).Sound := hs.1.push ((hs.1.filed.find?_eq_none_iff x).mpr hx)
    have hsize : 3 ≤ (t.push x).size := by
      have ht := hs.2
      rw [← Table.length_values, Table.values_push, List.length_append, Table.length_values]
      omega
    exact fun l => ⟨⟨⟨⟨hpush.restamp l, hsize⟩, rfl⟩, t.values_push x⟩, rfl⟩

theorem Sound.gives_replaceAt {s : ValueSet α} (hs : s.Sound) {i : Nat} (hi : i < s.size)
    (merged : Value α) : (s.replaceAt i merged).Gives (SoundUnder s.comparer) := by
  cases s with
  | empty c => exact Supply.Gives.pure ⟨trivial, rfl⟩
  | one v c => exact Supply.Gives.pure ⟨trivial, rfl⟩
  | two v w c =>
    cases i with
    | zero =>
      by_cases hw : c.equal w merged = true
      · rw [replaceAt, replaceFirst, if_pos hw]
        exact (c.gives_merge merged w).bind fun m _ => Supply.Gives.pure ⟨trivial, rfl⟩
      · rw [replaceAt, replaceFirst, if_neg hw]
        rw [Bool.not_eq_true, Comparer.equal_comm] at hw
        exact Supply.Gives.pure ⟨hw, rfl⟩
    | succ i =>
      by_cases hv : c.equal v merged = true
      · rw [replaceAt, replaceSecond, if_pos hv]
        exact (c.gives_merge v merged).bind fun m _ => Supply.Gives.pure ⟨trivial, rfl⟩
      · rw [replaceAt, replaceSecond, if_neg hv]
        rw [Bool.not_eq_true] at hv
        exact Supply.Gives.pure ⟨hv, rfl⟩
  | many t =>
    refine (hs.1.gives_absorb hi merged).bind fun u ⟨hu, hc, _⟩ => ?_
    by_cases hsize : u.size ≤ 2
    · rw [if_pos hsize]
      exact (gives_ofDistinct hu.distinct).mono fun s hs => ⟨hs.1, hs.2.trans hc⟩
    · rw [if_neg hsize]
      exact fun l => ⟨⟨⟨hu.restamp l, Nat.lt_of_not_le hsize⟩, hc⟩, rfl⟩

theorem Sound.values_replaceAt {s : ValueSet α} (hs : s.Sound) {i : Nat} {merged : Value α}
    (h : ∀ j w, s.values[j]? = some w → j ≠ i → s.comparer.equal w merged = false)
    (hi : i < s.size) (l : Ledger) :
    (s.replaceAt i merged l).1.values = s.values.set i merged := by
  cases s with
  | empty c => simp [size] at hi
  | one v c =>
    have h0 : i = 0 := by simpa [size] using hi
    subst h0
    rfl
  | two v w c =>
    have h01 : i = 0 ∨ i = 1 := by
      simp only [size] at hi
      omega
    rcases h01 with rfl | rfl
    · have hw : c.equal w merged = false := h 1 w rfl (by omega)
      simp [replaceAt, replaceFirst, hw, values]
    · have hv : c.equal v merged = false := h 0 v rfl (by omega)
      simp [replaceAt, replaceSecond, hv, values]
  | many t =>
    have hset : t.absorb i merged = pure (t.set i merged) := hs.1.filed.absorb_eq_set h
    have hsize : ¬ (t.set i merged).size ≤ 2 := by
      have ht := hs.2
      rw [Table.size_set]
      omega
    have hrun : (replaceEntry t i merged l).1 = many ((t.set i merged).restamp l).1 := by
      simp [replaceEntry, hset, hsize]
    rw [replaceAt, hrun]
    exact t.values_set i merged

theorem Sound.gives_mergeAt {s : ValueSet α} (hs : s.Sound) {i : Nat} (hi : i < s.size)
    (v x : Value α) : (s.mergeAt i v x).Gives fun r => r.1.SoundUnder s.comparer := by
  refine (s.comparer.gives_merge v x).bind fun m _ => ?_
  by_cases hm : m = v
  · rw [if_pos hm]
    exact Supply.Gives.pure ⟨hs, rfl⟩
  · rw [if_neg hm]
    exact (hs.gives_replaceAt hi m).bind fun t ht => Supply.Gives.pure ht

theorem Sound.gives_insert {s : ValueSet α} (hs : s.Sound) (x : Value α) :
    (s.insert x).Gives fun r => r.1.SoundUnder s.comparer := by
  rcases hs.insert_cases x with ⟨hx, heq⟩ | ⟨i, v, hv, -, heq⟩
  · rw [heq]
    exact (hs.gives_append hx).bind fun t ht => Supply.Gives.pure ht.1
  · rw [heq]
    exact hs.gives_mergeAt (lt_size_of_getElem? hv) v x

theorem Sound.gives_insertAll {s : ValueSet α} (hs : s.Sound) (vs : List (Value α)) :
    (s.insertAll vs).Gives fun r => r.1.SoundUnder s.comparer := by
  induction vs generalizing s with
  | nil => exact Supply.Gives.pure ⟨hs, rfl⟩
  | cons v vs ih =>
    refine (hs.gives_insert v).bind fun r hr => ?_
    refine (ih hr.1).bind fun r' hr' => ?_
    exact Supply.Gives.pure ⟨hr'.1, hr'.2.trans hr.2⟩

theorem gives_ofList (c : Comparer) (vs : List (Value α)) :
    (ofList c vs).Gives (SoundUnder c) := by
  have hempty : (empty c : ValueSet α).Sound := trivial
  exact (hempty.gives_insertAll vs).bind fun r hr => Supply.Gives.pure hr

theorem Sound.gives_union {s t : ValueSet α} (hs : s.Sound) (ht : t.Sound) :
    (s.union t).Gives fun r => r.1.SoundUnder s.comparer := by
  rcases s.union_cases t with ⟨-, hcomparer, heq⟩ | heq
  · rw [heq]
    exact Supply.Gives.pure ⟨ht, hcomparer.symm⟩
  · rw [heq]
    exact hs.gives_insertAll t.values

theorem gives_unionAll (c : Comparer) {sets : List (ValueSet α)} (h : ∀ t ∈ sets, t.Sound) :
    (unionAll c sets).Gives (SoundUnder c) := by
  suffices hfold : ∀ s : ValueSet α, s.SoundUnder c →
      (sets.foldlM (fun (s t : ValueSet α) => return (← s.union t).1) s).Gives (SoundUnder c) from
    hfold (empty c) ⟨trivial, rfl⟩
  induction sets with
  | nil => exact fun s hs => Supply.Gives.pure hs
  | cons t sets ih =>
    intro s hs
    rw [List.foldlM_cons]
    refine Supply.Gives.bind (Q := SoundUnder c) ?_ fun u hu => ?_
    · refine (hs.1.gives_union (h t List.mem_cons_self)).bind fun r hr => ?_
      exact Supply.Gives.pure ⟨hr.1, hr.2.trans hs.2⟩
    · exact ih (fun w hw => h w (List.mem_cons_of_mem t hw)) u hu

theorem Sound.gives_splitAt {s : ValueSet α} (hs : s.Sound) (accept : Nat → Value α → Bool) :
    (s.splitAt accept).Gives fun sides =>
      sides.matching.SoundUnder s.comparer ∧ sides.remaining.SoundUnder s.comparer := by
  have hall : s.SoundUnder s.comparer := ⟨hs, rfl⟩
  have hnone : (empty s.comparer : ValueSet α).SoundUnder s.comparer := ⟨trivial, rfl⟩
  have hside : ∀ (answer : Value α × Nat → Value α × Bool) (keep : Value α × Bool → Bool),
      (∀ p, (answer p).1 = p.1) →
        s.comparer.Distinct (((s.values.zipIdx.map answer).filter keep).map (·.1)) := by
    intro answer keep hanswer
    have hfst : (s.values.zipIdx.map answer).map (·.1) = s.values := by
      rw [List.map_map]
      exact (List.map_congr_left fun p _ => hanswer p).trans (List.zipIdx_map_fst 0 s.values)
    have hsub := (List.filter_sublist (p := keep) (l := s.values.zipIdx.map answer)).map (·.1)
    rw [hfst] at hsub
    exact List.Pairwise.sublist hsub hs.distinct
  rw [splitAt]
  split_ifs
  · exact Supply.Gives.pure ⟨hall, hnone⟩
  · exact Supply.Gives.pure ⟨hnone, hall⟩
  · refine (gives_ofDistinct (hside _ _ fun _ => rfl)).bind fun m hm => ?_
    refine (gives_ofDistinct (hside _ _ fun _ => rfl)).bind fun r hr => ?_
    exact Supply.Gives.pure ⟨hm, hr⟩

theorem Sound.gives_splitView {β : Type} {s : ValueSet α} (hs : s.Sound)
    (view : Value α → Option β) :
    (s.splitView view).Gives fun sides => sides.remaining.SoundUnder s.comparer :=
  (hs.gives_splitAt fun _ v => (view v).isSome).bind fun _ h => Supply.Gives.pure h.2

theorem Sound.gives_asUnion {s : ValueSet α} (hs : s.Sound) (r : Strength) :
    (s.asUnion r).Gives fun p =>
      p.1.SoundUnder (s.comparer.raise r) ∧ (p.1 = s ∨ p.1.comparer = .union r) := by
  rcases s.asUnion_cases r with ⟨⟨q, hc, hrq⟩, heq⟩ | ⟨hweaker, changed, heq⟩
  · rw [heq]
    refine Supply.Gives.pure ⟨⟨hs, ?_⟩, Or.inl rfl⟩
    rw [hc, Comparer.raise, if_pos hrq]
  · rw [heq]
    refine (gives_ofList (.union r) s.values).bind fun t ht => ?_
    refine Supply.Gives.pure ⟨⟨ht.1, ht.2.trans ?_⟩, Or.inr ht.2⟩
    cases hc : s.comparer with
    | identity => rfl
    | union q =>
      have hrq : ¬ r ≤ q := Nat.not_le_of_lt (hweaker q hc)
      rw [Comparer.raise, if_neg hrq]

/-- Widening gives the set itself or one rebuilt at a level it was told to try. -/
theorem Sound.gives_widenThrough {s : ValueSet α} (hs : s.Sound) (maxEntries : Nat)
    (levels : List Strength) :
    (widenThrough maxEntries levels s).Gives fun w => w.set.Sound ∧
      (w.set = s ∨ ∃ r ∈ levels, w.set.comparer = .union r) := by
  induction levels generalizing s with
  | nil => exact Supply.Gives.pure ⟨hs, Or.inl rfl⟩
  | cons r rs ih =>
    by_cases hfits : s.size ≤ maxEntries
    · rw [widenThrough, if_pos hfits]
      exact Supply.Gives.pure ⟨hs, Or.inl rfl⟩
    · rw [widenThrough, if_neg hfits]
      refine (hs.gives_asUnion r).bind fun p ⟨hp, hstep⟩ => ?_
      refine (ih hp.1).bind fun w ⟨hw, hlater⟩ => ?_
      refine Supply.Gives.pure ⟨hw, ?_⟩
      rcases hlater with hsame | ⟨q, hq, hcomparer⟩
      · rcases hstep with hstep | hstep
        · exact Or.inl (hsame.trans hstep)
        · exact Or.inr ⟨r, List.mem_cons_self, by rw [hsame, hstep]⟩
      · exact Or.inr ⟨q, List.mem_cons_of_mem r hq, hcomparer⟩

end ValueSet

end AbstractSets
