import AbstractSets.Proofs.SetInvariant

/-!
# Inserting under a lawful kind

Where equality is an equivalence and a merged value is equal to what it was merged from, at
most one of the values held is equal to a new one, and the merged value is equal to none of
the others. Nothing is ever taken in on top, and an insertion acts on the values in order as
`place` does: the equal value takes in the new one where it stands, or the new one is added
at the end.
-/

namespace AbstractSets

open Kind

/-- Change the first element that `hit` picks, or add `new` at the end. -/
def upsert {β : Type} (hit : β → Bool) (change : β → β) (new : β) : List β → List β
  | [] => [new]
  | x :: xs => if hit x = true then change x :: xs else x :: upsert hit change new xs

section

variable {β γ : Type} {hit : β → Bool} {change : β → β} {new x y : β} {xs : List β}

theorem upsert_eq_concat (h : ∀ x ∈ xs, hit x = false) :
    upsert hit change new xs = xs ++ [new] := by
  induction xs with
  | nil => rfl
  | cons x xs ih =>
    obtain ⟨hx, hxs⟩ := List.forall_mem_cons.mp h
    simp [upsert, hx, ih hxs]

theorem upsert_eq_set {i : Nat} (hx : xs[i]? = some x) (hhit : hit x = true)
    (honly : ∀ j y, xs[j]? = some y → j ≠ i → hit y = false) :
    upsert hit change new xs = xs.set i (change x) := by
  induction xs generalizing i with
  | nil => simp at hx
  | cons y xs ih =>
    cases i with
    | zero =>
      obtain rfl : y = x := by simpa using hx
      simp [upsert, hhit]
    | succ i =>
      have hy : hit y = false := honly 0 y rfl (by omega)
      have hrest := ih (i := i) (by simpa using hx) fun j z hz hj =>
        honly (j + 1) z (by simpa using hz) (by omega)
      simp [upsert, hy, hrest]

theorem mem_upsert (h : y ∈ upsert hit change new xs) :
    y ∈ xs ∨ y = new ∨ ∃ x ∈ xs, hit x = true ∧ y = change x := by
  induction xs with
  | nil => exact Or.inr (Or.inl (List.mem_singleton.mp h))
  | cons x xs ih =>
    rw [upsert] at h
    split_ifs at h with hx
    · rcases List.mem_cons.mp h with hy | hy
      · exact Or.inr (Or.inr ⟨x, List.mem_cons_self, hx, hy⟩)
      · exact Or.inl (List.mem_cons_of_mem x hy)
    · rcases List.mem_cons.mp h with hy | hy
      · exact Or.inl (hy ▸ List.mem_cons_self)
      · rcases ih hy with hmem | hnew | ⟨z, hz, hrest⟩
        · exact Or.inl (List.mem_cons_of_mem x hmem)
        · exact Or.inr (Or.inl hnew)
        · exact Or.inr (Or.inr ⟨z, List.mem_cons_of_mem x hz, hrest⟩)

theorem new_mem_upsert :
    new ∈ upsert hit change new xs ∨
      ∃ x ∈ xs, hit x = true ∧ change x ∈ upsert hit change new xs := by
  induction xs with
  | nil => exact Or.inl (List.mem_singleton_self new)
  | cons x xs ih =>
    rw [upsert]
    split_ifs with hx
    · exact Or.inr ⟨x, List.mem_cons_self, hx, List.mem_cons_self⟩
    · rcases ih with hnew | ⟨z, hz, hhit, hmem⟩
      · exact Or.inl (List.mem_cons_of_mem x hnew)
      · exact Or.inr ⟨z, List.mem_cons_of_mem x hz, hhit, List.mem_cons_of_mem x hmem⟩

theorem mem_upsert_of_mem (h : y ∈ xs) :
    y ∈ upsert hit change new xs ∨ hit y = true ∧ change y ∈ upsert hit change new xs := by
  induction xs with
  | nil => cases h
  | cons x xs ih =>
    rw [upsert]
    split_ifs with hx
    · rcases List.mem_cons.mp h with rfl | hy
      · exact Or.inr ⟨hx, List.mem_cons_self⟩
      · exact Or.inl (List.mem_cons_of_mem _ hy)
    · rcases List.mem_cons.mp h with rfl | hy
      · exact Or.inl List.mem_cons_self
      · rcases ih hy with hmem | ⟨hhit, hmem⟩
        · exact Or.inl (List.mem_cons_of_mem x hmem)
        · exact Or.inr ⟨hhit, List.mem_cons_of_mem x hmem⟩

theorem exists_mem_upsert_iff {R : β → Prop}
    (hchange : ∀ x ∈ xs, hit x = true → (R (change x) ↔ R x))
    (hnew : ∀ x ∈ xs, hit x = true → R new → R x) :
    (∃ y ∈ upsert hit change new xs, R y) ↔ (∃ x ∈ xs, R x) ∨ R new := by
  constructor
  · rintro ⟨y, hy, hR⟩
    rcases mem_upsert hy with hmem | rfl | ⟨x, hx, hhit, rfl⟩
    · exact Or.inl ⟨y, hmem, hR⟩
    · exact Or.inr hR
    · exact Or.inl ⟨x, hx, (hchange x hx hhit).mp hR⟩
  · rintro (⟨x, hx, hR⟩ | hR)
    · rcases mem_upsert_of_mem hx with hmem | ⟨hhit, hmem⟩
      · exact ⟨x, hmem, hR⟩
      · exact ⟨_, hmem, (hchange x hx hhit).mpr hR⟩
    · rcases new_mem_upsert with hmem | ⟨x, hx, hhit, hmem⟩
      · exact ⟨new, hmem, hR⟩
      · exact ⟨_, hmem, (hchange x hx hhit).mpr (hnew x hx hhit hR)⟩

theorem map_upsert {f : β → γ} {hit' : γ → Bool} {change' : γ → γ}
    (hhit : ∀ x ∈ xs, hit' (f x) = hit x)
    (hchange : ∀ x ∈ xs, hit x = true → f (change x) = change' (f x)) :
    (upsert hit change new xs).map f = upsert hit' change' (f new) (xs.map f) := by
  induction xs with
  | nil => rfl
  | cons x xs ih =>
    obtain ⟨hx, hxs⟩ := List.forall_mem_cons.mp hhit
    obtain ⟨hcx, hcxs⟩ := List.forall_mem_cons.mp hchange
    rw [upsert, List.map_cons, upsert, hx]
    split_ifs with h
    · rw [List.map_cons, hcx h]
    · rw [List.map_cons, ih hxs hcxs]

end

variable {α : Type} [DecidableEq α] [Kind α]

/-- Let the first value equal to `x` take it in, or add `x` at the end. Numbers are drawn
from `l`. -/
def place (c : Comparer) (x : Value α) (l : Ledger) : List (Value α) → List (Value α) :=
  upsert (c.equal · x) (fun v => (c.merge v x l).1) x

variable {c : Comparer} {x : Value α} {l : Ledger}

section

variable {P : α → Prop} (law : LawfulOn P)

include law

theorem place_mem {vs : List (Value α)} (hvs : ∀ v ∈ vs, P v.content) (hx : P x.content) :
    ∀ v ∈ place c x l vs, P v.content := by
  intro u hu
  rcases mem_upsert hu with hmem | rfl | ⟨v, hv, hequal, rfl⟩
  · exact hvs u hmem
  · exact hx
  · exact Comparer.merge_mem law (hvs v hv) hx hequal l

variable [Coherent α]

namespace ValueSet

theorem Sound.equal_eq_false_of_ne {s : ValueSet α} (hs : s.Sound)
    (hP : ∀ v ∈ s.values, P v.content) {i j : Nat} {v w y : Value α} (hv : s.values[i]? = some v)
    (hw : s.values[j]? = some w) (hj : j ≠ i) (hy : P y.content)
    (hequal : s.comparer.equal v y = true) : s.comparer.equal w y = false := by
  have hPv := hP v (List.mem_of_getElem? hv)
  have hPw := hP w (List.mem_of_getElem? hw)
  by_contra hwy
  rw [Bool.not_eq_false] at hwy
  have hwv := Comparer.equal_trans law hPw hy hPv hwy (Comparer.equal_symm hequal)
  rw [hs.distinct.equal_eq_false hw hv hj] at hwv
  cases hwv

theorem Sound.values_insert {s : ValueSet α} (hs : s.Sound) (hP : ∀ v ∈ s.values, P v.content)
    (hx : P x.content) (l : Ledger) :
    (s.insert x l).1.1.values = place s.comparer x l s.values := by
  rcases hs.insert_cases x with ⟨hnone, heq⟩ | ⟨i, v, hv, hequal, heq⟩
  · rw [heq, place, upsert_eq_concat hnone]
    exact (hs.gives_append hnone l).1.2
  · have hPv := hP v (List.mem_of_getElem? hv)
    have hi := lt_size_of_getElem? hv
    have hmerged := Comparer.merge_mem law hPv hx hequal l
    have hstays := Comparer.equal_merge law hPv hx hequal l
    rw [heq, place, upsert_eq_set hv hequal fun j w hw hj =>
      hs.equal_eq_false_of_ne law hP hv hw hj hx hequal]
    by_cases hsame : (s.comparer.merge v x l).1 = v
    · have hset : s.values.set i v = s.values := by
        obtain ⟨hlt, hget⟩ := List.getElem?_eq_some_iff.mp hv
        rw [← hget, List.set_getElem_self]
      simp [mergeAt, hsame, hset]
    · have hvalues := hs.values_replaceAt (fun j w hw hj =>
        hs.equal_eq_false_of_ne law hP hv hw hj hmerged hstays) hi (s.comparer.merge v x l).2
      simpa [mergeAt, hsame] using hvalues

theorem Sound.values_mem_insert {s : ValueSet α} (hs : s.Sound)
    (hP : ∀ v ∈ s.values, P v.content) (hx : P x.content) (l : Ledger) :
    ∀ v ∈ (s.insert x l).1.1.values, P v.content := by
  rw [hs.values_insert law hP hx]
  exact place_mem law hP hx

theorem Sound.values_mem_insertAll {s : ValueSet α} (hs : s.Sound)
    (hP : ∀ v ∈ s.values, P v.content) {xs : List (Value α)} (hxs : ∀ x ∈ xs, P x.content)
    (l : Ledger) : ∀ v ∈ (s.insertAll xs l).1.1.values, P v.content := by
  induction xs generalizing s l with
  | nil => exact hP
  | cons x xs ih =>
    obtain ⟨hx, hrest⟩ := List.forall_mem_cons.mp hxs
    exact ih (hs.gives_insert x l).1.1 (hs.values_mem_insert law hP hx l) hrest (s.insert x l).2

end ValueSet

end

end AbstractSets
