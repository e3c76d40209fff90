import Mathlib.Data.List.Induction
import AbstractSets.Proofs.OriginLaws
import AbstractSets.Proofs.Placement

/-!
# A set as its classes

The plain account of the set made from a list: split the list into its classes under the
comparer, in the order of their first members, and merge the members of each class from left
to right. A merge that makes a new value draws its number from the ledger at which its
right-hand value arrived, so `arrivals` pairs every value with that ledger.

Adding a value at the end of a list adds it to the class it belongs to, or starts a new one.
`place` does the same to what the classes have been merged into, because a merged value is
equal to just what the first member of its class is equal to.
-/

namespace AbstractSets

open Kind

section

variable {β : Type} (equal : β → β → Bool)

/-- The classes of a list, each as its first member and the later ones in order. -/
def classes : List β → List (β × List β)
  | [] => []
  | x :: xs => (x, xs.filter (equal x)) :: classes (xs.filter fun y => !equal x y)
termination_by xs => xs.length
decreasing_by
  rw [List.length_unattach, List.length_cons]
  have hle := List.length_filter_le (fun y : {y // y ∈ xs} => !equal x y) xs.attach
  rw [List.length_attach] at hle
  exact Nat.lt_succ_of_le hle

def addMember (x : β) : List (β × List β) → List (β × List β) :=
  upsert (fun g => equal g.1 x) (fun g => (g.1, g.2 ++ [x])) (x, [])

theorem classes_concat (xs : List β) (x : β) :
    classes equal (xs ++ [x]) = addMember equal x (classes equal xs) := by
  induction hn : xs.length using Nat.strongRecOn generalizing xs with
  | ind n ih =>
    cases xs with
    | nil => simp [classes, addMember, upsert]
    | cons y ys =>
      have hlt : (ys.filter fun z => !equal y z).length < n := by
        have hle := List.length_filter_le (fun z => !equal y z) ys
        rw [List.length_cons] at hn
        omega
      have hrest := ih _ hlt (ys.filter fun z => !equal y z) rfl
      rw [List.cons_append, classes, classes, addMember, upsert]
      by_cases hy : equal y x = true
      · simp [hy, List.filter_append]
      · simp [hy, List.filter_append, hrest, addMember]

end

variable {α : Type} [DecidableEq α] [Kind α]

/-- The values, each with the ledger at which it arrives when they are added to `s`. -/
def arrivals : ValueSet α → List (Value α) → Ledger → List (Value α × Ledger)
  | _, [], _ => []
  | s, x :: xs, l => (x, l) :: arrivals (s.insert x l).1.1 xs (s.insert x l).2

def mergeClass (c : Comparer) (g : (Value α × Ledger) × List (Value α × Ledger)) : Value α :=
  g.2.foldl (fun v p => (c.merge v p.1 p.2).1) g.1.1

theorem map_fst_arrivals (s : ValueSet α) (xs : List (Value α)) (l : Ledger) :
    (arrivals s xs l).map (·.1) = xs := by
  induction xs generalizing s l with
  | nil => rfl
  | cons x xs ih => rw [arrivals, List.map_cons, ih]

theorem arrivals_concat (s : ValueSet α) (xs : List (Value α)) (x : Value α) (l : Ledger) :
    arrivals s (xs ++ [x]) l = arrivals s xs l ++ [(x, (s.insertAll xs l).2)] := by
  induction xs generalizing s l with
  | nil => rfl
  | cons y ys ih => exact congrArg ((y, l) :: ·) (ih _ _)

theorem ValueSet.insertAll_concat (s : ValueSet α) (xs : List (Value α)) (x : Value α)
    (l : Ledger) :
    (s.insertAll (xs ++ [x]) l).1.1 =
      ((s.insertAll xs l).1.1.insert x (s.insertAll xs l).2).1.1 := by
  induction xs generalizing s l with
  | nil => rfl
  | cons y ys ih => exact ih _ _

theorem mergeClass_identity (g : (Value α × Ledger) × List (Value α × Ledger)) :
    mergeClass .identity g = g.1.1 := by
  obtain ⟨p, ps⟩ := g
  change ps.foldl (fun v _ => v) p.1 = p.1
  induction ps with
  | nil => rfl
  | cons q ps ih => exact ih

section

variable {P : α → Prop} {c : Comparer}

/-- A class of contents in use, whose merged value is in use and equal to the first member. -/
def Settled (P : α → Prop) (c : Comparer)
    (g : (Value α × Ledger) × List (Value α × Ledger)) : Prop :=
  P g.1.1.content ∧ P (mergeClass c g).content ∧ c.equal g.1.1 (mergeClass c g) = true

theorem mergeClass_concat (p : Value α × Ledger) (ps : List (Value α × Ledger)) (x : Value α)
    (l : Ledger) :
    mergeClass c (p, ps ++ [(x, l)]) = (c.merge (mergeClass c (p, ps)) x l).1 := by
  simp [mergeClass]

variable (law : LawfulOn P) [Coherent α]

include law

theorem Settled.equal_iff {g : (Value α × Ledger) × List (Value α × Ledger)}
    (hg : Settled P c g) {x : Value α} (hx : P x.content) :
    c.equal (mergeClass c g) x = true ↔ c.equal g.1.1 x = true := by
  obtain ⟨hfirst, hmerged, hequal⟩ := hg
  constructor
  · exact Comparer.equal_trans law hfirst hmerged hx hequal
  · exact Comparer.equal_trans law hmerged hfirst hx (Comparer.equal_symm hequal)

theorem Settled.concat {g : (Value α × Ledger) × List (Value α × Ledger)} (hg : Settled P c g)
    {x : Value α} (hx : P x.content) (h : c.equal g.1.1 x = true) (l : Ledger) :
    Settled P c (g.1, g.2 ++ [(x, l)]) := by
  have htake : c.equal (mergeClass c g) x = true := (hg.equal_iff law hx).mpr h
  obtain ⟨hfirst, hmerged, hequal⟩ := hg
  have hnew := Comparer.merge_mem law hmerged hx htake l
  refine ⟨hfirst, ?_, ?_⟩
  · rw [mergeClass_concat]
    exact hnew
  · rw [mergeClass_concat]
    exact Comparer.equal_trans law hfirst hmerged hnew hequal
      (Comparer.equal_merge law hmerged hx htake l)

theorem settled_addMember {gs : List ((Value α × Ledger) × List (Value α × Ledger))}
    (hgs : ∀ g ∈ gs, Settled P c g) {x : Value α} (hx : P x.content) (l : Ledger) :
    ∀ g ∈ addMember (fun p q => c.equal p.1 q.1) (x, l) gs, Settled P c g := by
  intro g hg
  rcases mem_upsert hg with hold | rfl | ⟨h, hh, hequal, rfl⟩
  · exact hgs g hold
  · exact ⟨hx, hx, Comparer.equal_self c x⟩
  · exact (hgs h hh).concat law hx hequal l

theorem map_mergeClass_addMember {gs : List ((Value α × Ledger) × List (Value α × Ledger))}
    (hgs : ∀ g ∈ gs, Settled P c g) {x : Value α} (hx : P x.content) (l : Ledger) :
    (addMember (fun p q => c.equal p.1 q.1) (x, l) gs).map (mergeClass c) =
      place c x l (gs.map (mergeClass c)) := by
  apply map_upsert
  · intro g hg
    exact Bool.eq_iff_iff.mpr ((hgs g hg).equal_iff law hx)
  · intro g _ _
    exact mergeClass_concat g.1 g.2 x l

theorem values_insertAll_empty (xs : List (Value α)) (hP : ∀ x ∈ xs, P x.content) (l : Ledger) :
    let groups := classes (fun p q => c.equal p.1 q.1) (arrivals (.empty c) xs l)
    (∀ g ∈ groups, Settled P c g) ∧
      ((ValueSet.empty c).insertAll xs l).1.1.values = groups.map (mergeClass c) := by
  induction xs using List.reverseRecOn with
  | nil => simp [arrivals, classes, ValueSet.insertAll, ValueSet.values]
  | append_singleton xs x ih =>
    obtain ⟨hxs, hx⟩ := List.forall_mem_append.mp hP
    obtain ⟨hsettled, hvalues⟩ := ih hxs
    have hPx : P x.content := hx x (List.mem_singleton_self x)
    have hempty : (ValueSet.empty c : ValueSet α).Sound := trivial
    obtain ⟨hsound, hcomparer⟩ := (hempty.gives_insertAll xs l).1
    have hheld : ∀ v ∈ ((ValueSet.empty c).insertAll xs l).1.1.values, P v.content := by
      rw [hvalues]
      intro v hv
      obtain ⟨g, hg, rfl⟩ := List.mem_map.mp hv
      exact (hsettled g hg).2.1
    simp only [arrivals_concat, classes_concat]
    refine ⟨settled_addMember law hsettled hPx _, ?_⟩
    rw [ValueSet.insertAll_concat, hsound.values_insert law hheld hPx, hcomparer, hvalues]
    exact (map_mergeClass_addMember law hsettled hPx _).symm

/-- The set made from a list holds one value for each class of the list, in the order of
their first members, and that value is the members merged from left to right. Under identity
it is the first member. -/
theorem values_ofList_eq_classes (xs : List (Value α)) (hP : ∀ x ∈ xs, P x.content)
    (c : Comparer) (l : Ledger) :
    let arrived := arrivals (.empty c) xs l
    let groups := classes (fun p q => c.equal p.1 q.1) arrived
    arrived.map (·.1) = xs ∧ (ValueSet.ofList c xs l).1.values = groups.map (mergeClass c) ∧
      (c = .identity → (ValueSet.ofList c xs l).1.values = groups.map (·.1.1)) := by
  have hvalues := (values_insertAll_empty law (c := c) xs hP l).2
  refine ⟨map_fst_arrivals _ xs l, hvalues, ?_⟩
  rintro rfl
  exact hvalues.trans (List.map_congr_left fun g _ => mergeClass_identity g)

end

/-- Two classes that share an ancestor, a module, and two constants of one type. -/
theorem values_ofList_eq_classes_mixed :
    let xs : List (Value Origin) :=
      [⟨0, .classObject ⟨"C", ["B", "A"]⟩⟩, ⟨1, .constant (.ofInt 1)⟩,
        ⟨2, .classObject ⟨"D", ["B", "A"]⟩⟩, ⟨3, .moduleObject ⟨"m"⟩⟩, ⟨4, .constant (.ofInt 2)⟩]
    let c : Comparer := .union .baseClass
    let groups := classes (fun p q => c.equal p.1 q.1) (arrivals (.empty c) xs ⟨5, true⟩)
    (∀ x ∈ xs, Origin.BuiltIn x.content) ∧
      groups.map (fun g => (g.1.1.id, g.2.map (·.1.id))) = [(0, [2]), (1, [4]), (3, [])] ∧
      (ValueSet.ofList c xs ⟨5, true⟩).1.values = groups.map (mergeClass c) := by
  intro xs c groups
  have hxs : ∀ x ∈ xs, Origin.BuiltIn x.content := by decide
  have hvalues := values_ofList_eq_classes Origin.joinOn.toLawfulOn xs hxs c ⟨5, true⟩
  exact ⟨hxs, by decide +kernel, hvalues.2.1⟩

end AbstractSets
