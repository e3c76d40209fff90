import AbstractSets.Proofs.Keys

/-!
# Sets of classes keep the ancestry that is shared

A set of classes made at one of the two middle levels holds one class for each root. Its line of
ancestry is the longest one with which the lines of all given classes of that root end, however
many they are and in whatever order they come. The class `object` needs no exception there: its
line is the one name that the line of any class with this root ends with.

At the most general level one class is left: the one that all given classes are, or `object`.

Two classes are merged below the most general level only if they have one root. So the line that
they share has a last name, and no merge ever comes to an empty line.
-/

namespace AbstractSets

section

variable {β : Type} [DecidableEq β]

theorem prefix_sharedStart {cs as bs : List β} (ha : cs <+: as) (hb : cs <+: bs) :
    cs <+: sharedStart as bs := by
  induction cs generalizing as bs with
  | nil => exact List.nil_prefix
  | cons c cs ih =>
    obtain ⟨as', rfl, ha'⟩ := List.cons_prefix_iff.mp ha
    obtain ⟨bs', rfl, hb'⟩ := List.cons_prefix_iff.mp hb
    rw [sharedStart, if_pos rfl, List.cons_prefix_cons]
    exact ⟨rfl, ih ha' hb'⟩

theorem suffix_sharedEnd {cs as bs : List β} (ha : cs <:+ as) (hb : cs <:+ bs) :
    cs <:+ sharedEnd as bs := by
  rw [← List.reverse_prefix, sharedEnd, List.reverse_reverse]
  exact prefix_sharedStart (List.reverse_prefix.mpr ha) (List.reverse_prefix.mpr hb)

end

namespace ClassObject

variable {a b c d : ClassObject} {cs : List ClassObject} {s : Strength}

/-- The line of `d` is the longest one that the lines of all the given classes end with. -/
structure SharesLine (d : ClassObject) (cs : List ClassObject) : Prop where
  suffix : ∀ c ∈ cs, d.ancestry <:+ c.ancestry
  longest : ∀ line, (∀ c ∈ cs, line <:+ c.ancestry) → line <:+ d.ancestry

theorem sharesLine_singleton (c : ClassObject) : SharesLine c [c] where
  suffix b hb := by
    rw [List.mem_singleton.mp hb]
  longest _ hline := hline c (List.mem_singleton_self c)

theorem SharesLine.join (h : SharesLine d cs) (hs : s ≠ .object) (hroot : d.root = c.root) :
    SharesLine (Choice.join (merge s) d c) (cs ++ [c]) := by
  have hline := ancestry_join hs hroot
  constructor
  · intro b hb
    rw [hline]
    rcases List.mem_append.mp hb with hold | hnew
    · exact (sharedEnd_suffix_left _ _).trans (h.suffix b hold)
    · rw [List.mem_singleton.mp hnew]
      exact sharedEnd_suffix_right _ _
  · intro line hall
    obtain ⟨hbefore, hlast⟩ := List.forall_mem_append.mp hall
    rw [hline]
    exact suffix_sharedEnd (h.longest line hbefore) (hlast c (List.mem_singleton_self c))

structure Generalises (d : ClassObject) (cs : List ClassObject) : Prop where
  common : ∀ c, (∀ b ∈ cs, b = c) → d = c
  mixed : (∃ a ∈ cs, ∃ b ∈ cs, a ≠ b) → d = object

theorem generalises_singleton (c : ClassObject) : Generalises c [c] where
  common _ hall := hall c (List.mem_singleton_self c)
  mixed := by
    rintro ⟨a, ha, b, hb, hne⟩
    exact absurd ((List.mem_singleton.mp ha).trans (List.mem_singleton.mp hb).symm) hne

theorem Generalises.join (h : Generalises d cs) :
    Generalises (Choice.join (merge .object) d c) (cs ++ [c]) := by
  rw [join_object]
  constructor
  · intro b hall
    obtain ⟨hbefore, hlast⟩ := List.forall_mem_append.mp hall
    obtain rfl : d = b := h.common b hbefore
    rw [hlast c (List.mem_singleton_self c), if_pos rfl]
  · intro hmixed
    split_ifs with hdc
    · apply h.mixed
      by_contra hsame
      push Not at hsame
      obtain ⟨a, ha, b, hb, hne⟩ := hmixed
      have heq : ∀ b ∈ cs ++ [c], b = c := by
        intro b hb
        rcases List.mem_append.mp hb with hold | hnew
        · rw [← hdc]
          exact (h.common b fun a ha => hsame a ha b hold).symm
        · exact List.mem_singleton.mp hnew
      exact hne ((heq a ha).trans (heq b hb).symm)
    · rfl

/-- The line of `d` is the end of the line of some given class. Only at the most general level, it
can also be `object` instead. -/
def EndsLineOf (d : ClassObject) (s : Strength) (cs : List ClassObject) : Prop :=
  (∃ c ∈ cs, d.ancestry <:+ c.ancestry) ∨ s = .object ∧ d = object

theorem endsLineOf_of_mem (hc : c ∈ cs) : c.EndsLineOf s cs :=
  Or.inl ⟨c, hc, List.suffix_rfl⟩

theorem EndsLineOf.join (h : d.EndsLineOf s cs) (hequal : unionEq s d c = true) :
    (Choice.join (merge s) d c).EndsLineOf s cs := by
  by_cases hs : s = .object
  · subst hs
    rw [join_object]
    split_ifs
    · exact h
    · exact Or.inr ⟨rfl, rfl⟩
  · rcases h with ⟨b, hb, hsuffix⟩ | ⟨hobject, -⟩
    · refine Or.inl ⟨b, hb, ?_⟩
      rw [ancestry_join hs (root_eq_of_unionEq hs hequal)]
      exact (sharedEnd_suffix_left _ _).trans hsuffix
    · exact absurd hobject hs

theorem unionEq_iff_root_eq (hs : s = .baseClass ∨ s = .anyOrigin) (a b : ClassObject) :
    unionEq s a b = true ↔ a.root = b.root := by
  rcases hs with rfl | rfl <;> simp [unionEq]

end ClassObject

open ClassObject in
/-- For a set made from classes: at the two middle levels it holds one class per root, in the
order of first occurrence, whose line is the longest that all given lines of that root end with.
At the most general level it holds just one class, the common one or `object`. Whatever the
level, the line of each class held is the end of a given one, or that of `object`, so it has a first
and a last name. No two classes that are merged by their lines share an empty one. -/
theorem ofList_keeps_shared_ancestry {xs : List (Value Origin)} {cs : List ClassObject}
    (h : xs.map (·.content) = cs.map .classObject) (l : Ledger) :
    (∀ s, s = .baseClass ∨ s = .anyOrigin →
      ∃ ds : List ClassObject,
        (ValueSet.ofList (.union s) xs l).1.values.map (·.content) = ds.map .classObject ∧
        ds.map root = (cs.map root).eraseDups ∧
        ∀ d ∈ ds, SharesLine d (cs.filter fun c => c.root = d.root)) ∧
    (cs ≠ [] →
      ∃ d : ClassObject,
        (ValueSet.ofList (.union .object) xs l).1.values.map (·.content) = [.classObject d] ∧
        Generalises d cs) ∧
    (∀ s, ∀ v ∈ (ValueSet.ofList (.union s) xs l).1.values,
      ∃ d : ClassObject, v.content = .classObject d ∧ d.EndsLineOf s cs ∧
        d.ancestry.head? = some d.name ∧ d.ancestry.getLast? = some d.root) ∧
    ∀ s a b, s ≠ .object → unionEq s a b = true → sharedEnd a.ancestry b.ancestry ≠ [] := by
  refine ⟨?_, ?_, ?_, ?_⟩
  · intro s hs
    have hne : s ≠ .object := by
      rcases hs with rfl | rfl <;> decide
    exact (Origin.part_classObject s).contents_ofList_keyed (unionEq_iff_root_eq hs)
      sharesLine_singleton (fun d ms c hd hroot => hd.join hne hroot) h l
  · intro hcs
    exact (Origin.part_classObject .object).contents_ofList_single (fun _ _ => rfl)
      generalises_singleton (fun d ms c hd => hd.join) h hcs l
  · intro s v hv
    obtain ⟨d, hd, hcontent⟩ := (Origin.part_classObject s).forall_contents_ofList
      (fun c hc => endsLineOf_of_mem hc) (fun d c hd hequal => hd.join hequal) h l v.content
      (List.mem_map_of_mem hv)
    exact ⟨d, hcontent.symm, hd, rfl, d.getLast?_ancestry⟩
  · intro s a b hs hequal
    exact sharedEnd_ancestry_ne_nil (root_eq_of_unionEq hs hequal)

/-- Two roots, one of which has the name of `object`, with classes of both in turn. -/
theorem ofList_keeps_shared_ancestry_two_roots :
    let cs : List ClassObject := [⟨"C", ["B", "A"]⟩, ⟨"X", ["P", "object"]⟩,
      ⟨"D", ["B", "A"]⟩, ⟨"Y", ["P", "object"]⟩, ⟨"E", ["C", "B", "A"]⟩]
    let xs : List (Value Origin) := (cs.map Origin.classObject).mapIdx fun i c => ⟨i, c⟩
    let s := (ValueSet.ofList (.union .baseClass) xs ⟨5, true⟩).1
    xs.map (·.content) = cs.map .classObject ∧
      s.values.map (·.content) = [.classObject ⟨"B", ["A"]⟩, .classObject ⟨"P", ["object"]⟩] ∧
      (∃ ds : List ClassObject, s.values.map (·.content) = ds.map .classObject ∧
        ds.map ClassObject.root = (cs.map ClassObject.root).eraseDups ∧
        ∀ d ∈ ds, d.SharesLine (cs.filter fun c => c.root = d.root)) ∧
      ∃ d : ClassObject,
        (ValueSet.ofList (.union .object) xs ⟨5, true⟩).1.values.map (·.content) =
          [.classObject d] ∧ d.Generalises cs := by
  intro cs xs s
  have h : xs.map (·.content) = cs.map .classObject := by decide
  obtain ⟨hmiddle, hgeneral, -⟩ := ofList_keeps_shared_ancestry h ⟨5, true⟩
  exact ⟨h, by decide +kernel, hmiddle .baseClass (Or.inl rfl), hgeneral (by decide)⟩

end AbstractSets
