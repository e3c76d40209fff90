import AbstractSets.Proofs.Keys

/-!
# Sets of constants collapse only where constants differ

Below the most general level a set of constants holds one constant for each type. It is the one
that all given constants of the type are; if they are not all the same, it is the bare instance
of the type. At the most general level one constant is left for all types, and it is `object` as
soon as there are two of them.

The merge rule sees two constants at a time, and the one it holds may be bare because a bare one
was given or because two have differed before. It makes no difference: a bare instance stays bare
when constants of its type are joined in, and `object` is the bare instance of the type of that
name, whose constants need no rule of their own.
-/

namespace AbstractSets

theorem exists_ne_last {β γ : Type} {f : β → γ} {bs : List β} {c : β}
    (h : ∃ a ∈ bs ++ [c], ∃ b ∈ bs ++ [c], f a ≠ f b) : ∃ a ∈ bs, f a ≠ f c := by
  obtain ⟨a, ha, b, hb, hne⟩ := h
  by_contra hsame
  push Not at hsame
  have hlast : ∀ x ∈ bs ++ [c], f x = f c :=
    List.forall_mem_append.mpr ⟨hsame, List.forall_mem_singleton.mpr rfl⟩
  exact hne ((hlast a ha).trans (hlast b hb).symm)

namespace Constant

variable {c d : Constant} {cs : List Constant} {s : Strength}

/-- `d` is what all the given constants are; the bare instance of their type, if they are of one
type and not all the same; and `object`, if they are of different types. -/
structure Summarises (d : Constant) (cs : List Constant) : Prop where
  common : ∀ c, (∀ b ∈ cs, b = c) → d = c
  sameType : ∀ t, (∀ b ∈ cs, b.typeName = t) → (∃ a ∈ cs, ∃ b ∈ cs, a ≠ b) → d = bare t
  mixedTypes : (∃ a ∈ cs, ∃ b ∈ cs, a.typeName ≠ b.typeName) → d = object

theorem summarises_singleton (c : Constant) : Summarises c [c] where
  common _ hall := hall c (List.mem_singleton_self c)
  sameType := by
    rintro t - ⟨a, ha, b, hb, hne⟩
    exact absurd ((List.mem_singleton.mp ha).trans (List.mem_singleton.mp hb).symm) hne
  mixedTypes := by
    rintro ⟨a, ha, b, hb, hne⟩
    rw [List.mem_singleton.mp ha, List.mem_singleton.mp hb] at hne
    exact absurd rfl hne

namespace Summarises

theorem typeName_eq (h : Summarises d cs) {a : Constant} (ha : a ∈ cs)
    (hall : ∀ b ∈ cs, b.typeName = a.typeName) : d.typeName = a.typeName := by
  by_cases hsame : ∀ b ∈ cs, b = a
  · rw [h.common a hsame]
  · push Not at hsame
    obtain ⟨b, hb, hne⟩ := hsame
    rw [h.sameType a.typeName hall ⟨b, hb, a, ha, hne⟩]
    rfl

theorem exists_ne (h : Summarises d cs) {a : Constant} (ha : a ∈ cs) (hne : a ≠ d) :
    ∃ b ∈ cs, ∃ b' ∈ cs, b ≠ b' := by
  by_contra hsame
  push Not at hsame
  exact hne (h.common a fun b hb => hsame b hb a ha).symm

theorem exists_typeName_ne (h : Summarises d cs) {a : Constant} (ha : a ∈ cs)
    (hne : a.typeName ≠ d.typeName) : ∃ b ∈ cs, ∃ b' ∈ cs, b.typeName ≠ b'.typeName := by
  by_contra hsame
  push Not at hsame
  exact hne (h.typeName_eq ha fun b hb => hsame b hb a ha).symm

theorem join (h : Summarises d cs) : Summarises (Choice.join merge d c) (cs ++ [c]) := by
  rw [join_eq]
  constructor
  · intro b hall
    obtain ⟨hbefore, hlast⟩ := List.forall_mem_append.mp hall
    obtain rfl : d = b := h.common b hbefore
    rw [hlast c (List.mem_singleton_self c), if_pos rfl]
  · intro t hall hmixed
    obtain ⟨hbefore, hlast⟩ := List.forall_mem_append.mp hall
    have hc : c.typeName = t := hlast c (List.mem_singleton_self c)
    obtain ⟨a, ha, hne⟩ := exists_ne_last (f := id) hmixed
    have hd : d.typeName = t := by
      rw [h.typeName_eq ha fun b hb => (hbefore b hb).trans (hbefore a ha).symm, hbefore a ha]
    by_cases hdc : d = c
    · rw [if_pos hdc]
      exact h.sameType t hbefore (h.exists_ne ha (hdc ▸ hne))
    · rw [if_neg hdc, if_pos (hd.trans hc.symm), hd]
  · intro hmixed
    obtain ⟨a, ha, hne⟩ := exists_ne_last hmixed
    by_cases htype : d.typeName = c.typeName
    · have hobject : d = object := h.mixedTypes (h.exists_typeName_ne ha (htype ▸ hne))
      rw [if_pos htype, hobject]
      split_ifs <;> rfl
    · rw [if_neg fun hdc => htype (congrArg typeName hdc), if_neg htype]

end Summarises

theorem unionEq_iff_typeName_eq (hs : s < .object) (a b : Constant) :
    unionEq s a b = true ↔ a.typeName = b.typeName := by
  cases s with
  | object => exact absurd hs (by decide)
  | _ => simp [unionEq]

end Constant

open Constant in
/-- For a set made from constants: below the most general level it holds one constant per type,
in the order of first occurrence, which is the common one of the given constants of that type or
the bare instance of it. At the most general level it holds just one constant: the common one, or
the bare instance of the one type there is, or `object`. -/
theorem ofList_collapses_differing_constants {xs : List (Value Origin)} {cs : List Constant}
    (h : xs.map (·.content) = cs.map .constant) (l : Ledger) :
    (∀ s : Strength, s < .object →
      ∃ ds : List Constant,
        (ValueSet.ofList (.union s) xs l).1.values.map (·.content) = ds.map .constant ∧
        ds.map typeName = (cs.map typeName).eraseDups ∧
        ∀ d ∈ ds, Summarises d (cs.filter fun c => c.typeName = d.typeName)) ∧
    (cs ≠ [] →
      ∃ d : Constant,
        (ValueSet.ofList (.union .object) xs l).1.values.map (·.content) = [.constant d] ∧
        Summarises d cs) := by
  constructor
  · intro s hs
    exact (Origin.part_constant s).contents_ofList_keyed (unionEq_iff_typeName_eq hs)
      summarises_singleton (fun d ms c hd _ => hd.join) h l
  · intro hcs
    exact (Origin.part_constant .object).contents_ofList_single (fun _ _ => rfl)
      summarises_singleton (fun d ms c hd => hd.join) h hcs l

/-- Three types in turn: one with a single constant given twice, one with two that differ, and one
with the name of `object` that has a literal first and is bare later. -/
theorem ofList_collapses_differing_constants_three_types :
    let cs : List Constant := [.ofInt 1, ⟨"object", some (.bool true)⟩, .ofString "a",
      .ofInt 1, .object, .ofString "b", ⟨"object", some (.bool true)⟩]
    let xs : List (Value Origin) := (cs.map Origin.constant).mapIdx fun i c => ⟨i, c⟩
    let s := (ValueSet.ofList (.union .anyOrigin) xs ⟨7, true⟩).1
    xs.map (·.content) = cs.map .constant ∧
      s.values.map (·.content) =
        [.constant (.ofInt 1), .constant .object, .constant (.bare "str")] ∧
      (∃ ds : List Constant, s.values.map (·.content) = ds.map .constant ∧
        ds.map Constant.typeName = (cs.map Constant.typeName).eraseDups ∧
        ∀ d ∈ ds, d.Summarises (cs.filter fun c => c.typeName = d.typeName)) ∧
      ∃ d : Constant,
        (ValueSet.ofList (.union .object) xs ⟨7, true⟩).1.values.map (·.content) =
          [.constant d] ∧ d.Summarises cs := by
  intro cs xs s
  have h : xs.map (·.content) = cs.map .constant := by decide
  obtain ⟨hbelow, hgeneral⟩ := ofList_collapses_differing_constants h ⟨7, true⟩
  exact ⟨h, by decide +kernel, hbelow .anyOrigin (by decide), hgeneral (by decide)⟩

end AbstractSets
