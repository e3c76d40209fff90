import AbstractSets.Proofs.Keys

/-!
# Functions of one name from several modules

At the level that ignores origins, a set of functions holds one function for each name. It is
always one of the given functions, and as a rule the one whose module sorts first.

The exception is the name of the function that stands for any function at all. The merge rule is
the same at every level and looks for that function before it looks at the modules. Once it is
among the given ones it stays, also where another function of its name comes from a module that
sorts before its own.
-/

namespace AbstractSets

namespace FunctionObject

variable {c d : FunctionObject} {cs : List FunctionObject}

/-- `d` is one of the given functions: the one that stands for any function, if that is given, and
otherwise one whose module sorts first. -/
structure Leads (d : FunctionObject) (cs : List FunctionObject) : Prop where
  mem : d ∈ cs
  generic : anyFunction ∈ cs → d = anyFunction
  first : anyFunction ∉ cs → ∀ c ∈ cs, d.moduleName ≤ c.moduleName

theorem leads_singleton (c : FunctionObject) : Leads c [c] where
  mem := List.mem_singleton_self c
  generic hany := (List.mem_singleton.mp hany).symm
  first := by
    intro _ b hb
    obtain rfl : b = c := List.mem_singleton.mp hb
    exact String.le_refl _

theorem join_eq_of_ne (hd : d ≠ anyFunction) (hc : c ≠ anyFunction) (hname : d.name = c.name) :
    Choice.join merge d c = if c.moduleName < d.moduleName then c else d := by
  rw [join_eq, if_neg]
  rintro (h | h | h)
  · exact hd h
  · exact hc h
  · exact h hname

theorem join_eq_anyFunction (h : d = anyFunction ∨ c = anyFunction) :
    Choice.join merge d c = anyFunction := by
  rw [join_eq, if_pos]
  exact h.imp_right Or.inl

namespace Leads

theorem join_mem (h : Leads d cs) (hname : d.name = c.name) :
    Choice.join merge d c ∈ cs ++ [c] := by
  by_cases hany : d = anyFunction ∨ c = anyFunction
  · rw [join_eq_anyFunction hany]
    rcases hany with rfl | rfl
    · exact List.mem_append_left _ h.mem
    · exact List.mem_concat_self
  · obtain ⟨hd, hc⟩ := not_or.mp hany
    rw [join_eq_of_ne hd hc hname]
    split_ifs
    · exact List.mem_concat_self
    · exact List.mem_append_left _ h.mem

theorem join (h : Leads d cs) (hname : d.name = c.name) :
    Leads (Choice.join merge d c) (cs ++ [c]) where
  mem := h.join_mem hname
  generic hany := by
    apply join_eq_anyFunction
    rcases List.mem_append.mp hany with hold | hnew
    · exact Or.inl (h.generic hold)
    · exact Or.inr (List.mem_singleton.mp hnew).symm
  first := by
    intro hany b hb
    have hold : anyFunction ∉ cs := fun hmem => hany (List.mem_append_left _ hmem)
    have hd : d ≠ anyFunction := fun heq => hold (heq ▸ h.mem)
    have hc : c ≠ anyFunction := fun heq => hany (heq ▸ List.mem_concat_self)
    rw [join_eq_of_ne hd hc hname]
    split_ifs with hlt
    · rcases List.mem_append.mp hb with hmem | hmem
      · exact String.le_trans (String.not_lt.mp (String.lt_asymm hlt)) (h.first hold b hmem)
      · obtain rfl : b = c := List.mem_singleton.mp hmem
        exact String.le_refl _
    · rcases List.mem_append.mp hb with hmem | hmem
      · exact h.first hold b hmem
      · rw [List.mem_singleton.mp hmem]
        exact String.not_lt.mp hlt

end Leads

/-- The function that stands for any function is given, and with it one of the same name whose
module sorts before. -/
def GenericOverrides (cs : List FunctionObject) : Prop :=
  anyFunction ∈ cs ∧ ∃ c ∈ cs, c.name = anyFunction.name ∧ c.moduleName < anyFunction.moduleName

theorem unionEq_iff_name_eq (a b : FunctionObject) :
    unionEq .anyOrigin a b = true ↔ a.name = b.name := by
  simp [unionEq]

theorem Leads.first_iff_not_genericOverrides (h : Leads d (cs.filter fun c => c.name = d.name)) :
    (∀ c ∈ cs, c.name = d.name → d.moduleName ≤ c.moduleName) ↔
      ¬ (d.name = anyFunction.name ∧ GenericOverrides cs) := by
  have hmem : ∀ c, c ∈ cs.filter (fun c => c.name = d.name) ↔ c ∈ cs ∧ c.name = d.name := by
    simp
  constructor
  · rintro hfirst ⟨hname, hany, c, hc, hcname, hlt⟩
    have hd : d = anyFunction := h.generic ((hmem _).mpr ⟨hany, hname.symm⟩)
    have hle := hfirst c hc (hcname.trans hname.symm)
    rw [hd] at hle
    exact String.not_lt.mpr hle hlt
  · intro hnot c hc hcname
    by_cases hany : anyFunction ∈ cs.filter fun c => c.name = d.name
    · have hd : d = anyFunction := h.generic hany
      rw [← String.not_lt]
      intro hlt
      rw [hd] at hlt hcname
      exact hnot ⟨congrArg name hd, ((hmem _).mp hany).1, c, hc, hcname, hlt⟩
    · exact h.first hany c ((hmem c).mpr ⟨hc, hcname⟩)

end FunctionObject

open FunctionObject in
/-- For a set made from functions at the level that ignores origins: it holds one function per
name, in the order of first occurrence, and each of them is one of the given functions. Its module
is the first of all given functions of its name, unless the function that stands for any function
is one of these and has not the first module. In that case it is this function that is held. -/
theorem ofList_keeps_first_origin {xs : List (Value Origin)} {cs : List FunctionObject}
    (h : xs.map (·.content) = cs.map .functionObject) (l : Ledger) :
    ∃ ds : List FunctionObject,
      (ValueSet.ofList (.union .anyOrigin) xs l).1.values.map (·.content) =
        ds.map .functionObject ∧
      ds.map name = (cs.map name).eraseDups ∧
      ∀ d ∈ ds, d ∈ cs ∧
        ((∀ c ∈ cs, c.name = d.name → d.moduleName ≤ c.moduleName) ↔
          ¬ (d.name = anyFunction.name ∧ GenericOverrides cs)) ∧
        (d.name = anyFunction.name → GenericOverrides cs → d = anyFunction) := by
  obtain ⟨ds, hcontents, hnames, hleads⟩ :=
    (Origin.part_functionObject .anyOrigin).contents_ofList_keyed unionEq_iff_name_eq
      leads_singleton (fun d ms c hd hname => hd.join hname) h l
  refine ⟨ds, hcontents, hnames, fun d hd => ?_⟩
  have hlead := hleads d hd
  refine ⟨List.mem_of_mem_filter hlead.mem, hlead.first_iff_not_genericOverrides, ?_⟩
  intro hname hoverrides
  apply hlead.generic
  simpa [hname] using hoverrides.1

/-- Functions of two names, one of which is that of the function for any function. -/
theorem ofList_keeps_first_origin_two_names :
    let cs : List FunctionObject := [⟨"os", "open"⟩, ⟨"zip", "function"⟩, ⟨"io", "open"⟩,
      .anyFunction, ⟨"posix", "open"⟩]
    let xs : List (Value Origin) := (cs.map Origin.functionObject).mapIdx fun i c => ⟨i, c⟩
    let s := (ValueSet.ofList (.union .anyOrigin) xs ⟨5, true⟩).1
    xs.map (·.content) = cs.map .functionObject ∧ ¬ FunctionObject.GenericOverrides cs ∧
      s.values.map (·.content) =
        [.functionObject ⟨"io", "open"⟩, .functionObject .anyFunction] ∧
      ∃ ds : List FunctionObject, s.values.map (·.content) = ds.map .functionObject ∧
        ∀ d ∈ ds, ∀ c ∈ cs, c.name = d.name → d.moduleName ≤ c.moduleName := by
  intro cs xs s
  have h : xs.map (·.content) = cs.map .functionObject := by decide
  have hnot : ¬ FunctionObject.GenericOverrides cs := by
    unfold FunctionObject.GenericOverrides
    decide
  obtain ⟨ds, hcontents, -, hfirst⟩ := ofList_keeps_first_origin h ⟨5, true⟩
  refine ⟨h, hnot, by decide +kernel, ds, hcontents, fun d hd => ?_⟩
  exact (hfirst d hd).2.1.mpr fun hover => hnot hover.2

/-- The function for any function is held, although a function of its name has the module `abc`,
which sorts before `builtins`. -/
theorem ofList_passes_over_first_origin :
    let cs : List FunctionObject := [⟨"abc", "function"⟩, .anyFunction]
    let xs : List (Value Origin) := (cs.map Origin.functionObject).mapIdx fun i c => ⟨i, c⟩
    let s := (ValueSet.ofList (.union .anyOrigin) xs ⟨2, true⟩).1
    s.values.map (·.content) = [.functionObject .anyFunction] ∧
      ¬ ∃ ds : List FunctionObject, s.values.map (·.content) = ds.map .functionObject ∧
        ∀ d ∈ ds, ∀ c ∈ cs, c.name = d.name → d.moduleName ≤ c.moduleName := by
  intro cs xs s
  have hvalues : s.values.map (·.content) = [.functionObject .anyFunction] := by decide +kernel
  refine ⟨hvalues, ?_⟩
  rintro ⟨ds, hcontents, hfirst⟩
  have hmem : Origin.functionObject .anyFunction ∈ ds.map .functionObject := by
    rw [← hcontents, hvalues]
    exact List.mem_singleton_self _
  obtain ⟨d, hd, heq⟩ := List.mem_map.mp hmem
  obtain rfl : d = .anyFunction := Origin.functionObject.inj heq
  have hle := hfirst _ hd ⟨"abc", "function"⟩ List.mem_cons_self rfl
  exact absurd hle (by decide)

end AbstractSets
