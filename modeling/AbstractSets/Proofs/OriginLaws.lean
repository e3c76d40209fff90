import Mathlib.Data.List.Infix
import AbstractSets.Origin.Basic
import AbstractSets.Proofs.Contract

/-!
# The laws of the kinds of origins

All kinds of origins are coherent. Constants, classes, functions and modules are lawful as
well: among equal contents of one of these kinds, merging is a join, that is, commutative,
associative and idempotent, and it keeps the first content whenever that covers the second.

For classes the join is the end that two lines of ancestry share. The class `object` is a
line like any other in this, and only at the most general level does it stand for classes
that share nothing.
-/

namespace AbstractSets

namespace Choice

variable {κ : Type}

theorem content_map {β : Type} (f : κ → β) (choice : Choice κ) (a b : κ) :
    (choice.map f).content (f a) (f b) = f (choice.content a b) := by
  cases choice <;> rfl

def join (merge : κ → κ → Choice κ) (a b : κ) : κ := (merge a b).content a b

structure Joins (equal : κ → κ → Bool) (merge : κ → κ → Choice κ) : Prop where
  refl (a : κ) : equal a a = true
  trans {a b c : κ} : equal a b = true → equal b c = true → equal a c = true
  equal_join {a b : κ} : equal a b = true → equal a (join merge a b) = true
  self (a : κ) : merge a a = .left
  comm {a b : κ} : equal a b = true → join merge a b = join merge b a
  assoc {a b c : κ} : equal a b = true → equal b c = true →
    join merge (join merge a b) c = join merge a (join merge b c)
  left_of_join {a b : κ} : equal a b = true → join merge a b = a → merge a b = .left

end Choice

namespace Constant

theorem join_eq (a b : Constant) :
    Choice.join merge a b =
      if a = b then a else if a.typeName = b.typeName then bare a.typeName else object := by
  unfold Choice.join merge
  by_cases hab : a = b
  · rw [if_pos hab, if_pos hab]
    rfl
  rw [if_neg hab, if_neg hab]
  by_cases htype : a.typeName = b.typeName
  · rw [if_pos htype, if_pos htype]
    cases hl : a.literal with
    | none =>
      rw [Option.isNone_none, if_pos rfl, bare, ← hl]
      rfl
    | some l =>
      rw [Option.isNone_some, if_neg Bool.false_ne_true]
      rfl
  · rw [if_neg htype, if_neg htype]
    by_cases hobject : a = object
    · rw [if_pos hobject]
      exact hobject
    · rw [if_neg hobject]
      rfl

theorem joins (s : Strength) : Choice.Joins (unionEq s) merge where
  refl a := by cases s <;> simp [unionEq]
  trans {a b c} := by cases s <;> simp +contextual [unionEq]
  equal_join {a b} h := by
    rw [join_eq]
    cases s <;> grind [unionEq, bare]
  self a := by simp [merge]
  comm {a b} _ := by
    rw [join_eq, join_eq]
    grind
  assoc {a b c} _ _ := by
    simp only [join_eq]
    grind [bare, object]
  left_of_join {a b} _ h := by
    rw [join_eq] at h
    unfold merge
    grind [bare, object]

end Constant

section

variable {β : Type} [DecidableEq β]

theorem sharedStart_comm (as bs : List β) : sharedStart as bs = sharedStart bs as := by
  induction as generalizing bs with
  | nil => cases bs <;> rfl
  | cons a as ih =>
    cases bs with
    | nil => rfl
    | cons b bs =>
      by_cases h : a = b
      · simp [sharedStart, h, ih]
      · simp [sharedStart, h, Ne.symm h]

theorem sharedStart_self (as : List β) : sharedStart as as = as := by
  induction as with
  | nil => rfl
  | cons a as ih => simp [sharedStart, ih]

theorem sharedStart_assoc (as bs cs : List β) :
    sharedStart (sharedStart as bs) cs = sharedStart as (sharedStart bs cs) := by
  induction as generalizing bs cs with
  | nil => rfl
  | cons a as ih =>
    cases bs with
    | nil => rfl
    | cons b bs =>
      cases cs with
      | nil => by_cases h : a = b <;> simp [sharedStart, h]
      | cons c cs =>
        by_cases hab : a = b
        · by_cases hbc : b = c <;> simp [sharedStart, hab, hbc, ih]
        · by_cases hbc : b = c
          · have hac : a ≠ c := fun hac => hab (hac.trans hbc.symm)
            simp [sharedStart, hbc, hac]
          · simp [sharedStart, hab, hbc]

theorem sharedStart_prefix (as bs : List β) : sharedStart as bs <+: as := by
  induction as generalizing bs with
  | nil => exact List.nil_prefix
  | cons a as ih =>
    cases bs with
    | nil => exact List.nil_prefix
    | cons b bs =>
      by_cases h : a = b
      · simpa [sharedStart, h] using ih bs
      · simp [sharedStart, h]

theorem sharedEnd_comm (as bs : List β) : sharedEnd as bs = sharedEnd bs as := by
  rw [sharedEnd, sharedStart_comm, sharedEnd]

theorem sharedEnd_self (as : List β) : sharedEnd as as = as := by
  rw [sharedEnd, sharedStart_self, List.reverse_reverse]

theorem sharedEnd_assoc (as bs cs : List β) :
    sharedEnd (sharedEnd as bs) cs = sharedEnd as (sharedEnd bs cs) := by
  simp only [sharedEnd, List.reverse_reverse, sharedStart_assoc]

theorem sharedEnd_suffix_left (as bs : List β) : sharedEnd as bs <:+ as := by
  rw [← List.reverse_prefix, sharedEnd, List.reverse_reverse]
  exact sharedStart_prefix as.reverse bs.reverse

theorem sharedEnd_suffix_right (as bs : List β) : sharedEnd as bs <:+ bs := by
  rw [sharedEnd_comm]
  exact sharedEnd_suffix_left bs as

omit [DecidableEq β] in
theorem eq_of_suffix_singleton {as : List β} {x : β} (h : as <:+ [x]) (hne : as ≠ []) :
    as = [x] := by
  apply h.eq_of_length
  have hle := h.length_le
  have hpos := List.length_pos_iff.mpr hne
  simp only [List.length_singleton] at hle ⊢
  omega

theorem sharedEnd_ne_nil {as bs : List β} {x : β} (ha : as.getLast? = some x)
    (hb : bs.getLast? = some x) : sharedEnd as bs ≠ [] := by
  obtain ⟨front, rfl⟩ := List.getLast?_eq_some_iff.mp ha
  obtain ⟨front', rfl⟩ := List.getLast?_eq_some_iff.mp hb
  simp [sharedEnd, sharedStart]

end

namespace ClassObject

variable {a b c : ClassObject} {s : Strength}

theorem ancestry_injective (h : a.ancestry = b.ancestry) : a = b := by
  obtain ⟨hname, hbases⟩ := List.cons.inj h
  cases a
  cases b
  simp_all

theorem getLast?_ancestry (a : ClassObject) : a.ancestry.getLast? = some a.root := by
  simp [ancestry, root, List.getLast?_cons, List.getLastD_eq_getLast?]

theorem sharedEnd_ancestry_ne_nil (h : a.root = b.root) :
    sharedEnd a.ancestry b.ancestry ≠ [] :=
  sharedEnd_ne_nil a.getLast?_ancestry (h ▸ b.getLast?_ancestry)

theorem ancestry_mergeLines (h : a.root = b.root) :
    (Choice.join mergeLines a b).ancestry = sharedEnd a.ancestry b.ancestry := by
  unfold Choice.join mergeLines
  cases hshared : sharedEnd a.ancestry b.ancestry with
  | nil => exact absurd hshared (sharedEnd_ancestry_ne_nil h)
  | cons name bases =>
    have hleft : name :: bases <:+ a.ancestry := hshared ▸ sharedEnd_suffix_left _ _
    have hright : name :: bases <:+ b.ancestry := hshared ▸ sharedEnd_suffix_right _ _
    dsimp only
    split_ifs with ha hb
    · exact (hleft.eq_of_length (by simp [ancestry, ha])).symm
    · exact (hright.eq_of_length (by simp [ancestry, hb])).symm
    · rfl

/-- Below the most general level the class that stands for two of one root has just the end
of their lines that they share, also where one of them is `object`. -/
theorem ancestry_join (hs : s ≠ .object) (h : a.root = b.root) :
    (Choice.join (merge s) a b).ancestry = sharedEnd a.ancestry b.ancestry := by
  have hshared := sharedEnd_ancestry_ne_nil h
  unfold Choice.join merge
  by_cases hleft : a = b ∨ a = object
  · rw [if_pos hleft]
    rcases hleft with rfl | rfl
    · exact (sharedEnd_self _).symm
    · exact (eq_of_suffix_singleton (sharedEnd_suffix_left _ _) hshared).symm
  rw [if_neg hleft]
  by_cases hright : b = object
  · rw [if_pos hright]
    subst hright
    exact (eq_of_suffix_singleton (sharedEnd_suffix_right _ _) hshared).symm
  · rw [if_neg hright, if_neg hs]
    exact ancestry_mergeLines h

theorem root_join (hs : s ≠ .object) (h : a.root = b.root) :
    (Choice.join (merge s) a b).root = a.root := by
  have hsuffix : (Choice.join (merge s) a b).ancestry <:+ a.ancestry := by
    rw [ancestry_join hs h]
    exact sharedEnd_suffix_left _ _
  obtain ⟨front, hfront⟩ := hsuffix
  have hlast := a.getLast?_ancestry
  rw [← hfront, List.getLast?_append, getLast?_ancestry] at hlast
  simpa using hlast

theorem join_object (a b : ClassObject) :
    Choice.join (merge .object) a b = if a = b then a else object := by
  unfold Choice.join merge
  by_cases hab : a = b
  · rw [if_pos (Or.inl hab), if_pos hab]
    rfl
  rw [if_neg hab]
  by_cases ha : a = object
  · rw [if_pos (Or.inr ha)]
    exact ha
  rw [if_neg (not_or.mpr ⟨hab, ha⟩)]
  by_cases hb : b = object
  · rw [if_pos hb]
    exact hb
  · rw [if_neg hb, if_pos rfl]
    rfl

theorem root_eq_of_unionEq (hs : s ≠ .object) (h : unionEq s a b = true) : a.root = b.root := by
  cases s with
  | plain => exact congrArg root (by simpa [unionEq] using h)
  | baseClass => simpa [unionEq] using h
  | anyOrigin => simpa [unionEq] using h
  | object => exact absurd rfl hs

theorem merge_eq_merge {q : Strength} (hq : q ≠ .object) (hs : s ≠ .object) (a b : ClassObject) :
    merge q a b = merge s a b := by
  unfold merge
  rw [if_neg hq, if_neg hs]

theorem left_of_join (h : Choice.join (merge s) a b = a) : merge s a b = .left := by
  unfold Choice.join merge at h
  unfold merge
  split_ifs at h ⊢ with hleft hright hs
  · rfl
  · exact absurd (Or.inr (h.symm.trans hright)) hleft
  · exact absurd (Or.inr h.symm) hleft
  · unfold mergeLines at h ⊢
    cases hshared : sharedEnd a.ancestry b.ancestry with
    | nil => rfl
    | cons name bases =>
      rw [hshared] at h
      dsimp only at h ⊢
      split_ifs at h ⊢ with ha hb
      · rfl
      · exact absurd (Or.inl h.symm) hleft
      · exact absurd (congrArg (fun c => c.bases.length) h) ha

theorem joins (s : Strength) : Choice.Joins (unionEq s) (merge s) where
  refl a := by cases s <;> simp [unionEq]
  trans {a b c} := by cases s <;> simp +contextual [unionEq]
  equal_join {a b} h := by
    cases s with
    | object => rfl
    | plain =>
      have hab : a = b := by simpa [unionEq] using h
      simp [hab, unionEq, Choice.join, Choice.content, merge]
    | baseClass =>
      simpa [unionEq] using (root_join (by decide) (root_eq_of_unionEq (by decide) h)).symm
    | anyOrigin =>
      simpa [unionEq] using (root_join (by decide) (root_eq_of_unionEq (by decide) h)).symm
  self a := by simp [merge]
  comm {a b} h := by
    by_cases hs : s = .object
    · subst hs
      rw [join_object, join_object]
      grind
    · have hroot := root_eq_of_unionEq hs h
      apply ancestry_injective
      rw [ancestry_join hs hroot, ancestry_join hs hroot.symm, sharedEnd_comm]
  assoc {a b c} hab hbc := by
    by_cases hs : s = .object
    · subst hs
      simp only [join_object]
      grind
    · have hroot := root_eq_of_unionEq hs hab
      have hroot' := root_eq_of_unionEq hs hbc
      apply ancestry_injective
      rw [ancestry_join hs ((root_join hs hroot).trans (hroot.trans hroot')),
        ancestry_join hs (hroot.trans (root_join hs hroot').symm),
        ancestry_join hs hroot, ancestry_join hs hroot', sharedEnd_assoc]
  left_of_join _ h := left_of_join h

end ClassObject

namespace FunctionObject

theorem join_eq (a b : FunctionObject) :
    Choice.join merge a b =
      if a = anyFunction ∨ b = anyFunction ∨ a.name ≠ b.name then anyFunction
      else if b.moduleName < a.moduleName then b else a := by
  unfold Choice.join merge
  by_cases ha : a = anyFunction
  · rw [if_pos ha, if_pos (Or.inl ha)]
    exact ha
  by_cases hb : b = anyFunction
  · rw [if_neg ha, if_pos hb, if_pos (Or.inr (Or.inl hb))]
    exact hb
  by_cases hname : a.name ≠ b.name
  · rw [if_neg ha, if_neg hb, if_pos hname, if_pos (Or.inr (Or.inr hname))]
    rfl
  · rw [if_neg ha, if_neg hb, if_neg hname, if_neg (not_or.mpr ⟨ha, not_or.mpr ⟨hb, hname⟩⟩)]
    split_ifs <;> rfl

theorem joins (s : Strength) : Choice.Joins (unionEq s) merge where
  refl a := by cases s <;> simp [unionEq]
  trans {a b c} := by cases s <;> simp +contextual [unionEq]
  equal_join {a b} h := by
    rw [join_eq]
    cases s <;> grind [unionEq]
  self a := by simp [merge]
  comm {a b} _ := by
    obtain ⟨m, f⟩ := a
    obtain ⟨n, g⟩ := b
    rw [join_eq, join_eq]
    grind
  assoc {a b c} _ _ := by
    -- Of three functions of one name, the one whose module sorts first is the same in either
    -- order; and the function that stands for all is never the outcome of choosing one.
    obtain ⟨m, f⟩ := a
    obtain ⟨n, g⟩ := b
    obtain ⟨k, h⟩ := c
    simp only [join_eq]
    grind
  left_of_join {a b} _ h := by
    rw [join_eq] at h
    unfold merge
    grind

end FunctionObject

namespace ModuleObject

theorem joins (s : Strength) : Choice.Joins (unionEq s) merge where
  refl a := by simp [unionEq]
  trans {a b c} := by simp +contextual [unionEq]
  equal_join {a b} _ := by simp [unionEq, Choice.join, merge, Choice.content]
  self a := rfl
  comm {a b} h := by
    cases a
    cases b
    simpa [unionEq, Choice.join, merge, Choice.content] using h
  assoc _ _ := rfl
  left_of_join _ _ := rfl

end ModuleObject

namespace Origin

theorem unionEq_symm {s : Strength} {a b : Origin} (h : unionEq s a b = true) :
    unionEq s b a = true := by
  cases a <;> cases b <;> try cases h
  case constant a b => cases s <;> simp_all [unionEq, Constant.unionEq]
  case classObject a b => cases s <;> simp_all [unionEq, ClassObject.unionEq]
  case functionObject a b => cases s <;> simp_all [unionEq, FunctionObject.unionEq]
  case moduleObject a b => simp_all [unionEq, ModuleObject.unionEq]
  case tally a b => cases s <;> simp_all [unionEq, Tally.unionEq]
  case interval a b => simp_all [unionEq, Interval.unionEq]
  case relabel a b => simp_all [unionEq, Relabel.unionEq]

theorem kind_eq_of_unionEq {s : Strength} {a b : Origin} (h : unionEq s a b = true) :
    a.kind = b.kind := by
  cases a <;> cases b <;> try cases h
  all_goals rfl

theorem unionEq_mono {q r : Strength} (hle : q ≤ r) {a b : Origin} (h : unionEq q a b = true) :
    unionEq r a b = true := by
  rw [Strength.le_def] at hle
  cases a <;> cases b <;> try cases h
  case constant a b =>
    cases q <;> cases r <;> simp_all [unionEq, Constant.unionEq, Strength.level]
  case classObject a b =>
    cases q <;> cases r <;> simp_all [unionEq, ClassObject.unionEq, Strength.level]
  case functionObject a b =>
    cases q <;> cases r <;> simp_all [unionEq, FunctionObject.unionEq, Strength.level]
  case moduleObject a b => exact h
  case tally a b => cases q <;> cases r <;> simp_all [unionEq, Tally.unionEq, Strength.level]
  case interval a b => exact h
  case relabel a b => exact h

/-- The level of a merge matters to classes only, and to them only at the most general one. -/
theorem merge_eq_merge {q r : Strength} {a : Origin}
    (h : q ≠ .object ∧ r ≠ .object ∨ a.kind ≠ .classObject) (b : Origin) :
    merge q a b = merge r a b := by
  cases a with
  | classObject c =>
    obtain ⟨hq, hr⟩ | hkind := h
    · cases b with
      | classObject d => exact congrArg (Choice.map classObject) (c.merge_eq_merge hq hr d)
      | _ => rfl
    · exact absurd rfl hkind
  | _ => cases b <;> rfl

theorem unionHash_eq {s : Strength} {a b : Origin} (h : unionEq s a b = true) :
    unionHash s a = unionHash s b := by
  cases a <;> cases b <;> try cases h
  case constant a b =>
    cases s <;> simp_all [unionEq, unionHash, Constant.unionEq, Constant.unionHash]
  case classObject a b =>
    cases s <;> simp_all [unionEq, unionHash, ClassObject.unionEq, ClassObject.unionHash]
  case functionObject a b =>
    cases s <;> simp_all [unionEq, unionHash, FunctionObject.unionEq, FunctionObject.unionHash]
  case moduleObject a b =>
    simp_all [unionEq, unionHash, ModuleObject.unionEq, ModuleObject.unionHash]
  case tally a b => cases s <;> simp_all [unionEq, unionHash, Tally.unionEq, Tally.unionHash]
  case interval a b => rfl
  case relabel a b => simp_all [unionEq, unionHash, Relabel.unionEq, Relabel.unionHash]

instance : Kind.Coherent Origin where
  unionEq_symm := unionEq_symm
  unionHash_eq := unionHash_eq

/-- The kinds whose merging is a join. -/
def BuiltIn : Origin → Prop
  | constant _ | classObject _ | functionObject _ | moduleObject _ => True
  | tally _ | interval _ | relabel _ => False

instance : DecidablePred BuiltIn
  | constant _ | classObject _ | functionObject _ | moduleObject _ => .isTrue trivial
  | tally _ | interval _ | relabel _ => .isFalse id

def join (s : Strength) : Origin → Origin → Origin := Choice.join (merge s)

/-- The contents of one kind, with a merge rule that joins them, as a part of the origins
that nothing outside is equal to. -/
structure Part (s : Strength) {κ : Type} (embed : κ → Origin) (equal : κ → κ → Bool)
    (rule : κ → κ → Choice κ) : Prop where
  joins : Choice.Joins equal rule
  builtIn (x : κ) : BuiltIn (embed x)
  injective : Function.Injective embed
  unionEq_eq (x y : κ) : unionEq s (embed x) (embed y) = equal x y
  merge_eq (x y : κ) : merge s (embed x) (embed y) = (rule x y).map embed
  closed {x : κ} {b : Origin} : unionEq s (embed x) b = true → ∃ y, b = embed y

theorem part_constant (s : Strength) : Part s constant (Constant.unionEq s) Constant.merge where
  joins := Constant.joins s
  builtIn _ := trivial
  injective _ _ := constant.inj
  unionEq_eq _ _ := rfl
  merge_eq _ _ := rfl
  closed {x b} h := by
    cases b with
    | constant y => exact ⟨y, rfl⟩
    | _ => cases h

theorem part_classObject (s : Strength) :
    Part s classObject (ClassObject.unionEq s) (ClassObject.merge s) where
  joins := ClassObject.joins s
  builtIn _ := trivial
  injective _ _ := classObject.inj
  unionEq_eq _ _ := rfl
  merge_eq _ _ := rfl
  closed {x b} h := by
    cases b with
    | classObject y => exact ⟨y, rfl⟩
    | _ => cases h

theorem part_functionObject (s : Strength) :
    Part s functionObject (FunctionObject.unionEq s) FunctionObject.merge where
  joins := FunctionObject.joins s
  builtIn _ := trivial
  injective _ _ := functionObject.inj
  unionEq_eq _ _ := rfl
  merge_eq _ _ := rfl
  closed {x b} h := by
    cases b with
    | functionObject y => exact ⟨y, rfl⟩
    | _ => cases h

theorem part_moduleObject (s : Strength) :
    Part s moduleObject (ModuleObject.unionEq s) ModuleObject.merge where
  joins := ModuleObject.joins s
  builtIn _ := trivial
  injective _ _ := moduleObject.inj
  unionEq_eq _ _ := rfl
  merge_eq _ _ := rfl
  closed {x b} h := by
    cases b with
    | moduleObject y => exact ⟨y, rfl⟩
    | _ => cases h

theorem exists_part (s : Strength) {a : Origin} (ha : BuiltIn a) :
    ∃ (κ : Type) (embed : κ → Origin) (equal : κ → κ → Bool) (rule : κ → κ → Choice κ),
      Part s embed equal rule ∧ ∃ x, a = embed x := by
  cases a with
  | constant x => exact ⟨_, _, _, _, part_constant s, x, rfl⟩
  | classObject x => exact ⟨_, _, _, _, part_classObject s, x, rfl⟩
  | functionObject x => exact ⟨_, _, _, _, part_functionObject s, x, rfl⟩
  | moduleObject x => exact ⟨_, _, _, _, part_moduleObject s, x, rfl⟩
  | _ => cases ha

namespace Part

variable {s : Strength} {κ : Type} {embed : κ → Origin} {equal : κ → κ → Bool}
  {rule : κ → κ → Choice κ}

theorem equal_iff (part : Part s embed equal rule) {x y : κ} :
    unionEq s (embed x) (embed y) = true ↔ equal x y = true := by
  rw [part.unionEq_eq]

theorem join_eq (part : Part s embed equal rule) (x y : κ) :
    join s (embed x) (embed y) = embed (Choice.join rule x y) := by
  unfold join Choice.join
  rw [part.merge_eq]
  exact Choice.content_map embed (rule x y) x y

end Part

theorem unionEq_join {s : Strength} {a b : Origin} (ha : BuiltIn a) (h : unionEq s a b = true) :
    BuiltIn (join s a b) ∧ unionEq s a (join s a b) = true := by
  obtain ⟨κ, embed, equal, rule, part, x, rfl⟩ := exists_part s ha
  obtain ⟨y, rfl⟩ := part.closed h
  rw [part.join_eq, part.equal_iff]
  exact ⟨part.builtIn _, part.joins.equal_join (part.equal_iff.mp h)⟩

theorem content_unionMerge (s : Strength) (v w : Value Origin) :
    (Kind.unionMerge s v w).content = join s v.content w.content := by
  change ((merge s v.content w.content).between v w).content = _
  unfold join Choice.join
  cases merge s v.content w.content <;> rfl

theorem joinOn : Kind.JoinOn BuiltIn join where
  refl {s a} ha := by
    obtain ⟨κ, embed, equal, rule, part, x, rfl⟩ := exists_part s ha
    exact part.equal_iff.mpr (part.joins.refl x)
  trans {s a b c} ha _ _ hab hbc := by
    obtain ⟨κ, embed, equal, rule, part, x, rfl⟩ := exists_part s ha
    obtain ⟨y, rfl⟩ := part.closed hab
    obtain ⟨z, rfl⟩ := part.closed hbc
    exact part.equal_iff.mpr
      (part.joins.trans (part.equal_iff.mp hab) (part.equal_iff.mp hbc))
  merge_mem {s v w} hv _ h := by
    rw [content_unionMerge]
    exact (unionEq_join hv h).1
  merge_equal {s v w} hv _ h := by
    rw [content_unionMerge]
    exact (unionEq_join hv h).2
  content_merge {s v w} _ _ _ := content_unionMerge s v w
  join_self {s a} ha := by
    obtain ⟨κ, embed, equal, rule, part, x, rfl⟩ := exists_part s ha
    rw [part.join_eq, Choice.join, part.joins.self]
    rfl
  join_comm {s a b} ha _ h := by
    obtain ⟨κ, embed, equal, rule, part, x, rfl⟩ := exists_part s ha
    obtain ⟨y, rfl⟩ := part.closed h
    rw [part.join_eq, part.join_eq, part.joins.comm (part.equal_iff.mp h)]
  join_assoc {s a b c} ha _ _ hab hbc := by
    obtain ⟨κ, embed, equal, rule, part, x, rfl⟩ := exists_part s ha
    obtain ⟨y, rfl⟩ := part.closed hab
    obtain ⟨z, rfl⟩ := part.closed hbc
    simp only [part.join_eq]
    rw [part.joins.assoc (part.equal_iff.mp hab) (part.equal_iff.mp hbc)]
  kept_of_join {s v w} hv _ h hcovers := by
    obtain ⟨κ, embed, equal, rule, part, x, hx⟩ := exists_part s hv
    rw [hx] at h hcovers
    obtain ⟨y, hy⟩ := part.closed h
    rw [hy] at h hcovers
    rw [part.join_eq] at hcovers
    have hleft := part.joins.left_of_join (part.equal_iff.mp h) (part.injective hcovers)
    change (merge s v.content w.content).between v w = .kept v
    rw [hx, hy, part.merge_eq, hleft]
    rfl

end Origin

open Kind in
/-- What constants, classes, functions and modules promise at every level. Equality is an
equivalence, holds within a kind only, and is respected by the hash. Among equal values the
merged one is equal to both, and its content depends neither on which of them comes first nor
on how three are bracketed; a content merged with itself stays what it is. Where the merged
content is that of the first value, it is this very value that is kept. -/
theorem builtIn_kinds_keep_contract (s : Strength) {a b c : Value Origin}
    (ha : Origin.BuiltIn a.content) (hb : Origin.BuiltIn b.content)
    (hc : Origin.BuiltIn c.content) :
    (unionEq s a.content a.content = true ∧
      (unionEq s a.content b.content = true → unionEq s b.content a.content = true) ∧
      (unionEq s a.content b.content = true → unionEq s b.content c.content = true →
        unionEq s a.content c.content = true) ∧
      (a.content.kind ≠ b.content.kind → unionEq s a.content b.content = false) ∧
      (unionEq s a.content b.content = true →
        unionHash s a.content = unionHash s b.content)) ∧
    (unionEq s a.content b.content = true → unionEq s b.content c.content = true →
      ∀ l m : Ledger,
        let ab := ((unionMerge s a b).settle l).1
        let bc := ((unionMerge s b c).settle m).1
        (unionEq s ab.content a.content = true ∧ unionEq s ab.content b.content = true) ∧
          ab.content = (unionMerge s b a).content ∧
          (unionMerge s ab c).content = (unionMerge s a bc).content ∧
          (b.content = a.content → ab.content = a.content) ∧
          (ab.content = a.content → unionMerge s a b = .kept a)) := by
  have law := Origin.joinOn
  have hkinds : a.content.kind ≠ b.content.kind → unionEq s a.content b.content = false :=
    fun hne => Bool.eq_false_iff.mpr fun h => hne (Origin.kind_eq_of_unionEq h)
  refine ⟨⟨law.refl ha, Coherent.unionEq_symm, law.trans ha hb hc, hkinds,
    Coherent.unionHash_eq⟩, ?_⟩
  intro hab hbc l m ab bc
  have hjoin : ab.content = Origin.join s a.content b.content := by
    rw [Merged.content_settle, law.content_merge ha hb hab]
  have hjoin' : bc.content = Origin.join s b.content c.content := by
    rw [Merged.content_settle, law.content_merge hb hc hbc]
  have hPab : Origin.BuiltIn ab.content := by
    rw [Merged.content_settle]
    exact law.merge_mem ha hb hab
  have hequal : unionEq s a.content ab.content = true := by
    rw [Merged.content_settle]
    exact law.merge_equal ha hb hab
  have hequal' := law.trans hPab ha hb (Coherent.unionEq_symm hequal) hab
  refine ⟨⟨Coherent.unionEq_symm hequal, hequal'⟩, ?_, ?_, ?_, ?_⟩
  · rw [Origin.content_unionMerge, hjoin, law.join_comm ha hb hab]
  · rw [Origin.content_unionMerge, Origin.content_unionMerge, hjoin, hjoin',
      law.join_assoc ha hb hc hab hbc]
  · intro hsame
    rw [hjoin, hsame, law.join_self ha]
  · intro hcovers
    exact law.kept_of_join ha hb hab (hjoin ▸ hcovers)

open Kind in
/-- Two classes with two ancestors in common, and a third one that shares only the farther. -/
theorem builtIn_kinds_keep_contract_classes :
    let a : Value Origin := ⟨0, .classObject ⟨"C", ["B", "A"]⟩⟩
    let b : Value Origin := ⟨1, .classObject ⟨"D", ["B", "A"]⟩⟩
    let c : Value Origin := ⟨2, .classObject ⟨"E", ["A"]⟩⟩
    let ab := ((unionMerge .baseClass a b).settle ⟨3, true⟩).1
    let bc := ((unionMerge .baseClass b c).settle ⟨4, true⟩).1
    (Origin.BuiltIn a.content ∧ Origin.BuiltIn b.content ∧ Origin.BuiltIn c.content) ∧
      unionEq .baseClass a.content b.content = true ∧
      unionEq .baseClass b.content c.content = true ∧
      ab.content = .classObject ⟨"B", ["A"]⟩ ∧
      (unionMerge .baseClass ab c).content = (unionMerge .baseClass a bc).content := by
  intro a b c ab bc
  have hab : unionEq .baseClass a.content b.content = true := by decide
  have hbc : unionEq .baseClass b.content c.content = true := by decide
  have hlaws := (builtIn_kinds_keep_contract .baseClass (a := a) (b := b) (c := c)
    trivial trivial trivial).2 hab hbc ⟨3, true⟩ ⟨4, true⟩
  exact ⟨⟨trivial, trivial, trivial⟩, hab, hbc, by decide, hlaws.2.2.1⟩

end AbstractSets
