import Mathlib.Data.List.Forall2
import AbstractSets.Proofs.Conservation
import AbstractSets.Proofs.Outcomes

/-!
# Two runs in step

The same values go into two sets that hold the same contents in the same order, but have come to
do so in different ways: their tables have been filled in another order, and the values that
merges have made have other numbers. Where equality is transitive, this makes no difference from
then on. At most one of the values held is equal to a given one, so lookup has no choice, and both
sets do the same at the same places.

A `Pairing` tells which values of the two runs correspond. It grows whenever both runs make a new
value, and all that either run compares is the same for values that correspond. `Supply.InStep` says
of two computations that they keep to a pairing, and has a rule for each way to put computations
together.
-/

namespace AbstractSets

open Kind

/-- Two merges, of `v` with `w` and of `v'` with `w'`, come to the same: both keep the first value,
both keep the second, both give the same one of the `fixed` values, or both make a new value with
the same content. -/
inductive Merged.Alike {α : Type} (fixed : Value α → Prop) (v w v' w' : Value α) :
    Merged α → Merged α → Prop where
  | first : Alike fixed v w v' w' (.kept v) (.kept v')
  | second : Alike fixed v w v' w' (.kept w) (.kept w')
  | same {u : Value α} (hu : fixed u) : Alike fixed v w v' w' (.kept u) (.kept u)
  | new (a : α) : Alike fixed v w v' w' (.made a) (.made a)

theorem Choice.alike_between {α : Type} {fixed : Value α → Prop} (choice : Choice α)
    (v w v' w' : Value α) :
    Merged.Alike fixed v w v' w' (choice.between v w) (choice.between v' w') := by
  cases choice with
  | left => exact .first
  | right => exact .second
  | fresh a => exact .new a

/-- On the contents in use, union equality is transitive, and merging equal contents gives one in
use and goes by contents alone. -/
structure Kind.TransitiveOn {α : Type} [Kind α] (P : α → Prop) (fixed : Value α → Prop) : Prop where
  trans {s : Strength} {a b c : α} : P a → P b → P c →
    unionEq s a b = true → unionEq s b c = true → unionEq s a c = true
  merge_alike {s : Strength} {v w v' w' : Value α} : P v.content → P w.content →
    unionEq s v.content w.content = true → v.content = v'.content → w.content = w'.content →
      Merged.Alike fixed v w v' w' (unionMerge s v w) (unionMerge s v' w')
  merge_mem {s : Strength} {v w : Value α} : P v.content → P w.content →
    unionEq s v.content w.content = true → P (unionMerge s v w).content

section

variable {α : Type} [DecidableEq α] [Kind α] [Coherent α] {P : α → Prop}
  {fixed : Value α → Prop} {c : Comparer}

theorem Kind.TransitiveOn.unique (law : TransitiveOn P fixed) {vs : List (Value α)}
    (hvs : c.Distinct vs) {i j : Nat} {v w x : Value α} (hi : vs[i]? = some v)
    (hj : vs[j]? = some w) (hv : P v.content) (hw : P w.content) (hx : P x.content)
    (hvx : c.equal v x = true) (hwx : c.equal w x = true) : i = j := by
  by_contra hne
  have hvw := Comparer.equal_trans_of hvx (Comparer.equal_symm hwx) fun _ => law.trans hv hx hw
  rw [hvs.equal_eq_false hi hj hne] at hvw
  cases hvw

end

section

variable {β γ : Type} {R : β → γ → Prop} {bs : List β} {cs : List γ} {b : β} {c : γ} {p : Nat}

theorem exists_right_of_forall₂ (h : List.Forall₂ R bs cs) (hb : bs[p]? = some b) :
    ∃ c, cs[p]? = some c ∧ R b c := by
  obtain ⟨hp, rfl⟩ := List.getElem?_eq_some_iff.mp hb
  have hp' : p < cs.length := h.length_eq ▸ hp
  exact ⟨cs[p], List.getElem?_eq_getElem hp', h.get hp hp'⟩

theorem exists_left_of_forall₂ (h : List.Forall₂ R bs cs) (hc : cs[p]? = some c) :
    ∃ b, bs[p]? = some b ∧ R b c :=
  exists_right_of_forall₂ (List.Forall₂.flip (R := flip R) h) hc

theorem forall₂_set (h : List.Forall₂ R bs cs) (hbc : R b c) (i : Nat) :
    List.Forall₂ R (bs.set i b) (cs.set i c) := by
  induction h generalizing i with
  | nil => exact .nil
  | cons hfirst hrest ih =>
    cases i with
    | zero => exact .cons hbc hrest
    | succ i => exact .cons hfirst (ih i)

end

/-- A correspondence between the values of two runs, which began at the ledgers `l₀` and `m₀` and
have come to `l` and `m`. Either two such values are the same or both have been made on the way. -/
structure Pairing {α : Type} (P : α → Prop) (fixed : Value α → Prop) (l₀ m₀ : Ledger)
    (T : Value α → Value α → Prop) (l m : Ledger) : Prop where
  content {v w : Value α} : T v w → v.content = w.content
  mem {v w : Value α} : T v w → P v.content
  aligned {v w v' w' : Value α} : T v w → T v' w' → (v = v' ↔ w = w')
  issued {v w : Value α} : T v w → v.id < l.next ∧ w.id < m.next
  kept_or_made {v w : Value α} : T v w → v = w ∨ l₀.next ≤ v.id ∧ m₀.next ≤ w.id
  fixed_mem {u : Value α} : fixed u → T u u
  started : l₀.next ≤ l.next ∧ m₀.next ≤ m.next

namespace Pairing

variable {α : Type} {P : α → Prop} {fixed : Value α → Prop} {l₀ m₀ l m l' m' : Ledger}
  {T : Value α → Value α → Prop} {v w v' w' : Value α}

theorem mono (h : Pairing P fixed l₀ m₀ T l m) (hl : l.next ≤ l'.next) (hm : m.next ≤ m'.next) :
    Pairing P fixed l₀ m₀ T l' m' where
  content := h.content
  mem := h.mem
  aligned := h.aligned
  issued hT := ⟨(h.issued hT).1.trans_le hl, (h.issued hT).2.trans_le hm⟩
  kept_or_made := h.kept_or_made
  fixed_mem := h.fixed_mem
  started := ⟨h.started.1.trans hl, h.started.2.trans hm⟩

theorem mem_right (h : Pairing P fixed l₀ m₀ T l m) (hT : T v w) : P w.content :=
  h.content hT ▸ h.mem hT

theorem extend (h : Pairing P fixed l₀ m₀ T l m) {a : α} (ha : P a) :
    Pairing P fixed l₀ m₀ (fun v w => T v w ∨ v = ⟨l.next, a⟩ ∧ w = ⟨m.next, a⟩) l.advance
      m.advance where
  content := by
    rintro v w (hT | ⟨rfl, rfl⟩)
    · exact h.content hT
    · rfl
  mem := by
    rintro v w (hT | ⟨rfl, rfl⟩)
    · exact h.mem hT
    · exact ha
  aligned := by
    have hnew : ∀ {v w}, T v w → v ≠ ⟨l.next, a⟩ ∧ w ≠ ⟨m.next, a⟩ := by
      intro v w hT
      obtain ⟨hv, hw⟩ := h.issued hT
      constructor
      · rintro rfl
        exact absurd hv (lt_irrefl _)
      · rintro rfl
        exact absurd hw (lt_irrefl _)
    rintro v w v' w' (hT | ⟨rfl, rfl⟩) (hT' | ⟨rfl, rfl⟩)
    · exact h.aligned hT hT'
    · exact iff_of_false (hnew hT).1 (hnew hT).2
    · exact iff_of_false (hnew hT').1.symm (hnew hT').2.symm
    · exact iff_of_true rfl rfl
  issued := by
    rintro v w (hT | ⟨rfl, rfl⟩)
    · exact ⟨(h.issued hT).1.trans (Nat.lt_succ_self _), (h.issued hT).2.trans (Nat.lt_succ_self _)⟩
    · exact ⟨Nat.lt_succ_self _, Nat.lt_succ_self _⟩
  kept_or_made := by
    rintro v w (hT | ⟨rfl, rfl⟩)
    · exact h.kept_or_made hT
    · exact Or.inr h.started
  fixed_mem hu := Or.inl (h.fixed_mem hu)
  started := ⟨h.started.1.trans (Nat.le_succ _), h.started.2.trans (Nat.le_succ _)⟩

variable [DecidableEq α] [Kind α]

theorem equal_eq (h : Pairing P fixed l₀ m₀ T l m) (hT : T v w) (hT' : T v' w') (c : Comparer) :
    c.equal v v' = c.equal w w' := by
  have hsame : decide (v = v') = decide (w = w') := decide_eq_decide.mpr (h.aligned hT hT')
  cases c with
  | identity => exact hsame
  | union s => rw [Comparer.equal, Comparer.equal, hsame, h.content hT, h.content hT']

end Pairing

namespace Supply

variable {α β γ β' γ' : Type} {P : α → Prop} {fixed : Value α → Prop} {l₀ m₀ : Ledger}
  {T : Value α → Value α → Prop} {R : (Value α → Value α → Prop) → β → γ → Prop}
  {R' : (Value α → Value α → Prop) → β' → γ' → Prop}

/-- Two computations go on from values that correspond to values that correspond, and what they
give is related by `R`. -/
def InStep (P : α → Prop) (fixed : Value α → Prop) (l₀ m₀ : Ledger)
    (T : Value α → Value α → Prop) (f : Supply β) (g : Supply γ)
    (R : (Value α → Value α → Prop) → β → γ → Prop) : Prop :=
  ∀ l m, Pairing P fixed l₀ m₀ T l m →
    ∃ T', T ≤ T' ∧ Pairing P fixed l₀ m₀ T' (f l).2 (g m).2 ∧ R T' (f l).1 (g m).1

theorem InStep.of_pairing {f : Supply β} {g : Supply γ}
    (h : ∀ l m, Pairing P fixed l₀ m₀ T l m → InStep P fixed l₀ m₀ T f g R) :
    InStep P fixed l₀ m₀ T f g R :=
  fun l m hpairing => h l m hpairing l m hpairing

theorem InStep.of_advances {f : Supply β} {g : Supply γ} (hf : f.Advances) (hg : g.Advances)
    (h : ∀ l m, R T (f l).1 (g m).1) : InStep P fixed l₀ m₀ T f g R :=
  fun l m hpairing => ⟨T, le_rfl, hpairing.mono (hf l) (hg m), h l m⟩

theorem InStep.pure {b : β} {c : γ} (h : R T b c) :
    InStep P fixed l₀ m₀ T (Pure.pure b : Supply β) (Pure.pure c : Supply γ) R :=
  .of_advances (fun _ => le_rfl) (fun _ => le_rfl) fun _ _ => h

theorem InStep.bind {f : Supply β} {g : Supply γ} {f' : β → Supply β'} {g' : γ → Supply γ'}
    (h : InStep P fixed l₀ m₀ T f g R)
    (h' : ∀ l m T', T ≤ T' → R T' (f l).1 (g m).1 →
      InStep P fixed l₀ m₀ T' (f' (f l).1) (g' (g m).1) R') :
    InStep P fixed l₀ m₀ T (f >>= f') (g >>= g') R' := by
  intro l m hpairing
  obtain ⟨T', hle, hpairing', hR⟩ := h l m hpairing
  obtain ⟨T'', hle', hpairing'', hR'⟩ := h' l m T' hle hR _ _ hpairing'
  exact ⟨T'', hle.trans hle', hpairing'', hR'⟩

theorem InStep.bind_pure {f : Supply β} {g : Supply γ} {f' : β → β'} {g' : γ → γ'}
    (h : InStep P fixed l₀ m₀ T f g R)
    (h' : ∀ l m T', R T' (f l).1 (g m).1 → R' T' (f' (f l).1) (g' (g m).1)) :
    InStep P fixed l₀ m₀ T (do return f' (← f)) (do return g' (← g)) R' :=
  h.bind fun l m T' _ hR => .pure (h' l m T' hR)

theorem InStep.mono {S : (Value α → Value α → Prop) → β → γ → Prop} {f : Supply β} {g : Supply γ}
    (h : InStep P fixed l₀ m₀ T f g R) (hS : ∀ T' b c, T ≤ T' → R T' b c → S T' b c) :
    InStep P fixed l₀ m₀ T f g S := by
  intro l m hpairing
  obtain ⟨T', hle, hpairing', hR⟩ := h l m hpairing
  exact ⟨T', hle, hpairing', hS T' _ _ hle hR⟩

theorem InStep.and_gives {f : Supply β} {g : Supply γ} {Q : β → Prop} {Q' : γ → Prop}
    (h : InStep P fixed l₀ m₀ T f g R) (hf : f.Gives Q) (hg : g.Gives Q') :
    InStep P fixed l₀ m₀ T f g fun T' b c => R T' b c ∧ Q b ∧ Q' c := by
  intro l m hpairing
  obtain ⟨T', hle, hpairing', hR⟩ := h l m hpairing
  exact ⟨T', hle, hpairing', hR, (hf l).1, (hg m).1⟩

end Supply

open Supply

variable {α : Type} [DecidableEq α] [Kind α] {P : α → Prop} {fixed : Value α → Prop}
  {l₀ m₀ : Ledger} {T : Value α → Value α → Prop}

theorem Comparer.inStep_merge (law : TransitiveOn P fixed) {c : Comparer} {v w v' w' : Value α}
    (hT : T v w) (hT' : T v' w') (h : c.equal v v' = true) :
    InStep P fixed l₀ m₀ T (c.merge v v') (c.merge w w') fun T' x y => T' x y := by
  refine .of_pairing fun l m hpairing => ?_
  cases c with
  | identity => exact .pure hT
  | union s =>
    by_cases hsame : v = v'
    · have hsame' : w = w' := (hpairing.aligned hT hT').mp hsame
      rw [Comparer.merge, Comparer.merge, if_pos hsame, if_pos hsame']
      exact .pure hT
    · have hsame' : w ≠ w' := mt (hpairing.aligned hT hT').mpr hsame
      have hequal : unionEq s v.content v'.content = true := by
        simpa [Comparer.equal, hsame] using h
      have halike := law.merge_alike (hpairing.mem hT) (hpairing.mem hT') hequal
        (hpairing.content hT) (hpairing.content hT')
      have hmem := law.merge_mem (hpairing.mem hT) (hpairing.mem hT') hequal
      rw [Comparer.merge, Comparer.merge, if_neg hsame, if_neg hsame']
      generalize unionMerge s v v' = merged at halike hmem ⊢
      generalize unionMerge s w w' = merged' at halike ⊢
      cases halike with
      | first => exact .pure hT
      | second => exact .pure hT'
      | same hu => exact .pure (hpairing.fixed_mem hu)
      | new a =>
        intro l m hpairing
        exact ⟨_, fun _ _ => Or.inl, hpairing.extend hmem, Or.inr ⟨rfl, rfl⟩⟩

namespace Table

variable {t u : Table α} {i : Nat} {merged merged' : Value α}

omit [DecidableEq α] [Kind α] in
theorem forall₂_swapRemove (h : List.Forall₂ T t.values u.values) {j : Fin t.size}
    {k : Fin u.size} (hjk : j.val = k.val) :
    List.Forall₂ T (t.swapRemove j).values (u.swapRemove k).values := by
  have hlast : t.values.length - 1 < t.values.length := by
    simpa using Nat.sub_one_lt_of_lt j.isLt
  obtain ⟨x, hx⟩ : ∃ x, t.values[t.values.length - 1]? = some x :=
    ⟨_, List.getElem?_eq_getElem hlast⟩
  obtain ⟨y, hy, hxy⟩ := exists_right_of_forall₂ h hx
  rw [h.length_eq] at hy
  rw [← List.getLast?_eq_getElem?] at hx hy
  rw [t.values_swapRemove j hx, u.values_swapRemove k hy, hjk, List.dropLast_eq_take,
    List.dropLast_eq_take, List.length_set, List.length_set, h.length_eq]
  exact List.forall₂_take _ (forall₂_set h hxy _)

variable [Coherent α]

theorem findOther?_eq_none_of_paired (ht : t.Filed) (hu : u.Filed)
    (hcomparer : t.comparer = u.comparer) (hpaired : List.Forall₂ T t.values u.values)
    {l m : Ledger} (hpairing : Pairing P fixed l₀ m₀ T l m) (hT : T merged merged')
    (hf : t.findOther? merged i = none) : u.findOther? merged' i = none := by
  rw [hu.findOther?_eq_none_iff]
  intro p w hw hp
  obtain ⟨v, hv, hvw⟩ := exists_left_of_forall₂ hpaired hw
  rw [← hcomparer, ← hpairing.equal_eq hvw hT]
  exact (ht.findOther?_eq_none_iff merged i).mp hf p v hv hp

/-- Only one of the other entries can be equal to the merged value, so that both tables find the
same one. -/
theorem findOther?_eq_some_of_paired (law : TransitiveOn P fixed) (ht : t.Sound) (hu : u.Sound)
    (hcomparer : t.comparer = u.comparer) (hpaired : List.Forall₂ T t.values u.values)
    {l m : Ledger} (hpairing : Pairing P fixed l₀ m₀ T l m) (hT : T merged merged') {j : Fin t.size}
    (hf : t.findOther? merged i = some j) :
    ∃ k : Fin u.size, u.findOther? merged' i = some k ∧ j.val = k.val ∧
      T (t.valueAt j) (u.valueAt k) := by
  obtain ⟨hji, hequal⟩ := equal_of_findBeside hf
  obtain ⟨w, hw, hvw⟩ := exists_right_of_forall₂ hpaired (t.getElem?_values j)
  cases hg : u.findOther? merged' i with
  | none =>
    have hnone := (hu.filed.findOther?_eq_none_iff merged' i).mp hg j w hw (by simpa using hji)
    rw [← hcomparer, ← hpairing.equal_eq hvw hT, hequal] at hnone
    cases hnone
  | some k =>
    obtain ⟨-, hequal'⟩ := equal_of_findBeside hg
    obtain ⟨v, hv, hvw'⟩ := exists_left_of_forall₂ hpaired (u.getElem?_values k)
    rw [← hcomparer, ← hpairing.equal_eq hvw' hT] at hequal'
    have hjk : j.val = k.val := law.unique ht.distinct (t.getElem?_values j) hv
      (hpairing.mem hvw) (hpairing.mem hvw') (hpairing.mem hT) hequal hequal'
    obtain rfl : t.valueAt j = v :=
      Option.some.inj ((t.getElem?_values j).symm.trans (hjk ▸ hv))
    exact ⟨k, rfl, hjk, hvw'⟩

theorem inStep_absorb (law : TransitiveOn P fixed) (ht : t.Sound) (hu : u.Sound)
    (hcomparer : t.comparer = u.comparer) (hpaired : List.Forall₂ T t.values u.values)
    (hi : i < t.size) (hT : T merged merged') :
    InStep P fixed l₀ m₀ T (t.absorb i merged) (u.absorb i merged') fun T' t' u' =>
      List.Forall₂ T' t'.values u'.values := by
  induction t, i, merged using Table.absorb.induct generalizing u merged' T with
  | case1 t i merged hf =>
    refine .of_pairing fun l m hpairing => ?_
    have hg := findOther?_eq_none_of_paired ht.filed hu.filed hcomparer hpaired hpairing hT hf
    rw [Table.absorb, Table.absorb, hf, hg]
    apply InStep.pure
    rw [values_set, values_set]
    exact forall₂_set hpaired hT i
  | case2 t i merged j hf ih =>
    refine .of_pairing fun l m hpairing => ?_
    obtain ⟨k, hg, hjk, hjk'⟩ :=
      findOther?_eq_some_of_paired law ht hu hcomparer hpaired hpairing hT hf
    have hequal := Comparer.equal_symm (equal_of_findBeside hf).2
    have hsize : t.size = u.size := by
      simpa using hpaired.length_eq
    rw [Table.absorb, Table.absorb, hf, hg, ← hcomparer]
    refine (Comparer.inStep_merge law hT hjk' hequal).bind fun l m T' hle hmerged => ?_
    have hrest := ih _ (ht.swapRemove j) (hu.swapRemove k) hcomparer
      ((forall₂_swapRemove hpaired hjk).imp hle) (slot_lt_size_swapRemove hi hf) hmerged
    have hslot : (if i = u.size - 1 then k.val else i) = if i = t.size - 1 then j.val else i := by
      rw [hjk, hsize]
    rw [hslot]
    exact hrest

end Table

namespace ValueSet

variable {a b : ValueSet α}

/-- Two sound sets of one comparer whose values correspond. -/
structure Mirrors (T : Value α → Value α → Prop) (a b : ValueSet α) : Prop where
  sound_left : a.Sound
  sound_right : b.Sound
  comparer_eq : a.comparer = b.comparer
  paired : List.Forall₂ T a.values b.values

theorem Mirrors.mono {T' : Value α → Value α → Prop} (h : Mirrors T a b) (hle : T ≤ T') :
    Mirrors T' a b :=
  ⟨h.sound_left, h.sound_right, h.comparer_eq, h.paired.imp hle⟩

theorem Mirrors.representation_eq (h : Mirrors T a b) : a.representation = b.representation := by
  rw [h.sound_left.representation_eq, h.sound_right.representation_eq, h.paired.length_eq]

variable [Coherent α] {x y v w : Value α} {i : Nat} {merged merged' : Value α}

theorem inStep_replaceEntry (law : TransitiveOn P fixed) {t u : Table α} (ht : t.Sound)
    (hu : u.Sound) (hcomparer : t.comparer = u.comparer)
    (hpaired : List.Forall₂ T t.values u.values) (hi : i < t.size) (hT : T merged merged') :
    InStep P fixed l₀ m₀ T (replaceEntry t i merged) (replaceEntry u i merged') fun T' a' b' =>
      List.Forall₂ T' a'.values b'.values := by
  have hadvances : ∀ t : Table α,
      (if t.size ≤ 2 then ofDistinct t.comparer t.values
        else do return many (← t.restamp)).Advances := by
    intro t
    split_ifs
    · exact advances_ofDistinct _ _
    · exact fun l => Nat.le_succ _
  have hvalues : ∀ (t : Table α) l,
      ((if t.size ≤ 2 then ofDistinct t.comparer t.values
        else do return many (← t.restamp)) l).1.values = t.values := by
    intro t l
    split_ifs
    · exact values_ofDistinct _ _ _
    · rfl
  refine (Table.inStep_absorb law ht hu hcomparer hpaired hi hT).bind fun l m T' _ hrest => ?_
  refine .of_advances (hadvances _) (hadvances _) fun l m => ?_
  rw [hvalues, hvalues]
  exact hrest

omit [Coherent α] in
theorem Mirrors.cases (h : Mirrors T a b) :
    (∃ c, a = empty c ∧ b = empty c) ∨
    (∃ v w c, a = one v c ∧ b = one w c) ∨
    (∃ v v' w w' c, a = two v v' c ∧ b = two w w' c ∧ T v w ∧ T v' w') ∨
    ∃ t u, a = many t ∧ b = many u := by
  have hsame := h.representation_eq
  have hcomparer := h.comparer_eq
  cases a <;> cases b <;> try cases hsame
  case empty c d =>
    obtain rfl : c = d := hcomparer
    exact Or.inl ⟨c, rfl, rfl⟩
  case one v c w d =>
    obtain rfl : c = d := hcomparer
    exact Or.inr (Or.inl ⟨v, w, c, rfl, rfl⟩)
  case two v v' c w w' d =>
    obtain rfl : c = d := hcomparer
    obtain ⟨hfirst, hrest⟩ := List.forall₂_cons.mp h.paired
    obtain ⟨hsecond, -⟩ := List.forall₂_cons.mp hrest
    exact Or.inr (Or.inr (Or.inl ⟨v, v', w, w', c, rfl, rfl, hfirst, hsecond⟩))
  case many t u => exact Or.inr (Or.inr (Or.inr ⟨t, u, rfl, rfl⟩))

theorem Mirrors.inStep_replaceAt (law : TransitiveOn P fixed) (h : Mirrors T a b)
    (hi : i < a.size) (hT : T merged merged') :
    InStep P fixed l₀ m₀ T (a.replaceAt i merged) (b.replaceAt i merged') fun T' a' b' =>
      List.Forall₂ T' a'.values b'.values := by
  refine .of_pairing fun l m hpairing => ?_
  rcases h.cases with ⟨c, rfl, rfl⟩ | ⟨v, w, c, rfl, rfl⟩ |
    ⟨v, v', w, w', c, rfl, rfl, hfirst, hsecond⟩ | ⟨t, u, rfl, rfl⟩
  · cases hi
  · exact .pure (.cons hT .nil)
  · match i, hi with
    | 0, _ =>
      have hsame := hpairing.equal_eq hsecond hT c
      rw [replaceAt, replaceAt, replaceFirst, replaceFirst, ← hsame]
      split_ifs with hequal
      · exact (Comparer.inStep_merge law hT hsecond (Comparer.equal_symm hequal)).bind_pure
          fun l m T' hmerged => .cons hmerged .nil
      · exact .pure (.cons hT (.cons hsecond .nil))
    | 1, _ =>
      have hsame := hpairing.equal_eq hfirst hT c
      rw [replaceAt, replaceAt, replaceSecond, replaceSecond, ← hsame]
      split_ifs with hequal
      · exact (Comparer.inStep_merge law hfirst hT hequal).bind_pure
          fun l m T' hmerged => .cons hmerged .nil
      · exact .pure (.cons hfirst (.cons hT .nil))
  · exact inStep_replaceEntry law h.sound_left.1 h.sound_right.1 h.comparer_eq h.paired hi hT

theorem Mirrors.inStep_mergeAt (law : TransitiveOn P fixed) (h : Mirrors T a b)
    (hv : a.values[i]? = some v) (hvw : T v w) (hxy : T x y)
    (hequal : a.comparer.equal v x = true) :
    InStep P fixed l₀ m₀ T (a.mergeAt i v x) (b.mergeAt i w y) fun T' p q =>
      List.Forall₂ T' p.1.values q.1.values := by
  have hmerge : InStep P fixed l₀ m₀ T (a.comparer.merge v x) (a.comparer.merge w y) fun T' p q =>
      T' p q := Comparer.inStep_merge law hvw hxy hequal
  rw [mergeAt, mergeAt, ← h.comparer_eq]
  refine hmerge.bind fun l m T' hle hmerged => .of_pairing fun l' m' hpairing => ?_
  have hkept := hpairing.aligned hmerged (hle _ _ hvw)
  by_cases hsame : (a.comparer.merge v x l).1 = v
  · rw [if_pos hsame, if_pos (hkept.mp hsame)]
    exact .pure (h.paired.imp hle)
  · rw [if_neg hsame, if_neg (mt hkept.mpr hsame)]
    exact ((h.mono hle).inStep_replaceAt law (lt_size_of_getElem? hv) hmerged).bind_pure
      fun _ _ _ hpaired => hpaired

theorem Mirrors.inStep_append (h : Mirrors T a b) (hxy : T x y)
    (hx : ∀ v ∈ a.values, a.comparer.equal v x = false)
    (hy : ∀ w ∈ b.values, b.comparer.equal w y = false) :
    InStep P fixed l₀ m₀ T (a.append x) (b.append y) fun T' a' b' =>
      List.Forall₂ T' a'.values b'.values := by
  refine .of_advances (advances_append a x) (advances_append b y) fun l m => ?_
  rw [(h.sound_left.gives_append hx l).1.2, (h.sound_right.gives_append hy m).1.2]
  exact List.rel_append h.paired (.cons hxy .nil)

/-- Either both sets hold nothing that is equal to what comes in, or both do at one place. -/
theorem Mirrors.inStep_insert (law : TransitiveOn P fixed) (h : Mirrors T a b) (hxy : T x y) :
    InStep P fixed l₀ m₀ T (a.insert x) (b.insert y) fun T' p q => Mirrors T' p.1 q.1 := by
  have hvalues : InStep P fixed l₀ m₀ T (a.insert x) (b.insert y) fun T' p q =>
      List.Forall₂ T' p.1.values q.1.values := by
    refine .of_pairing fun l m hpairing => ?_
    rcases h.sound_left.insert_cases x with ⟨hx, heq⟩ | ⟨i, v, hv, hvx, heq⟩
    · have hy : ∀ w ∈ b.values, b.comparer.equal w y = false := by
        intro w hw
        obtain ⟨p, hp⟩ := List.mem_iff_getElem?.mp hw
        obtain ⟨v, hv, hvw⟩ := exists_left_of_forall₂ h.paired hp
        rw [← h.comparer_eq, ← hpairing.equal_eq hvw hxy]
        exact hx v (List.mem_of_getElem? hv)
      rw [heq, h.sound_right.insert_eq_append hy]
      exact (h.inStep_append hxy hx hy).bind_pure fun _ _ _ hpaired => hpaired
    · obtain ⟨w, hw, hvw⟩ := exists_right_of_forall₂ h.paired hv
      have hwy : b.comparer.equal w y = true := by
        rwa [← h.comparer_eq, ← hpairing.equal_eq hvw hxy]
      rcases h.sound_right.insert_cases y with ⟨hy, -⟩ | ⟨j, w', hw', hwy', heq'⟩
      · rw [hy w (List.mem_of_getElem? hw)] at hwy
        cases hwy
      · obtain ⟨v', hv', hvw'⟩ := exists_left_of_forall₂ h.paired hw'
        obtain rfl : i = j := law.unique h.sound_right.distinct hw hw' (hpairing.mem_right hvw)
          (hpairing.mem_right hvw') (hpairing.mem_right hxy) hwy hwy'
        obtain rfl : w = w' := Option.some.inj (hw.symm.trans hw')
        rw [heq, heq']
        exact h.inStep_mergeAt law hv hvw hxy hvx
  refine (hvalues.and_gives (h.sound_left.gives_insert x) (h.sound_right.gives_insert y)).mono ?_
  rintro T' p q - ⟨hpaired, ⟨hp, hp'⟩, hq, hq'⟩
  exact ⟨hp, hq, hp'.trans (h.comparer_eq.trans hq'.symm), hpaired⟩

theorem Mirrors.inStep_insertAll (law : TransitiveOn P fixed) (h : Mirrors T a b)
    {xs : List (Value α)} (hxs : ∀ x ∈ xs, T x x) :
    InStep P fixed l₀ m₀ T (a.insertAll xs) (b.insertAll xs) fun T' p q => Mirrors T' p.1 q.1 := by
  induction xs generalizing a b T with
  | nil => exact .pure h
  | cons x xs ih =>
    obtain ⟨hx, hrest⟩ := List.forall_mem_cons.mp hxs
    refine (h.inStep_insert law hx).bind fun l m T' hle hnext => ?_
    exact (ih hnext fun y hy => hle _ _ (hrest y hy)).bind_pure fun _ _ _ hmirrors => hmirrors

end ValueSet

end AbstractSets
