import AbstractSets.Proofs.Membership
import AbstractSets.Proofs.Outcomes
import AbstractSets.Proofs.Settling
import AbstractSets.Proofs.Sharing

/-!
# What the change flag tells

Of the outcomes of an insertion only the one that keeps the set has the flag down, and all others
leave another sequence of values. A set that is kept is kept as it is, table and all: in a
workspace no table is copied, and no name comes to stand for another set.

A union raises its flag if one of its insertions does, so a later insertion must not undo what
an earlier one has done. Where merging is a join it cannot: what has come in stays covered, and
a set that ends with the values it began with has covered from the start all that was added.
-/

namespace AbstractSets

open Kind

namespace ValueSet

variable {α : Type} [DecidableEq α] [Kind α] {s t : ValueSet α} {x : Value α}

theorem mergeThen_eq_of_quiet {c : Comparer} {v : Value α}
    (replace : Value α → Supply (ValueSet α)) {l : Ledger} :
    let run := (do
      let merged ← c.merge v x
      if merged = v then return (s, false) else return (← replace merged, true) :
        Supply (ValueSet α × Bool)) l
    run.1.2 = false → run.1.1 = s := by
  by_cases hmerged : (c.merge v x l).1 = v
  · simp [hmerged]
  · simp [hmerged]

theorem insert_eq_of_quiet {l : Ledger} (h : (s.insert x l).1.2 = false) :
    (s.insert x l).1.1 = s := by
  cases s with
  | empty c => cases h
  | one v c =>
    rw [insert] at h ⊢
    split_ifs at h ⊢
    · exact mergeThen_eq_of_quiet (fun merged => pure (one merged c)) h
    · cases h
  | two v w c =>
    rw [insert] at h ⊢
    split_ifs at h ⊢
    · exact mergeThen_eq_of_quiet (fun merged => replaceFirst c merged w) h
    · exact mergeThen_eq_of_quiet (fun merged => replaceSecond c v merged) h
    · cases h
  | many t =>
    rw [insert] at h ⊢
    cases hf : t.find? x with
    | none =>
      rw [hf] at h
      cases h
    | some i =>
      rw [hf] at h
      exact mergeThen_eq_of_quiet (fun merged => replaceEntry t i merged) h

theorem insertAll_eq_of_quiet {xs : List (Value α)} {l : Ledger}
    (h : (s.insertAll xs l).1.2 = false) : (s.insertAll xs l).1.1 = s := by
  induction xs generalizing s l with
  | nil => rfl
  | cons x xs ih =>
    obtain ⟨hnow, hlater⟩ : (s.insert x l).1.2 = false ∧
        ((s.insert x l).1.1.insertAll xs (s.insert x l).2).1.2 = false := Bool.or_eq_false_iff.mp h
    exact (ih hlater).trans (insert_eq_of_quiet hnow)

theorem union_eq_of_quiet {l : Ledger} (h : (s.union t l).1.2 = false) :
    (s.union t l).1.1 = s := by
  rw [union] at h ⊢
  split_ifs at h ⊢ with hempty
  · rw [Bool.and_eq_true, beq_iff_eq] at hempty
    obtain ⟨hs, hcomparer⟩ := hempty
    cases s with
    | empty c =>
      cases t with
      | empty d => exact congrArg empty hcomparer.symm
      | _ => cases h
    | _ => cases hs
  · exact insertAll_eq_of_quiet h

section

variable [Coherent α]

theorem Sound.union_quiet_of_identity {P : α → Prop} (law : LawfulOn P) (hs : s.Sound)
    (ht : t.Sound) (hP : ∀ v ∈ s.values, P v.content) (hQ : ∀ v ∈ t.values, P v.content)
    (hidentity : s.comparer = .identity) {l : Ledger}
    (h : (s.union t l).1.1.values = s.values) : (s.union t l).1.2 = false := by
  obtain ⟨hsound, hcomparer⟩ := (hs.gives_union ht l).1
  have hheld : ∀ v ∈ t.values, v ∈ s.values := by
    intro v hv
    have hin := (hs.contains_union_iff law ht hP hQ (hQ v hv) l).mpr
      (Or.inr ⟨v, hv, Comparer.equal_self _ v⟩)
    obtain ⟨w, hw, hwv⟩ := (hsound.contains_iff v).mp hin
    rw [hcomparer, hidentity, Comparer.equal_identity, decide_eq_true_eq] at hwv
    rw [← hwv, ← h]
    exact hw
  rw [hs.union_eq_of_insert_eq ht (fun v hv m => hs.insert_eq_of_mem (hheld v hv) m) l]

theorem SoundOn.union_quiet_of_values_eq {P : α → Prop} {join : Strength → α → α → α}
    {r : Strength} (law : JoinOn P join) (hs : s.SoundOn P r) (ht : t.Sound)
    (hQ : ∀ v ∈ t.values, P v.content) {l : Ledger}
    (h : (s.union t l).1.1.values = s.values) : (s.union t l).1.2 = false := by
  apply (hs.union_quiet_iff law ht hQ l).mpr
  rcases s.union_cases t with ⟨hnil, -, heq⟩ | heq
  · rw [heq] at h
    rw [show t.values = [] from h.trans hnil]
    exact List.forall_mem_nil _
  · rw [heq] at h
    have hcontents : (s.insertAll t.values l).1.1.contents = s.contents :=
      congrArg (List.map Value.content) h
    intro v hv
    rw [← hcontents]
    exact hs.covered_insertAll law hQ (hQ v hv) (Or.inr (List.mem_map_of_mem hv)) l

theorem Sound.union_quiet_iff_values_eq {P : α → Prop} {join : Strength → α → α → α}
    (law : JoinOn P join) (hs : s.Sound) (ht : t.Sound) (hP : ∀ v ∈ s.values, P v.content)
    (hQ : ∀ v ∈ t.values, P v.content) (l : Ledger) :
    (s.union t l).1.2 = false ↔ (s.union t l).1.1.values = s.values := by
  constructor
  · exact fun h => congrArg values (union_eq_of_quiet h)
  · intro h
    cases hc : s.comparer with
    | identity => exact hs.union_quiet_of_identity law.toLawfulOn ht hP hQ hc h
    | union r =>
      have hon : s.SoundOn P r := ⟨hs, hc, hP⟩
      exact hon.union_quiet_of_values_eq law ht hQ h

end

end ValueSet

namespace Workspace

variable {α : Type} {ws : Workspace α} {name : String} {s : ValueSet α}

theorem Consistent.get?_writeBack_self (hws : ws.Consistent) (hget : ws.get? name = some s)
    (other : String) : (ws.writeBack name s s).get? other = ws.get? other := by
  have hput : (ws.put name s).get? other = ws.get? other := by
    by_cases hother : other = name
    · rw [hother, get?_put_self, hget]
    · have hframes := (hws.put (.refl _) hws.issued (hws.livesIn hget) name).1
      exact hframes.get?_eq other (mt List.mem_singleton.mp hother)
  cases s with
  | many t =>
    have hthere : ws.tables.contains t.stamp = true := by
      have htable : ws.tables[t.stamp]? = some t := (hws.handle_of_get? hget).2
      rw [Std.TreeMap.contains_eq_isSome_getElem?, htable]
      rfl
    have hcopied : ws.writeBack name (.many t) (.many t) = ws.put name (.many t) := by
      simp [Workspace.writeBack, hthere]
    rw [hcopied]
    exact hput
  | _ => exact hput

variable [DecidableEq α] [Kind α]

theorem action_eq_of_quiet {change : Change α}
    {action : ValueSet α → Supply (ValueSet α × Bool)} (haction : ws.action? change = some action)
    {l : Ledger} (h : (action s l).1.2 = false) : (action s l).1.1 = s := by
  cases change with
  | insert v =>
    cases haction
    exact ValueSet.insert_eq_of_quiet h
  | extend vs =>
    cases haction
    exact ValueSet.insertAll_eq_of_quiet h
  | join other =>
    obtain ⟨t, -, rfl⟩ := Option.map_eq_some_iff.mp haction
    exact ValueSet.union_eq_of_quiet h

/-- A change in place that reports nothing leaves every name with the very set it stood for. -/
theorem Consistent.call_update_of_quiet (hws : ws.Consistent) {change : Change α}
    {action : ValueSet α → Supply (ValueSet α × Bool)} (haction : ws.action? change = some action)
    (hget : ws.get? name = some s) (h : (action s ws.ledger).1.2 = false) (other : String) :
    (ws.call (.update name change)).get? other = ws.get? other := by
  have hcall : ws.call (.update name change) =
      { ws with ledger := (action s ws.ledger).2 }.writeBack name s (action s ws.ledger).1.1 := by
    rw [Workspace.call, haction, Option.bind_some, Workspace.update?, hget]
    rfl
  obtain ⟨heap, hext, hissued, -⟩ :=
    hws.allocates_action haction (hws.livesIn hget) ws.ledger hws.issued
  rw [hcall, action_eq_of_quiet haction h]
  exact (hws.withLedger hext hissued).get?_writeBack_self hget other

/-- An insertion that reports a change is seen under the name of the set, and under no other. -/
theorem Consistent.call_insert_of_loud [Coherent α] (hws : ws.Consistent) (hs : s.Sound)
    (hget : ws.get? name = some s) {v : Value α} (h : (s.insert v ws.ledger).1.2 = true) :
    (∃ t, (ws.call (.update name (.insert v))).get? name = some t ∧ t.comparer = s.comparer ∧
      t.values = (s.insert v ws.ledger).1.1.values ∧ t.values ≠ s.values) ∧
    ∀ other ≠ name, (ws.call (.update name (.insert v))).get? other = ws.get? other := by
  have haction : ws.action? (.insert v) = some (·.insert v) := rfl
  obtain ⟨hframes, t, ht, hview⟩ := hws.call_update haction hget
  obtain ⟨hcomparer, hvalues⟩ := Prod.mk.inj hview
  have hkept : (s.insert v ws.ledger).1.1.comparer = s.comparer := (hs.gives_insert v _).1.2
  have hdiffer : t.values ≠ s.values := by
    rw [hvalues, Ne, ← (hs.outcome_insert v ws.ledger).quiet_iff, Bool.not_eq_false]
    exact h
  exact ⟨⟨t, ht, hcomparer.trans hkept, hvalues, hdiffer⟩,
    fun other hne => hframes.get?_eq other (mt List.mem_singleton.mp hne)⟩

end Workspace

/-- The flag of an insertion is down just when the values are in sequence what they were, and then
the set is the same storage as before; it is down for every value that is held. In a workspace no
name stands for another set after an insertion with the flag down, so a copy made before still
shares the table. With the flag up the name of the set, and no other, shows another sequence of
values. For the joinable kinds the flag of a union, too, is up just when the sequence of values has
changed. -/
theorem change_flag_iff_values_differ {α : Type} [DecidableEq α] [Kind α] [Coherent α] :
    (∀ s : ValueSet α, s.Reachable → ∀ (v : Value α) (l : Ledger),
      ((s.insert v l).1.2 = false ↔ (s.insert v l).1.1.values = s.values) ∧
        ((s.insert v l).1.2 = false → (s.insert v l).1.1.sharesStorage s = true) ∧
        (v ∈ s.values → (s.insert v l).1.2 = false)) ∧
    (∀ (cs : List (Call α)) (l : Ledger) (name : String) (s : ValueSet α) (v : Value α),
      let ws := cs.foldl Workspace.call { Workspace.start with ledger := l }
      let later := ws.call (.update name (.insert v))
      ws.get? name = some s →
        ((s.insert v ws.ledger).1.2 = false → ∀ other, later.get? other = ws.get? other) ∧
        ((s.insert v ws.ledger).1.2 = true →
          (∃ t, later.get? name = some t ∧ t.comparer = s.comparer ∧
            t.values = (s.insert v ws.ledger).1.1.values ∧ t.values ≠ s.values) ∧
          ∀ other ≠ name, later.get? other = ws.get? other)) ∧
    ∀ s t : ValueSet Origin, s.Reachable → t.Reachable →
      (∀ v ∈ s.values, Origin.BuiltIn v.content) → (∀ v ∈ t.values, Origin.BuiltIn v.content) →
        ∀ l : Ledger, (s.union t l).1.2 = true ↔ (s.union t l).1.1.values ≠ s.values := by
  refine ⟨fun s hs v l => ⟨?_, ?_, ?_⟩, ?_, ?_⟩
  · exact (hs.sound.outcome_insert v l).quiet_iff
  · intro hquiet
    rw [ValueSet.insert_eq_of_quiet hquiet]
    exact s.sharesStorage_self
  · intro hv
    rw [hs.sound.insert_eq_of_mem hv]
  · intro cs l name s v ws later hget
    have hws : ws.Consistent := (Workspace.consistent_start l).foldl_call cs
    have hs : s.Sound := ((Workspace.sound_start l).foldl_call cs).of_get? hget
    have haction : ws.action? (.insert v) = some (·.insert v) := rfl
    exact ⟨hws.call_update_of_quiet haction hget, hws.call_insert_of_loud hs hget⟩
  · intro s t hs ht hheld hother l
    rw [← Bool.not_eq_false, Ne, not_iff_not]
    exact hs.sound.union_quiet_iff_values_eq Origin.joinOn ht.sound hheld hother l

/-- A module that a table of three values has in another allocation is no news, and the table
stays shared with a copy. A second constant of one type is news, although it leaves as many values
as there were, and the copy does not see it. -/
theorem change_flag_iff_values_differ_mixed :
    let xs : List (Value Origin) := [⟨0, .constant (.ofInt 1)⟩, ⟨1, .moduleObject ⟨"m"⟩⟩,
      ⟨2, .classObject ⟨"C", ["B", "A"]⟩⟩]
    let s := (ValueSet.ofList (.union .plain) xs ⟨10, true⟩).1
    let t := (ValueSet.ofList .identity
      [⟨3, .moduleObject ⟨"m"⟩⟩, ⟨4, .constant (.ofInt 2)⟩] ⟨10, true⟩).1
    let v : Value Origin := ⟨5, .moduleObject ⟨"m"⟩⟩
    let w : Value Origin := ⟨6, .constant (.ofInt 2)⟩
    let cs : List (Call Origin) :=
      [.make (.ofList (.union .plain) xs) [] [some "a"], .copy "a" "b"]
    let ws := cs.foldl Workspace.call { Workspace.start with ledger := ⟨10, true⟩ }
    let later := ws.call (.update "a" (.insert v))
    let changed := ws.call (.update "a" (.insert w))
    (s.Reachable ∧ t.Reachable ∧ (∀ v ∈ s.values, Origin.BuiltIn v.content) ∧
      ∀ v ∈ t.values, Origin.BuiltIn v.content) ∧
      s.representation = .many ∧ (s.insert v ws.ledger).1.2 = false ∧
      (later.get? "a" = some s ∧ later.get? "b" = some s) ∧
      ((∃ u, changed.get? "a" = some u ∧ u.values ≠ s.values) ∧ changed.get? "b" = some s) ∧
      (s.union t ws.ledger).1.1.size = s.size ∧ (s.union t ws.ledger).1.2 = true := by
  intro xs s t v w cs ws later changed
  have hs : s.Reachable := ValueSet.reachable_ofList _ _ _
  have ht : t.Reachable := ValueSet.reachable_ofList _ _ _
  have hheld : ∀ v ∈ s.values, Origin.BuiltIn v.content := by decide +kernel
  have hother : ∀ v ∈ t.values, Origin.BuiltIn v.content := by decide +kernel
  obtain ⟨hinsert, hnames, hunion⟩ := change_flag_iff_values_differ (α := Origin)
  have hquiet : (s.insert v ws.ledger).1.2 = false :=
    (hinsert s hs v ws.ledger).1.mpr (by decide +kernel)
  have hsame := (hnames cs ⟨10, true⟩ "a" s v rfl).1 hquiet
  obtain ⟨⟨u, hu, -, -, hdiffer⟩, hcopy⟩ :=
    (hnames cs ⟨10, true⟩ "a" s w rfl).2 (by decide +kernel)
  have hchanged := (hunion s t hs ht hheld hother ws.ledger).mpr (by decide +kernel)
  exact ⟨⟨hs, ht, hheld, hother⟩, by decide +kernel, hquiet, ⟨hsame "a", hsame "b"⟩,
    ⟨⟨u, hu, hdiffer⟩, hcopy "b" (by decide)⟩, by decide +kernel, hchanged⟩

end AbstractSets
