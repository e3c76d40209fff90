import AbstractSets.Proofs.Covering
import AbstractSets.Proofs.Runs

/-!
# Sets settle

A set that is fed with joinable contents covers all of them from then on, whatever else is
added later. What it covers is not news to it: the flag says so, and the set stays the very
same storage. A loop that adds contents until nothing changes can therefore hear of each
content only once.
-/

namespace AbstractSets

open Kind

inductive Feed (α : Type) where
  | value (v : Value α)
  | set (t : ValueSet α)

namespace Feed

variable {α : Type}

def values : Feed α → List (Value α)
  | value v => [v]
  | set t => t.values

variable [DecidableEq α] [Kind α]

def into (s : ValueSet α) : Feed α → Supply (ValueSet α × Bool)
  | value v => s.insert v
  | set t => s.union t

/-- Only contents in use are added, and sets only if some run makes them. -/
def Fit (P : α → Prop) (f : Feed α) : Prop :=
  (∀ v ∈ f.values, P v.content) ∧ ∀ t, f = set t → t.Reachable

end Feed

namespace ValueSet

variable {α : Type} [DecidableEq α] [Kind α]

def feed : ValueSet α → List (Feed α) → Supply (ValueSet α)
  | s, [] => pure s
  | s, f :: fs => do
    let (s, _) ← f.into s
    s.feed fs

/-- Those of the values whose insertion, one after the other, reports a change. -/
def changes : ValueSet α → List (Value α) → Supply (List (Value α))
  | _, [] => pure []
  | s, x :: xs => do
    let (s, changed) ← s.insert x
    let later ← s.changes xs
    return if changed then x :: later else later

variable [Coherent α] {P : α → Prop} {join : Strength → α → α → α} {r : Strength}
  {s t : ValueSet α} (law : JoinOn P join)

include law

theorem SoundOn.covered_insertAll (hs : s.SoundOn P r) {xs : List (Value α)}
    (hxs : ∀ x ∈ xs, P x.content) {a : α} (ha : P a)
    (h : Covered join r s.contents a ∨ a ∈ xs.map (·.content)) (l : Ledger) :
    Covered join r (s.insertAll xs l).1.1.contents a := by
  induction xs generalizing s l with
  | nil =>
    rcases h with h | h
    · exact h
    · cases h
  | cons x xs ih =>
    obtain ⟨hx, hrest⟩ := List.forall_mem_cons.mp hxs
    have hnext := hs.contents_insert law hx l
    apply ih (hs.insert law.toLawfulOn hx l) hrest
    rw [List.map_cons, List.mem_cons] at h
    rcases h with h | rfl | h
    · rw [hnext]
      exact Or.inl (h.joinInto law hx hs.contents_mem ha)
    · rw [hnext]
      exact Or.inl (covered_joinInto_self law hx hs.contents_mem)
    · exact Or.inr h

theorem SoundOn.union_eq_of_covered (hs : s.SoundOn P r) (ht : t.Sound)
    (h : ∀ v ∈ t.values, P v.content ∧ Covered join r s.contents v.content) (l : Ledger) :
    s.union t l = ((s, false), l) := by
  apply hs.sound.union_eq_of_insert_eq ht
  intro v hv m
  exact hs.insert_eq_of_covered law (h v hv).1 (h v hv).2 m

theorem SoundOn.covered_of_quiet_insert (hs : s.SoundOn P r) {x : Value α} (hx : P x.content)
    {l : Ledger} (h : (s.insert x l).1.2 = false) : Covered join r s.contents x.content := by
  rcases hs.sound.insert_cases x with ⟨-, heq⟩ | ⟨i, v, hv, hequal, heq⟩
  · rw [heq] at h
    cases h
  · have hmem := List.mem_of_getElem? hv
    have hPv := hs.values_mem v hmem
    have hvx : unionEq r v.content x.content = true := by
      rw [hs.comparer_eq] at hequal
      exact (Comparer.equal_union_iff law.toLawfulOn hPv).mp hequal
    have hsame : ((Comparer.union r).merge v x l).1 = v := by
      by_contra hne
      rw [← hs.comparer_eq] at hne
      simp [heq, mergeAt, hne] at h
    refine ⟨v.content, List.mem_map_of_mem hmem, hvx, ?_⟩
    rw [← Comparer.content_merge law hPv hx hvx l, hsame]

theorem SoundOn.covered_of_quiet_insertAll (hs : s.SoundOn P r) {xs : List (Value α)}
    (hxs : ∀ x ∈ xs, P x.content) {l : Ledger} (h : (s.insertAll xs l).1.2 = false) :
    ∀ x ∈ xs, Covered join r s.contents x.content := by
  induction xs generalizing l with
  | nil => exact List.forall_mem_nil _
  | cons x xs ih =>
    obtain ⟨hx, hrest⟩ := List.forall_mem_cons.mp hxs
    obtain ⟨hnow, hlater⟩ : (s.insert x l).1.2 = false ∧
        ((s.insert x l).1.1.insertAll xs (s.insert x l).2).1.2 = false := Bool.or_eq_false_iff.mp h
    have hcovered := hs.covered_of_quiet_insert law hx hnow
    rw [hs.insert_eq_of_covered law hx hcovered] at hlater
    exact List.forall_mem_cons.mpr ⟨hcovered, ih hrest hlater⟩

/-- Joining a set in reports no change just when everything in it is covered. -/
theorem SoundOn.union_quiet_iff (hs : s.SoundOn P r) (ht : t.Sound)
    (hP : ∀ v ∈ t.values, P v.content) (l : Ledger) :
    (s.union t l).1.2 = false ↔ ∀ v ∈ t.values, Covered join r s.contents v.content := by
  constructor
  · intro h
    rcases s.union_cases t with ⟨-, -, heq⟩ | heq
    · rw [heq] at h
      cases t with
      | empty c => exact List.forall_mem_nil _
      | _ => cases h
    · rw [heq] at h
      exact hs.covered_of_quiet_insertAll law hP h
  · intro h
    rw [hs.union_eq_of_covered law ht (fun v hv => ⟨hP v hv, h v hv⟩) l]

theorem SoundOn.into (hs : s.SoundOn P r) {f : Feed α} (hf : f.Fit P) (l : Ledger) :
    (f.into s l).1.1.SoundOn P r ∧ ∀ a, P a →
      Covered join r s.contents a ∨ a ∈ f.values.map (·.content) →
        Covered join r (f.into s l).1.1.contents a := by
  obtain ⟨hvalues, hreach⟩ := hf
  have hall : (s.insertAll f.values l).1.1.SoundOn P r ∧ ∀ a, P a →
      Covered join r s.contents a ∨ a ∈ f.values.map (·.content) →
        Covered join r (s.insertAll f.values l).1.1.contents a :=
    ⟨hs.insertAll law.toLawfulOn hvalues l, fun a ha h => hs.covered_insertAll law hvalues ha h l⟩
  cases f with
  | value v => exact hall
  | set t =>
    rcases s.union_cases t with ⟨hnil, hcomparer, heq⟩ | heq
    · rw [Feed.into, heq]
      have ht : t.SoundOn P r :=
        ⟨(hreach t rfl).sound, hcomparer.symm.trans hs.comparer_eq, hvalues⟩
      refine ⟨ht, fun a ha h => ?_⟩
      rcases h with ⟨b, hb, -⟩ | h
      · rw [contents, hnil] at hb
        cases hb
      · exact ⟨a, h, Covers.refl law ha⟩
    · rw [Feed.into, heq]
      exact hall

theorem SoundOn.feed (hs : s.SoundOn P r) {fs : List (Feed α)} (hfs : ∀ f ∈ fs, f.Fit P)
    (l : Ledger) :
    (s.feed fs l).1.SoundOn P r ∧ ∀ a, P a → Covered join r s.contents a →
      Covered join r (s.feed fs l).1.contents a := by
  induction fs generalizing s l with
  | nil => exact ⟨hs, fun a _ h => h⟩
  | cons f fs ih =>
    obtain ⟨hf, hrest⟩ := List.forall_mem_cons.mp hfs
    obtain ⟨hnext, hkeeps⟩ := hs.into law hf l
    obtain ⟨hend, hlater⟩ := ih hnext hrest (f.into s l).2
    exact ⟨hend, fun a ha h => hlater a ha (hkeeps a ha (Or.inl h))⟩

theorem SoundOn.into_eq_of_covered (hs : s.SoundOn P r) {f : Feed α} (hf : f.Fit P)
    (h : ∀ v ∈ f.values, Covered join r s.contents v.content) (l : Ledger) :
    f.into s l = ((s, false), l) := by
  obtain ⟨hvalues, hreach⟩ := hf
  cases f with
  | value v =>
    have hv : v ∈ (Feed.value v).values := List.mem_singleton_self v
    exact hs.insert_eq_of_covered law (hvalues v hv) (h v hv) l
  | set t =>
    exact hs.union_eq_of_covered law (hreach t rfl).sound (fun v hv => ⟨hvalues v hv, h v hv⟩) l

/-- Adding again what has been added before does nothing, whatever has come in between. -/
theorem SoundOn.into_again (hs : s.SoundOn P r) {f g : Feed α} (hf : f.Fit P) (hg : g.Fit P)
    (hsame : ∀ v ∈ g.values, v.content ∈ f.values.map (·.content))
    {fs : List (Feed α)} (hfs : ∀ f ∈ fs, f.Fit P) (l l' l'' : Ledger) :
    g.into ((f.into s l).1.1.feed fs l').1 l'' =
      ((((f.into s l).1.1.feed fs l').1, false), l'') := by
  obtain ⟨hfed, hcovers⟩ := hs.into law hf l
  obtain ⟨hlater, hkeeps⟩ := hfed.feed law hfs l'
  apply hlater.into_eq_of_covered law hg
  intro v hv
  have hP := hg.1 v hv
  exact hkeeps _ hP (hcovers _ hP (Or.inr (hsame v hv)))

theorem SoundOn.not_mem_changes (hs : s.SoundOn P r) {xs : List (Value α)}
    (hxs : ∀ x ∈ xs, P x.content) {a : α} (ha : P a) (h : Covered join r s.contents a)
    (l : Ledger) : a ∉ (s.changes xs l).1.map (·.content) := by
  induction xs generalizing s l with
  | nil => exact List.not_mem_nil
  | cons x xs ih =>
    obtain ⟨hx, hrest⟩ := List.forall_mem_cons.mp hxs
    have hnext : Covered join r (s.insert x l).1.1.contents a := by
      rw [hs.contents_insert law hx l]
      exact h.joinInto law hx hs.contents_mem ha
    have hlater := ih (hs.insert law.toLawfulOn hx l) hrest hnext (s.insert x l).2
    by_cases hxa : x.content = a
    · have hquiet := hs.insert_eq_of_covered law hx (hxa ▸ h) l
      rw [hquiet] at hlater
      simpa [changes, hquiet] using hlater
    · simp only [changes, Supply.bind_apply, Supply.pure_apply]
      split_ifs
      · rw [List.map_cons, List.mem_cons]
        exact not_or.mpr ⟨Ne.symm hxa, hlater⟩
      · exact hlater

theorem SoundOn.nodup_changes (hs : s.SoundOn P r) {xs : List (Value α)}
    (hxs : ∀ x ∈ xs, P x.content) (l : Ledger) :
    ((s.changes xs l).1.map (·.content)).Nodup := by
  induction xs generalizing s l with
  | nil => exact List.nodup_nil
  | cons x xs ih =>
    obtain ⟨hx, hrest⟩ := List.forall_mem_cons.mp hxs
    have hs' := hs.insert law.toLawfulOn hx l
    have hlater := ih hs' hrest (s.insert x l).2
    have hcovered : Covered join r (s.insert x l).1.1.contents x.content := by
      rw [hs.contents_insert law hx l]
      exact covered_joinInto_self law hx hs.contents_mem
    have hnot := hs'.not_mem_changes law hrest hx hcovered (s.insert x l).2
    simp only [changes, Supply.bind_apply, Supply.pure_apply]
    split_ifs
    · exact List.nodup_cons.mpr ⟨hnot, hlater⟩
    · exact hlater

end ValueSet

/-- Under a union comparer a content of one of the joinable kinds is news only once: after it
has been inserted and anything else added, a value of that content changes nothing. So in a
run of insertions every content reports at most one change, and adding a set a second time
reports none. -/
theorem insert_again_changes_nothing {s : ValueSet Origin} {r : Strength} (hs : s.Reachable)
    (hr : s.comparer = .union r) (hheld : ∀ v ∈ s.values, Origin.BuiltIn v.content)
    {fs : List (Feed Origin)} (hfs : ∀ f ∈ fs, f.Fit Origin.BuiltIn) :
    (∀ x y : Value Origin, Origin.BuiltIn x.content → y.content = x.content →
      ∀ l l' l'' : Ledger,
        let later := ((s.insert x l).1.1.feed fs l').1
        (later.insert y l'').1.2 = false ∧
          (later.insert y l'').1.1.sharesStorage later = true) ∧
    (∀ xs : List (Value Origin), (∀ x ∈ xs, Origin.BuiltIn x.content) →
      ∀ l : Ledger, ((s.changes xs l).1.map (·.content)).Nodup) ∧
    (∀ t : ValueSet Origin, t.Reachable → (∀ v ∈ t.values, Origin.BuiltIn v.content) →
      ∀ l l' l'' : Ledger, (((s.union t l).1.1.feed fs l').1.union t l'').1.2 = false) := by
  have hon : s.SoundOn Origin.BuiltIn r := ⟨hs.sound, hr, hheld⟩
  refine ⟨?_, ?_, ?_⟩
  · intro x y hx hyx l l' l'' later
    have hfit : ∀ v : Value Origin, Origin.BuiltIn v.content →
        (Feed.value v).Fit Origin.BuiltIn :=
      fun v hv => ⟨List.forall_mem_singleton.mpr hv, by simp⟩
    have hagain : later.insert y l'' = ((later, false), l'') :=
      hon.into_again Origin.joinOn (hfit x hx) (hfit y (hyx ▸ hx))
        (List.forall_mem_singleton.mpr (List.mem_singleton.mpr hyx)) hfs l l' l''
    rw [hagain]
    exact ⟨rfl, later.sharesStorage_self⟩
  · intro xs hxs l
    exact hon.nodup_changes Origin.joinOn hxs l
  · intro t ht htheld l l' l''
    have hfit : (Feed.set t).Fit Origin.BuiltIn := ⟨htheld, fun u hu => Feed.set.inj hu ▸ ht⟩
    have hagain := hon.into_again Origin.joinOn hfit hfit
      (fun v hv => List.mem_map_of_mem hv) hfs l l' l''
    exact congrArg (fun p => p.1.2) hagain

/-- A class that has gone up into a shared ancestor, and then further up, is known still. -/
theorem insert_again_changes_nothing_class :
    let s := (ValueSet.ofList (.union .baseClass) [⟨0, .classObject ⟨"C", ["B", "A"]⟩⟩,
      ⟨1, .constant (.ofInt 1)⟩, ⟨2, .moduleObject ⟨"m"⟩⟩] ⟨10, true⟩).1
    let fs : List (Feed Origin) :=
      [.value ⟨4, .classObject ⟨"E", ["A"]⟩⟩, .set (.singleton ⟨5, .constant (.ofInt 2)⟩)]
    let next := (s.insert ⟨3, .classObject ⟨"D", ["B", "A"]⟩⟩ ⟨20, true⟩).1.1
    let later := (next.feed fs ⟨30, true⟩).1
    s.Reachable ∧ s.comparer = .union .baseClass ∧
      (∀ v ∈ s.values, Origin.BuiltIn v.content) ∧ (∀ f ∈ fs, f.Fit Origin.BuiltIn) ∧
      (later.insert ⟨6, .classObject ⟨"D", ["B", "A"]⟩⟩ ⟨40, true⟩).1.2 = false := by
  intro s fs next later
  have hs : s.Reachable := ValueSet.reachable_ofList _ _ _
  have hr : s.comparer = .union .baseClass := by decide +kernel
  have hheld : ∀ v ∈ s.values, Origin.BuiltIn v.content := by decide +kernel
  have hfs : ∀ f ∈ fs, f.Fit Origin.BuiltIn := by
    simp only [fs, List.forall_mem_cons]
    refine ⟨⟨by simp [Feed.values, Origin.BuiltIn], by simp⟩, ⟨?_, ?_⟩, List.forall_mem_nil _⟩
    · simp [Feed.values, ValueSet.singleton, ValueSet.values, Origin.BuiltIn]
    · rintro t ⟨⟩
      exact ValueSet.reachable_singleton _
  have hagain := (insert_again_changes_nothing hs hr hheld hfs).1
    ⟨3, .classObject ⟨"D", ["B", "A"]⟩⟩ ⟨6, .classObject ⟨"D", ["B", "A"]⟩⟩ trivial rfl
    ⟨20, true⟩ ⟨30, true⟩ ⟨40, true⟩
  exact ⟨hs, hr, hheld, hfs, hagain.1⟩

end AbstractSets
