import AbstractSets.Proofs.Grouping
import AbstractSets.Proofs.Joining

/-!
# Contents of one kind, key by key

Within one kind, being equal at a level often comes down to having the same key: the type of a
constant, the root of a class, the name of a function. The set made from such contents holds one
content per key, in the order in which the keys first occur, and this content is the join of all
those given that have the key, taken from left to right.

What the join of many contents looks like is then a matter of two steps only: a single content,
and one more that is joined in. `Origin.Part.contents_ofList_keyed` says so for any property that
relates contents to what stands for them.
-/

namespace AbstractSets

open Kind

section

variable {β γ K : Type}

def joinClass (join : β → β → β) (g : β × List β) : β := g.2.foldl join g.1

theorem joinClass_concat (join : β → β → β) (g : β × List β) (x : β) :
    joinClass join (g.1, g.2 ++ [x]) = join (joinClass join g) x := by
  simp [joinClass]

theorem classes_induction (equal : β → β → Bool) {motive : List β → Prop} (nil : motive [])
    (cons : ∀ x xs, motive (xs.filter fun y => !equal x y) → motive (x :: xs)) (xs : List β) :
    motive xs := by
  induction hn : xs.length using Nat.strongRecOn generalizing xs with
  | ind n ih =>
    cases xs with
    | nil => exact nil
    | cons x xs =>
      have hle := List.length_filter_le (fun y => !equal x y) xs
      rw [List.length_cons] at hn
      exact cons x xs (ih _ (by omega) _ rfl)

theorem classes_map (equal : γ → γ → Bool) (f : β → γ) (xs : List β) :
    classes equal (xs.map f) =
      (classes (fun x y => equal (f x) (f y)) xs).map (Prod.map f (List.map f)) := by
  induction xs using List.reverseRecOn with
  | nil => simp [classes]
  | append_singleton xs x ih =>
    rw [List.map_append, List.map_singleton, classes_concat, classes_concat, ih]
    symm
    apply map_upsert
    · exact fun g _ => rfl
    · intro g _ _
      simp

variable {equal : β → β → Bool} {key : β → K} [DecidableEq K]
  (hkey : ∀ x y, equal x y = true ↔ key x = key y)

include hkey

theorem map_key_classes (xs : List β) :
    (classes equal xs).map (fun g => key g.1) = (xs.map key).eraseDups := by
  induction xs using classes_induction equal with
  | nil => simp [classes]
  | cons x xs ih =>
    have hothers : (xs.map key).filter (fun k => !k == key x) =
        (xs.filter fun y => !equal x y).map key := by
      rw [List.filter_map]
      congr 2
      funext y
      have hxy := hkey x y
      grind
    rw [classes, List.map_cons, List.map_cons, List.eraseDups_cons, hothers, ih]

theorem cons_eq_filter_of_mem_classes {xs : List β} {g : β × List β}
    (hg : g ∈ classes equal xs) :
    g.1 :: g.2 = xs.filter fun y => key y = key g.1 := by
  induction xs using classes_induction equal with
  | nil => simp [classes] at hg
  | cons x xs ih =>
    rw [classes, List.mem_cons] at hg
    rcases hg with rfl | hg
    · have hsame : xs.filter (equal x) = xs.filter fun y => key y = key x := by
        apply List.filter_congr
        intro y _
        have hxy := hkey x y
        grind
      simp [hsame]
    · have hmembers := ih hg
      have hfirst : g.1 ∈ xs.filter fun y => !equal x y :=
        List.mem_of_mem_filter (hmembers ▸ List.mem_cons_self)
      have hne : key x ≠ key g.1 := by
        have hxg := hkey x g.1
        have hleft := (List.mem_filter.mp hfirst).2
        grind
      rw [hmembers, List.filter_filter, List.filter_cons_of_neg (by simpa using hne)]
      apply List.filter_congr
      intro y _
      have hxy := hkey x y
      grind

end

section

variable {α : Type} [Kind α] [Coherent α] {P : α → Prop} {join : Strength → α → α → α}
  {r : Strength} (law : JoinOn P join)

include law

/-- Joining contents in one after the other comes to joining up each of their classes. -/
theorem joinAll_eq_classes {as : List α} (has : ∀ a ∈ as, P a) :
    (∀ g ∈ classes (unionEq r) as, P g.1 ∧ P (joinClass (join r) g) ∧
      unionEq r g.1 (joinClass (join r) g) = true) ∧
      joinAll join r [] as = (classes (unionEq r) as).map (joinClass (join r)) := by
  have melds := meldsOn law r
  induction as using List.reverseRecOn with
  | nil => simp [classes]
  | append_singleton as a ih =>
    obtain ⟨hbefore, hlast⟩ := List.forall_mem_append.mp has
    have ha : P a := hlast a (List.mem_singleton_self a)
    obtain ⟨hclasses, hjoined⟩ := ih hbefore
    have hmeets : ∀ g ∈ classes (unionEq r) as,
        (unionEq r (joinClass (join r) g) a = true ↔ unionEq r g.1 a = true) := by
      intro g hg
      obtain ⟨hfirst, hjoin, hequal⟩ := hclasses g hg
      exact (equal_congr_left melds hfirst hjoin ha hequal).symm
    rw [classes_concat]
    constructor
    · intro g hg
      rcases mem_upsert hg with hold | rfl | ⟨h, hh, hequal, rfl⟩
      · exact hclasses g hold
      · exact ⟨ha, ha, law.refl ha⟩
      · obtain ⟨hfirst, hjoin, hself⟩ := hclasses h hh
        have htake := (hmeets h hh).mpr hequal
        have hmem := melds.join_mem hjoin ha htake
        rw [joinClass_concat]
        exact ⟨hfirst, hmem,
          law.trans hfirst hjoin hmem hself (melds.equal_join hjoin ha htake)⟩
    · rw [joinAll_append, joinAll_cons, joinAll_nil, hjoined]
      symm
      apply map_upsert
      · exact fun g hg => Bool.eq_iff_iff.mpr (hmeets g hg)
      · exact fun g _ _ => joinClass_concat (join r) g a

end

namespace Origin.Part

variable {s : Strength} {κ K : Type} {embed : κ → Origin} {equal : κ → κ → Bool}
  {rule : κ → κ → Choice κ} {xs : List (Value Origin)} {cs : List κ}

theorem builtIn_of_mem (part : Part s embed equal rule) (cs : List κ) :
    ∀ a ∈ cs.map embed, BuiltIn a := by
  intro a ha
  obtain ⟨c, -, rfl⟩ := List.mem_map.mp ha
  exact part.builtIn c

theorem contents_ofList_eq_joinAll (part : Part s embed equal rule)
    (h : xs.map (·.content) = cs.map embed) (l : Ledger) :
    (ValueSet.ofList (.union s) xs l).1.contents = joinAll join s [] (cs.map embed) := by
  have hxs : ∀ x ∈ xs, BuiltIn x.content :=
    fun x hx => part.builtIn_of_mem cs _ (h ▸ List.mem_map_of_mem hx)
  rw [ValueSet.contents_ofList joinOn hxs, h]

/-- What is true of all the contents given, and stays true when equal ones are joined, is true of
all that the set holds. -/
theorem forall_contents_ofList (part : Part s embed equal rule) {Q : κ → Prop}
    (hcs : ∀ c ∈ cs, Q c)
    (hjoin : ∀ x y, Q x → equal x y = true → Q (Choice.join rule x y))
    (h : xs.map (·.content) = cs.map embed) (l : Ledger) :
    ∀ a ∈ (ValueSet.ofList (.union s) xs l).1.contents, ∃ d, Q d ∧ embed d = a := by
  have hstep {a b : Origin} (ha : ∃ x, Q x ∧ embed x = a) (hb : ∃ y, Q y ∧ embed y = b)
      (hequal : Kind.unionEq s a b = true) : ∃ d, Q d ∧ embed d = join s a b := by
    obtain ⟨x, hx, rfl⟩ := ha
    obtain ⟨y, -, rfl⟩ := hb
    have hxy : equal x y = true := (part.unionEq_eq x y).symm.trans hequal
    exact ⟨_, hjoin x y hx hxy, (part.join_eq x y).symm⟩
  have hgiven : ∀ a ∈ cs.map embed, ∃ d, Q d ∧ embed d = a := by
    intro a ha
    obtain ⟨c, hc, rfl⟩ := List.mem_map.mp ha
    exact ⟨c, hcs c hc, rfl⟩
  rw [part.contents_ofList_eq_joinAll h l]
  exact joinAll_mem_of_join hstep hgiven (List.forall_mem_nil _)

theorem contents_ofList (part : Part s embed equal rule)
    (h : xs.map (·.content) = cs.map embed) (l : Ledger) :
    (ValueSet.ofList (.union s) xs l).1.contents =
      ((classes equal cs).map (joinClass (Choice.join rule))).map embed := by
  have hequal : (fun x y => Kind.unionEq s (embed x) (embed y)) = equal :=
    funext fun x => funext fun y => part.unionEq_eq x y
  rw [part.contents_ofList_eq_joinAll h l,
    (joinAll_eq_classes joinOn (part.builtIn_of_mem cs)).2, classes_map, hequal, List.map_map,
    List.map_map]
  apply List.map_congr_left
  intro g _
  change (g.2.map embed).foldl (join s) (embed g.1) = embed (g.2.foldl (Choice.join rule) g.1)
  rw [List.foldl_map]
  exact List.foldl_hom embed fun x y => part.join_eq x y

variable [DecidableEq K] {key : κ → K} (hkey : ∀ x y, equal x y = true ↔ key x = key y)
  {StandsFor : κ → List κ → Prop}

include hkey

omit [DecidableEq K] in
theorem standsFor_foldl (part : Part s embed equal rule)
    (hjoin : ∀ d ms x, StandsFor d ms → key d = key x →
      StandsFor (Choice.join rule d x) (ms ++ [x]))
    {d : κ} {ms ys : List κ} (hd : StandsFor d ms) (hys : ∀ y ∈ ys, key y = key d) :
    StandsFor (ys.foldl (Choice.join rule) d) (ms ++ ys) ∧
      key (ys.foldl (Choice.join rule) d) = key d := by
  induction ys generalizing d ms with
  | nil =>
    rw [List.append_nil]
    exact ⟨hd, rfl⟩
  | cons y ys ih =>
    obtain ⟨hy, hrest⟩ := List.forall_mem_cons.mp hys
    have hsame : key (Choice.join rule d y) = key d :=
      ((hkey _ _).mp (part.joins.equal_join ((hkey d y).mpr hy.symm))).symm
    obtain ⟨hall, hkeeps⟩ := ih (hjoin d ms y hd hy.symm) fun z hz => (hrest z hz).trans hsame.symm
    rw [List.append_assoc, List.singleton_append] at hall
    exact ⟨hall, hkeeps.trans hsame⟩

/-- Where being equal means having the same key, a set made from contents of one kind holds one
content for each key, in the order of their first occurrence. It stands for all the given ones
of its key, if that is true of a single one and stays true when one more is joined in. -/
theorem contents_ofList_keyed (part : Part s embed equal rule)
    (hone : ∀ x, StandsFor x [x])
    (hjoin : ∀ d ms x, StandsFor d ms → key d = key x →
      StandsFor (Choice.join rule d x) (ms ++ [x]))
    (h : xs.map (·.content) = cs.map embed) (l : Ledger) :
    ∃ ds : List κ, (ValueSet.ofList (.union s) xs l).1.contents = ds.map embed ∧
      ds.map key = (cs.map key).eraseDups ∧
      ∀ d ∈ ds, StandsFor d (cs.filter fun c => key c = key d) := by
  have hclass : ∀ g ∈ classes equal cs,
      StandsFor (joinClass (Choice.join rule) g) (cs.filter fun c => key c = key g.1) ∧
        key (joinClass (Choice.join rule) g) = key g.1 := by
    intro g hg
    have hmembers := cons_eq_filter_of_mem_classes hkey hg
    have hlater : ∀ y ∈ g.2, key y = key g.1 := by
      intro y hy
      have hmem : y ∈ cs.filter fun c => key c = key g.1 :=
        hmembers ▸ List.mem_cons_of_mem g.1 hy
      simpa using (List.mem_filter.mp hmem).2
    rw [← hmembers]
    exact part.standsFor_foldl hkey hjoin (hone g.1) hlater
  refine ⟨_, part.contents_ofList h l, ?_, ?_⟩
  · rw [List.map_map, ← map_key_classes hkey]
    exact List.map_congr_left fun g hg => (hclass g hg).2
  · intro d hd
    obtain ⟨g, hg, rfl⟩ := List.mem_map.mp hd
    rw [(hclass g hg).2]
    exact (hclass g hg).1

omit [DecidableEq K] hkey in
/-- Where any two contents of a kind are equal, a set made from some of them holds one content,
which stands for all of them. -/
theorem contents_ofList_single (part : Part s embed equal rule)
    (hequal : ∀ x y, equal x y = true) (hone : ∀ x, StandsFor x [x])
    (hjoin : ∀ d ms x, StandsFor d ms → StandsFor (Choice.join rule d x) (ms ++ [x]))
    (h : xs.map (·.content) = cs.map embed) (hcs : cs ≠ []) (l : Ledger) :
    ∃ d : κ, (ValueSet.ofList (.union s) xs l).1.contents = [embed d] ∧ StandsFor d cs := by
  have hkey : ∀ x y, equal x y = true ↔ () = () := fun x y => iff_of_true (hequal x y) rfl
  obtain ⟨ds, hcontents, hkeys, hstand⟩ :=
    part.contents_ofList_keyed hkey hone (fun d ms x hd _ => hjoin d ms x hd) h l
  obtain ⟨c, cs, rfl⟩ := List.exists_cons_of_ne_nil hcs
  have hlength : ds.length = 1 := by
    simpa [List.eraseDups_cons] using congrArg List.length hkeys
  obtain ⟨d, rfl⟩ := List.length_eq_one_iff.mp hlength
  have hd := hstand d (List.mem_singleton_self d)
  rw [List.filter_eq_self.mpr (by simp)] at hd
  exact ⟨d, hcontents, hd⟩

end Origin.Part

end AbstractSets
