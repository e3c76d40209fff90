import AbstractSets.Workspace
import AbstractSets.Proofs.Allocation

/-!
# Sharing and isolation

Calls on a workspace go by names. Some make sets and keep them under names, copies included,
so that several names may refer to one table; others change the set of a name in place, and
then its table as well if no other name refers to it.

A workspace stays consistent under all of them: every name refers to a table that is there,
under the stamp it has, and all stamps have been drawn. A call then shows only through the
names it writes to. What is kept in the tables of other names stays, because a new table never
gets a stamp that is in use, and a table is written to only by its last owner. The sets kept are
sound all along, since every call makes sound sets from sound ones.
-/

namespace AbstractSets

variable {α : Type}

namespace ValueSet

def view (s : ValueSet α) : Comparer × List (Value α) := (s.comparer, s.values)

theorem LivesIn.view_eq [DecidableEq α] {h : Heap α} {s s' : ValueSet α} (hs : s.LivesIn h)
    (hs' : s'.LivesIn h) (hshared : s.sharesStorage s' = true) : s.view = s'.view := by
  cases s with
  | empty c =>
    cases s' with
    | empty d => simp_all [sharesStorage, view, comparer, values]
    | _ => cases hshared
  | one v c =>
    cases s' with
    | one w d => simp_all [sharesStorage, view, comparer, values]
    | _ => cases hshared
  | two v w c =>
    cases s' with
    | two v' w' d => simp_all [sharesStorage, view, comparer, values]
    | _ => cases hshared
  | many t =>
    cases s' with
    | many u =>
      have hstamp : t.stamp = u.stamp := by simpa [sharesStorage] using hshared
      have htu : some t = some u := by rw [← hs t rfl, hstamp, hs' u rfl]
      rw [Option.some.inj htu]
    | _ => cases hshared

end ValueSet

namespace Workspace

variable {ws ws' ws'' : Workspace α}

def heap (ws : Workspace α) : Heap α := fun n => ws.tables[n]?

structure Consistent (ws : Workspace α) : Prop where
  issued : ws.heap.Issued ws.ledger
  resolved {name : String} {n : Nat} :
    ws.handles[name]? = some (.many n) → ∃ t, ws.heap n = some t

/-- `ws'` is consistent, and only `names` may show another set than in `ws`. -/
structure Frames (names : List String) (ws ws' : Workspace α) : Prop where
  consistent : ws'.Consistent
  get?_eq : ∀ name ∉ names, ws'.get? name = ws.get? name

theorem Consistent.frames_self (hws : ws.Consistent) (names : List String) :
    Frames names ws ws :=
  ⟨hws, fun _ _ => rfl⟩

theorem Frames.trans {names names' : List String} (hframes : Frames names ws ws')
    (hframes' : Frames names' ws' ws'') : Frames (names ++ names') ws ws'' := by
  refine ⟨hframes'.consistent, fun name hname => ?_⟩
  rw [List.mem_append, not_or] at hname
  exact (hframes'.get?_eq name hname.2).trans (hframes.get?_eq name hname.1)

theorem consistent_start (l : Ledger) : ({ start with ledger := l } : Workspace α).Consistent where
  issued := by simp [Heap.Issued, heap, start]
  resolved := by simp [start]

theorem Consistent.handle_of_get? (hws : ws.Consistent) {name : String} {t : Table α}
    (hget : ws.get? name = some (.many t)) :
    ws.handles[name]? = some (.many t.stamp) ∧ ws.heap t.stamp = some t := by
  obtain ⟨hd, hhd, hresolve⟩ := Option.bind_eq_some_iff.mp hget
  cases hd with
  | many n =>
    obtain ⟨u, hu, hut⟩ := Option.map_eq_some_iff.mp hresolve
    obtain rfl : u = t := ValueSet.many.inj hut
    obtain ⟨rfl, -⟩ := hws.issued n u hu
    exact ⟨hhd, hu⟩
  | _ => cases hresolve

theorem Consistent.livesIn (hws : ws.Consistent) {name : String} {s : ValueSet α}
    (hget : ws.get? name = some s) : s.LivesIn ws.heap := by
  rintro t rfl
  exact (hws.handle_of_get? hget).2

theorem Consistent.withLedger (hws : ws.Consistent) {h : Heap α} (hext : h.Extends ws.heap)
    {l : Ledger} (hissued : h.Issued l) : ({ ws with ledger := l } : Workspace α).Consistent :=
  ⟨fun n t hn => hissued n t (hext n t hn), hws.resolved⟩

/-- Let a name refer to something else, among tables that other names see as before. -/
def rebind (ws : Workspace α) (name : String) (hd : Handle α)
    (tables : Std.TreeMap Nat (Table α)) : Workspace α :=
  { ws with tables, handles := ws.handles.insert name hd }

theorem Consistent.rebind (hws : ws.Consistent) {name : String} {hd : Handle α}
    {tables : Std.TreeMap Nat (Table α)} (hissued : Heap.Issued (tables[·]?) ws.ledger)
    (hhd : ∀ n, hd = .many n → ∃ t, tables[n]? = some t)
    (hkeep : ∀ other n t, other ≠ name → ws.handles[other]? = some (.many n) →
      ws.heap n = some t → tables[n]? = some t) :
    Frames [name] ws (ws.rebind name hd tables) := by
  have hhandle : ∀ other, other ≠ name →
      (ws.handles.insert name hd)[other]? = ws.handles[other]? := by
    intro other hne
    simp [Std.TreeMap.getElem?_insert, Ne.symm hne]
  refine ⟨⟨hissued, ?_⟩, ?_⟩
  · intro other n hother
    by_cases hne : other = name
    · subst hne
      have hsame : (ws.handles.insert other hd)[other]? = some hd :=
        Std.TreeMap.getElem?_insert_self
      exact hhd n (Option.some.inj (hsame.symm.trans hother))
    · have hold := (hhandle other hne).symm.trans hother
      obtain ⟨t, ht⟩ := hws.resolved hold
      exact ⟨t, hkeep other n t hne hold ht⟩
  · intro other hne
    rw [List.mem_singleton] at hne
    change (ws.handles.insert name hd)[other]?.bind _ = ws.handles[other]?.bind _
    rw [hhandle other hne]
    cases hother : ws.handles[other]? with
    | none => rfl
    | some hd' =>
      cases hd' with
      | many n =>
        obtain ⟨t, ht⟩ := hws.resolved hother
        change tables[n]?.map ValueSet.many = ws.tables[n]?.map ValueSet.many
        rw [hkeep other n t hne hother ht]
        exact congrArg (Option.map ValueSet.many) ht.symm
      | _ => rfl

@[simp] theorem ledger_put (ws : Workspace α) (name : String) (s : ValueSet α) :
    (ws.put name s).ledger = ws.ledger := by
  cases s <;> rfl

theorem get?_put_self (ws : Workspace α) (name : String) (s : ValueSet α) :
    (ws.put name s).get? name = some s := by
  cases s <;> simp [put, get?, resolve?]

theorem getElem?_insert_table (tables : Std.TreeMap Nat (Table α)) (n m : Nat) (t : Table α) :
    (tables.insert n t)[m]? = if n = m then some t else tables[m]? := by
  simp [Std.TreeMap.getElem?_insert]

theorem Consistent.put (hws : ws.Consistent) {h : Heap α} (hext : h.Extends ws.heap)
    (hissued : h.Issued ws.ledger) {s : ValueSet α} (hs : s.LivesIn h) (name : String) :
    Frames [name] ws (ws.put name s) ∧ h.Extends (ws.put name s).heap := by
  cases s with
  | many t =>
    have hext' : h.Extends (ws.put name (.many t)).heap := by
      intro n u hn
      change (ws.tables.insert t.stamp t)[n]? = some u at hn
      rw [getElem?_insert_table] at hn
      split_ifs at hn with hstamp
      · rw [← hn, ← hstamp]
        exact hs t rfl
      · exact hext n u hn
    refine ⟨hws.rebind (fun n u hn => hissued n u (hext' n u hn)) ?_ ?_, hext'⟩
    · rintro n ⟨⟩
      exact ⟨t, Std.TreeMap.getElem?_insert_self⟩
    · intro other n u _ _ hn
      rw [getElem?_insert_table]
      split_ifs with hstamp
      · rw [← hs t rfl, hstamp, hext n u hn]
      · exact hn
  | _ => exact ⟨hws.rebind hws.issued nofun fun _ _ _ _ _ hn => hn, hext⟩

theorem two_le_owners {name other : String} {n : Nat} (hne : other ≠ name)
    (hname : ws.handles[name]? = some (.many n))
    (hother : ws.handles[other]? = some (.many n)) : 2 ≤ ws.owners n := by
  have hmem : ∀ {key : String}, ws.handles[key]? = some (.many n) →
      (key, .many n) ∈ ws.handles.toList.filter (·.2.refersTo n) := by
    intro key hkey
    refine List.mem_filter.mpr ⟨Std.TreeMap.mem_toList_iff_getElem?_eq_some.mpr hkey, ?_⟩
    exact beq_self_eq_true n
  rw [owners, List.countP_eq_length_filter]
  match hlist : ws.handles.toList.filter (·.2.refersTo n) with
  | [] =>
    have hnil := hmem hname
    rw [hlist] at hnil
    cases hnil
  | [p] =>
    have hp := hmem hname
    have hp' := hmem hother
    rw [hlist, List.mem_singleton] at hp hp'
    exact absurd (congrArg Prod.fst (hp'.trans hp.symm)) hne
  | _ :: _ :: _ =>
    rw [hlist]
    exact Nat.le_add_left 2 _

/-- Writing a changed set back shows under its own name only, whether its table is written to
or left alone. -/
theorem Consistent.writeBack (hws : ws.Consistent) {h : Heap α} (hext : h.Extends ws.heap)
    (hissued : h.Issued ws.ledger) {name : String} {before after : ValueSet α}
    (hget : ws.get? name = some before) (hafter : after.LivesIn h) :
    Frames [name] ws (ws.writeBack name before after) ∧
      ∃ s, (ws.writeBack name before after).get? name = some s ∧ s.view = after.view := by
  have hput : Frames [name] ws (ws.put name after) ∧
      ∃ s, (ws.put name after).get? name = some s ∧ s.view = after.view :=
    ⟨(hws.put hext hissued hafter name).1, after, get?_put_self ws name after, rfl⟩
  unfold Workspace.writeBack
  split
  next t u =>
    split_ifs with hsole
    · -- No other name refers to the table, so none sees that it is written to.
      obtain ⟨hhandle, htable⟩ := hws.handle_of_get? hget
      have hsole' : ws.owners t.stamp = 1 := by simp_all
      refine ⟨hws.rebind ?_ ?_ ?_, _, get?_put_self ws name _, rfl⟩
      · intro n v hn
        simp only [getElem?_insert_table] at hn
        split_ifs at hn with hstamp
        · rw [← Option.some.inj hn]
          exact ⟨hstamp, hstamp ▸ (hws.issued _ t htable).2⟩
        · exact hws.issued n v hn
      · rintro n ⟨⟩
        exact ⟨_, Std.TreeMap.getElem?_insert_self⟩
      · intro other n v hne hother hn
        rw [getElem?_insert_table]
        split_ifs with hstamp
        · have howners := two_le_owners hne hhandle (hstamp ▸ hother)
          omega
        · exact hn
    · exact hput
  next => exact hput

theorem Consistent.update? {β : Type} (hws : ws.Consistent) {name : String} {s : ValueSet α}
    {change : ValueSet α → Supply (ValueSet α × β)} (hget : ws.get? name = some s)
    (hchange : (change s).Allocates ws.heap fun p => [p.1]) :
    ∃ answer ws', ws.update? name change = some (answer, ws') ∧ Frames [name] ws ws' ∧
      ∃ t, ws'.get? name = some t ∧ t.view = (change s ws.ledger).1.1.view := by
  obtain ⟨h, hext, hissued, hsets⟩ := hchange ws.ledger hws.issued
  have hdrawn := hws.withLedger hext hissued
  obtain ⟨hframes, hview⟩ := hdrawn.writeBack hext hissued hget (hsets _ List.mem_cons_self)
  refine ⟨(change s ws.ledger).1.2, _, ?_, ⟨hframes.consistent, hframes.get?_eq⟩, hview⟩
  rw [Workspace.update?, hget]
  rfl

end Workspace

inductive Change (α : Type) where
  | insert (v : Value α)
  | extend (vs : List (Value α))
  | join (other : String)

inductive Call (α : Type) : Type 1 where
  | copy (name target : String)
  | drop (name : String)
  | update (name : String) (change : Change α)
  /-- Make sets from those of `names`, and keep the ones that have a place in `targets`. -/
  | make (op : Operation α) (names : List String) (targets : List (Option String))

/-- The names that a call writes to. -/
def Call.written : Call α → List String
  | copy _ target => [target]
  | drop name => [name]
  | update name _ => [name]
  | make _ _ targets => targets.filterMap id

namespace Workspace

def putAll (ws : Workspace α) : List (Option String × ValueSet α) → Workspace α
  | [] => ws
  | (some name, s) :: rest => (ws.put name s).putAll rest
  | (none, _) :: rest => ws.putAll rest

variable [DecidableEq α] [Kind α]

def action? (ws : Workspace α) : Change α → Option (ValueSet α → Supply (ValueSet α × Bool))
  | .insert v => some (·.insert v)
  | .extend vs => some (·.insertAll vs)
  | .join other => (ws.get? other).map fun t s => s.union t

/-- Make a call. One that asks for the set of a name not in use changes nothing. -/
def call (ws : Workspace α) : Call α → Workspace α
  | .copy name target => (ws.get? name).elim ws (ws.put target)
  | .drop name => { ws with handles := ws.handles.erase name }
  | .update name change => ((ws.action? change).bind (ws.update? name)).elim ws (·.2)
  | .make op names targets => (names.mapM ws.get?).elim ws fun pool =>
      let (sets, ws) := ws.draw (op.apply pool)
      ws.putAll (targets.zip sets)

variable {ws : Workspace α}

omit [DecidableEq α] [Kind α] in
theorem Consistent.putAll (hws : ws.Consistent) {h : Heap α} (hext : h.Extends ws.heap)
    (hissued : h.Issued ws.ledger) {sets : List (Option String × ValueSet α)}
    (hsets : ∀ p ∈ sets, p.2.LivesIn h) :
    Frames (sets.filterMap (·.1)) ws (ws.putAll sets) := by
  induction sets generalizing ws with
  | nil => exact hws.frames_self _
  | cons p sets ih =>
    obtain ⟨hp, hrest⟩ := List.forall_mem_cons.mp hsets
    match p with
    | (none, s) => exact ih hws hext hissued hrest
    | (some name, s) =>
      obtain ⟨hframes, hext'⟩ := hws.put hext hissued hp name
      have hissued' : h.Issued (ws.put name s).ledger := by rwa [ledger_put]
      exact hframes.trans (ih hframes.consistent hext' hissued' hrest)

omit [DecidableEq α] [Kind α] in
theorem Consistent.erase (hws : ws.Consistent) (name : String) :
    Frames [name] ws { ws with handles := ws.handles.erase name } := by
  have hhandle : ∀ other, other ≠ name → (ws.handles.erase name)[other]? = ws.handles[other]? := by
    intro other hne
    simp [Std.TreeMap.getElem?_erase, Ne.symm hne]
  refine ⟨⟨hws.issued, fun {other n} hother => ?_⟩, fun other hne => ?_⟩
  · by_cases hne : other = name
    · have hnone : (ws.handles.erase name)[name]? = none := Std.TreeMap.getElem?_erase_self
      rw [hne, hnone] at hother
      cases hother
    · exact hws.resolved ((hhandle other hne).symm.trans hother)
  · exact congrArg (·.bind ws.resolve?) (hhandle other (mt List.mem_singleton.mpr hne))

omit [DecidableEq α] [Kind α] in
theorem exists_get?_of_mapM {names : List String} {pool : List (ValueSet α)}
    (hpool : names.mapM ws.get? = some pool) :
    ∀ s ∈ pool, ∃ name ∈ names, ws.get? name = some s := by
  induction names generalizing pool with
  | nil =>
    obtain rfl : pool = [] := by simpa [eq_comm] using hpool
    exact List.forall_mem_nil _
  | cons name names ih =>
    rw [List.mapM_cons] at hpool
    obtain ⟨s, hs, htail⟩ := Option.bind_eq_some_iff.mp hpool
    obtain ⟨rest, hrest, heq⟩ := Option.bind_eq_some_iff.mp htail
    obtain rfl : s :: rest = pool := Option.some.inj heq
    refine List.forall_mem_cons.mpr ⟨⟨name, List.mem_cons_self, hs⟩, fun t ht => ?_⟩
    obtain ⟨other, hother, hget⟩ := ih hrest t ht
    exact ⟨other, List.mem_cons_of_mem name hother, hget⟩

omit [DecidableEq α] [Kind α] in
theorem Consistent.livesIn_of_mapM (hws : ws.Consistent) {names : List String}
    {pool : List (ValueSet α)} (hpool : names.mapM ws.get? = some pool) :
    ∀ s ∈ pool, s.LivesIn ws.heap := by
  intro s hs
  obtain ⟨name, -, hget⟩ := exists_get?_of_mapM hpool s hs
  exact hws.livesIn hget

theorem Consistent.allocates_action (hws : ws.Consistent) {change : Change α}
    {action : ValueSet α → Supply (ValueSet α × Bool)} (haction : ws.action? change = some action)
    {s : ValueSet α} (hs : s.LivesIn ws.heap) :
    (action s).Allocates ws.heap fun p => [p.1] := by
  cases change with
  | insert v =>
    cases haction
    exact hs.allocates_insert v
  | extend vs =>
    cases haction
    exact hs.allocates_insertAll vs
  | join other =>
    obtain ⟨t, ht, rfl⟩ := Option.map_eq_some_iff.mp haction
    exact hs.allocates_union (hws.livesIn ht)

theorem Consistent.call_update (hws : ws.Consistent) {name : String} {change : Change α}
    {action : ValueSet α → Supply (ValueSet α × Bool)} (haction : ws.action? change = some action)
    {s : ValueSet α} (hget : ws.get? name = some s) :
    Frames [name] ws (ws.call (.update name change)) ∧
      ∃ t, (ws.call (.update name change)).get? name = some t ∧
        t.view = (action s ws.ledger).1.1.view := by
  obtain ⟨answer, ws', hws', hupdate⟩ :=
    hws.update? hget (hws.allocates_action haction (hws.livesIn hget))
  have hcall : ws.call (.update name change) = ws' := by
    rw [call, haction, Option.bind_some, hws', Option.elim_some]
  rw [hcall]
  exact hupdate

theorem Consistent.call (hws : ws.Consistent) (c : Call α) :
    Frames c.written ws (ws.call c) := by
  cases c with
  | copy name target =>
    rw [Workspace.call]
    cases hget : ws.get? name with
    | none => exact hws.frames_self _
    | some s => exact (hws.put (.refl _) hws.issued (hws.livesIn hget) target).1
  | drop name => exact hws.erase name
  | update name change =>
    cases haction : ws.action? change with
    | none =>
      rw [Workspace.call, haction]
      exact hws.frames_self _
    | some action =>
      cases hget : ws.get? name with
      | none =>
        rw [Workspace.call, haction, Option.bind_some, Workspace.update?, hget]
        exact hws.frames_self _
      | some s => exact (hws.call_update haction hget).1
  | make op names targets =>
    rw [Workspace.call]
    cases hpool : names.mapM ws.get? with
    | none => exact hws.frames_self _
    | some pool =>
      obtain ⟨h, hext, hissued, hsets⟩ :=
        op.allocates_apply (hws.livesIn_of_mapM hpool) ws.ledger hws.issued
      have hkept : ∀ p ∈ targets.zip (op.apply pool ws.ledger).1, p.2.LivesIn h :=
        fun p hp => hsets p.2 (List.of_mem_zip hp).2
      have hframes := (hws.withLedger hext hissued).putAll hext hissued hkept
      refine ⟨hframes.consistent, fun name hname => hframes.get?_eq name ?_⟩
      contrapose! hname
      obtain ⟨p, hp, hpname⟩ := List.mem_filterMap.mp hname
      exact List.mem_filterMap.mpr ⟨p.1, (List.of_mem_zip hp).1, hpname⟩

theorem Consistent.foldl_call (hws : ws.Consistent) (cs : List (Call α)) :
    (cs.foldl Workspace.call ws).Consistent := by
  induction cs generalizing ws with
  | nil => exact hws
  | cons c cs ih => exact ih (hws.call c).consistent

/-- All tables are sound, and so are all sets that names stand for. -/
structure Sound (ws : Workspace α) : Prop where
  table {n : Nat} {t : Table α} : ws.tables[n]? = some t → (ValueSet.many t).Sound
  set {name : String} {hd : Handle α} {s : ValueSet α} :
    ws.handles[name]? = some hd → ws.resolve? hd = some s → s.Sound

theorem sound_start (l : Ledger) : ({ start with ledger := l } : Workspace α).Sound where
  table := by simp [start]
  set := by simp [start]

theorem Sound.of_get? (hws : ws.Sound) {name : String} {s : ValueSet α}
    (hget : ws.get? name = some s) : s.Sound := by
  obtain ⟨hd, hhd, hresolve⟩ := Option.bind_eq_some_iff.mp hget
  exact hws.set hhd hresolve

theorem Sound.of_mapM (hws : ws.Sound) {names : List String} {pool : List (ValueSet α)}
    (hpool : names.mapM ws.get? = some pool) : ∀ s ∈ pool, s.Sound := by
  intro s hs
  obtain ⟨name, -, hget⟩ := exists_get?_of_mapM hpool s hs
  exact hws.of_get? hget

theorem Sound.rebind (hws : ws.Sound) {name : String} {hd : Handle α}
    {tables : Std.TreeMap Nat (Table α)}
    (htables : ∀ (n : Nat) (t : Table α), tables[n]? = some t → (ValueSet.many t).Sound)
    (hhd : ∀ s, (ws.rebind name hd tables).resolve? hd = some s → s.Sound) :
    (ws.rebind name hd tables).Sound where
  table hn := htables _ _ hn
  set {other hd' s} hother hresolve := by
    change (ws.handles.insert name hd)[other]? = some hd' at hother
    rw [Std.TreeMap.getElem?_insert] at hother
    split_ifs at hother
    · rw [← Option.some.inj hother] at hresolve
      exact hhd s hresolve
    · cases hd' with
      | many n =>
        obtain ⟨t, ht, rfl⟩ := Option.map_eq_some_iff.mp hresolve
        exact htables n t ht
      | _ => exact hws.set hother hresolve

theorem Sound.put (hws : ws.Sound) {s : ValueSet α} (hs : s.Sound) (name : String) :
    (ws.put name s).Sound := by
  cases s with
  | many t =>
    have htables : ∀ (n : Nat) (u : Table α), (ws.tables.insert t.stamp t)[n]? = some u →
        (ValueSet.many u).Sound := by
      intro n u hn
      rw [getElem?_insert_table] at hn
      split_ifs at hn
      · exact Option.some.inj hn ▸ hs
      · exact hws.table hn
    refine hws.rebind htables fun s hresolve => ?_
    obtain ⟨u, hu, rfl⟩ := Option.map_eq_some_iff.mp hresolve
    exact htables _ u hu
  | _ =>
    refine hws.rebind (fun n t hn => hws.table hn) fun s hresolve => ?_
    obtain rfl := Option.some.inj hresolve
    exact hs

theorem Sound.writeBack (hws : ws.Sound) {after : ValueSet α} (hafter : after.Sound)
    (name : String) (before : ValueSet α) : (ws.writeBack name before after).Sound := by
  unfold Workspace.writeBack
  split
  next t u =>
    split_ifs
    · exact hws.put (s := .many { u with stamp := t.stamp }) ⟨hafter.1.withStamp _, hafter.2⟩ name
    · exact hws.put hafter name
  next => exact hws.put hafter name

theorem Sound.putAll (hws : ws.Sound) {sets : List (Option String × ValueSet α)}
    (hsets : ∀ p ∈ sets, p.2.Sound) : (ws.putAll sets).Sound := by
  induction sets generalizing ws with
  | nil => exact hws
  | cons p sets ih =>
    obtain ⟨hp, hrest⟩ := List.forall_mem_cons.mp hsets
    obtain ⟨target, s⟩ := p
    cases target with
    | none => exact ih hws hrest
    | some name => exact ih (hws.put hp name) hrest

theorem Sound.erase (hws : ws.Sound) (name : String) :
    ({ ws with handles := ws.handles.erase name } : Workspace α).Sound where
  table := hws.table
  set {other hd s} hother hresolve := by
    rw [Std.TreeMap.getElem?_erase] at hother
    split_ifs at hother
    exact hws.set hother hresolve

theorem Sound.withLedger (hws : ws.Sound) (l : Ledger) :
    ({ ws with ledger := l } : Workspace α).Sound :=
  ⟨hws.table, hws.set⟩

section

variable [Kind.Coherent α]

theorem Sound.sound_action (hws : ws.Sound) {change : Change α}
    {action : ValueSet α → Supply (ValueSet α × Bool)} (haction : ws.action? change = some action)
    {s : ValueSet α} (hs : s.Sound) (l : Ledger) : (action s l).1.1.Sound := by
  cases change with
  | insert v =>
    cases haction
    exact (hs.gives_insert v l).1.1
  | extend vs =>
    cases haction
    exact (hs.gives_insertAll vs l).1.1
  | join other =>
    obtain ⟨t, ht, rfl⟩ := Option.map_eq_some_iff.mp haction
    exact (hs.gives_union (hws.of_get? ht) l).1.1

theorem Sound.call (hws : ws.Sound) (c : Call α) : (ws.call c).Sound := by
  cases c with
  | copy name target =>
    rw [Workspace.call]
    cases hget : ws.get? name with
    | none => exact hws
    | some s => exact hws.put (hws.of_get? hget) target
  | drop name => exact hws.erase name
  | update name change =>
    rw [Workspace.call]
    cases haction : ws.action? change with
    | none => exact hws
    | some action =>
      rw [Option.bind_some, Workspace.update?]
      cases hget : ws.get? name with
      | none => exact hws
      | some s =>
        have hafter := hws.sound_action haction (hws.of_get? hget) ws.ledger
        exact (hws.withLedger _).writeBack hafter name s
  | make op names targets =>
    rw [Workspace.call]
    cases hpool : names.mapM ws.get? with
    | none => exact hws
    | some pool =>
      have hmade := (op.gives_apply (hws.of_mapM hpool) ws.ledger).1
      exact (hws.withLedger _).putAll fun p hp => (hmade p.2 (List.of_mem_zip hp).2).1

theorem Sound.foldl_call (hws : ws.Sound) (cs : List (Call α)) :
    (cs.foldl Workspace.call ws).Sound := by
  induction cs generalizing ws with
  | nil => exact hws
  | cons c cs ih => exact ih (hws.call c)

end

/-- Whatever calls have been made, the next one leaves the sets of all names that it does not
write to as they are, although several names may share a table; a change in place is seen
under its own name; and names that share storage always show the same comparer and the same
values in the same order. -/
theorem calls_keep_names_apart (cs : List (Call α)) (c : Call α) (l : Ledger) :
    let ws := cs.foldl call { start with ledger := l }
    (∀ name ∉ c.written, (ws.call c).get? name = ws.get? name) ∧
    (∀ name change action s, c = .update name change → ws.action? change = some action →
      ws.get? name = some s → ∃ t, (ws.call c).get? name = some t ∧
        t.comparer = (action s ws.ledger).1.1.comparer ∧
        t.values = (action s ws.ledger).1.1.values) ∧
    ∀ name other s t, ws.get? name = some s → ws.get? other = some t →
      s.sharesStorage t = true → s.comparer = t.comparer ∧ s.values = t.values := by
  intro ws
  have hws : ws.Consistent := (consistent_start l).foldl_call cs
  refine ⟨(hws.call c).get?_eq, ?_, ?_⟩
  · rintro name change action s rfl haction hget
    obtain ⟨-, t, ht, hview⟩ := hws.call_update haction hget
    exact ⟨t, ht, Prod.mk.inj hview⟩
  · intro name other s t hs ht hshared
    exact Prod.mk.inj ((hws.livesIn hs).view_eq (hws.livesIn ht) hshared)

/-- Two names share a table of three values, until one of them gets a fourth. -/
theorem calls_keep_names_apart_copies :
    let cs : List (Call Origin) :=
      [.make (.ofList .identity
        [⟨0, .interval ⟨0, 1⟩⟩, ⟨1, .interval ⟨3, 4⟩⟩, ⟨2, .interval ⟨6, 7⟩⟩]) [] [some "a"],
        .copy "a" "b"]
    let c : Call Origin := .update "a" (.insert ⟨3, .interval ⟨0, 1⟩⟩)
    let ws := cs.foldl call { start with ledger := ⟨4, true⟩ }
    ∃ s t u, ws.get? "a" = some s ∧ ws.get? "b" = some t ∧ (ws.call c).get? "a" = some u ∧
      s.sharesStorage t = true ∧ s.values = t.values ∧ (ws.call c).get? "b" = some t ∧
      u.values.map (·.id) = [0, 1, 2, 3] := by
  intro cs c ws
  obtain ⟨hothers, hown, hshared⟩ := calls_keep_names_apart cs c ⟨4, true⟩
  obtain ⟨u, hu, -, hvalues⟩ := hown "a" (.insert _) _ _ rfl rfl rfl
  refine ⟨_, _, u, rfl, rfl, hu, by decide +kernel, ?_, hothers "b" (by decide), ?_⟩
  · exact (hshared "a" "b" _ _ rfl rfl (by decide +kernel)).2
  · rw [hvalues]
    decide +kernel

end Workspace

end AbstractSets
