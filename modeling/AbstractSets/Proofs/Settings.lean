import Mathlib.Data.List.Nodup
import AbstractSets.Config.Decode
import AbstractSets.Proofs.Levels

/-!
# Settings that have been read make sense and can be written

Reading limits takes one setting after the other, on top of the standard limits, and none of the
limits on the way need make sense. `Limits.setting?` looks at limits from outside, as the value
that is written for each name. Seen this way, reading one setting puts the value that is given
for its name and leaves all other names alone; and reading a list of settings gives the limits
that have what is given, and what is standard for the names that are not.

So limits are read just if they follow the given settings and make sense, whether these come by
name or in the fixed order. Limits that make sense follow what is written for them, and are what
is read from it.
-/

namespace AbstractSets

section

variable {ε ε' β γ : Type}

theorem bind_eq_ok_iff {x : Except ε β} {f : β → Except ε γ} {b : γ} :
    x >>= f = .ok b ↔ ∃ a, x = .ok a ∧ f a = .ok b := by
  cases x with
  | error e => simp [bind, Except.bind]
  | ok a => simp [bind, Except.bind]

theorem mapError_eq_ok_iff {x : Except ε β} {f : ε → ε'} {b : β} :
    x.mapError f = .ok b ↔ x = .ok b := by
  cases x <;> simp [Except.mapError]

end

theorem Json.decodeNat_eq_ok_iff {bound n : Nat} {expected : Expected} {j : Json} :
    j.decodeNat bound expected = .ok n ↔ j = .int n ∧ n < bound := by
  cases j with
  | int k =>
    cases k with
    | ofNat m =>
      have hint : Json.int (.ofNat m) = .int n ↔ m = n := by
        rw [Json.int.injEq]
        exact Int.ofNat_inj
      rw [hint, decodeNat]
      by_cases hm : m < bound
      · rw [if_pos hm, Except.ok.injEq]
        constructor
        · rintro rfl
          exact ⟨rfl, hm⟩
        · exact And.left
      · rw [if_neg hm]
        constructor
        · intro h
          cases h
        · rintro ⟨rfl, hn⟩
          exact absurd hn hm
    | negSucc m => simp [decodeNat]
  | _ => simp [decodeNat]

namespace Strength

theorem ofLevel_eq_ok_iff {n : Nat} {s : Strength} : ofLevel n = .ok s ↔ n = s.level := by
  constructor
  · intro h
    match n with
    | 0 | 1 | 2 | 3 =>
      cases h
      rfl
    | n + 4 => cases h
  · rintro rfl
    simp [ofLevel]

theorem decode_eq_ok_iff {j : Json} {s : Strength} : decode j = .ok s ↔ j = s.encode := by
  have hsize : s.level < UInt8.size := Nat.lt_of_le_of_lt s.level_le_three (by decide)
  unfold decode
  rw [bind_eq_ok_iff]
  simp only [mapError_eq_ok_iff, Json.decodeNat_eq_ok_iff, ofLevel_eq_ok_iff]
  constructor
  · rintro ⟨n, ⟨rfl, -⟩, rfl⟩
    rfl
  · rintro rfl
    exact ⟨s.level, ⟨rfl, hsize⟩, rfl⟩

theorem encode_injective {s t : Strength} (h : s.encode = t.encode) : s = t := by
  have hread : decode s.encode = .ok t := decode_eq_ok_iff.mpr h
  rw [decode_eq_ok_iff.mpr rfl] at hread
  exact Except.ok.inj hread

end Strength

/-- A comparer is read from what is written for it. The one that keeps everything apart has a
second form, with a member of its name that holds nothing. -/
theorem Comparer.decode_eq_ok_iff {j : Json} {c : Comparer} :
    decode j = .ok c ↔ j = c.encode ∨ c = identity ∧ j = .obj [("Identity", .null)] := by
  constructor
  · intro h
    unfold decode at h
    split at h <;> try cases h
    · exact Or.inl rfl
    · exact Or.inr ⟨rfl, rfl⟩
    · obtain ⟨s, hs, hc⟩ := bind_eq_ok_iff.mp h
      cases hc
      rw [Strength.decode_eq_ok_iff.mp hs]
      exact Or.inl rfl
  · rintro (rfl | ⟨rfl, rfl⟩)
    · cases c with
      | identity => rfl
      | union s => exact bind_eq_ok_iff.mpr ⟨s, Strength.decode_eq_ok_iff.mpr rfl, rfl⟩
    · rfl

namespace Limits

variable {l l' base : Limits} {name : String} {setting : String × Json}
  {members members' : List (String × Json)}

def setting? (l : Limits) : String → Option Json
  | "max-entries" => some (.int l.maxEntries)
  | "initial-strength" => some l.initial.encode
  | "max-strength" => some l.max.encode
  | _ => none

theorem setting?_eq_none (h : name ∉ settingNames) (l : Limits) : l.setting? name = none := by
  unfold setting?
  split
  · exact absurd (by decide) h
  · exact absurd (by decide) h
  · exact absurd (by decide) h
  · rfl

theorem mem_settingNames {j : Json} (h : l.setting? name = some j) : name ∈ settingNames := by
  by_contra hname
  rw [setting?_eq_none hname] at h
  cases h

theorem setting?_congr (hentries : name = "max-entries" → l.maxEntries = l'.maxEntries)
    (hinitial : name = "initial-strength" → l.initial = l'.initial)
    (hmax : name = "max-strength" → l.max = l'.max) : l.setting? name = l'.setting? name := by
  unfold setting?
  split
  · rw [hentries rfl]
  · rw [hinitial rfl]
  · rw [hmax rfl]
  · rfl

theorem eq_of_setting?_eq (h : ∀ name, l.setting? name = l'.setting? name) : l = l' := by
  obtain ⟨n, i, m⟩ := l
  obtain ⟨n', i', m'⟩ := l'
  have hn : Json.int n = .int n' := Option.some.inj (h "max-entries")
  have hi : i.encode = i'.encode := Option.some.inj (h "initial-strength")
  have hm : m.encode = m'.encode := Option.some.inj (h "max-strength")
  rw [Int.ofNat_inj.mp (Json.int.inj hn), Strength.encode_injective hi,
    Strength.encode_injective hm]

/-- Reading a setting puts what is given for its name and leaves the other names alone. -/
theorem decodeSetting_spec (h : decodeSetting l setting = .ok l') :
    l'.setting? setting.1 = some setting.2 ∧
      (∀ name, name ≠ setting.1 → l'.setting? name = l.setting? name) ∧
      (l.maxEntries < UInt64.size → l'.maxEntries < UInt64.size) := by
  unfold decodeSetting at h
  split at h
  · obtain ⟨n, hn, hl⟩ := bind_eq_ok_iff.mp h
    cases hl
    obtain ⟨rfl, hsize⟩ := Json.decodeNat_eq_ok_iff.mp hn
    refine ⟨rfl, fun name hne => ?_, fun _ => hsize⟩
    exact setting?_congr (fun heq => absurd heq hne) (fun _ => rfl) (fun _ => rfl)
  · obtain ⟨s, hs, hl⟩ := bind_eq_ok_iff.mp h
    cases hl
    refine ⟨congrArg some (Strength.decode_eq_ok_iff.mp hs).symm, fun name hne => ?_, id⟩
    exact setting?_congr (fun _ => rfl) (fun heq => absurd heq hne) (fun _ => rfl)
  · obtain ⟨s, hs, hl⟩ := bind_eq_ok_iff.mp h
    cases hl
    refine ⟨congrArg some (Strength.decode_eq_ok_iff.mp hs).symm, fun name hne => ?_, id⟩
    exact setting?_congr (fun _ => rfl) (fun _ => rfl) (fun heq => absurd heq hne)
  · cases h

theorem exists_decodeSetting_eq (h : l'.setting? setting.1 = some setting.2)
    (hfits : l'.maxEntries < UInt64.size) (l : Limits) :
    ∃ l₁, decodeSetting l setting = .ok l₁ := by
  obtain ⟨name, j⟩ := setting
  dsimp only at h
  unfold setting? at h
  split at h
  · exact ⟨_, bind_eq_ok_iff.mpr
      ⟨_, Json.decodeNat_eq_ok_iff.mpr ⟨(Option.some.inj h).symm, hfits⟩, rfl⟩⟩
  · exact ⟨_, bind_eq_ok_iff.mpr
      ⟨_, Strength.decode_eq_ok_iff.mpr (Option.some.inj h).symm, rfl⟩⟩
  · exact ⟨_, bind_eq_ok_iff.mpr
      ⟨_, Strength.decode_eq_ok_iff.mpr (Option.some.inj h).symm, rfl⟩⟩
  · cases h

/-- `l` is what the given settings make of `base`: only names that there are occur, what is given
once for each name is what `l` has, and for the names that are left out it has what `base` has. -/
structure Follows (l base : Limits) (members : List (String × Json)) : Prop where
  known : ∀ m ∈ members, m.1 ∈ settingNames
  given : (members.map Prod.fst).Nodup → ∀ m ∈ members, l.setting? m.1 = some m.2
  omitted : ∀ name, name ∉ members.map Prod.fst → l.setting? name = base.setting? name

theorem follows_nil (l : Limits) : Follows l l [] where
  known := List.forall_mem_nil _
  given _ := List.forall_mem_nil _
  omitted _ _ := rfl

theorem Follows.perm (h : l.Follows base members) (hperm : members'.Perm members) :
    l.Follows base members' where
  known m hm := h.known m (hperm.mem_iff.mp hm)
  given hnodup m hm := h.given ((hperm.map Prod.fst).nodup_iff.mp hnodup) m (hperm.mem_iff.mp hm)
  omitted name hname := h.omitted name fun hmem => hname ((hperm.map Prod.fst).mem_iff.mpr hmem)

theorem Follows.cons {l₁ : Limits} (h : l'.Follows l₁ members)
    (hfirst : decodeSetting l setting = .ok l₁) : l'.Follows l (setting :: members) := by
  obtain ⟨hgiven, hothers, -⟩ := decodeSetting_spec hfirst
  constructor
  · exact List.forall_mem_cons.mpr ⟨mem_settingNames hgiven, h.known⟩
  · intro hnodup
    obtain ⟨hnew, hrest⟩ := List.nodup_cons.mp hnodup
    refine List.forall_mem_cons.mpr ⟨?_, h.given hrest⟩
    rw [h.omitted setting.1 hnew, hgiven]
  · intro name hname
    rw [List.map_cons, List.mem_cons, not_or] at hname
    rw [h.omitted name hname.2, hothers name hname.1]

theorem follows_of_foldlM_eq (h : members.foldlM decodeSetting l = .ok l') :
    l'.Follows l members ∧ (l.maxEntries < UInt64.size → l'.maxEntries < UInt64.size) := by
  induction members generalizing l with
  | nil =>
    cases h
    exact ⟨follows_nil _, id⟩
  | cons m ms ih =>
    rw [List.foldlM_cons] at h
    obtain ⟨l₁, hfirst, hrest⟩ := bind_eq_ok_iff.mp h
    obtain ⟨hfollows, hfits⟩ := ih hrest
    exact ⟨hfollows.cons hfirst, fun hl => hfits ((decodeSetting_spec hfirst).2.2 hl)⟩

theorem foldlM_eq_of_follows (hnodup : (members.map Prod.fst).Nodup)
    (h : l'.Follows l members) (hfits : l'.maxEntries < UInt64.size) :
    members.foldlM decodeSetting l = .ok l' := by
  induction members generalizing l with
  | nil =>
    obtain rfl : l' = l := eq_of_setting?_eq fun name => h.omitted name List.not_mem_nil
    rfl
  | cons m ms ih =>
    obtain ⟨hm, hms⟩ := List.forall_mem_cons.mp (h.given hnodup)
    obtain ⟨l₁, hfirst⟩ := exists_decodeSetting_eq hm hfits l
    obtain ⟨hput, hothers, -⟩ := decodeSetting_spec hfirst
    have hlater : l'.Follows l₁ ms := by
      refine ⟨(List.forall_mem_cons.mp h.known).2, fun _ => hms, fun name hname => ?_⟩
      by_cases heq : name = m.1
      · rw [heq, hm, hput]
      · have hneither : name ∉ (m :: ms).map Prod.fst := by
          rw [List.map_cons, List.mem_cons, not_or]
          exact ⟨heq, hname⟩
        rw [hothers name heq, h.omitted name hneither]
    rw [List.foldlM_cons, bind_eq_ok_iff]
    exact ⟨l₁, hfirst, ih (List.nodup_cons.mp hnodup).2 hlater⟩

/-- The bounds make sense together, and the number of values fits 64 bits. -/
structure Valid (l : Limits) : Prop where
  pos : 1 ≤ l.maxEntries
  fits : l.maxEntries < UInt64.size
  ordered : l.initial ≤ l.max

def givenSettings? : Json → Option (List (String × Json))
  | .obj members => some members
  | .arr items =>
    if items.length ≤ settingNames.length then some (settingNames.zip items) else none
  | _ => none

theorem check_eq_ok_iff : check l' = .ok l ↔ l' = l ∧ 1 ≤ l.maxEntries ∧ l.initial ≤ l.max := by
  unfold check
  rw [mapError_eq_ok_iff, ofBounds_eq_ok_iff]
  constructor
  · rintro ⟨rfl, hsense⟩
    exact ⟨rfl, hsense⟩
  · rintro ⟨rfl, hsense⟩
    exact ⟨rfl, hsense⟩

/-- Both forms come to reading settings and checking the outcome. Of a list that is too long it
makes no difference that its items are read before they are counted. -/
theorem decode_eq_ok_iff {j : Json} :
    decode j = .ok l ↔ ∃ members, givenSettings? j = some members ∧
      decodeSettings members = .ok l ∧ 1 ≤ l.maxEntries ∧ l.initial ≤ l.max := by
  have hread (members : List (String × Json)) :
      (do check (← decodeSettings members)) = .ok l ↔
        decodeSettings members = .ok l ∧ 1 ≤ l.maxEntries ∧ l.initial ≤ l.max := by
    simp only [bind_eq_ok_iff, check_eq_ok_iff]
    constructor
    · rintro ⟨l', hl', rfl, hsense⟩
      exact ⟨hl', hsense⟩
    · rintro ⟨hl, hsense⟩
      exact ⟨l, hl, rfl, hsense⟩
  cases j with
  | obj members =>
    simp only [decode, givenSettings?, Option.some.injEq, exists_eq_left', hread]
  | arr items =>
    by_cases hlength : items.length ≤ settingNames.length
    · simp only [decode, givenSettings?, if_pos hlength, if_neg (Nat.not_lt.mpr hlength),
        Option.some.injEq, exists_eq_left', hread]
    · simp only [decode, givenSettings?, if_neg hlength, if_pos (Nat.lt_of_not_le hlength),
        bind_eq_ok_iff, reduceCtorEq, and_false, exists_false, false_and]
  | _ => simp [decode, givenSettings?]

theorem follows_of_decode_eq {j : Json} (h : decode j = .ok l) :
    l.Valid ∧ ∃ members, givenSettings? j = some members ∧ l.Follows standard members := by
  obtain ⟨members, hgiven, hread, hpos, hordered⟩ := decode_eq_ok_iff.mp h
  obtain ⟨hfollows, hfits⟩ := follows_of_foldlM_eq hread
  exact ⟨⟨hpos, hfits (by decide), hordered⟩, members, hgiven, hfollows⟩

/-- Given settings of different names are read as just the limits that follow them, if these make
sense. -/
theorem decode_eq_ok_iff_follows {j : Json} (hj : givenSettings? j = some members)
    (hnodup : (members.map Prod.fst).Nodup) :
    decode j = .ok l ↔ l.Follows standard members ∧ l.Valid := by
  constructor
  · intro h
    obtain ⟨hvalid, members', hj', hfollows⟩ := follows_of_decode_eq h
    obtain rfl : members = members' := Option.some.inj (hj.symm.trans hj')
    exact ⟨hfollows, hvalid⟩
  · rintro ⟨hfollows, hvalid⟩
    exact decode_eq_ok_iff.mpr ⟨members, hj, foldlM_eq_of_follows hnodup hfollows hvalid.fits,
      hvalid.pos, hvalid.ordered⟩

theorem nodup_names_zip (items : List Json) :
    ((settingNames.zip items).map Prod.fst).Nodup := by
  match items with
  | [] => exact List.nodup_nil
  | [_] => exact List.nodup_singleton _
  | [_, _] => exact (by decide : ["max-entries", "initial-strength"].Nodup)
  | _ :: _ :: _ :: _ => exact (by decide : settingNames.Nodup)

theorem decode_arr_eq_ok_iff {items : List Json} (hlength : items.length ≤ settingNames.length)
    (hperm : members.Perm (settingNames.zip items)) :
    decode (.arr items) = .ok l ↔ decode (.obj members) = .ok l := by
  have hgiven : givenSettings? (.arr items) = some (settingNames.zip items) := if_pos hlength
  have hnodup := nodup_names_zip items
  rw [decode_eq_ok_iff_follows hgiven hnodup,
    decode_eq_ok_iff_follows rfl ((hperm.map Prod.fst).nodup_iff.mpr hnodup)]
  constructor
  · exact And.imp_left fun h => h.perm hperm
  · exact And.imp_left fun h => h.perm hperm.symm

def written (l : Limits) : List (String × Json) :=
  [("initial-strength", l.initial.encode), ("max-entries", .int l.maxEntries),
    ("max-strength", l.max.encode)]

theorem follows_written (l base : Limits) : l.Follows base l.written := by
  have hgiven : ∀ m ∈ l.written, l.setting? m.1 = some m.2 := by
    simp [written, setting?]
  refine ⟨fun m hm => mem_settingNames (hgiven m hm), fun _ => hgiven, fun name hname => ?_⟩
  have hunknown : name ∉ settingNames := by
    simp_all [written, settingNames]
  rw [setting?_eq_none hunknown, setting?_eq_none hunknown]

theorem Valid.decode_encode (h : l.Valid) : decode l.encode = .ok l := by
  have hgiven : givenSettings? l.encode = some l.written := rfl
  have hnodup : (l.written.map Prod.fst).Nodup := by
    simp [written]
  exact (decode_eq_ok_iff_follows hgiven hnodup).mpr ⟨l.follows_written standard, h⟩

theorem valid_of_ofBounds_eq {n : Nat} {i m : Strength} (hn : n < UInt64.size)
    (h : ofBounds n i m = .ok l) : l.Valid := by
  obtain ⟨rfl, hpos, hordered⟩ := ofBounds_eq_ok_iff.mp h
  exact ⟨hpos, hn, hordered⟩

end Limits

open Limits in
/-- Whatever limits are read make sense, have only levels that there are, and follow the settings
that are given, with the standard value for each one that is not; and they are read again from
what is written for them. All limits that follow given settings of different names and make sense
are read, by name or in the fixed order alike. Limits that can be made from bounds are read from
what is written for them. A level is read from its number only. A comparer is read from what is
written for it, and the one that keeps everything apart from one other form. -/
theorem decoded_settings_valid_and_read_back :
    (∀ (j : Json) (l : Limits), decode j = .ok l →
      (1 ≤ l.maxEntries ∧ l.initial ≤ l.max ∧ l.max.level ≤ 3) ∧
        (∃ members, givenSettings? j = some members ∧ l.Follows ⟨20, .plain, .object⟩ members) ∧
        decode l.encode = .ok l) ∧
    (∀ (j : Json) (members : List (String × Json)) (l : Limits),
      givenSettings? j = some members → (members.map Prod.fst).Nodup →
        (decode j = .ok l ↔ l.Follows standard members ∧ l.Valid)) ∧
    (∀ (items : List Json) (members : List (String × Json)) (l : Limits), items.length ≤ 3 →
      members.Perm (settingNames.zip items) →
        (decode (.arr items) = .ok l ↔ decode (.obj members) = .ok l)) ∧
    (∀ (n : Nat) (i m : Strength) (l : Limits), n < UInt64.size → ofBounds n i m = .ok l →
      l = ⟨n, i, m⟩ ∧ decode l.encode = .ok l) ∧
    (∀ (j : Json) (s : Strength), s.level ≤ 3 ∧ (Strength.decode j = .ok s ↔ j = s.encode)) ∧
    ∀ (j : Json) (c : Comparer), (∀ s, c = .union s → s.level ≤ 3) ∧
      Comparer.decode c.encode = .ok c ∧
      (Comparer.decode j = .ok c ↔
        j = c.encode ∨ c = .identity ∧ j = .obj [("Identity", .null)]) := by
  refine ⟨?_, ?_, ?_, ?_, ?_, ?_⟩
  · intro j l h
    obtain ⟨hvalid, hfollows⟩ := follows_of_decode_eq h
    exact ⟨⟨hvalid.pos, hvalid.ordered, l.max.level_le_three⟩, hfollows, hvalid.decode_encode⟩
  · exact fun j members l hj hnodup => decode_eq_ok_iff_follows hj hnodup
  · exact fun items members l hlength hperm => decode_arr_eq_ok_iff hlength hperm
  · intro n i m l hn h
    exact ⟨(ofBounds_eq_ok_iff.mp h).1, (valid_of_ofBounds_eq hn h).decode_encode⟩
  · exact fun j s => ⟨s.level_le_three, Strength.decode_eq_ok_iff⟩
  · intro j c
    refine ⟨fun s _ => s.level_le_three, ?_, Comparer.decode_eq_ok_iff⟩
    exact Comparer.decode_eq_ok_iff.mpr (Or.inl rfl)

open Limits in
/-- A number of values and a level to start from, in the fixed order and by name. The level to stop
at is left out. -/
theorem decoded_settings_valid_and_read_back_two_given :
    let l : Limits := ⟨3, .baseClass, .object⟩
    let items : List Json := [.int 3, .int 1]
    let members : List (String × Json) := [("initial-strength", .int 1), ("max-entries", .int 3)]
    (items.length ≤ 3 ∧ members.Perm (settingNames.zip items)) ∧
      decode (.arr items) = .ok l ∧ decode (.obj members) = .ok l ∧
      (∃ given, givenSettings? (.obj members) = some given ∧
        l.Follows ⟨20, .plain, .object⟩ given) ∧
      decode l.encode = .ok l := by
  intro l items members
  have hperm : members.Perm (settingNames.zip items) := List.Perm.swap _ _ _
  have hlist : decode (.arr items) = .ok l := rfl
  obtain ⟨hread, -, hforms, -⟩ := decoded_settings_valid_and_read_back
  have hnamed : decode (.obj members) = .ok l := (hforms items members l (by decide) hperm).mp hlist
  obtain ⟨-, hfollows, hback⟩ := hread (.obj members) l hnamed
  exact ⟨⟨by decide, hperm⟩, hlist, hnamed, hfollows, hback⟩

end AbstractSets
