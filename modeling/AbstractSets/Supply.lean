/-!
# Supplies of fresh marks

Two values with the same content are still two values, and two tables with the same
entries are still two tables. What tells them apart is a number that is handed out once.
A computation that makes values or tables runs in `Supply`, whose state is a ledger: the
next number that has not been handed out, and whether every check made on the way has
held. A check only leaves its outcome in the ledger; the computation goes on either way.
The equations below run a computation from a ledger.
-/

namespace AbstractSets

structure Ledger where
  next : Nat
  /-- Whether no check has failed so far. -/
  sound : Bool
  deriving DecidableEq, Repr

/-- A computation that may draw numbers nobody has drawn before. -/
abbrev Supply := StateM Ledger

namespace Ledger

def start : Ledger := ⟨0, true⟩

def advance (l : Ledger) : Ledger := { l with next := l.next + 1 }

def record (l : Ledger) (held : Bool) : Ledger := { l with sound := l.sound && held }

@[simp] theorem sound_advance (l : Ledger) : l.advance.sound = l.sound := rfl

@[simp] theorem record_true (l : Ledger) : l.record true = l := by
  simp [record]

end Ledger

namespace Supply

variable {α β : Type}

def draw : Supply Nat := fun l => (l.next, l.advance)

/-- Note whether something that must hold does hold. -/
def check (held : Bool) : Supply Unit := fun l => ((), l.record held)

@[simp] theorem draw_apply (l : Ledger) : draw l = (l.next, l.advance) := rfl

@[simp] theorem check_apply (held : Bool) (l : Ledger) : check held l = ((), l.record held) := rfl

@[simp] theorem pure_apply (a : α) (l : Ledger) : (pure a : Supply α) l = (a, l) := rfl

@[simp] theorem bind_apply (m : Supply α) (f : α → Supply β) (l : Ledger) :
    (m >>= f) l = f (m l).1 (m l).2 := rfl

@[simp] theorem map_apply (f : α → β) (m : Supply α) (l : Ledger) :
    (f <$> m) l = (f (m l).1, (m l).2) := rfl

@[simp] theorem ite_apply (c : Prop) [Decidable c] (m m' : Supply α) (l : Ledger) :
    (if c then m else m') l = if c then m l else m' l := by
  split <;> rfl

/-- Every run gives a result that satisfies `Q`, and no check fails on the way. -/
def Gives (m : Supply α) (Q : α → Prop) : Prop :=
  ∀ l, Q (m l).1 ∧ (m l).2.sound = l.sound

variable {Q : α → Prop} {R : β → Prop}

theorem Gives.pure {a : α} (h : Q a) : (Pure.pure a : Supply α).Gives Q :=
  fun _ => ⟨h, rfl⟩

theorem Gives.bind {m : Supply α} {f : α → Supply β} (hm : m.Gives Q)
    (hf : ∀ a, Q a → (f a).Gives R) : (m >>= f).Gives R := by
  intro l
  obtain ⟨hq, hl⟩ := hm l
  obtain ⟨hr, hl'⟩ := hf _ hq (m l).2
  exact ⟨hr, hl'.trans hl⟩

theorem Gives.mono {m : Supply α} {Q' : α → Prop} (hm : m.Gives Q) (h : ∀ a, Q a → Q' a) :
    m.Gives Q' :=
  fun l => ⟨h _ (hm l).1, (hm l).2⟩

theorem gives_draw : draw.Gives fun _ => True :=
  fun _ => ⟨trivial, rfl⟩

end Supply

end AbstractSets
