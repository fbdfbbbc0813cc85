import Switchboard.Keyed

/-! # Directories

A directory lists, for each name, the entries made under it in the order in which they are to be
tried: those of higher priority first, and of equal priority the earlier one first.

* **Rank.** The place of an entry is its `Rank`, a priority with the serial number of the entry.
  Ranks are never reused, not even after entries have been removed.
* **Walking.** `after?` continues from a rank and not from a position, so that entries made or
  removed in the meantime are neither skipped nor met twice. -/

namespace Switchboard

/-- The place of an entry in the order in which entries are tried. -/
structure Rank where
  priority : UInt16
  seq : Nat
deriving DecidableEq, Repr, Inhabited

namespace Rank

/-- The less is tried first. -/
instance : LT Rank :=
  ⟨fun a b => b.priority < a.priority ∨ a.priority = b.priority ∧ a.seq < b.seq⟩

theorem lt_def {a b : Rank} :
    a < b ↔ b.priority < a.priority ∨ a.priority = b.priority ∧ a.seq < b.seq := Iff.rfl

instance (a b : Rank) : Decidable (a < b) := decidable_of_iff _ lt_def.symm

/-- Which of two ranks is tried first. -/
def order (a b : Rank) : Ordering := (compare b.priority a.priority).then (compare a.seq b.seq)

theorem lt_irrefl (a : Rank) : ¬ a < a := by
  rw [lt_def]; simp

theorem lt_trans {a b c : Rank} (h : a < b) (h' : b < c) : a < c := by
  rw [lt_def] at *
  simp only [UInt16.lt_iff_toNat_lt, ← UInt16.toNat_inj] at *
  omega

theorem lt_trichotomy (a b : Rank) : a < b ∨ a = b ∨ b < a := by
  obtain ⟨p, s⟩ := a
  obtain ⟨q, t⟩ := b
  simp only [lt_def, Rank.mk.injEq, UInt16.lt_iff_toNat_lt, ← UInt16.toNat_inj]
  omega

end Rank

/-- A value with its place. -/
structure Entry (α : Type) where
  rank : Rank
  value : α
deriving DecidableEq, Repr, Inhabited

/-- For each name, its entries in the order in which they are to be tried. -/
structure Directory (α : Type) where
  names : Keyed String (List (Entry α)) := ∅
  /-- The serial number of the next entry. -/
  next : Nat := 0
deriving Inhabited

namespace Directory

variable {α : Type}

instance [DecidableEq α] : DecidableEq (Directory α) := fun d e =>
  decidable_of_iff (d.names = e.names ∧ d.next = e.next)
    ⟨fun h => by cases d; cases e; simpa using h, by rintro rfl; exact ⟨rfl, rfl⟩⟩

/-- The entries under a name, in order. -/
def entries (d : Directory α) (name : String) : List (Entry α) := (d.names.get? name).getD []

/-- The entry under a name that is tried first. -/
def first? (d : Directory α) (name : String) : Option (Entry α) := (d.entries name).head?

/-- The entries under a name that are tried after a rank. -/
def after (d : Directory α) (name : String) (r : Rank) : List (Entry α) :=
  (d.entries name).filter (r < ·.rank)

/-- The first entry under a name that is tried after a rank. -/
def after? (d : Directory α) (name : String) (r : Rank) : Option (Entry α) :=
  (d.entries name).find? (r < ·.rank)

/-- Whether some value under a name passes a test. -/
def any (d : Directory α) (name : String) (p : α → Bool) : Bool :=
  (d.entries name).any (p ·.value)

/-- Puts an entry before those that are tried after it. -/
def place (e : Entry α) : List (Entry α) → List (Entry α)
  | [] => [e]
  | f :: fs => if f.rank < e.rank then f :: place e fs else e :: f :: fs

/-- The rank of the next entry of a priority. -/
def nextRank (d : Directory α) (priority : UInt16) : Rank := ⟨priority, d.next⟩

/-- Makes an entry under a name. -/
def insert (d : Directory α) (name : String) (priority : UInt16) (v : α) : Directory α where
  names := d.names.insert name (place ⟨d.nextRank priority, v⟩ (d.entries name))
  next := d.next + 1

/-- Keeps the entries that pass a test; a name without entries disappears. -/
def retain (d : Directory α) (keep : String → α → Bool) : Directory α :=
  { d with
    names := (d.names.map fun name es => es.filter (keep name ·.value)).filter
      fun _ es => !es.isEmpty }

/-- Removes all entries. -/
def clear (d : Directory α) : Directory α := { d with names := ∅ }

/-! ### What is listed afterwards -/

@[simp] theorem entries_clear (d : Directory α) (name : String) : d.clear.entries name = [] := rfl

theorem entries_insert (d : Directory α) (name other : String) (priority : UInt16) (v : α) :
    (d.insert name priority v).entries other =
      if other = name then place ⟨d.nextRank priority, v⟩ (d.entries name)
      else d.entries other := by
  simp only [entries, insert, Keyed.get?_insert]
  split <;> rfl

theorem entries_retain (d : Directory α) (keep : String → α → Bool) (name : String) :
    (d.retain keep).entries name = (d.entries name).filter (keep name ·.value) := by
  simp only [entries, retain, Keyed.get?_filter, Keyed.get?_map]
  cases d.names.get? name with
  | none => rfl
  | some es =>
    by_cases h : es.filter (keep name ·.value) = []
    · rw [Option.map_some, Option.getD_some, h]; rfl
    · simp only [Option.map_some, Option.getD_some]
      rw [Option.filter_some_pos (by simpa using h), Option.getD_some]

theorem mem_place {e f : Entry α} {es : List (Entry α)} : f ∈ place e es ↔ f = e ∨ f ∈ es := by
  induction es with
  | nil => simp [place]
  | cons g gs ih =>
    rw [place]
    split
    · simp only [List.mem_cons, ih]
      constructor <;> rintro (h | h | h) <;> simp [h]
    · simp

theorem after?_eq_head? (d : Directory α) (name : String) (r : Rank) :
    d.after? name r = (d.after name r).head? := by
  rw [after?, after, List.head?_filter]

end Directory

end Switchboard
