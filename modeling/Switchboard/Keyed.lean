/-! # Keyed collections

A `Keyed κ ν` holds one value for each of finitely many keys, in the order in which the keys came.
Putting a value under a key that is there keeps the key's place, and removing keys keeps the order
of the others, so a collection depends only on the order in which keys came and not on the order in
which they were changed or removed.

Every operation is described by what `get?` finds afterwards. -/

namespace Switchboard

/-- One value for each of finitely many keys. -/
structure Keyed (κ ν : Type) where
  entries : List (κ × ν)
  nodup : (entries.map (·.1)).Nodup

namespace Keyed

variable {κ ν : Type} [DecidableEq κ]

instance [DecidableEq ν] : DecidableEq (Keyed κ ν) := fun m n =>
  decidable_of_iff (m.entries = n.entries) ⟨fun h => by cases m; cases n; simpa using h, (· ▸ rfl)⟩

instance [Repr κ] [Repr ν] : Repr (Keyed κ ν) := ⟨fun m => reprPrec m.entries⟩

omit [DecidableEq κ] in
@[ext] theorem ext {m n : Keyed κ ν} (h : m.entries = n.entries) : m = n := by
  cases m; cases n; simpa using h

/-- No keys. -/
def empty : Keyed κ ν := ⟨[], List.nodup_nil⟩

instance : EmptyCollection (Keyed κ ν) := ⟨empty⟩

instance : Inhabited (Keyed κ ν) := ⟨empty⟩

/-- The keys, in the order in which they came. -/
def keys (m : Keyed κ ν) : List κ := m.entries.map (·.1)

/-- The values, in the order of their keys. -/
def values (m : Keyed κ ν) : List ν := m.entries.map (·.2)

/-- The number of keys. -/
def size (m : Keyed κ ν) : Nat := m.entries.length

/-- The value under a key. -/
def get? (m : Keyed κ ν) (k : κ) : Option ν := (m.entries.find? (·.1 = k)).map (·.2)

/-- Whether there is a value under a key. -/
def contains (m : Keyed κ ν) (k : κ) : Bool := (m.get? k).isSome

/-- Keeps the entries that pass a test. -/
def filter (m : Keyed κ ν) (p : κ → ν → Bool) : Keyed κ ν :=
  ⟨m.entries.filter fun (k, v) => p k v,
    List.Nodup.sublist (List.Sublist.map _ List.filter_sublist) m.nodup⟩

/-- Removes a key. -/
def erase (m : Keyed κ ν) (k : κ) : Keyed κ ν := m.filter fun l _ => l ≠ k

/-- Changes every value. -/
def map (m : Keyed κ ν) (f : κ → ν → ν) : Keyed κ ν :=
  ⟨m.entries.map fun (k, v) => (k, f k v), by
    rw [List.map_map]; exact m.nodup⟩

/-- Changes the value under a key, if there is one. -/
def modify (m : Keyed κ ν) (k : κ) (f : ν → ν) : Keyed κ ν :=
  m.map fun l v => if l = k then f v else v

/-- Puts a value under a key: in place of the value that is there, or at the end. -/
def insert (m : Keyed κ ν) (k : κ) (v : ν) : Keyed κ ν :=
  if h : k ∈ m.keys then m.modify k fun _ => v
  else ⟨m.entries ++ [(k, v)], by
    rw [List.map_append, List.nodup_append]
    exact ⟨m.nodup, by simp, by rintro a ha b hb rfl; exact h (by simp_all [keys])⟩⟩

/-! ### What `get?` finds -/

omit [DecidableEq κ] in
theorem entries_map (m : Keyed κ ν) (f : κ → ν → ν) :
    (m.map f).entries = m.entries.map fun (k, v) => (k, f k v) := rfl

@[simp] theorem get?_empty (k : κ) : (∅ : Keyed κ ν).get? k = none := rfl

theorem get?_eq_some_iff {m : Keyed κ ν} {k : κ} {v : ν} :
    m.get? k = some v ↔ (k, v) ∈ m.entries := by
  obtain ⟨es, hn⟩ := m
  unfold get?
  induction es with
  | nil => simp
  | cons e es ih =>
    simp only [List.map_cons, List.nodup_cons] at hn
    by_cases he : e.1 = k
    · subst he
      have : ∀ w, (e.1, w) ∈ es → False := fun w hw => hn.1 (List.mem_map_of_mem (f := (·.1)) hw)
      rw [List.find?_cons_of_pos (by simp)]
      simp only [Option.map_some, Option.some.injEq, List.mem_cons]
      constructor
      · rintro rfl; exact .inl rfl
      · rintro (h | h)
        · exact (Prod.mk.inj h).2 ▸ rfl
        · exact (this _ h).elim
    · rw [List.find?_cons_of_neg (by simpa using he), ih hn.2]
      have : (k, v) ≠ e := fun h => he (h ▸ rfl)
      simp [this]

theorem get?_eq_none_iff {m : Keyed κ ν} {k : κ} : m.get? k = none ↔ k ∉ m.keys := by
  constructor
  · intro h hk
    obtain ⟨⟨l, v⟩, hm, rfl⟩ := List.mem_map.1 hk
    rw [get?_eq_some_iff.2 hm] at h
    simp at h
  · intro h
    cases hv : m.get? k with
    | none => rfl
    | some v => exact (h (List.mem_map_of_mem (f := (·.1)) (get?_eq_some_iff.1 hv))).elim

theorem contains_iff {m : Keyed κ ν} {k : κ} : m.contains k = true ↔ k ∈ m.keys := by
  rw [contains, Option.isSome_iff_ne_none, ne_eq, get?_eq_none_iff, Classical.not_not]

theorem get?_map (m : Keyed κ ν) (f : κ → ν → ν) (k : κ) :
    (m.map f).get? k = (m.get? k).map (f k) := by
  cases h : m.get? k with
  | none =>
    have := get?_eq_none_iff.1 h
    rw [Option.map_none, get?_eq_none_iff, keys, entries_map, List.map_map]
    exact this
  | some v =>
    rw [Option.map_some, get?_eq_some_iff, entries_map]
    exact List.mem_map.2 ⟨(k, v), get?_eq_some_iff.1 h, rfl⟩

theorem get?_modify (m : Keyed κ ν) (k l : κ) (f : ν → ν) :
    (m.modify k f).get? l = if l = k then (m.get? l).map f else m.get? l := by
  rw [modify, get?_map]
  split <;> simp

theorem modify_modify (m : Keyed κ ν) (k : κ) (f g : ν → ν) :
    (m.modify k f).modify k g = m.modify k (g ∘ f) := by
  refine Keyed.ext ?_
  simp only [modify, entries_map, List.map_map]
  refine List.map_congr_left fun e _ => ?_
  by_cases h : e.1 = k <;> simp [h]

theorem get?_filter (m : Keyed κ ν) (p : κ → ν → Bool) (k : κ) :
    (m.filter p).get? k = (m.get? k).filter (p k) := by
  cases h : m.get? k with
  | none =>
    have := get?_eq_none_iff.1 h
    rw [Option.filter_none, get?_eq_none_iff]
    exact fun hk => this ((List.Sublist.map _ List.filter_sublist).subset hk)
  | some v =>
    have hm := get?_eq_some_iff.1 h
    by_cases hp : p k v
    · rw [Option.filter_some_pos hp, get?_eq_some_iff]
      exact List.mem_filter.2 ⟨hm, hp⟩
    · rw [Option.filter_some_neg (Bool.eq_false_iff.2 hp), get?_eq_none_iff]
      intro hk
      obtain ⟨⟨l, w⟩, hw, rfl⟩ := List.mem_map.1 hk
      obtain ⟨hw, hpw⟩ := List.mem_filter.1 hw
      rw [get?_eq_some_iff.2 hw] at h
      obtain rfl := Option.some.inj h
      exact hp hpw

theorem get?_erase (m : Keyed κ ν) (k l : κ) :
    (m.erase k).get? l = if l = k then none else m.get? l := by
  rw [erase, get?_filter]
  split
  · next h => cases m.get? l <;> simp [h]
  · next h => cases m.get? l <;> simp [h]

@[simp] theorem get?_erase_self (m : Keyed κ ν) (k : κ) : (m.erase k).get? k = none :=
  (m.get?_erase k k).trans (if_pos rfl)

theorem get?_erase_of_ne (m : Keyed κ ν) {k l : κ} (h : l ≠ k) :
    (m.erase k).get? l = m.get? l :=
  (m.get?_erase k l).trans (if_neg h)

theorem get?_insert (m : Keyed κ ν) (k l : κ) (v : ν) :
    (m.insert k v).get? l = if l = k then some v else m.get? l := by
  unfold insert
  split
  · next h =>
    rw [get?_modify]
    split
    · next e =>
      subst e
      cases hv : m.get? l with
      | none => exact (get?_eq_none_iff.1 hv h).elim
      | some w => rfl
    · rfl
  · next h =>
    have hk := get?_eq_none_iff.2 h
    unfold get? at *
    rw [List.find?_append]
    split
    · next e =>
      subst e
      rw [Option.map_eq_none_iff] at hk
      simp [hk]
    · next e =>
      have : ¬ k = l := fun h => e h.symm
      simp [this]

@[simp] theorem get?_insert_self (m : Keyed κ ν) (k : κ) (v : ν) :
    (m.insert k v).get? k = some v :=
  (m.get?_insert k k v).trans (if_pos rfl)

theorem get?_insert_of_ne (m : Keyed κ ν) {k l : κ} (v : ν) (h : l ≠ k) :
    (m.insert k v).get? l = m.get? l :=
  (m.get?_insert k l v).trans (if_neg h)

end Keyed

end Switchboard
