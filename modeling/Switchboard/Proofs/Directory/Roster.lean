import Switchboard.Proofs.Directory.Order
import Switchboard.Roster

/-! # What a roster holds

A directory of routes and the rosters of the participants list the same handlers.  What one entry
more or fewer means for that is said here, for any directory.

* **Single entries.** `entriesOf` picks the entries of one value.  `Lacks` says that a value has
  none, and `Sole` that it has a single one; a new entry makes the one into the other
  (`sole_insert`), and nothing else concerns it (`entriesOf_insert`, `entriesOf_retain`).
* **Rosters.** `Roster.Holds` says that a handler is on a roster with its name and its priority.
  It stays there when others are registered (`Holds.register`). -/

namespace Switchboard

namespace Directory

variable {α : Type} [DecidableEq α] {d : Directory α} {v w : α}

/-- The entries of a value under a name. -/
def entriesOf (d : Directory α) (v : α) (name : String) : List (Entry α) :=
  (d.entries name).filter (·.value = v)

/-- A value is not listed. -/
def Lacks (d : Directory α) (v : α) : Prop := ∀ name, d.entriesOf v name = []

/-- A value is listed once and under one name only. -/
def Sole (d : Directory α) (v : α) (name : String) (e : Entry α) : Prop :=
  ∀ other, d.entriesOf v other = if other = name then [e] else []

theorem mem_entriesOf {name : String} {e : Entry α} :
    e ∈ d.entriesOf v name ↔ e ∈ d.entries name ∧ e.value = v := by
  rw [entriesOf, List.mem_filter, decide_eq_true_iff]

theorem lacks_iff : d.Lacks v ↔ ∀ name, ∀ e ∈ d.entries name, e.value ≠ v := by
  constructor
  · intro h name e he hv
    have hmem := mem_entriesOf.2 ⟨he, hv⟩
    rw [h name] at hmem
    cases hmem
  · intro h name
    apply List.eq_nil_iff_forall_not_mem.2
    intro e he
    obtain ⟨he, hv⟩ := mem_entriesOf.1 he
    exact h name e he hv

theorem Sole.mem {name : String} {e : Entry α} (h : d.Sole v name e) :
    e ∈ d.entries name ∧ e.value = v := by
  apply mem_entriesOf.1
  rw [h name, if_pos rfl]
  exact List.mem_singleton.2 rfl

theorem filter_place_of_ne {e : Entry α} (he : e.value ≠ v) (es : List (Entry α)) :
    (place e es).filter (·.value = v) = es.filter (·.value = v) := by
  induction es with
  | nil => simp [place, he]
  | cons f fs ih =>
    rw [place]
    split
    · rw [List.filter_cons, List.filter_cons, ih]
    · simp [he]

theorem filter_place_of_lacks {e : Entry α} {es : List (Entry α)} (he : e.value = v)
    (hes : es.filter (·.value = v) = []) : (place e es).filter (·.value = v) = [e] := by
  induction es with
  | nil => simp [place, he]
  | cons f fs ih =>
    have hf : ¬ f.value = v := by
      intro hf
      simp [hf] at hes
    have hfs : fs.filter (·.value = v) = [] := by simpa [hf] using hes
    rw [place]
    split
    · simpa [hf] using ih hfs
    · simpa [he, hf] using hfs

/-- A new entry does not concern other values. -/
theorem entriesOf_insert (h : w ≠ v) (name : String) (priority : UInt16) :
    (d.insert name priority w).entriesOf v = d.entriesOf v := by
  funext other
  rw [entriesOf, entries_insert]
  split
  · next ho => rw [filter_place_of_ne h, ho, entriesOf]
  · rfl

theorem sole_insert (h : d.Lacks v) (name : String) (priority : UInt16) :
    (d.insert name priority v).Sole v name ⟨d.nextRank priority, v⟩ := by
  intro other
  rw [entriesOf, entries_insert]
  split
  · exact filter_place_of_lacks rfl (h name)
  · exact h other

theorem entriesOf_retain {keep : String → α → Bool} (h : ∀ name, keep name v = true) :
    (d.retain keep).entriesOf v = d.entriesOf v := by
  funext name
  rw [entriesOf, entries_retain, List.filter_filter, entriesOf]
  congr 1
  funext e
  by_cases he : e.value = v
  · simp [he, h name]
  · simp [he]

end Directory

namespace Roster

variable {η : Type} {r r' : Roster η} {name : String} {priority : UInt16} {handler : η}
  {id : HandlerId}

/-- A handler is on a roster, under a name and with a priority. -/
structure Holds (r : Roster η) (name : String) (priority : UInt16) (id : HandlerId) : Prop where
  handler : (r.get? id).isSome
  listed : ∃ e ∈ r.directory.entries name, e.value = id ∧ e.rank.priority = priority

variable [DecidableEq η]

theorem register_eq (h : r.register name priority handler = .ok (id, r')) :
    id = r.nextId ∧ r' =
      { directory := r.directory.insert name priority id
        handlers := r.handlers.insert id handler
        issued := r.issued + 1 } := by
  unfold register at h
  split at h
  · cases h
  · obtain ⟨rfl, rfl⟩ := Prod.mk.inj (Except.ok.inj h)
    exact ⟨rfl, rfl⟩

/-- What is on a roster after a registration: the new handler, and those that were there. -/
theorem get?_register (h : r.register name priority handler = .ok (id, r')) (other : HandlerId) :
    r'.get? other = if other = id then some handler else r.get? other := by
  obtain ⟨_, rfl⟩ := register_eq h
  exact Keyed.get?_insert ..

theorem isSome_get?_register (h : r.register name priority handler = .ok (id, r'))
    {other : HandlerId} (ho : (r.get? other).isSome) : (r'.get? other).isSome := by
  rw [get?_register h]
  split
  · rfl
  · exact ho

theorem Holds.register (h : r.register name priority handler = .ok (id, r')) {f : String}
    {p : UInt16} {other : HandlerId} (ho : r.Holds f p other) : r'.Holds f p other := by
  obtain ⟨e, he, hv⟩ := ho.listed
  refine ⟨isSome_get?_register h ho.handler, e, ?_, hv⟩
  obtain ⟨_, rfl⟩ := register_eq h
  exact Directory.mem_entries_insert.2 (.inr he)

theorem holds_register (h : r.register name priority handler = .ok (id, r')) :
    r'.Holds name priority id := by
  refine ⟨?_, ⟨r.directory.nextRank priority, id⟩, ?_, rfl, rfl⟩
  · rw [get?_register h, if_pos rfl]
    rfl
  · obtain ⟨_, rfl⟩ := register_eq h
    exact Directory.mem_entries_insert.2 (.inl ⟨rfl, rfl⟩)

end Roster
end Switchboard
