import Mathlib.Algebra.Group.Nat.Defs
import Mathlib.Data.List.Nodup
import Switchboard.Proofs.Directory.History
import Switchboard.Proofs.Directory.Roster

/-! # Rosters keep their two lists in step

A roster finds handlers by id and lists ids by name, and every operation changes both lists.  What
they say is what the history says: which registrations were made and have not been removed since.

* **Ids.** The `n`-th registration is given the number `n` as its id (`ids_eq`).  Ids have 64 bits,
  so they are distinct as long as there have been fewer than `2 ^ 64` registrations.
* **Books.** `Books` says that a roster shows certain registrations: their handlers by their ids, one
  entry for each under its name, and nothing else.  Every act keeps the books of the registrations
  that are left (`books_of_acts`), and whether a handler is refused can be read off them
  (`Books.serves_iff`).
* **Main statement.** `registrations_in_step`. -/

namespace Switchboard

namespace Keyed

variable {κ ν : Type} [DecidableEq κ] {m : Keyed κ ν} {k : κ}

theorem entries_insert_of_new (h : m.get? k = none) (v : ν) :
    (m.insert k v).entries = m.entries ++ [(k, v)] := by
  rw [insert, dif_neg (get?_eq_none_iff.1 h)]

theorem entries_erase (m : Keyed κ ν) (k : κ) :
    (m.erase k).entries = m.entries.filter (·.1 ≠ k) := rfl

theorem size_insert_of_new (h : m.get? k = none) (v : ν) : (m.insert k v).size = m.size + 1 := by
  rw [size, entries_insert_of_new h, List.length_append]
  rfl

theorem mem_keys_of_get? {v : ν} (h : m.get? k = some v) : k ∈ m.keys := by
  rw [← contains_iff, contains, h]
  rfl

omit [DecidableEq κ] in
theorem size_eq_length_keys (m : Keyed κ ν) : m.size = m.keys.length := (List.length_map ..).symm

theorem size_erase {v : ν} (h : m.get? k = some v) : (m.erase k).size + 1 = m.size := by
  have hmem : k ∈ m.keys := mem_keys_of_get? h
  have hkeys : (m.erase k).keys = m.keys.erase k := by
    rw [keys, keys, m.nodup.erase_eq_filter, entries_erase, List.filter_map]
    congr 2
    funext e
    by_cases he : e.1 = k <;> simp [he]
  rw [size_eq_length_keys, size_eq_length_keys, hkeys, List.length_erase_of_mem hmem]
  exact Nat.sub_add_cancel (List.length_pos_of_mem hmem)

theorem erase_of_none (h : m.get? k = none) : m.erase k = m := by
  refine Keyed.ext ?_
  rw [entries_erase, List.filter_eq_self]
  intro e he
  rw [decide_eq_true_iff]
  rintro rfl
  exact get?_eq_none_iff.1 h (List.mem_map_of_mem he)

end Keyed

namespace Directory

variable {α : Type} [DecidableEq α] {d : Directory α} {v w : α} {name : String} {e : Entry α}

theorem Sole.insert (h : d.Sole v name e) (hne : w ≠ v) (other : String) (priority : UInt16) :
    (d.insert other priority w).Sole v name e := by
  intro n
  rw [entriesOf_insert hne]
  exact h n

theorem Sole.retain (h : d.Sole v name e) {keep : String → α → Bool}
    (hkeep : ∀ n, keep n v = true) : (d.retain keep).Sole v name e := by
  intro n
  rw [entriesOf_retain hkeep]
  exact h n

/-- An entry of a value that is listed once is that entry, under that name. -/
theorem Sole.eq (h : d.Sole v name e) {other : String} {f : Entry α}
    (hf : f ∈ d.entries other) (hv : f.value = v) : other = name ∧ f = e := by
  have hmem := mem_entriesOf.2 ⟨hf, hv⟩
  rw [h other] at hmem
  split at hmem
  · next hname => exact ⟨hname, List.mem_singleton.1 hmem⟩
  · cases hmem

omit [DecidableEq α] in
/-- If all entries are kept, the directory stays as it is. -/
theorem Ordered.retain_eq_self (h : d.Ordered) {keep : String → α → Bool}
    (hkeep : ∀ name, ∀ e ∈ d.entries name, keep name e.value = true) : d.retain keep = d := by
  have hrow : ∀ q ∈ d.names.entries, (q.1, q.2.filter (keep q.1 ·.value)) = q ∧ q.2 ≠ [] := by
    rintro ⟨name, es⟩ hq
    have hget := Keyed.get?_eq_some_iff.2 hq
    have hes : d.entries name = es := by rw [entries, hget]; rfl
    refine ⟨?_, h.inhabited name es hget⟩
    rw [List.filter_eq_self.2]
    exact hes ▸ hkeep name
  have hnames : ((d.names.map fun name es => es.filter (keep name ·.value)).filter
      fun _ es => !es.isEmpty) = d.names := by
    refine Keyed.ext ?_
    show (d.names.entries.map fun q => (q.1, q.2.filter (keep q.1 ·.value))).filter _ = _
    rw [List.map_congr_left fun q hq => (hrow q hq).1, List.map_id', List.filter_eq_self]
    intro q hq
    simpa using (hrow q hq).2
  rw [Directory.retain, hnames]

end Directory

namespace Roster

variable {η : Type} {r r' : Roster η} {name : String} {priority : UInt16} {handler : η}
  {id : HandlerId}

/-! ### Both lists -/

theorem get?_remove (r : Roster η) (id other : HandlerId) :
    (r.remove id).get? other = if other = id then none else r.get? other :=
  Keyed.get?_erase ..

theorem mem_entries_remove {e : Entry HandlerId} :
    e ∈ (r.remove id).directory.entries name ↔ e ∈ r.directory.entries name ∧ e.value ≠ id := by
  rw [remove, Directory.mem_entries_retain, decide_eq_true_iff]

/-- The ids of handlers are the ids that are listed. -/
structure Matched (r : Roster η) : Prop where
  ids : ∀ id, (r.get? id).isSome ↔ ∃ name, ∃ e ∈ r.directory.entries name, e.value = id
  ordered : r.directory.Ordered

theorem matched_empty : Matched ({} : Roster η) :=
  ⟨fun _ => iff_of_false nofun (by rintro ⟨_, _, he, _⟩; cases he), Directory.ordered_empty⟩

theorem matched_clear (r : Roster η) : r.clear.Matched :=
  ⟨fun _ => iff_of_false nofun (by rintro ⟨_, _, he, _⟩; cases he), fun _ => .nil, nofun, nofun⟩

theorem Matched.remove (h : r.Matched) (id : HandlerId) : (r.remove id).Matched := by
  refine ⟨?_, h.ordered.retain fun _ other => other ≠ id⟩
  intro other
  rw [get?_remove]
  simp only [mem_entries_remove]
  by_cases ho : other = id
  · rw [if_pos ho]
    refine iff_of_false nofun ?_
    rintro ⟨n, e, ⟨_, hne⟩, hid⟩
    exact hne (hid.trans ho)
  · rw [if_neg ho, h.ids other]
    constructor
    · rintro ⟨n, e, he, hid⟩
      exact ⟨n, e, ⟨he, hid ▸ ho⟩, hid⟩
    · rintro ⟨n, e, ⟨he, _⟩, hid⟩
      exact ⟨n, e, he, hid⟩

theorem Matched.remove_of_none (h : r.Matched) (hid : r.get? id = none) : r.remove id = r := by
  have hkeep : ∀ name, ∀ e ∈ r.directory.entries name, decide (e.value ≠ id) = true := by
    intro name e he
    rw [decide_eq_true_iff]
    intro hv
    have hsome := (h.ids id).2 ⟨name, e, he, hv⟩
    rw [hid] at hsome
    cases hsome
  rw [Roster.remove, Keyed.erase_of_none hid, h.ordered.retain_eq_self hkeep]

/-! ### Books -/

/-- A handler that was registered, with the id that was returned for it. -/
structure Registration (η : Type) where
  id : HandlerId
  name : String
  priority : UInt16
  handler : η

variable {gs : List (Registration η)}

/-- A roster shows some registrations and nothing else. -/
structure Books (r : Roster η) (gs : List (Registration η)) : Prop where
  handlers : r.handlers.entries = gs.map fun g => (g.id, g.handler)
  listed : ∀ g ∈ gs, ∃ e, r.directory.Sole g.id g.name e ∧ e.rank.priority = g.priority
  recorded : ∀ name, ∀ e ∈ r.directory.entries name, ∃ g ∈ gs, g.id = e.value
  /-- No handler is registered twice under one name. -/
  distinct : ∀ g ∈ gs, ∀ g' ∈ gs, g.name = g'.name → g.handler = g'.handler → g = g'

theorem books_empty : Books ({} : Roster η) [] :=
  ⟨rfl, nofun, nofun, nofun⟩

theorem books_clear (r : Roster η) : r.clear.Books [] :=
  ⟨rfl, nofun, nofun, nofun⟩

namespace Books

theorem get?_eq_some_iff (h : r.Books gs) :
    r.get? id = some handler ↔ ∃ g ∈ gs, g.id = id ∧ g.handler = handler := by
  rw [get?, Keyed.get?_eq_some_iff, h.handlers, List.mem_map]
  simp only [Prod.mk.injEq]

theorem get?_of_mem (h : r.Books gs) {g : Registration η} (hg : g ∈ gs) :
    r.get? g.id = some g.handler :=
  h.get?_eq_some_iff.2 ⟨g, hg, rfl, rfl⟩

theorem size_eq (h : r.Books gs) : r.size = gs.length := by
  rw [size, Keyed.size, h.handlers, List.length_map]

/-- An id under which there is a handler is listed once. -/
theorem exists_sole (h : r.Books gs) (hid : (r.get? id).isSome) :
    ∃ name e, r.directory.Sole id name e := by
  obtain ⟨handler, hget⟩ := Option.isSome_iff_exists.1 hid
  obtain ⟨g, hg, rfl, _⟩ := h.get?_eq_some_iff.1 hget
  obtain ⟨e, he, _⟩ := h.listed g hg
  exact ⟨g.name, e, he⟩

theorem entry_of_mem (h : r.Books gs) {g : Registration η} (hg : g ∈ gs) :
    ∃ e ∈ r.directory.entries g.name, e.value = g.id := by
  obtain ⟨e, he, _⟩ := h.listed g hg
  exact ⟨e, he.mem⟩

theorem registration_of_entry (h : r.Books gs) {e : Entry HandlerId}
    (he : e ∈ r.directory.entries name) : ∃ g ∈ gs, g.id = e.value ∧ g.name = name := by
  obtain ⟨g, hg, hid⟩ := h.recorded name e he
  obtain ⟨f, hf, _⟩ := h.listed g hg
  exact ⟨g, hg, hid, (hf.eq he hid.symm).1.symm⟩

theorem lacks_of_new (h : r.Books gs) (hnew : r.get? id = none) : r.directory.Lacks id := by
  refine Directory.lacks_iff.2 fun name e he hid => ?_
  obtain ⟨g, hg, hg'⟩ := h.recorded name e he
  rw [← hid, ← hg', h.get?_of_mem hg] at hnew
  cases hnew

/-- Two entries under one name do not stand for the same handler. -/
theorem pairwise_entries (h : r.Books gs) (ho : r.directory.Ordered) (name : String) :
    (r.directory.entries name).Pairwise fun e f => r.get? e.value ≠ r.get? f.value := by
  have hnodup : (r.directory.entries name).Nodup := by
    refine (ho.sorted name).imp ?_
    rintro e f hlt rfl
    exact Rank.lt_irrefl _ hlt
  refine hnodup.pairwise_of_forall_ne fun e he f hf hne heq => hne ?_
  obtain ⟨g, hg, hge, hgn⟩ := h.registration_of_entry he
  obtain ⟨k, hk, hkf, hkn⟩ := h.registration_of_entry hf
  rw [← hge, ← hkf, h.get?_of_mem hg, h.get?_of_mem hk, Option.some.injEq] at heq
  obtain rfl := h.distinct g hg k hk (hgn.trans hkn.symm) heq
  obtain ⟨e', he', _⟩ := h.listed g hg
  rw [(he'.eq he hge.symm).2, (he'.eq hf hkf.symm).2]

theorem remove (h : r.Books gs) (id : HandlerId) :
    (r.remove id).Books (gs.filter (·.id ≠ id)) := by
  refine ⟨?_, ?_, ?_, ?_⟩
  · rw [Roster.remove, Keyed.entries_erase, h.handlers, List.filter_map]
    rfl
  · intro g hg
    rw [List.mem_filter, decide_eq_true_iff] at hg
    obtain ⟨e, he, hp⟩ := h.listed g hg.1
    exact ⟨e, he.retain fun _ => decide_eq_true hg.2, hp⟩
  · intro name e he
    obtain ⟨he, hne⟩ := mem_entries_remove.1 he
    obtain ⟨g, hg, hid⟩ := h.recorded name e he
    exact ⟨g, List.mem_filter.2 ⟨hg, by simpa [hid] using hne⟩, hid⟩
  · intro g hg g' hg'
    exact h.distinct g (List.mem_filter.1 hg).1 g' (List.mem_filter.1 hg').1

end Books

/-! ### Registering -/

variable [DecidableEq η]

theorem register_eq_error_iff {e : Failure} :
    r.register name priority handler = .error e ↔ r.serves name handler = true ∧ e = .done := by
  unfold register
  by_cases h : r.serves name handler = true
  · simp [h, eq_comm]
  · simp [h]

theorem exists_register_of_not_serves (h : ¬ r.serves name handler = true) (priority : UInt16) :
    ∃ id r', r.register name priority handler = .ok (id, r') := by
  unfold register
  rw [if_neg h]
  exact ⟨_, _, rfl⟩

theorem Matched.register (h : r.Matched)
    (hreg : r.register name priority handler = .ok (id, r')) : r'.Matched := by
  have hget := get?_register hreg
  obtain ⟨_, rfl⟩ := register_eq hreg
  refine ⟨?_, h.ordered.insert name priority id⟩
  intro other
  rw [hget]
  simp only [Directory.mem_entries_insert]
  by_cases ho : other = id
  · subst ho
    rw [if_pos rfl]
    exact iff_of_true rfl ⟨name, _, .inl ⟨rfl, rfl⟩, rfl⟩
  · rw [if_neg ho, h.ids other]
    constructor
    · rintro ⟨n, e, he, hid⟩
      exact ⟨n, e, .inr he, hid⟩
    · rintro ⟨n, e, ⟨_, rfl⟩ | he, hid⟩
      · exact absurd hid.symm ho
      · exact ⟨n, e, he, hid⟩

namespace Books

theorem serves_iff (h : r.Books gs) :
    r.serves name handler = true ↔ ∃ g ∈ gs, g.name = name ∧ g.handler = handler := by
  simp only [serves, Directory.any, List.any_eq_true, decide_eq_true_iff]
  constructor
  · rintro ⟨e, he, hhandler⟩
    obtain ⟨g, hg, hid, hname⟩ := h.registration_of_entry he
    refine ⟨g, hg, hname, ?_⟩
    have hget : r.handlers.get? e.value = some g.handler := hid ▸ h.get?_of_mem hg
    exact Option.some.inj (hget.symm.trans hhandler)
  · rintro ⟨g, hg, rfl, rfl⟩
    obtain ⟨e, he, hid⟩ := h.entry_of_mem hg
    exact ⟨e, he, by rw [hid]; exact h.get?_of_mem hg⟩

theorem register (h : r.Books gs) (hreg : r.register name priority handler = .ok (id, r'))
    (hnew : r.get? id = none) : r'.Books (gs ++ [⟨id, name, priority, handler⟩]) := by
  have hserves : ¬ r.serves name handler = true := by
    intro hs
    rw [register_eq_error_iff.2 ⟨hs, rfl⟩] at hreg
    cases hreg
  obtain ⟨_, rfl⟩ := register_eq hreg
  refine ⟨?_, ?_, ?_, ?_⟩
  · rw [Keyed.entries_insert_of_new hnew, h.handlers, List.map_append]
    rfl
  · intro g hg
    rcases List.mem_append.1 hg with hg | hg
    · obtain ⟨e, he, hp⟩ := h.listed g hg
      have hne : id ≠ g.id := by
        intro hid
        rw [hid, h.get?_of_mem hg] at hnew
        cases hnew
      exact ⟨e, he.insert hne name priority, hp⟩
    · rw [List.mem_singleton.1 hg]
      exact ⟨_, Directory.sole_insert (h.lacks_of_new hnew) name priority, rfl⟩
  · intro n e he
    rcases Directory.mem_entries_insert.1 he with ⟨_, rfl⟩ | he
    · exact ⟨_, List.mem_append_right _ (List.mem_singleton.2 rfl), rfl⟩
    · obtain ⟨g, hg, hid⟩ := h.recorded n e he
      exact ⟨g, List.mem_append_left _ hg, hid⟩
  · intro g hg g' hg' hname hhandler
    rcases List.mem_append.1 hg with hg | hg <;> rcases List.mem_append.1 hg' with hg' | hg'
    · exact h.distinct g hg g' hg' hname hhandler
    · rw [List.mem_singleton.1 hg'] at hname hhandler
      exact absurd (h.serves_iff.2 ⟨g, hg, hname, hhandler⟩) hserves
    · rw [List.mem_singleton.1 hg] at hname hhandler
      exact absurd (h.serves_iff.2 ⟨g', hg', hname.symm, hhandler.symm⟩) hserves
    · rw [List.mem_singleton.1 hg, List.mem_singleton.1 hg']

/-- A handler that is not registered under a name can be, and nothing else is added. -/
theorem adds (h : r.Books gs) (hnew : r.get? r.nextId = none)
    (hno : ¬ ∃ g ∈ gs, g.name = name ∧ g.handler = handler) (priority : UInt16) :
    ∃ id r', r.register name priority handler = .ok (id, r') ∧ r.get? id = none ∧
      r'.directory.Sole id name ⟨r.directory.nextRank priority, id⟩ ∧
      (∀ other, other ≠ id → r'.directory.entriesOf other = r.directory.entriesOf other) ∧
      r'.size = r.size + 1 := by
  obtain ⟨id, r', hreg⟩ := exists_register_of_not_serves (mt h.serves_iff.1 hno) priority
  refine ⟨id, r', hreg, ?_⟩
  obtain ⟨rfl, rfl⟩ := register_eq hreg
  refine ⟨hnew, Directory.sole_insert (h.lacks_of_new hnew) name priority, ?_, ?_⟩
  · intro other ho
    exact Directory.entriesOf_insert ho.symm name priority
  · exact Keyed.size_insert_of_new hnew handler

/-- A registration is taken away with its handler and its entry, and can be made again. -/
theorem takes (h : r.Books gs) {g : Registration η} (hg : g ∈ gs) :
    (r.take g.id).1 = some g.handler ∧ (r.take g.id).2.directory.Lacks g.id ∧
      (∀ other, other ≠ g.id →
        (r.take g.id).2.directory.entriesOf other = r.directory.entriesOf other) ∧
      (r.take g.id).2.size + 1 = r.size ∧
      ∀ priority, ∃ id r', (r.take g.id).2.register g.name priority g.handler = .ok (id, r') := by
  refine ⟨h.get?_of_mem hg, ?_, ?_, Keyed.size_erase (h.get?_of_mem hg), ?_⟩
  · exact Directory.lacks_iff.2 fun name e he => (mem_entries_remove.1 he).2
  · intro other ho
    exact Directory.entriesOf_retain fun _ => decide_eq_true ho
  · intro priority
    refine exists_register_of_not_serves ?_ priority
    rw [take, (h.remove g.id).serves_iff]
    rintro ⟨k, hk, hname, hhandler⟩
    rw [List.mem_filter, decide_eq_true_iff] at hk
    exact hk.2 (congrArg (·.id) (h.distinct k hk.1 g hg hname hhandler))

end Books

/-! ### Histories of a roster -/

/-- Something that is done to a roster. -/
inductive Act (η : Type) where
  | register (name : String) (priority : UInt16) (handler : η)
  | remove (id : HandlerId)
  | clear

/-- Registrations are made unless they are refused, and other acts take them away. -/
def keeping : Making (Roster η) (Act η) (Registration η) where
  step r
    | .register name priority handler =>
      match r.register name priority handler with
      | .ok (_, r') => r'
      | .error _ => r
    | .remove id => (r.take id).2
    | .clear => r.clear
  made? r
    | .register name priority handler =>
      match r.register name priority handler with
      | .ok (id, _) => some ⟨id, name, priority, handler⟩
      | .error _ => none
    | _ => none
  spares
    | .register .., _ => true
    | .remove id, g => g.id ≠ id
    | .clear, _ => false

theorem keeping_of_ok (h : r.register name priority handler = .ok (id, r')) :
    keeping.step r (.register name priority handler) = r' ∧
      keeping.made? r (.register name priority handler) = some ⟨id, name, priority, handler⟩ := by
  simp only [keeping, h, and_self]

theorem keeping_of_error {e : Failure} (h : r.register name priority handler = .error e) :
    keeping.step r (.register name priority handler) = r ∧
      keeping.made? r (.register name priority handler) = none := by
  simp only [keeping, h, and_self]

/-- Both lists always speak of the same ids, also if ids should come back. -/
theorem matched_of_acts (acts : List (Act η)) : (keeping.run ({} : Roster η) acts).Matched := by
  induction acts using List.reverseRecOn with
  | nil => exact matched_empty
  | append_singleton acts a ih =>
    rw [Making.run_snoc]
    cases a with
    | register name priority handler =>
      cases hreg : (keeping.run ({} : Roster η) acts).register name priority handler with
      | error e => rwa [(keeping_of_error hreg).1]
      | ok p =>
        rw [(keeping_of_ok hreg).1]
        exact ih.register hreg
    | remove id => exact ih.remove id
    | clear => exact matched_clear _

/-! ### Ids -/

/-- Ids count the registrations. -/
theorem ids_eq (acts : List (Act η)) :
    (keeping.created ({} : Roster η) acts).map (·.id) =
        (List.range' 1 (keeping.created ({} : Roster η) acts).length).map UInt64.ofNat ∧
      (keeping.run ({} : Roster η) acts).issued =
        (keeping.created ({} : Roster η) acts).length := by
  induction acts using List.reverseRecOn with
  | nil => exact ⟨rfl, rfl⟩
  | append_singleton acts a ih =>
    rw [Making.created_snoc, Making.run_snoc]
    generalize keeping.run ({} : Roster η) acts = r at ih ⊢
    generalize keeping.created ({} : Roster η) acts = gs at ih ⊢
    cases a with
    | register name priority handler =>
      cases h : r.register name priority handler with
      | error e =>
        obtain ⟨hstep, hmade⟩ := keeping_of_error h
        rw [hstep, hmade, Option.toList, List.append_nil]
        exact ih
      | ok p =>
        obtain ⟨id, r'⟩ := p
        obtain ⟨hids, hissued⟩ := ih
        obtain ⟨hstep, hmade⟩ := keeping_of_ok h
        obtain ⟨hid, rfl⟩ := register_eq h
        have hnext : id = .ofNat (gs.length + 1) := by rw [hid, nextId, hissued]
        rw [hstep, hmade, Option.toList, List.map_append, List.length_append, hids]
        simp only [List.map_cons, List.map_nil, List.length_cons, List.length_nil]
        rw [List.range'_1_concat, List.map_append, Nat.zero_add, Nat.add_comm 1]
        exact ⟨by rw [hnext]; rfl, congrArg (· + 1) hissued⟩
    | remove | clear =>
      rw [show keeping.made? r _ = none from rfl, Option.toList, List.append_nil]
      exact ih

theorem ofNat_ne_of_lt {m n : Nat} (h : m < n) (hn : n < m + 2 ^ 64) :
    UInt64.ofNat m ≠ UInt64.ofNat n := by
  intro he
  have hmod := congrArg UInt64.toNat he
  simp only [UInt64.toNat_ofNat'] at hmod
  omega

theorem ids_nodup (acts : List (Act η))
    (h : (keeping.created ({} : Roster η) acts).length < 2 ^ 64) :
    ((keeping.created ({} : Roster η) acts).map (·.id)).Nodup := by
  rw [(ids_eq acts).1]
  refine List.Nodup.map_on ?_ List.nodup_range'
  intro m hm n hn he
  rw [List.mem_range'_1] at hm hn
  rcases Nat.lt_trichotomy m n with hlt | heq | hgt
  · exact absurd he (ofNat_ne_of_lt hlt (by omega))
  · exact heq
  · exact absurd he.symm (ofNat_ne_of_lt hgt (by omega))

theorem next_ne_of_mem_created {acts : List (Act η)}
    (h : (keeping.created ({} : Roster η) acts).length < 2 ^ 64) {g : Registration η}
    (hg : g ∈ keeping.created ({} : Roster η) acts) :
    g.id ≠ (keeping.run ({} : Roster η) acts).nextId := by
  obtain ⟨hids, hissued⟩ := ids_eq acts
  have hmem := List.mem_map_of_mem (f := (·.id)) hg
  rw [hids] at hmem
  obtain ⟨k, hk, hkg⟩ := List.mem_map.1 hmem
  rw [List.mem_range'_1] at hk
  rw [← hkg, nextId, hissued]
  exact ofNat_ne_of_lt (by omega) (by omega)

theorem get?_next {acts : List (Act η)}
    (hroom : (keeping.created ({} : Roster η) acts).length < 2 ^ 64)
    (h : (keeping.run ({} : Roster η) acts).Books (keeping.surviving {} acts)) :
    (keeping.run ({} : Roster η) acts).get? (keeping.run ({} : Roster η) acts).nextId = none := by
  rw [Option.eq_none_iff_forall_not_mem]
  intro handler hget
  obtain ⟨g, hg, hid, _⟩ := h.get?_eq_some_iff.1 hget
  exact next_ne_of_mem_created hroom ((keeping.surviving_sublist {} acts).subset hg) hid

/-- A roster shows the registrations that have not been taken away. -/
theorem books_of_acts (acts : List (Act η))
    (h : (keeping.created ({} : Roster η) acts).length < 2 ^ 64) :
    (keeping.run ({} : Roster η) acts).Books (keeping.surviving {} acts) := by
  induction acts using List.reverseRecOn with
  | nil => exact books_empty
  | append_singleton acts a ih =>
    rw [Making.created_snoc, List.length_append] at h
    have hroom := Nat.lt_of_le_of_lt (Nat.le_add_right _ _) h
    have hbooks := ih hroom
    have hfresh := get?_next hroom hbooks
    rw [Making.run_snoc, Making.surviving_snoc]
    generalize keeping.run ({} : Roster η) acts = r at hbooks hfresh ⊢
    generalize keeping.surviving ({} : Roster η) acts = gs at hbooks ⊢
    cases a with
    | register name priority handler =>
      have hspared : gs.filter (keeping.spares (.register name priority handler)) = gs :=
        List.filter_eq_self.2 fun _ _ => rfl
      rw [hspared]
      cases hreg : r.register name priority handler with
      | error e =>
        obtain ⟨hstep, hmade⟩ := keeping_of_error hreg
        rw [hstep, hmade, Option.toList, List.append_nil]
        exact hbooks
      | ok p =>
        obtain ⟨id, r'⟩ := p
        obtain ⟨hstep, hmade⟩ := keeping_of_ok hreg
        rw [hstep, hmade]
        exact hbooks.register hreg ((register_eq hreg).1 ▸ hfresh)
    | remove id =>
      rw [show keeping.made? r _ = none from rfl, Option.toList, List.append_nil]
      exact hbooks.remove id
    | clear =>
      have hspared : gs.filter (keeping.spares .clear) = [] :=
        List.filter_eq_nil_iff.2 fun _ _ => nofun
      rw [hspared]
      exact books_clear r

/-! ### Main statement -/

/-- **Both lists of a roster are in step.**  After any acts on an empty roster:

* The ids of handlers are the ids that are listed.
* A registration is refused only because the handler is there already, and changes nothing then.
  One that is accepted gives the handler its id, and removing an id gives its handler back; no
  other id is affected.  Removing an id that is not there changes nothing.

As long as there have been fewer than `2 ^ 64` registrations, which is the number of ids, it also
holds that no id is given out twice, and:

* Each id is listed once over all names, and no two entries under one name stand for the same
  handler.
* The handlers are those of the registrations that have not been removed since, and these are
  counted.
* A registration is refused exactly if one of them is of the same handler under the same name.  If
  there is none, exactly one registration is added.
* Removing one of them takes away exactly that one, and its handler can be registered under its
  name again. -/
theorem registrations_in_step (acts : List (Act η)) :
    let r := keeping.run ({} : Roster η) acts
    let all := keeping.created ({} : Roster η) acts
    let live := keeping.surviving ({} : Roster η) acts
    (∀ id, (r.get? id).isSome ↔ ∃ name, ∃ e ∈ r.directory.entries name, e.value = id) ∧
    (∀ name priority handler e, r.register name priority handler = .error e →
      e = .done ∧ keeping.step r (.register name priority handler) = r) ∧
    (∀ name priority handler id r', r.register name priority handler = .ok (id, r') →
      r'.get? id = some handler ∧ ∀ other, other ≠ id → r'.get? other = r.get? other) ∧
    (∀ id, (r.take id).1 = r.get? id ∧ (r.take id).2.get? id = none ∧
      (∀ other, other ≠ id → (r.take id).2.get? other = r.get? other) ∧
      (r.get? id = none → (r.take id).2 = r)) ∧
    (all.length < 2 ^ 64 →
      (all.map (·.id)).Nodup ∧
      (∀ id, (r.get? id).isSome → ∃ name e, r.directory.Sole id name e) ∧
      (∀ name, (r.directory.entries name).Pairwise fun e f => r.get? e.value ≠ r.get? f.value) ∧
      (∀ id handler, r.get? id = some handler ↔ ∃ g ∈ live, g.id = id ∧ g.handler = handler) ∧
      r.size = live.length ∧
      (∀ name priority handler, r.register name priority handler = .error .done ↔
        ∃ g ∈ live, g.name = name ∧ g.handler = handler) ∧
      (∀ name priority handler, (¬ ∃ g ∈ live, g.name = name ∧ g.handler = handler) →
        ∃ id r', r.register name priority handler = .ok (id, r') ∧ r.get? id = none ∧
          r'.directory.Sole id name ⟨r.directory.nextRank priority, id⟩ ∧
          (∀ other, other ≠ id → r'.directory.entriesOf other = r.directory.entriesOf other) ∧
          r'.size = r.size + 1) ∧
      ∀ g ∈ live, (r.take g.id).1 = some g.handler ∧ (r.take g.id).2.directory.Lacks g.id ∧
        (∀ other, other ≠ g.id →
          (r.take g.id).2.directory.entriesOf other = r.directory.entriesOf other) ∧
        (r.take g.id).2.size + 1 = r.size ∧
        ∀ priority, ∃ id r', (r.take g.id).2.register g.name priority g.handler = .ok (id, r')) := by
  intro r all live
  have hmatched : r.Matched := matched_of_acts acts
  refine ⟨hmatched.ids, ?_, ?_, ?_, ?_⟩
  · intro name priority handler e hreg
    exact ⟨(register_eq_error_iff.1 hreg).2, (keeping_of_error hreg).1⟩
  · intro name priority handler id r' hreg
    have hget := get?_register hreg
    exact ⟨by rw [hget, if_pos rfl], fun other ho => by rw [hget, if_neg ho]⟩
  · intro id
    refine ⟨rfl, ?_, ?_, hmatched.remove_of_none⟩
    · rw [take, get?_remove, if_pos rfl]
    · intro other ho
      rw [take, get?_remove, if_neg ho]
  · intro hroom
    have hbooks : r.Books live := books_of_acts acts hroom
    refine ⟨ids_nodup acts hroom, fun id => hbooks.exists_sole,
      hbooks.pairwise_entries hmatched.ordered, fun id handler => hbooks.get?_eq_some_iff,
      hbooks.size_eq, ?_, ?_, fun g hg => hbooks.takes hg⟩
    · intro name priority handler
      rw [register_eq_error_iff, and_iff_left rfl]
      exact hbooks.serves_iff
    · intro name priority handler hno
      exact hbooks.adds (get?_next hroom hbooks) hno priority

/-- Two handlers under two names, of which one was refused a second registration and has been removed
since.  The other one is refused, and the removed one is registered again under a new id. -/
theorem registrations_in_step_again :
    let acts : List (Act String) :=
      [.register "f" 5 "a", .register "g" 7 "a", .register "f" 9 "b", .register "f" 1 "a",
        .remove 1]
    let r := keeping.run {} acts
    ((keeping.created {} acts).map (·.id)) = [1, 2, 3] ∧ (keeping.created {} acts).length < 2 ^ 64 ∧
      ((keeping.created {} acts).map (·.id)).Nodup ∧ r.size = 2 ∧
      r.register "f" 1 "b" = .error .done ∧
      ∃ id r', r.register "f" 2 "a" = .ok (id, r') ∧ r.get? id = none ∧ r'.size = 3 := by
  intro acts r
  have hroom : (keeping.created {} acts).length < 2 ^ 64 := by decide
  obtain ⟨_, _, _, _, hall⟩ := registrations_in_step acts
  obtain ⟨hnodup, _, _, _, hsize, hrefused, hadded, _⟩ := hall hroom
  have htwo : r.size = 2 := by decide
  obtain ⟨id, r', hreg, hnew, _, _, hmore⟩ := hadded "f" 2 "a" (by decide)
  refine ⟨by decide, hroom, hnodup, htwo, (hrefused "f" 1 "b").2 (by decide), id, r', hreg, hnew, ?_⟩
  rw [hmore]
  exact congrArg (· + 1) htwo

end Roster
end Switchboard
