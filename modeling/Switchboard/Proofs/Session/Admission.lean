import Switchboard.Proofs.Directory.Registration
import Switchboard.Proofs.Exchange.VisitOrder
import Switchboard.Proofs.Session.Reception

/-! # Admission

The reception counts the sessions that it has let in, up from their admission and down when they have
ended, and turns newcomers away while the count is at its limit.  Sessions begin and end in any
order.

* **History.** `admitted` lists the ids that were given out and `released` those of the sessions that
  were counted out again.
* **Tally.** `Tallied` relates a reception with that history: the count is the number of sessions
  that were admitted and not released, and ids are given out in a row, so none is given out twice
  (`Tallied.step`, `tallied_run`).
* **Course.** `Course` says what the exchange has heard of a session that has come so far: first that
  the client is there, last that it left, and each of them once.
* **Lines.** The exchange has a line for each client that was announced and has not left, whatever
  lines have died (`keys_lines_run`).
* **Main statement.** `admission_counts_sessions`. -/

namespace Switchboard

namespace Keyed

variable {κ ν : Type} [DecidableEq κ] {m : Keyed κ ν} {k l : κ} {v : ν}

theorem mem_keys_insert : l ∈ (m.insert k v).keys ↔ l ∈ m.keys ∨ l = k := by
  rw [← contains_iff, ← contains_iff, contains, contains, get?_insert]
  by_cases h : l = k <;> simp [h]

theorem mem_keys_erase : l ∈ (m.erase k).keys ↔ l ∈ m.keys ∧ l ≠ k := by
  rw [← contains_iff, ← contains_iff, contains, contains, get?_erase]
  by_cases h : l = k <;> simp [h]

end Keyed

/-! ### Lines of announced clients -/

namespace ExchangeEvent

/-- An event says that a client's line has died. -/
def mutes : ExchangeEvent → Bool
  | muted _ => true
  | connected _ | received .. | left _ => false

/-- The clients that are there after an event. -/
def attendance (clients : List ClientId) : ExchangeEvent → List ClientId
  | connected client => if client ∈ clients then clients else clients ++ [client]
  | left client => clients.filter (· ≠ client)
  | received .. | muted _ => clients

theorem mem_attendance {clients : List ClientId} {e : ExchangeEvent} {client : ClientId} :
    client ∈ attendance clients e ↔
      e = .connected client ∨ client ∈ clients ∧ e ≠ .left client := by
  cases e with
  | connected c =>
    have hsame : client = c → c ∈ clients → client ∈ clients := fun h hc => h ▸ hc
    rw [attendance]
    split <;> grind
  | left c => simp [attendance, @eq_comm _ c]
  | received | muted => simp [attendance]

theorem mem_foldl_attendance {es : List ExchangeEvent} {clients : List ClientId}
    {client : ClientId} (h : client ∈ es.foldl attendance clients) :
    client ∈ clients ∨ .connected client ∈ es := by
  induction es generalizing clients with
  | nil => exact .inl h
  | cons e es ih =>
    rcases ih h with h | h
    · rcases mem_attendance.1 h with rfl | h
      · exact .inr List.mem_cons_self
      · exact .inl h.1
    · exact .inr (List.mem_cons_of_mem e h)

/-- Whether a client is there depends on what is heard of this client. -/
theorem mem_foldl_attendance_told (es : List ExchangeEvent) (clients : List ClientId)
    (client : ClientId) :
    client ∈ (Reception.told client es).foldl attendance clients ↔
      client ∈ es.foldl attendance clients := by
  induction es using List.reverseRecOn with
  | nil => rfl
  | append_singleton es e ih =>
    rw [Reception.told_append, List.foldl_append, List.foldl_append]
    by_cases he : e.client = client
    · rw [show Reception.told client [e] = [e] from
        Reception.told_eq_self fun _ h => List.mem_singleton.1 h ▸ he]
      simp only [List.foldl_cons, List.foldl_nil, mem_attendance, ih]
    · have hconnected : e ≠ .connected client := fun h => he (h ▸ rfl)
      have hleft : e ≠ .left client := fun h => he (h ▸ rfl)
      rw [show Reception.told client [e] = [] from List.filter_cons_of_neg (by simpa using he)]
      simp only [List.foldl_cons, List.foldl_nil, mem_attendance, ih, hconnected, hleft,
        false_or, ne_eq, not_false_eq_true, and_true]

theorem foldl_attendance_filter (es : List ExchangeEvent) (clients : List ClientId) :
    (es.filter (!·.mutes)).foldl attendance clients = es.foldl attendance clients := by
  induction es generalizing clients with
  | nil => rfl
  | cons e es ih =>
    cases e with
    | muted client => exact ih clients
    | connected | received | left => exact ih _

end ExchangeEvent

namespace Exchange

open ExchangeEvent (attendance)

theorem keys_lines_step (x : Exchange) (e : ExchangeEvent) :
    (x.step e).1.lines.keys = attendance x.lines.keys e := by
  cases e with
  | connected client =>
    show (x.lines.insert client .live).keys = _
    unfold Keyed.insert
    split
    · next h => exact (Keyed.keys_modify ..).trans (if_pos h).symm
    · next h =>
      rw [Keyed.keys, List.map_append]
      exact (if_neg h).symm
  | received client m => rw [step, receive_lines, attendance]
  | muted client => exact Keyed.keys_modify ..
  | left client =>
    rw [step, leave_lines, attendance, Keyed.keys, Keyed.keys, Keyed.entries_erase,
      List.filter_map]
    rfl

theorem keys_lines_run (x : Exchange) (es : List ExchangeEvent) :
    (x.run es).1.lines.keys = es.foldl attendance x.lines.keys := by
  induction es generalizing x with
  | nil => rfl
  | cons e es ih => rw [run, ih, keys_lines_step, List.foldl_cons]

end Exchange

namespace Reception

variable {r : Reception} {i : Input} {is : List Input} {ids gone : List ClientId}
  {es : List ExchangeEvent} {p : Reception × List ExchangeEvent}

/-! ### History -/

/-- The id that an input makes the reception give out. -/
def grant? (r : Reception) (i : Input) : Option ClientId :=
  if i = .arrive ∧ r.admits = true then some (r.last + 1) else none

/-- The session that an input makes the reception count out. -/
def discharge? (r : Reception) : Input → Option ClientId
  | .release client => if r.sessions.get? client = some .ending then some client else none
  | .arrive | .announce _ | .bytes .. | .hangUp _ | .shutdown | .dismiss _ => none

/-- The ids that are given out, in order. -/
def admitted (r : Reception) : List Input → List ClientId
  | [] => []
  | i :: is => (r.grant? i).toList ++ (r.step i).1.admitted is

/-- The sessions that are counted out, in order. -/
def released (r : Reception) : List Input → List ClientId
  | [] => []
  | i :: is => (r.discharge? i).toList ++ (r.step i).1.released is

theorem run_snoc (r : Reception) (is : List Input) (i : Input) :
    r.run (is ++ [i]) =
      (((r.run is).1.step i).1, (r.run is).2 ++ ((r.run is).1.step i).2) := by
  rw [run_append]
  simp only [run, List.append_nil]

theorem admitted_snoc (r : Reception) (is : List Input) (i : Input) :
    r.admitted (is ++ [i]) = r.admitted is ++ ((r.run is).1.grant? i).toList := by
  induction is generalizing r with
  | nil => simp [admitted, run]
  | cons j is ih => rw [List.cons_append, admitted, admitted, ih, List.append_assoc, run]

theorem released_snoc (r : Reception) (is : List Input) (i : Input) :
    r.released (is ++ [i]) = r.released is ++ ((r.run is).1.discharge? i).toList := by
  induction is generalizing r with
  | nil => simp [released, run]
  | cons j is ih => rw [List.cons_append, released, released, ih, List.append_assoc, run]

/-! ### Course of a session -/

/-- How far a session has come, if it has not been counted out, and what the exchange has heard of
it. -/
inductive Course (client : ClientId) : Option Session → List ExchangeEvent → Prop
  | waits : Course client (some .admitted) []
  | reads (reader : Reader) (ms : List Message) :
    Course client (some (.reading reader)) (.connected client :: ms.map (.received client))
  | ends (ms : List Message) :
    Course client (some .ending)
      (.connected client :: ms.map (.received client) ++ [.left client])
  | gone (ms : List Message) :
    Course client none (.connected client :: ms.map (.received client) ++ [.left client])

variable {client : ClientId}

theorem told_connected (client : ClientId) : told client [.connected client] = [.connected client] :=
  told_eq_self (by simp [ExchangeEvent.client])

/-- An input keeps the course of the session that it is about. -/
theorem Course.goes (h : Course client (r.sessions.get? client) es) (hd : r.Does i p)
    (hi : i.client? = some client) :
    Course client (p.1.sessions.get? client) (es ++ told client p.2) := by
  have reading {reader : Reader} (hr : r.sessions.get? client = some (.reading reader)) :
      ∃ ms : List Message, es = .connected client :: ms.map (.received client) := by
    rw [hr] at h
    cases h with
    | reads _ ms => exact ⟨ms, rfl⟩
  cases hd with
  | ignores =>
    rw [told, List.filter_nil, List.append_nil]
    exact h
  | admits | shuts => cases hi
  | announces c hc =>
    obtain rfl := Option.some.inj hi
    rw [hc] at h
    cases h with
    | waits =>
      rw [told_connected]
      simp only [Keyed.get?_insert_self]
      exact .reads {} []
  | reads c s reader hc hb =>
    obtain rfl := Option.some.inj hi
    obtain ⟨ms, rfl⟩ := reading hc
    rw [told_received, List.cons_append, ← List.map_append]
    simp only [Keyed.get?_insert_self]
    exact .reads _ _
  | breaks c s reader hc hb =>
    obtain rfl := Option.some.inj hi
    obtain ⟨ms, rfl⟩ := reading hc
    rw [told_append, told_received, told_left, ← List.append_assoc, List.cons_append,
      ← List.map_append]
    simp only [finish, Keyed.get?_insert_self]
    exact .ends _
  | closes c _ reader hc _ hclient =>
    obtain rfl := Option.some.inj (hclient.symm.trans hi)
    obtain ⟨ms, rfl⟩ := reading hc
    simp only [finish, Keyed.get?_insert_self, told_left]
    exact .ends ms
  | releases c hc =>
    obtain rfl := Option.some.inj hi
    rw [hc] at h
    cases h with
    | ends ms =>
      rw [told, List.filter_nil, List.append_nil]
      simp only [Keyed.get?_erase_self]
      exact .gone ms

/-! ### The tally -/

/-- A reception has given out these ids, has counted out these sessions, and has told the exchange
this. -/
structure Tallied (r : Reception) (ids gone : List ClientId) (es : List ExchangeEvent) : Prop where
  issued : ids = List.range' 1 r.last
  released : gone.Nodup ∧ ∀ client ∈ gone, client ∈ ids
  live : ∀ client, client ∈ r.sessions.keys ↔ client ∈ ids ∧ client ∉ gone
  count : r.active = r.sessions.size
  balance : r.active + gone.length = ids.length
  bound : r.active ≤ maxSessions
  course : ∀ client ∈ ids, Course client (r.sessions.get? client) (told client es)
  unheard : ∀ client, client ∉ ids → told client es = []

theorem tallied_start : ({} : Reception).Tallied [] [] [] where
  issued := rfl
  released := ⟨.nil, nofun⟩
  live _ := ⟨nofun, fun h => nomatch h.1⟩
  count := rfl
  balance := rfl
  bound := Nat.zero_le _
  course := nofun
  unheard _ _ := rfl

theorem grant_eq_some {id : ClientId} (h : r.grant? i = some id) :
    i = .arrive ∧ r.admits = true ∧ id = r.last + 1 := by
  unfold grant? at h
  split at h
  · next ha => exact ⟨ha.1, ha.2, (Option.some.inj h).symm⟩
  · cases h

theorem discharge_eq_some (h : r.discharge? i = some client) :
    i = .release client ∧ r.sessions.get? client = some .ending := by
  unfold discharge? at h
  split at h
  · split at h
    · next hs =>
      obtain rfl := Option.some.inj h
      exact ⟨rfl, hs⟩
    · cases h
  all_goals cases h

theorem step_arrive (h : r.admits = true) : r.step .arrive =
    ({ r with
        sessions := r.sessions.insert (r.last + 1) .admitted
        active := r.active + 1
        last := r.last + 1 }, []) := if_pos h

theorem step_release (h : r.sessions.get? client = some .ending) : r.step (.release client) =
    ({ r with sessions := r.sessions.erase client, active := r.active - 1 }, []) := by
  rw [step, h]

theorem keys_insert {s : Session} (h : r.sessions.get? client = some s) (t : Session) :
    (r.sessions.insert client t).keys = r.sessions.keys := by
  rw [Keyed.insert, dif_pos (Keyed.mem_keys_of_get? h), Keyed.keys_modify]

/-- Unless an id is given out or a session is counted out, neither the count nor the sessions that
are there change. -/
theorem step_keeps (hg : r.grant? i = none) (hd : r.discharge? i = none) :
    (r.step i).1.sessions.keys = r.sessions.keys ∧ (r.step i).1.active = r.active ∧
      (r.step i).1.last = r.last := by
  cases i with
  | arrive =>
    have ha : ¬ r.admits = true := fun ha => by simp [grant?, ha] at hg
    rw [step, if_neg ha]
    exact ⟨rfl, rfl, rfl⟩
  | announce c =>
    simp only [step]
    split
    · next hc => exact ⟨keys_insert hc _, rfl, rfl⟩
    · exact ⟨rfl, rfl, rfl⟩
  | bytes c s =>
    simp only [step]
    split
    · next reader hc =>
      split
      · exact ⟨keys_insert hc _, rfl, rfl⟩
      · exact ⟨keys_insert hc _, rfl, rfl⟩
    · exact ⟨rfl, rfl, rfl⟩
  | hangUp c =>
    simp only [step]
    split
    · next reader hc => exact ⟨keys_insert hc _, rfl, rfl⟩
    · exact ⟨rfl, rfl, rfl⟩
  | shutdown => exact ⟨rfl, rfl, rfl⟩
  | dismiss c =>
    simp only [step]
    split
    · next reader hc =>
      split
      · exact ⟨rfl, rfl, rfl⟩
      · exact ⟨keys_insert hc _, rfl, rfl⟩
    · exact ⟨rfl, rfl, rfl⟩
  | release c =>
    have hc : r.sessions.get? c ≠ some .ending := fun hc => by simp [discharge?, hc] at hd
    unfold step
    dsimp only
    split
    · next h => exact (hc h).elim
    · exact ⟨rfl, rfl, rfl⟩

theorem step_of_none (h : r.sessions.get? client = none) (hi : i.client? = some client) :
    r.step i = (r, []) := by
  cases i with
  | arrive | shutdown => cases hi
  | announce | bytes | hangUp | dismiss | release =>
    obtain rfl := Option.some.inj hi
    simp only [step, h]

namespace Tallied

theorem mem_ids (h : r.Tallied ids gone es) : client ∈ ids ↔ 1 ≤ client ∧ client ≤ r.last := by
  rw [h.issued, List.mem_range'_1, Nat.add_comm 1, Nat.lt_succ_iff]

theorem get?_of_not_mem (h : r.Tallied ids gone es) (hc : client ∉ ids) :
    r.sessions.get? client = none :=
  Keyed.get?_eq_none_iff.2 fun hk => hc ((h.live client).1 hk).1

theorem course_step (h : r.Tallied ids gone es) (i : Input) (client : ClientId)
    (hc : client ∈ ids) :
    Course client ((r.step i).1.sessions.get? client) (told client (es ++ (r.step i).2)) := by
  have hdoes := r.does_step i
  rw [told_append]
  by_cases hi : i.client? = some client
  · exact (h.course client hc).goes hdoes hi
  · rw [hdoes.undisturbed hi (h.mem_ids.1 hc).2, hdoes.untold hi, List.append_nil]
    exact h.course client hc

theorem unheard_step (h : r.Tallied ids gone es) (i : Input) (client : ClientId)
    (hc : client ∉ ids) : told client (es ++ (r.step i).2) = [] := by
  rw [told_append, h.unheard client hc, List.nil_append]
  by_cases hi : i.client? = some client
  · rw [step_of_none (h.get?_of_not_mem hc) hi]
    rfl
  · exact (r.does_step i).untold hi

theorem admits (h : r.Tallied ids gone es) (ha : r.admits = true) :
    (r.step .arrive).1.Tallied (ids ++ [r.last + 1]) gone (es ++ (r.step .arrive).2) := by
  have hnew : r.last + 1 ∉ ids := fun hmem => Nat.not_succ_le_self _ (h.mem_ids.1 hmem).2
  have hnone := h.get?_of_not_mem hnew
  have hactive : r.active < maxSessions := by
    rw [Reception.admits, Bool.and_eq_true] at ha
    exact of_decide_eq_true ha.2
  have hcourse := h.course_step .arrive
  have hunheard := h.unheard_step .arrive
  have hbalance := h.balance
  rw [step_arrive ha] at hcourse hunheard ⊢
  constructor
  case issued =>
    rw [h.issued]
    dsimp only
    rw [List.range'_concat, Nat.one_mul, Nat.add_comm 1]
  case released =>
    exact ⟨h.released.1, fun c hc => List.mem_append_left _ (h.released.2 c hc)⟩
  case live =>
    intro c
    have hfresh : c = r.last + 1 → c ∉ gone := by
      rintro rfl hg
      exact hnew (h.released.2 _ hg)
    rw [Keyed.mem_keys_insert, List.mem_append, List.mem_singleton, h.live, or_and_right,
      and_iff_left_of_imp hfresh]
  case count => exact (congrArg (· + 1) h.count).trans (Keyed.size_insert_of_new hnone _).symm
  case balance =>
    rw [List.length_append, List.length_singleton]
    dsimp only
    omega
  case bound => exact hactive
  case course =>
    intro c hc
    rcases List.mem_append.1 hc with hc | hc
    · exact hcourse c hc
    · obtain rfl := List.mem_singleton.1 hc
      rw [hunheard _ hnew]
      simp only [Keyed.get?_insert_self]
      exact .waits
  case unheard => exact fun c hc => hunheard c fun hmem => hc (List.mem_append_left _ hmem)

theorem releases (h : r.Tallied ids gone es) (he : r.sessions.get? client = some .ending) :
    (r.step (.release client)).1.Tallied ids (gone ++ [client])
      (es ++ (r.step (.release client)).2) := by
  obtain ⟨hid, hlive⟩ := (h.live client).1 (Keyed.mem_keys_of_get? he)
  have hcourse := h.course_step (.release client)
  have hunheard := h.unheard_step (.release client)
  have hsize := Keyed.size_erase he
  have hcount := h.count
  have hbalance := h.balance
  have hbound := h.bound
  rw [step_release he] at hcourse hunheard ⊢
  constructor
  case issued => exact h.issued
  case released =>
    refine ⟨List.nodup_append.2 ⟨h.released.1, List.nodup_singleton _, ?_⟩, ?_⟩
    · rintro c hc _ hc' rfl
      rw [List.mem_singleton.1 hc'] at hc
      exact hlive hc
    · intro c hc
      rcases List.mem_append.1 hc with hc | hc
      · exact h.released.2 c hc
      · rwa [List.mem_singleton.1 hc]
  case live =>
    intro c
    rw [Keyed.mem_keys_erase, h.live, List.mem_append, List.mem_singleton, not_or, and_assoc]
  case count =>
    dsimp only
    omega
  case balance =>
    rw [List.length_append, List.length_singleton]
    dsimp only
    omega
  case bound =>
    dsimp only
    omega
  case course => exact hcourse
  case unheard => exact hunheard

theorem step (h : r.Tallied ids gone es) (i : Input) :
    (r.step i).1.Tallied (ids ++ (r.grant? i).toList) (gone ++ (r.discharge? i).toList)
      (es ++ (r.step i).2) := by
  cases hg : r.grant? i with
  | some id =>
    obtain ⟨rfl, ha, rfl⟩ := grant_eq_some hg
    rw [show r.discharge? .arrive = none from rfl, Option.toList_none, List.append_nil]
    exact h.admits ha
  | none =>
    rw [Option.toList_none, List.append_nil]
    cases hd : r.discharge? i with
    | some client =>
      obtain ⟨rfl, he⟩ := discharge_eq_some hd
      exact h.releases he
    | none =>
      rw [Option.toList_none, List.append_nil]
      obtain ⟨hkeys, hactive, hlast⟩ := step_keeps hg hd
      have hsize : (r.step i).1.sessions.size = r.sessions.size := by
        rw [Keyed.size_eq_length_keys, hkeys, Keyed.size_eq_length_keys]
      exact {
        issued := by rw [hlast, h.issued]
        released := h.released
        live := fun c => by rw [hkeys, h.live]
        count := by rw [hactive, hsize, h.count]
        balance := by rw [hactive, h.balance]
        bound := by rw [hactive]; exact h.bound
        course := h.course_step i
        unheard := h.unheard_step i }

end Tallied

theorem tallied_run (is : List Input) :
    (run {} is).1.Tallied (admitted {} is) (Reception.released {} is) (run {} is).2 := by
  induction is using List.reverseRecOn with
  | nil => exact tallied_start
  | append_singleton is i ih =>
    rw [run_snoc, admitted_snoc, released_snoc]
    exact ih.step i

/-! ### Clients that are there -/

/-- The exchange has heard of nobody but the sessions that are counted. -/
theorem Tallied.mem_keys_of_attending (h : r.Tallied ids gone es) {client : ClientId}
    (hc : client ∈ es.foldl ExchangeEvent.attendance []) : client ∈ r.sessions.keys := by
  rw [← ExchangeEvent.mem_foldl_attendance_told] at hc
  have hid : client ∈ ids := by
    by_contra hid
    rw [h.unheard client hid] at hc
    cases hc
  by_contra hk
  have hcourse := h.course client hid
  rw [Keyed.get?_eq_none_iff.2 hk] at hcourse
  generalize told client es = fs at hc hcourse
  cases hcourse with
  | gone ms =>
    rw [List.foldl_append] at hc
    simp [ExchangeEvent.attendance] at hc

theorem admitted_of_connected (h : .connected client ∈ (r.step i).2) :
    r.sessions.get? client = some .admitted := by
  have hdoes := r.does_step i
  generalize r.step i = p at h hdoes
  cases hdoes with
  | ignores | admits | shuts | releases => cases h
  | announces c hc =>
    cases List.mem_singleton.1 h
    exact hc
  | reads | breaks | closes => simp [finish] at h

theorem exists_break {fs : List ExchangeEvent} (h : fs <+: (r.run is).2) :
    ∃ js i gs, fs = (r.run js).2 ++ gs ∧ gs <+: ((r.run js).1.step i).2 := by
  induction is using List.reverseRecOn with
  | nil => exact ⟨[], .shutdown, [], List.prefix_nil.1 h, List.nil_prefix⟩
  | append_singleton js i ih =>
    rw [run_snoc] at h
    rcases List.prefix_or_prefix_of_prefix h (List.prefix_append _ _) with hfs | ⟨gs, rfl⟩
    · exact ih hfs
    · exact ⟨js, i, gs, rfl, (List.prefix_append_right_inj _).1 h⟩

/-- At no time does the exchange have more lines than there may be sessions. -/
theorem lines_le {fs gs : List ExchangeEvent} (hfs : fs <+: (run {} is).2)
    (hgs : gs.filter (!·.mutes) = fs) : (Exchange.run {} gs).1.lines.size ≤ maxSessions := by
  obtain ⟨js, i, heard, rfl, hheard⟩ := exists_break hfs
  have htallied := tallied_run js
  have hkeys : (Exchange.run {} gs).1.lines.keys = gs.foldl ExchangeEvent.attendance [] :=
    Exchange.keys_lines_run {} gs
  have hsub : (Exchange.run {} gs).1.lines.keys ⊆ (run {} js).1.sessions.keys := by
    intro client hc
    rw [hkeys, ← ExchangeEvent.foldl_attendance_filter, hgs, List.foldl_append] at hc
    rcases ExchangeEvent.mem_foldl_attendance hc with hc | hc
    · exact htallied.mem_keys_of_attending hc
    · exact Keyed.mem_keys_of_get? (admitted_of_connected (hheard.subset hc))
  calc (Exchange.run {} gs).1.lines.size
      = (Exchange.run {} gs).1.lines.keys.length := Keyed.size_eq_length_keys _
    _ ≤ (run {} js).1.sessions.keys.length :=
        ((Exchange.run {} gs).1.lines.nodup.subperm hsub).length_le
    _ = (run {} js).1.active := by rw [htallied.count, Keyed.size_eq_length_keys]
    _ ≤ maxSessions := htallied.bound

/-! ### Main statement -/

/-- **Admission counts the sessions.**  Whatever has happened, in whatever order:

* the count is the number of sessions that were let in and not counted out, does not exceed its
  limit, and is not zero when a session that has ended is counted out;
* a newcomer is turned away just when the count is at its limit, and leaves no trace; one that is not
  turned away gets an id that nobody had before;
* of a session the exchange hears first that the client is there and last that it left, and each of
  them once, and of nobody else it hears anything;
* wherever the exchange is in what it hears, and whatever lines have died, it does not have more
  lines than there may be sessions. -/
theorem admission_counts_sessions (is : List Input) :
    let r := (run {} is).1
    let es := (run {} is).2
    let ids := admitted {} is
    let gone := released {} is
    r.active = r.sessions.size ∧ r.active + gone.length = ids.length ∧ r.active ≤ maxSessions ∧
    (∀ c, c ∈ r.sessions.keys ↔ c ∈ ids ∧ c ∉ gone) ∧
    (∀ c, r.sessions.get? c = some .ending → (r.step (.release c)).1.active + 1 = r.active) ∧
    (r.listening = true →
      (r.active = maxSessions → r.step .arrive = (r, [])) ∧
      (r.active ≠ maxSessions → ∃ c, c ∉ ids ∧
        (r.step .arrive).1.sessions.get? c = some .admitted ∧
        (r.step .arrive).1.active = r.active + 1)) ∧
    ids.Nodup ∧ gone.Nodup ∧
    (∀ c ∈ ids, Course c (r.sessions.get? c) (told c es)) ∧
    (∀ c, c ∉ ids → told c es = []) ∧
    ∀ fs gs, fs <+: es → gs.filter (!·.mutes) = fs →
      (Exchange.run {} gs).1.lines.size ≤ maxSessions := by
  intro r es ids gone
  have htallied : r.Tallied ids gone es := tallied_run is
  refine ⟨htallied.count, htallied.balance, htallied.bound, htallied.live, ?_, ?_, ?_,
    htallied.released.1, htallied.course, htallied.unheard, fun fs gs => lines_le⟩
  · intro c hc
    have hpos : 0 < r.active := by
      rw [htallied.count]
      exact Nat.lt_of_lt_of_eq (Nat.succ_pos _) (Keyed.size_erase hc)
    rw [step_release hc]
    exact Nat.sub_add_cancel hpos
  · intro hlistening
    refine ⟨fun hfull => ?_, fun hroom => ⟨r.last + 1, ?_⟩⟩
    · rw [step, if_neg (by simp [Reception.admits, hfull])]
    · have hadmits : r.admits = true := by
        simp [Reception.admits, hlistening, Nat.lt_of_le_of_ne htallied.bound hroom]
      rw [step_arrive hadmits]
      refine ⟨fun hmem => Nat.not_succ_le_self _ (htallied.mem_ids.1 hmem).2, ?_, rfl⟩
      exact Keyed.get?_insert_self ..
  · rw [htallied.issued]
    exact List.nodup_range'

theorem run_arrivals {n : Nat} (h : n ≤ maxSessions) :
    ∃ sessions, run {} (List.replicate n .arrive) =
        ({ sessions := sessions, active := n, last := n }, []) ∧
      ∀ c, 1 ≤ c → c ≤ n → sessions.get? c = some .admitted := by
  induction n with
  | zero => exact ⟨∅, rfl, fun c hc hn => absurd (Nat.le_trans hc hn) (Nat.not_succ_le_zero 0)⟩
  | succ n ih =>
    obtain ⟨sessions, hrun, hget⟩ := ih (Nat.le_of_succ_le h)
    refine ⟨sessions.insert (n + 1) .admitted, ?_, fun c hc hn => ?_⟩
    · rw [List.replicate_succ', run_snoc, hrun,
        step_arrive (by simp [Reception.admits, Nat.lt_of_succ_le h])]
      rfl
    · rw [Keyed.get?_insert]
      split
      · rfl
      · next hne => exact hget c hc (Nat.le_of_lt_succ (Nat.lt_of_le_of_ne hn hne))

/-- A full reception, in which the first session has just ended.  A newcomer is turned away until it
has been counted out. -/
theorem admission_counts_sessions_full :
    let is : List Input := List.replicate maxSessions .arrive ++ [.announce 1, .hangUp 1]
    (run {} is).1.active = maxSessions ∧
      (run {} is).1.step .arrive = ((run {} is).1, []) ∧
      ((run {} is).1.step (.release 1)).1.active + 1 = (run {} is).1.active ∧
      (run {} is).2 = [.connected 1, .left 1] ∧
      ∀ gs, gs.filter (!·.mutes) = [.connected 1, .left 1] →
        (Exchange.run {} gs).1.lines.size ≤ maxSessions := by
  intro is
  obtain ⟨sessions, hrun, hget⟩ := run_arrivals (Nat.le_refl maxSessions)
  have hone : sessions.get? 1 = some .admitted := hget 1 (Nat.le_refl 1) (by decide)
  have his : run {} is =
      ({ sessions := (sessions.insert 1 (.reading {})).insert 1 .ending
         active := maxSessions
         last := maxSessions }, [.connected 1, .left 1]) := by
    rw [show is = _ from rfl, run_append, hrun]
    simp only [run, step, hone, finish, Keyed.get?_insert, if_true, List.nil_append,
      List.cons_append]
  have hfull : (run {} is).1.active = maxSessions := by rw [his]
  have hlistening : (run {} is).1.listening = true := by rw [his]
  have hended : (run {} is).1.sessions.get? 1 = some .ending := by
    rw [his]
    exact Keyed.get?_insert_self ..
  have hheard : (run {} is).2 = [.connected 1, .left 1] := by rw [his]
  obtain ⟨_, _, _, _, hending, harrive, _, _, _, _, hlines⟩ := admission_counts_sessions is
  exact ⟨hfull, (harrive hlistening).1 hfull, hending 1 hended, hheard,
    fun gs hgs => hlines _ gs (hheard ▸ List.prefix_refl _) hgs⟩

end Reception
end Switchboard
