import Switchboard.Proofs.Network.History

/-! # What handlers report

Updates and results on their way, as the events that they stand for.

* **Reports.** Messages in a queue or on a link stand for events at the caller (`reports`), and
  arrive as they are if their values are plain (`event?_transmitted`).
* **Ends.** Where a handler ends a call once at most, its end comes last (`finished_last`).
* **Handlers.** What a handler gives is put behind what it has given (`given_tells`). -/

namespace Switchboard

open Message

/-! ### Events on their way -/

/-- The values of an outcome are plain. -/
def Outcome.Plain : Outcome → Prop
  | value v => v.Plain
  | fault f => f.details.Plain
  | declined => True

/-- The values of an event are plain. -/
def CallEvent.Plain : CallEvent → Prop
  | update v => v.Plain
  | finished o => o.Plain

/-- The values that a handler passes or ends a call with are plain. -/
def Act.Plain : Act → Prop
  | passed _ v => v.Plain
  | ended _ o => o.Plain
  | _ => True

/-- What a message means to a caller. -/
def Message.event? : Message → Option CallEvent
  | update _ v => some (.update v)
  | result _ o => some (.finished o)
  | _ => none

/-- What messages mean to a caller, in order. -/
def reports (ms : List Message) : List CallEvent := ms.filterMap event?

@[simp] theorem reports_nil : reports [] = [] := rfl

@[simp] theorem reports_append (ms ms' : List Message) :
    reports (ms ++ ms') = reports ms ++ reports ms' := List.filterMap_append

theorem reports_cons (m : Message) (ms : List Message) :
    reports (m :: ms) = m.event?.toList ++ reports ms := by
  cases h : m.event? <;> simp [reports, h]

theorem reports_mono {ms ms' : List Message} (h : ms <+: ms') : reports ms <+: reports ms' := by
  obtain ⟨rest, rfl⟩ := h
  rw [reports_append]
  exact List.prefix_append ..

theorem event?_eq_none_iff {m : Message} :
    m.event? = none ↔ m.kind ≠ .update ∧ m.kind ≠ .result := by
  cases m <;> simp [event?, kind]

theorem reports_cons_eq_nil {m : Message} {ms : List Message} (h : reports (m :: ms) = []) :
    m.event? = none ∧ reports ms = [] := by
  rw [reports_cons] at h
  obtain ⟨h1, h2⟩ := List.append_eq_nil_iff.1 h
  exact ⟨by simpa using h1, h2⟩

theorem Strand.reports_written (s : Strand) {m : Message} (h : m.event? = none) :
    reports (s.written m) = reports s.uplink := by
  unfold Strand.written
  split
  · simp [reports_cons, h]
  · rfl

/-- A report with plain values arrives as it is. -/
theorem event?_transmitted {m m' : Message} (h : m.transmitted = .ok m')
    (hp : ∀ e, m.event? = some e → e.Plain) : m'.event? = m.event? := by
  cases m with
  | update d v =>
    have hv : v.Plain := hp _ rfl
    rw [eq_of_transmitted_of_plain (m := .update d v) hv h]
  | result d o =>
    have hv : o.Plain := hp _ rfl
    have hm : (Message.result d o).Plain := by
      cases o <;> exact hv
    rw [eq_of_transmitted_of_plain hm h]
  | call | register | cancel =>
    cases alike_of_transmitted h
    rfl

namespace Deeds

theorem given_plain {ds : List Deed} (h : ∀ d ∈ ds, d.2.Plain) (client : ClientId) (job : JobId) :
    ∀ e ∈ given client job ds, e.Plain := by
  intro e he
  rcases List.mem_append.1 he with he | he
  · obtain ⟨v, hv, rfl⟩ := List.mem_map.1 he
    obtain ⟨⟨a, act⟩, hd, hact⟩ := List.mem_filterMap.1 hv
    cases act with
    | passed j w =>
      dsimp only at hact
      split at hact
      · obtain rfl := Option.some.inj hact
        exact h _ hd
      · cases hact
    | _ => cases hact
  · obtain ⟨o, ho, rfl⟩ := List.mem_map.1 he
    obtain ⟨⟨a, act⟩, hd, hact⟩ := List.mem_filterMap.1 ho
    cases act with
    | ended j w =>
      dsimp only at hact
      split at hact
      · obtain rfl := Option.some.inj hact
        exact h _ hd
      · cases hact
    | _ => cases hact

end Deeds

/-! ### Updates and an end -/

/-- Updates at the start of events are updates of theirs. -/
theorem updates_first {us vs : List Json} {os : List Outcome}
    (h : us.map CallEvent.update <+: events vs os) : us <+: vs := by
  induction us generalizing vs with
  | nil => exact List.nil_prefix
  | cons u us ih =>
    cases vs with
    | nil =>
      cases os with
      | nil => cases List.prefix_nil.1 h
      | cons o os => cases (List.cons_prefix_cons.1 h).1
    | cons v vs =>
      obtain ⟨hu, hr⟩ := List.cons_prefix_cons.1 h
      obtain rfl := CallEvent.update.inj hu
      exact List.cons_prefix_cons.2 ⟨rfl, ih hr⟩

/-- Where there is one end at most, an end among events is that one, and comes last. -/
theorem finished_last {es rest : List CallEvent} {vs : List Json} {o : Outcome}
    {os : List Outcome} (h : es ++ .finished o :: rest <+: events vs os) (hl : os.length ≤ 1) :
    es = vs.map .update ∧ os = [o] ∧ rest = [] := by
  induction vs generalizing es with
  | nil =>
    match os with
    | [] =>
      have := h.length_le
      simp [events] at this
    | [o'] =>
      cases es with
      | nil =>
        obtain ⟨ho, hr⟩ := List.cons_prefix_cons.1 h
        obtain rfl := CallEvent.finished.inj ho
        exact ⟨rfl, rfl, List.prefix_nil.1 hr⟩
      | cons e es =>
        have := h.length_le
        simp [events] at this
    | _ :: _ :: _ => simp at hl
  | cons v vs ih =>
    cases es with
    | nil => cases (List.cons_prefix_cons.1 h).1
    | cons e es =>
      obtain ⟨rfl, hr⟩ := List.cons_prefix_cons.1 h
      obtain ⟨rfl, ho, hn⟩ := ih hr
      exact ⟨rfl, ho, hn⟩

/-! ### What handlers give -/

/-- What a handler has given by an act. -/
def Act.given? (job : JobId) : Act → Option CallEvent
  | passed j v => if j = job then some (.update v) else none
  | ended j o => if j = job then some (.finished o) else none
  | _ => none

namespace Strand

/-- What the handlers of a strand have told fits what they are. -/
structure Recorded (client : ClientId) (ds : List Deed) (s : Strand) : Prop where
  unheard : ∀ job, s.handlers job = none → Deeds.given client job ds = []
  working : ∀ job, s.handlers job = some false → Deeds.ended client job ds = []
  once : ∀ job, (Deeds.ended client job ds).length ≤ 1

variable {client : ClientId} {ds : List Deed} {s s' : Strand} {acts : List Act}

/-- What a handler gives is put behind what it has given, as it has not ended the call before. -/
theorem given_tells (h : s.Tells s' acts) (hr : s.Recorded client ds) (job : JobId) :
    Deeds.given client job (ds ++ acts.map (client, ·)) =
      Deeds.given client job ds ++ acts.filterMap (Act.given? job) := by
  cases h with
  | nothing => simp
  | arrived | started => simp [Deeds.given, Deeds.passed, Deeds.ended, Act.given?]
  | passed j v hj =>
    by_cases hjob : j = job
    · subst hjob
      simp only [Deeds.given, Deeds.passed_append, Deeds.ended_append, hr.working j hj]
      simp [events, Deeds.passed, Deeds.ended, Act.given?]
    · simp [Deeds.given, Deeds.passed, Deeds.ended, Act.given?, hjob]
  | ended j o hj =>
    by_cases hjob : j = job
    · subst hjob
      simp [Deeds.given, events, Deeds.passed, Deeds.ended, Act.given?]
    · simp [Deeds.given, Deeds.passed, Deeds.ended, Act.given?, hjob]

end Strand

theorem Deeds.given_other {client other : ClientId} (h : other ≠ client) (job : JobId)
    (ds : List Deed) (acts : List Act) :
    given other job (ds ++ acts.map (client, ·)) = given other job ds := by
  have hp : passed other job (acts.map (client, ·)) = [] := by
    refine List.filterMap_eq_nil_iff.2 fun d hd => ?_
    obtain ⟨act, _, rfl⟩ := List.mem_map.1 hd
    cases act <;> simp [h.symm]
  have he : ended other job (acts.map (client, ·)) = [] := by
    refine List.filterMap_eq_nil_iff.2 fun d hd => ?_
    obtain ⟨act, _, rfl⟩ := List.mem_map.1 hd
    cases act <;> simp [h.symm]
  rw [given, given, passed_append, ended_append, hp, he, List.append_nil, List.append_nil]

theorem Thread.Records.recorded {t : Thread} {done : List Deed} (h : t.Records done)
    {client : ClientId} {s : Strand} (hs : t.strand client = some s) : s.Recorded client done where
  unheard job hj := by
    obtain ⟨hp, he, _⟩ := h.unheard client job ((handler_of_strand hs).trans hj)
    rw [Deeds.given, hp, he]
    rfl
  working job hj := h.working client job ((handler_of_strand hs).trans hj)
  once job := by
    cases hj : t.handler client job with
    | none => rw [(h.unheard client job hj).2.1]; exact Nat.zero_le _
    | some b =>
      cases b with
      | false => rw [h.working client job hj]; exact Nat.zero_le _
      | true =>
        obtain ⟨o, ho⟩ := h.finished client job hj
        rw [ho]
        exact Nat.le_refl _

end Switchboard
