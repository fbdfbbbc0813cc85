import Switchboard.Proofs.Directory.Roster
import Switchboard.Proofs.Exchange.Consistency
import Switchboard.Proofs.Network.Change
import Switchboard.Proofs.Network.Enrollment

/-! # The directory and the rosters agree

The exchange's directory and the rosters of the participants are two tables of the same handlers,
and only messages keep them together.

* **Links.** As long as a link is not lost, its roster changes by a registration, which is written
  at once, and by a rejection (`Link.Enrolls`).  A rejection never comes (`acknowledged_of_run`).
* **Ports.** `Port.Agrees` says what a roster, the directory and the messages between them have to
  do with each other.  Each handler has one entry, or its registration is on its way, but not both
  (`Port.Once`).
* **Ids.** Ids of handlers are words, and a participant's differ as long as it asks for fewer
  registrations than there are words.  `Agreement` counts those that it has asked for.
* **Main statement.** `agreement_run`. -/

namespace Switchboard

variable {η : Type}

/-! ### Links -/

/-- Whether an event is a command that asks for a registration. -/
def LinkEvent.registers : LinkEvent η → Bool
  | .commanded c => c.registers
  | _ => false

namespace Link

variable [DecidableEq η] {l l' : Link η} {e : LinkEvent η}

/-- What an event does to the roster of a link, and which registrations it writes. -/
inductive Enrolls (l : Link η) : LinkEvent η → Link η × List (Effect η) → Prop
  | keeps {e : LinkEvent η} {r : Link η × List (Effect η)} (hr : r.1.roster = l.roster)
      (hw : ∀ m ∈ r.2.filterMap Port.wrote?, m.kind ≠ .register) : Enrolls l e r
  | registers {context name : String} {priority : UInt16} {handler : η} {id : HandlerId}
      {r : Link η × List (Effect η)}
      (hr : l.roster.register name priority handler = .ok (id, r.1.roster))
      (hw : r.2.filterMap Port.wrote? = [.register context name priority id]) :
    Enrolls l (.commanded (.register context name priority handler)) r
  | rejects {context : String} {o : Outcome} {id : HandlerId} {r : Link η × List (Effect η)}
      (hp : l.pending.get? context = some (.registration id)) (ho : o.isValue = false)
      (hr : r.1.roster = l.roster.remove id) (hw : r.2.filterMap Port.wrote? = []) :
    Enrolls l (.heard (.result context o)) r
  | lost {e : LinkEvent η} {r : Link η × List (Effect η)} (hu : r.1.up = false)
      (hw : r.2.filterMap Port.wrote? = []) : Enrolls l e r

theorem Enrolls.gone : l.Enrolls e l'.teardown :=
  .lost rfl (Port.wrote_quiet (Port.quiet_teardown "" l'))

theorem Enrolls.silent {r : Link η × List (Effect η)} (hr : r.1.roster = l.roster)
    (hw : r.2.filterMap Port.wrote? = []) : l.Enrolls e r := by
  apply Enrolls.keeps hr
  intro m hm
  rw [hw] at hm
  cases hm

theorem Enrolls.writes (hr : l'.roster = l.roster) {m : Message} (hm : m.kind ≠ .register) :
    l.Enrolls e (l'.write m) := by
  rcases l'.write_cases m with hw | hw
  · rw [hw]
    apply Enrolls.keeps
    · exact hr
    · intro k hk
      rwa [List.mem_singleton.1 hk]
  · rw [hw]
    exact .gone

theorem enrolls_obey (l : Link η) (c : Command η) : l.Enrolls (.commanded c) (l.obey c) := by
  cases c with
  | register context name priority handler =>
    simp only [obey]
    split
    · exact .silent rfl rfl
    · next id roster hr =>
      generalize hl : ({ l with
        roster, pending := l.pending.insert context (.registration id) } : Link η) = l'
      rcases l'.write_cases (.register context name priority id) with hw | hw
      · rw [hw]
        subst hl
        exact .registers hr rfl
      · rw [hw]
        exact .gone
  | call c =>
    simp only [obey]
    refine .writes ?_ ?_
    · rfl
    · intro hk
      cases hk
  | cancel | update | finish =>
    simp only [obey]
    split
    · refine .writes ?_ ?_
      · rfl
      · intro hk
        cases hk
    · exact .silent rfl rfl
  | shutdown => exact .gone

theorem enrolls_hear (l : Link η) (m : Message) : l.Enrolls (.heard m) (l.hear m) := by
  cases m with
  | call c =>
    simp only [hear, dispatch]
    split
    · apply Enrolls.writes rfl
      intro hk
      cases hk
    · split <;> exact .silent rfl rfl
  | update context v =>
    simp only [hear]
    split <;> exact .silent rfl rfl
  | result context o =>
    simp only [hear, answer]
    split
    · exact .silent rfl rfl
    · next hp =>
      split
      · exact .silent rfl rfl
      · next ho => exact .rejects hp (Bool.eq_false_iff.2 ho) rfl rfl
    · exact .silent rfl rfl
  | cancel context =>
    simp only [hear]
    split <;> exact .silent rfl rfl
  | register => exact .silent rfl rfl

theorem enrolls_step (l : Link η) (e : LinkEvent η) : l.Enrolls e (l.step e) := by
  unfold step
  split
  · cases e with
    | commanded c => exact l.enrolls_obey c
    | heard m => exact l.enrolls_hear m
    | deafened => exact .silent rfl rfl
    | ended => exact .gone
  · exact .silent rfl rfl

theorem Enrolls.issued_le {r : Link η × List (Effect η)} (h : l.Enrolls e r)
    (hu : r.1.up = true) :
    r.1.roster.issued ≤ l.roster.issued + if e.registers then 1 else 0 := by
  cases h with
  | keeps hr =>
    rw [hr]
    exact Nat.le_add_right ..
  | registers hr =>
    rw [(Roster.register_eq hr).2]
    exact Nat.le_refl _
  | rejects _ _ hr =>
    rw [hr]
    exact Nat.le_add_right ..
  | lost hdown => exact Bool.noConfusion (hdown.symm.trans hu)

end Link

/-! ### Ports -/

/-- Whether a message asks for the registration of a handler. -/
def Message.enrolls (id : HandlerId) : Message → Bool
  | .register _ _ _ other => other = id
  | _ => false

namespace Port

/-- The handlers of a port's participant. -/
abbrev roster (p : Port η) : Roster η := p.station.link.roster

/-- A handler has one entry, or its registration is on its way, but not both. -/
def Once (d : Directory Route) (client : ClientId) (p : Port η) (id : HandlerId) : Prop :=
  (∃ name e, d.Sole ⟨client, id⟩ name e) ∧ p.uplink.countP (·.enrolls id) = 0 ∨
    d.Lacks ⟨client, id⟩ ∧ p.uplink.countP (·.enrolls id) = 1

/-- A roster agrees with a directory and with what is on its way.  That each handler is listed once
depends on that ids of handlers are `distinct`. -/
structure Agrees (d : Directory Route) (client : ClientId) (distinct : Prop) (p : Port η) :
    Prop where
  bound : distinct → ∀ id, (p.roster.get? id).isSome → id.toNat ≤ p.roster.issued
  listed : ∀ name, ∀ e ∈ d.entries name, e.value.client = client →
    p.roster.Holds name e.rank.priority e.value.handler
  asked : ∀ context name priority id, .register context name priority id ∈ p.uplink →
    p.roster.Holds name priority id
  once : distinct → p.reads = true → ∀ id, (p.roster.get? id).isSome → p.Once d client id
  handed : ∀ c, .call c ∈ p.downlink → ∃ id, c.handler = some id ∧ (p.roster.get? id).isSome

variable {d d' : Directory Route} {client : ClientId} {distinct : Prop} {p p' : Port η}

/-- A handler is listed as it is on the roster, or is about to be. -/
theorem Agrees.sole_or_asked (h : p.Agrees d client distinct) (hd : distinct)
    (hr : p.reads = true) {id : HandlerId} (hid : (p.roster.get? id).isSome) :
    (∃ name e, d.Sole ⟨client, id⟩ name e ∧ p.roster.Holds name e.rank.priority id) ∧
        p.uplink.filter (·.enrolls id) = [] ∨
      d.Lacks ⟨client, id⟩ ∧ ∃ context name priority,
        p.uplink.filter (·.enrolls id) = [.register context name priority id] ∧
          p.roster.Holds name priority id := by
  rcases h.once hd hr id hid with ⟨⟨name, e, hsole⟩, hcount⟩ | ⟨hlacks, hcount⟩
  · obtain ⟨he, hv⟩ := hsole.mem
    have hholds := h.listed name e he (by rw [hv])
    rw [hv] at hholds
    rw [List.countP_eq_length_filter] at hcount
    exact .inl ⟨⟨name, e, hsole, hholds⟩, List.eq_nil_of_length_eq_zero hcount⟩
  · rw [List.countP_eq_length_filter] at hcount
    obtain ⟨m, hm⟩ := List.length_eq_one_iff.1 hcount
    have hmem : m ∈ p.uplink.filter (·.enrolls id) := by
      rw [hm]
      exact List.mem_singleton_self m
    obtain ⟨hup, henrolls⟩ := List.mem_filter.1 hmem
    cases m with
    | register context name priority other =>
      obtain rfl : other = id := of_decide_eq_true henrolls
      exact .inr ⟨hlacks, context, name, priority, hm, h.asked _ _ _ _ hup⟩
    | call | update | result | cancel => cases henrolls

/-- A call that is on its way finds its handler. -/
theorem Agrees.finds (h : p.Agrees d client distinct) {m : Message} (hm : m ∈ p.downlink) {c : Call}
    (hc : m.transmitted = .ok (.call c)) :
    ∃ handler, c.handler.bind p.roster.get? = some handler := by
  cases Message.alike_of_transmitted hc with
  | call c' args =>
    obtain ⟨id, hid, hsome⟩ := h.handed c' hm
    obtain ⟨handler, hh⟩ := Option.isSome_iff_exists.1 hsome
    refine ⟨handler, ?_⟩
    show c'.handler.bind p.roster.get? = some handler
    rw [hid]
    exact hh

theorem Agrees.mono {distinct' : Prop} (h : p.Agrees d client distinct)
    (hd : distinct' → distinct) : p.Agrees d client distinct' where
  bound hd' := h.bound (hd hd')
  listed := h.listed
  asked := h.asked
  once hd' := h.once (hd hd')
  handed := h.handed

theorem agrees_empty (h : ∀ name, ∀ e ∈ d.entries name, e.value.client ≠ client) :
    ({} : Port η).Agrees d client distinct where
  bound _ _ hid := nomatch hid
  listed name e he hc := absurd hc (h name e he)
  asked := nofun
  once _ _ _ hid := nomatch hid
  handed := nofun

theorem Agrees.congr (h : p.Agrees d client distinct) (hroster : p'.roster = p.roster)
    (hup : ∀ m ∈ p'.uplink, m.kind = .register → m ∈ p.uplink)
    (hreads : p'.reads = true → p.reads = true ∧
      ∀ id, p'.uplink.countP (·.enrolls id) = p.uplink.countP (·.enrolls id))
    (hdown : ∀ c, .call c ∈ p'.downlink → .call c ∈ p.downlink) : p'.Agrees d client distinct where
  bound hd id hid := by
    rw [hroster] at hid ⊢
    exact h.bound hd id hid
  listed name e he hc := by
    rw [hroster]
    exact h.listed name e he hc
  asked context name priority id hm := by
    rw [hroster]
    exact h.asked context name priority id (hup _ hm rfl)
  once hd hr id hid := by
    rw [hroster] at hid
    obtain ⟨hr, hcount⟩ := hreads hr
    rw [Once, hcount]
    exact h.once hd hr id hid
  handed c hc := by
    rw [hroster]
    exact h.handed c (hdown c hc)

theorem enrolls_register (context name : String) (priority : UInt16) (id other : HandlerId) :
    (Message.register context name priority id).enrolls other = decide (id = other) := rfl

theorem enrolls_of_kind {m : Message} (h : m.kind ≠ .register) (id : HandlerId) :
    m.enrolls id = false := by
  cases m with
  | register => exact absurd rfl h
  | call | update | result | cancel => rfl

/-- A handler that is registered is a new one, and its registration is on its way. -/
theorem Agrees.registers [DecidableEq η] (h : p.Agrees d client distinct) {context name : String}
    {priority : UInt16} {handler : η} {id : HandlerId}
    (hroster : p.roster.register name priority handler = .ok (id, p'.roster))
    (hroom : distinct → p.roster.issued + 1 < 2 ^ 64) (hreads : p'.reads = p.reads)
    (hup : p'.uplink = if p.reads then p.uplink ++ [.register context name priority id]
      else p.uplink)
    (hdown : p'.downlink = p.downlink) : p'.Agrees d client distinct := by
  obtain ⟨hid, hr⟩ := Roster.register_eq hroster
  have hnat (hd : distinct) : id.toNat = p.roster.issued + 1 := by
    rw [hid, Roster.nextId, UInt64.toNat_ofNat_of_lt' (hroom hd)]
  have hnew (hd : distinct) {other : HandlerId} (ho : (p.roster.get? other).isSome) :
      other ≠ id := by
    rintro rfl
    have := hnat hd
    have := h.bound hd other ho
    omega
  have hissued : p'.roster.issued = p.roster.issued + 1 := by rw [hr]
  -- nothing is known of the new handler, neither in the directory nor on its way
  have hlacks (hd : distinct) : d.Lacks ⟨client, id⟩ := by
    apply Directory.lacks_iff.2
    intro f e he hv
    have hholds := h.listed f e he (by rw [hv])
    exact hnew hd hholds.handler (by rw [hv])
  have hquiet (hd : distinct) : p.uplink.countP (·.enrolls id) = 0 := by
    apply List.countP_eq_zero.2
    intro m hm henrolls
    cases m with
    | register context' f priority' other =>
      have hholds := h.asked context' f priority' other hm
      exact hnew hd hholds.handler (of_decide_eq_true henrolls)
    | call | update | result | cancel => cases henrolls
  constructor
  case bound =>
    intro hd other ho
    rw [Roster.get?_register hroster] at ho
    rw [hissued]
    split at ho
    · next he => rw [he, hnat hd]
    · have := h.bound hd other ho
      omega
  case listed =>
    intro f e he hc
    exact (h.listed f e he hc).register hroster
  case asked =>
    intro context' f priority' other hm
    rw [hup] at hm
    split at hm
    · rcases List.mem_append.1 hm with hm | hm
      · exact (h.asked context' f priority' other hm).register hroster
      · obtain ⟨_, rfl, rfl, rfl⟩ := Message.register.inj (List.mem_singleton.1 hm)
        exact Roster.holds_register hroster
    · exact (h.asked context' f priority' other hm).register hroster
  case once =>
    intro hd hr' other ho
    rw [hreads] at hr'
    rw [hr', if_pos rfl] at hup
    rw [Roster.get?_register hroster] at ho
    rw [Once, hup, List.countP_append, List.countP_singleton, enrolls_register]
    by_cases he : id = other
    · subst he
      rw [hquiet hd]
      exact .inr ⟨hlacks hd, by simp⟩
    · rw [if_neg (Ne.symm he)] at ho
      simp only [he, decide_false, Bool.false_eq_true, if_false, Nat.add_zero]
      exact h.once hd hr' other ho
  case handed =>
    intro c hc
    rw [hdown] at hc
    obtain ⟨other, hh, ho⟩ := h.handed c hc
    exact ⟨other, hh, Roster.isSome_get?_register hroster ho⟩

theorem Agrees.meets {e : LinkEvent η} {q : Port η} (h : p.Agrees d client distinct)
    (hm : p.Meets e q) : q.Agrees d client distinct := by
  obtain ⟨_, hup, hdown⟩ := hm.subset
  apply h.congr
  · exact congrArg Link.roster hm.station.1
  · intro m hq _
    exact hup hq
  · intro hr
    obtain ⟨hr, hu⟩ := hm.uplink_eq hr
    exact ⟨hr, fun id => by rw [hu]⟩
  · intro c hc
    exact hdown hc

/-- A port agrees after something has happened to its link, unless a registration is rejected. -/
theorem Agrees.happen [DecidableEq η] {e : LinkEvent η} (h : p.Agrees d client distinct)
    (hu : (p.happen e).station.link.up = true)
    (hroom : ∀ context name priority handler,
      e = .commanded (.register context name priority handler) →
        distinct → p.roster.issued + 1 < 2 ^ 64)
    (hvalue : ∀ context o id, e = .heard (.result context o) →
      p.station.link.pending.get? context = some (.registration id) → o.isValue = true) :
    (p.happen e).Agrees d client distinct := by
  have hlink : (p.happen e).station.link = (p.station.link.step e).1 := Station.happen_link ..
  rw [hlink] at hu
  have hup := p.uplink_happen e
  rw [Station.wrote_happen] at hup
  have hroster : (p.happen e).roster = (p.station.link.step e).1.roster :=
    congrArg Link.roster hlink
  cases p.station.link.enrolls_step e with
  | keeps hr hw =>
    apply h.congr
    · exact hroster.trans hr
    · intro m hm hkind
      rw [hup] at hm
      split at hm
      · rcases List.mem_append.1 hm with hm | hm
        · exact hm
        · exact absurd hkind (hw m hm)
      · exact hm
    · intro hreads
      refine ⟨hreads, ?_⟩
      intro id
      rw [hup]
      split
      · rw [List.countP_append, Nat.add_eq_left, List.countP_eq_zero]
        intro m hm
        rw [enrolls_of_kind (hw m hm)]
        exact Bool.false_ne_true
      · rfl
    · intro c hc
      exact hc
  | @registers context name priority handler id _ hr hw =>
    rw [hw] at hup
    rw [← hroster] at hr
    exact h.registers hr (hroom _ _ _ _ rfl) rfl hup rfl
  | rejects hp ho => exact absurd (hvalue _ _ _ rfl hp) (Bool.eq_false_iff.1 ho)
  | lost hdown => exact Bool.noConfusion (hdown.symm.trans hu)

/-- The number of registrations that a participant has made or has left for its link to make. -/
def asked (p : Port η) : Nat := p.roster.issued + p.station.queue.countP Command.registers

theorem Meets.asked_le [DecidableEq η] {e : LinkEvent η} {q : Port η} (h : p.Meets e q)
    (hu : (q.happen e).station.link.up = true) : (q.happen e).asked ≤ p.asked := by
  have hlink : (q.happen e).station.link = (q.station.link.step e).1 := Station.happen_link ..
  rw [hlink] at hu
  have hqueue : (q.happen e).station.queue = q.station.queue :=
    (Station.happen_queue ..).trans (if_pos hu)
  have hissued := (q.station.link.enrolls_step e).issued_le hu
  rw [← hlink, h.station.1] at hissued
  rw [asked, asked, hqueue, roster, roster]
  cases h with
  | @obeys c cs hq =>
    have hcs : (p.popped cs).station.queue = cs := rfl
    have hissued : ((p.popped cs).happen (.commanded c)).station.link.roster.issued ≤
        p.station.link.roster.issued + if c.registers then 1 else 0 := hissued
    rw [hq, List.countP_cons, hcs]
    omega
  | hears | ends | closes => exact Nat.add_le_add_right hissued _

theorem Agrees.relist (h : p.Agrees d client distinct)
    (hentries : ∀ name, ∀ e ∈ d'.entries name, e.value.client = client → e ∈ d.entries name)
    (hsame : p.reads = true → ∀ id, d'.entriesOf ⟨client, id⟩ = d.entriesOf ⟨client, id⟩) :
    p.Agrees d' client distinct where
  bound := h.bound
  listed name e he hc := h.listed name e (hentries name e he hc) hc
  asked := h.asked
  once hd hr id hid := by
    have ho := h.once hd hr id hid
    simp only [Once, Directory.Sole, Directory.Lacks, hsame hr id] at ho ⊢
    exact ho
  handed := h.handed

theorem Agrees.insert {other : ClientId} (h : p.Agrees d client distinct) (ho : other ≠ client)
    (name : String) (priority : UInt16) (id : HandlerId) :
    p.Agrees (d.insert name priority ⟨other, id⟩) client distinct := by
  apply h.relist
  · intro f e he hc
    rcases Directory.mem_entries_insert.1 he with ⟨_, rfl⟩ | he
    · exact absurd hc ho
    · exact he
  · intro _ id'
    apply Directory.entriesOf_insert
    intro he
    exact ho (congrArg Route.client he)

/-- Entries that are removed are those of a port that is not read from any more, or of others. -/
theorem Agrees.retain {other : ClientId} (h : p.Agrees d client distinct)
    (ho : p.reads = true → client ≠ other) :
    p.Agrees (d.retain fun _ r => r.client ≠ other) client distinct := by
  apply h.relist
  · intro f e he _
    exact (Directory.mem_entries_retain.1 he).1
  · intro hr id
    apply Directory.entriesOf_retain
    intro _
    exact decide_eq_true (ho hr)

/-- A registration arrives: what was on its way is listed. -/
theorem Agrees.arrives {context name : String} {priority : UInt16} {id : HandlerId}
    {us : List Message} (h : p.Agrees d client distinct)
    (hu : p.uplink = .register context name priority id :: us) :
    ({ p with uplink := us } : Port η).Agrees (d.insert name priority ⟨client, id⟩) client
      distinct where
  bound := h.bound
  listed f e he hc := by
    rcases Directory.mem_entries_insert.1 he with ⟨rfl, rfl⟩ | he
    · apply h.asked context
      rw [hu]
      exact List.mem_cons_self
    · exact h.listed f e he hc
  asked context' f priority' id' hm := by
    apply h.asked context'
    rw [hu]
    exact List.mem_cons_of_mem _ hm
  once hd hr other hid := by
    have ho := h.once hd hr other hid
    rw [Once, hu, List.countP_cons, enrolls_register] at ho
    rw [Once]
    by_cases he : id = other
    · subst he
      simp only [decide_true, if_true] at ho
      rcases ho with ⟨_, hc⟩ | ⟨hl, hc⟩
      · omega
      · exact .inl ⟨⟨name, _, Directory.sole_insert hl name priority⟩, by simpa using hc⟩
    · have hne : (⟨client, id⟩ : Route) ≠ ⟨client, other⟩ := by
        intro hroute
        exact he (congrArg Route.handler hroute)
      simp only [he, decide_false, Bool.false_eq_true, if_false, Nat.add_zero] at ho
      simp only [Directory.Sole, Directory.Lacks, Directory.entriesOf_insert hne] at ho ⊢
      exact ho
  handed := h.handed

theorem Agrees.pops {m : Message} {us : List Message} (h : p.Agrees d client distinct)
    (hu : p.uplink = m :: us) (hm : m.kind ≠ .register) :
    ({ p with uplink := us } : Port η).Agrees d client distinct := by
  apply h.congr
  · rfl
  · intro k hk _
    rw [hu]
    exact List.mem_cons_of_mem _ hk
  · intro hr
    refine ⟨hr, ?_⟩
    intro id
    rw [hu, List.countP_cons, enrolls_of_kind hm]
    rfl
  · intro c hc
    exact hc

/-- What is sent offers calls to handlers that are listed. -/
def Listed (d : Directory Route) (sents : List Sent) : Prop :=
  ∀ s ∈ sents, ∀ rank c, s.notice = .offered rank c →
    ∃ name, ∃ e ∈ d.entries name, e.value.client = s.client ∧ c.handler = some e.value.handler

/-- A port agrees after calls have been put on their way to listed handlers. -/
theorem Agrees.post {sents : List Sent} (h : p.Agrees d client distinct) (hs : Listed d sents) :
    (p.post client sents).Agrees d client distinct := by
  obtain ⟨hstation, hup, hreads, _⟩ := p.post_same client sents
  have hroster : (p.post client sents).roster = p.roster := by rw [roster, hstation]
  constructor
  case bound =>
    rw [hroster]
    exact h.bound
  case listed =>
    rw [hroster]
    exact h.listed
  case asked =>
    rw [hroster, hup]
    exact h.asked
  case once =>
    rw [hroster, hreads]
    intro hd hr id hid
    rw [Once, hup]
    exact h.once hd hr id hid
  case handed =>
    rw [hroster]
    intro c hc
    rcases mem_downlink_post hc with hc | ⟨s, hmem, hclient, hm⟩
    · exact h.handed c hc
    · obtain ⟨client', notice, delivered⟩ := s
      cases notice with
      | offered rank c' =>
        obtain rfl := Message.call.inj hm
        obtain ⟨name, e, he, hec, hh⟩ := hs _ hmem rank c' rfl
        exact ⟨_, hh, (h.listed name e he (hec.trans hclient)).handler⟩
      | registered | answered | updated | withdrawn => cases hm

end Port

/-! ### The exchange -/

namespace Exchange

theorem listed_offering {x : Exchange} {c : Call} {es : List (Entry Route)}
    (h : ∀ e ∈ es, e ∈ x.directory.entries c.function) :
    Port.Listed x.directory (es.map (x.offering c)) := by
  intro s hs rank c' hn
  obtain ⟨e, he, rfl⟩ := List.mem_map.1 hs
  obtain ⟨_, rfl⟩ := Notice.offered.inj hn
  exact ⟨c.function, e, h e he, rfl, rfl⟩

theorem listed_send (x : Exchange) (client : ClientId) {n : Notice}
    (h : ∀ rank c, n ≠ .offered rank c) : Port.Listed x.directory [x.send client n] := by
  intro s hs rank c hn
  rw [List.mem_singleton.1 hs] at hn
  exact absurd hn (h rank c)

theorem listed_append {d : Directory Route} {sents sents' : List Sent} (h : Port.Listed d sents)
    (h' : Port.Listed d sents') : Port.Listed d (sents ++ sents') := by
  intro s hs
  rcases List.mem_append.1 hs with hs | hs
  · exact h s hs
  · exact h' s hs

theorem Turn.listed {context : String} {x : Exchange} {r r' : Option Running} {e : ExchangeEvent}
    {sents : List Sent} (h : Turn context x r e r' sents) : Port.Listed x.directory sents := by
  have hsub (missed rest : List (Entry Route)) (e : Entry Route) :
      missed ++ [e] ⊆ missed ++ e :: rest := by
    rw [List.append_cons missed e rest]
    exact List.subset_append_left ..
  cases h with
  | elsewhere => exact nofun
  | registered | refused | unknown | relayed | answered | withdrawn => exact listed_send _ _ nofun
  | accepted client c _ missed rest e hd =>
    apply listed_offering
    intro f hf
    rw [hd]
    exact hsub missed rest e hf
  | untaken client c _ missed hd =>
    exact listed_append (listed_offering fun f hf => hd ▸ hf) (listed_send _ _ nofun)
  | rerouted r cause _ missed rest e hd =>
    apply listed_offering
    intro f hf
    have hafter : f ∈ x.directory.after r.call.function r.callee.rank := by
      rw [hd]
      exact hsub missed rest e hf
    exact (Directory.mem_after.1 hafter).1
  | exhausted r cause _ missed hd =>
    refine listed_append (listed_offering fun f hf => ?_) (listed_send _ _ nofun)
    exact (Directory.mem_after.1 (hd ▸ hf)).1

theorem listed_step {x : Exchange} (hx : x.Coherent) (e : ExchangeEvent) :
    Port.Listed (x.step e).1.directory (x.step e).2 := by
  intro s hs
  exact (step_turn hx e s.notice.context).listed s (List.mem_filter.2 ⟨hs, by simp⟩)

end Exchange

/-! ### Networks -/

/-- Whether a participant asks for a registration by an event. -/
def NetworkEvent.registers (client : ClientId) : NetworkEvent η → Bool
  | .act other (.register ..) => other = client
  | _ => false

namespace Network

variable {net net' : Network η} {asked asked' : ClientId → Nat} {client : ClientId} {p p' : Port η}

/-- The rosters agree with the directory, and not more registrations are made than are asked for. -/
structure Agreement (asked : ClientId → Nat) (net : Network η) : Prop where
  owned : ∀ name, ∀ e ∈ net.exchange.directory.entries name,
    ∃ p, net.ports.get? e.value.client = some p
  agrees : ∀ client p, net.ports.get? client = some p → p.station.link.up = true →
    p.Agrees net.exchange.directory client (asked client < 2 ^ 64)
  asked_le : ∀ client p, net.ports.get? client = some p → p.station.link.up = true →
    p.asked ≤ asked client

theorem agreement_start : ({} : Network η).Agreement asked := ⟨nofun, nofun, nofun⟩

theorem Agreement.mono (h : net.Agreement asked) (hle : ∀ client, asked client ≤ asked' client) :
    net.Agreement asked' where
  owned := h.owned
  agrees client p hp hu :=
    (h.agrees client p hp hu).mono fun hd => Nat.lt_of_le_of_lt (hle client) hd
  asked_le client p hp hu := Nat.le_trans (h.asked_le client p hp hu) (hle client)

theorem Agreement.change (h : net.Agreement asked) (hp : net.ports.get? client = some p)
    (x : Exchange) (serial : Nat) (hle : ∀ client, asked client ≤ asked' client)
    (howned : ∀ name, ∀ e ∈ x.directory.entries name,
      e ∈ net.exchange.directory.entries name ∨ e.value.client = client)
    (hother : ∀ other (q : Port η) distinct, other ≠ client →
      q.Agrees net.exchange.directory other distinct → q.Agrees x.directory other distinct)
    (hclient : p'.station.link.up = true →
      p'.Agrees x.directory client (asked client < 2 ^ 64) ∧ p'.asked ≤ asked' client) :
    Agreement asked' { net.change client p' with exchange := x, serial } where
  owned name e he := by
    rw [get?_change hp]
    split
    · exact ⟨p', rfl⟩
    · next hne => exact h.owned name e ((howned name e he).resolve_right hne)
  agrees other q hq hu := by
    have hd (hd : asked' other < 2 ^ 64) : asked other < 2 ^ 64 := Nat.lt_of_le_of_lt (hle other) hd
    rw [get?_change hp] at hq
    split at hq
    · next he =>
      obtain rfl := Option.some.inj hq
      subst he
      exact (hclient hu).1.mono hd
    · next hne => exact (hother other q _ hne (h.agrees other q hq hu)).mono hd
  asked_le other q hq hu := by
    rw [get?_change hp] at hq
    split at hq
    · next he =>
      obtain rfl := Option.some.inj hq
      rw [he]
      exact (hclient hu).2
    · exact Nat.le_trans (h.asked_le other q hq hu) (hle other)

theorem Agreement.tell {e : ExchangeEvent} (v : Visits) (hx : net.exchange.Coherent)
    (h : Agreement asked { net with exchange := (net.exchange.step e).1 }) :
    (net.tell e v).1.Agreement asked where
  owned name f hf := by
    obtain ⟨p, hp⟩ := h.owned name f (Exchange.stepIn_fst hx v e ▸ hf)
    refine ⟨p.post f.value.client (net.exchange.stepIn v e).2, ?_⟩
    rw [get?_tell]
    exact congrArg (Option.map _) hp
  agrees client q hq hu := by
    obtain ⟨p, hp, rfl⟩ := of_get?_tell hq
    rw [(p.post_same ..).1] at hu
    have hlisted : Port.Listed (net.exchange.step e).1.directory (net.exchange.stepIn v e).2 :=
      fun s hs => Exchange.listed_step hx e s ((Exchange.mem_stepIn hx).1 hs)
    have hagrees := (h.agrees client p hp hu).post hlisted
    rw [← Exchange.stepIn_fst hx v e] at hagrees
    exact hagrees
  asked_le client q hq hu := by
    obtain ⟨p, hp, rfl⟩ := of_get?_tell hq
    have hstation := (p.post_same client (net.exchange.stepIn v e).2).1
    rw [hstation] at hu
    rw [Port.asked, Port.roster, hstation]
    exact h.asked_le client p hp hu

theorem Agreement.join (h : net.Agreement asked) (hs : net.Sound) : net.join.1.Agreement asked := by
  apply Agreement.tell
  · exact hs.coherent
  · refine ⟨?_, ?_, ?_⟩
    · intro name e he
      obtain ⟨p, hp⟩ := h.owned name e he
      rw [Keyed.get?_insert]
      split
      · exact ⟨{}, rfl⟩
      · exact ⟨p, hp⟩
    · intro other q hq hu
      rw [Keyed.get?_insert] at hq
      split at hq
      · next hne =>
        obtain rfl := Option.some.inj hq
        apply Port.agrees_empty
        rintro name e he rfl
        obtain ⟨p, hp⟩ := h.owned name e he
        rw [hne, hs.fresh] at hp
        cases hp
      · exact h.agrees other q hq hu
    · intro other q hq hu
      rw [Keyed.get?_insert] at hq
      split at hq
      · obtain rfl := Option.some.inj hq
        exact Nat.zero_le _
      · exact h.asked_le other q hq hu

theorem asked_operate_le (p : Port η) (fresh : String) (o : Operation η) (client : ClientId) :
    (p.restate (p.station.operate fresh o).1).asked ≤
      p.asked + if (NetworkEvent.act client o).registers client then 1 else 0 := by
  have hk := p.station.operate_kept fresh o
  rw [Port.asked, Port.asked, Port.roster, Port.roster, Port.restate, hk.link]
  rcases hk.queue with hq | ⟨_, c, hq, hc⟩
  · rw [hq]
    exact Nat.le_add_right ..
  · rw [hq, List.countP_append, List.countP_singleton]
    cases c with
    | register context name priority handler =>
      obtain ⟨_, rfl⟩ := hc context name priority handler rfl
      simp [Command.registers, NetworkEvent.registers, Nat.add_assoc]
    | call | cancel | update | finish | shutdown =>
      simp only [Command.registers]
      exact Nat.le_add_right ..

theorem Agreement.operates (h : net.Agreement asked) (hp : net.ports.get? client = some p)
    (o : Operation η) : Agreement
      (fun other => asked other + if (NetworkEvent.act client o).registers other then 1 else 0)
      { net.change client (p.restate (p.station.operate (ContextId.ofNat net.serial) o).1) with
        serial := net.serial + 1 } := by
  have hk := p.station.operate_kept (ContextId.ofNat net.serial) o
  refine h.change hp net.exchange _ (fun _ => Nat.le_add_right ..) (fun _ _ he => .inl he)
    (fun _ _ _ _ hq => hq) ?_
  intro hu
  have hup : p.station.link.up = true := by
    rw [← hk.link]
    exact hu
  constructor
  · apply (h.agrees client p hp hup).congr
    · exact congrArg Link.roster hk.link
    · intro m hm _
      exact hm
    · intro hr
      exact ⟨hr, fun _ => rfl⟩
    · intro c hc
      exact hc
  · have := asked_operate_le p (ContextId.ofNat net.serial) o client
    have := h.asked_le client p hp hup
    omega

theorem Agreement.receives {m m' : Message} {us : List Message} (h : net.Agreement asked)
    (hp : net.ports.get? client = some p) (hu : p.uplink = m :: us)
    (hm : m.transmitted = .ok m') : Agreement asked { net.change client { p with uplink := us } with
      exchange := (net.exchange.step (.received client m')).1 } := by
  have hdir := net.exchange.step_directory (.received client m')
  have halike := Message.alike_of_transmitted hm
  cases m' with
  | register context name priority id =>
    cases halike
    refine h.change hp _ net.serial (fun _ => Nat.le_refl _) ?_ ?_ ?_
    · intro f e he
      rw [hdir] at he
      rcases Directory.mem_entries_insert.1 he with ⟨_, rfl⟩ | he
      · exact .inr rfl
      · exact .inl he
    · intro other q _ hne hq
      rw [hdir]
      exact hq.insert (Ne.symm hne) name priority id
    · intro hup
      rw [hdir]
      exact ⟨(h.agrees client p hp hup).arrives hu, h.asked_le client p hp hup⟩
  | call | update | result | cancel =>
    have hkind : m.kind ≠ .register := by
      cases halike
      nofun
    refine h.change hp _ net.serial (fun _ => Nat.le_refl _) ?_ ?_ ?_
    · intro f e he
      rw [hdir] at he
      exact .inl he
    · intro other q _ _ hq
      rw [hdir]
      exact hq
    · intro hup
      rw [hdir]
      exact ⟨(h.agrees client p hp hup).pops hu hkind, h.asked_le client p hp hup⟩

variable [DecidableEq η]

theorem Agreement.leaves (h : net.Agreement asked) (hp : net.ports.get? client = some p) :
    Agreement asked
      { net.change client { p.close 0 p.downlink.length with left := true } with
        exchange := (net.exchange.step (.left client)).1 } := by
  have hdir := net.exchange.step_directory (.left client)
  have hmeets := Port.Meets.closes 0 p.downlink.length (List.suffix_refl p.uplink)
  refine h.change hp _ net.serial (fun _ => Nat.le_refl _) ?_ ?_ ?_
  · intro name e he
    rw [hdir] at he
    exact .inl (Directory.mem_entries_retain.1 he).1
  · intro other q _ hne hq
    rw [hdir]
    exact hq.retain fun _ => hne
  · intro hu
    have hup : p.station.link.up = true := Port.up_of_happen (e := .deafened) hu
    have hclosed : (p.close 0 p.downlink.length).Agrees net.exchange.directory client
        (asked client < 2 ^ 64) :=
      ((h.agrees client p hp hup).meets hmeets).happen hu nofun nofun
    constructor
    · rw [hdir]
      obtain ⟨hbound, hlisted, hasked, honce, hhanded⟩ : (p.close 0 p.downlink.length).Agrees
        (net.exchange.directory.retain fun _ r => r.client ≠ client) client _ :=
          hclosed.retain nofun
      exact ⟨hbound, hlisted, hasked, honce, hhanded⟩
    · exact Nat.le_trans (hmeets.asked_le hu) (h.asked_le client p hp hup)

/-- Every registration that waits is answered with a value. -/
def Acknowledges (net : Network η) : Prop :=
  ∀ client p, net.ports.get? client = some p → ∀ context id,
    p.station.link.pending.get? context = some (.registration id) →
      ∀ m ∈ p.downlink, m.context = context → m = .result context (.value .null)

/-- A link meets something.  A registration that it obeys has been waiting to be, and one that is
answered has been made. -/
theorem Agreement.meets {e : LinkEvent η} {q : Port η} (h : net.Agreement asked)
    (ha : net.Acknowledges) (hp : net.ports.get? client = some p) (hm : p.Meets e q) :
    (net.change client (q.happen e)).Agreement asked := by
  refine h.change hp net.exchange net.serial (fun _ => Nat.le_refl _) (fun _ _ he => .inl he)
    (fun _ _ _ _ hq => hq) ?_
  intro hu
  have hup : p.station.link.up = true := by
    rw [← hm.station.1]
    exact Port.up_of_happen hu
  have hbound := h.asked_le client p hp hup
  constructor
  · apply ((h.agrees client p hp hup).meets hm).happen hu
    · rintro context name priority handler rfl hd
      cases hm with
      | @obeys _ cs hq =>
        rw [Port.asked, hq, List.countP_cons_of_pos rfl] at hbound
        simp only [Port.popped, Port.roster] at hbound ⊢
        omega
    · rintro context o id rfl hpending
      cases hm with
      | @hears m _ ms hd hm =>
        have hcontext := (Message.alike_of_transmitted hm).context
        have hmem : m ∈ p.downlink := by
          rw [hd]
          exact List.mem_cons_self
        have hnull := ha client p hp context id hpending m hmem hcontext.symm
        rw [hnull] at hm
        have hplain : (Message.result context (.value .null)).Plain := ⟨trivial, rfl⟩
        cases Message.eq_of_transmitted_of_plain hplain hm
        rfl
  · exact Nat.le_trans (hm.asked_le hu) hbound

theorem Agreement.step {e : NetworkEvent η} (h : net.Agreement asked) (hs : net.Sound)
    (ha : net.Acknowledges) (hc : net.Change e net') :
    net'.Agreement fun client => asked client + if e.registers client then 1 else 0 := by
  have hle (client : ClientId) :
      asked client ≤ asked client + if e.registers client then 1 else 0 := Nat.le_add_right ..
  cases hc with
  | nothing => exact h.mono hle
  | joins => exact (h.join hs).mono hle
  | operates he hp =>
    subst he
    exact h.operates hp _
  | meets hp hm => exact (h.meets ha hp hm).mono hle
  | receives hp hu hm =>
    refine Agreement.mono ?_ hle
    exact Agreement.tell {} hs.coherent (h.receives hp hu hm)
  | leaves hp _ v =>
    refine Agreement.mono ?_ hle
    exact Agreement.tell v hs.coherent (h.leaves hp)
  | mutes client =>
    have hmuted : Agreement asked { net with exchange := (net.exchange.step (.muted client)).1 } :=
      ⟨h.owned, h.agrees, h.asked_le⟩
    exact (hmuted.tell {} hs.coherent).mono hle

theorem agreement_run (es : List (NetworkEvent η))
    (hn : (ContextId.series (run ({} : Network η) es).serial).Nodup) :
    (run ({} : Network η) es).Agreement fun client => es.countP (·.registers client) := by
  induction es using List.reverseRecOn with
  | nil => exact agreement_start
  | append_singleton es e ih =>
    have hrun : run ({} : Network η) (es ++ [e]) = ((run {} es).step e).1 := run_append ..
    have hcount (client : ClientId) : (es ++ [e]).countP (·.registers client) =
        es.countP (·.registers client) + if e.registers client then 1 else 0 := by
      rw [List.countP_append, List.countP_singleton]
    simp only [hcount]
    rw [hrun] at hn ⊢
    have hle := (run ({} : Network η) es).serial_le_step e
    have hn' := List.Nodup.sublist (ContextId.series_mono hle).sublist hn
    refine (ih hn').step (sound_run sound_start es) ?_ (change_step _ e)
    intro client p hp context id hpending m hm hc
    exact acknowledged_of_run es hn' hp hpending hm hc

end Network
end Switchboard
