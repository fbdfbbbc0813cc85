import Switchboard.Proofs.Network.Agreement
import Switchboard.Proofs.Network.Progress

/-! # Confirmed registrations

What a participant has been told of a registration is true: the handler is listed, until the
participant leaves.

* **Requests.** A context that is given out for a registration names one client, one name and one
  priority from then on (`Port.Asks`).
* **Confirmations.** A participant is told that a registration has been made when it hears a result
  about its context (`Port.Told`), and the exchange sends one only after the entry has been made
  (`Network.Confirms`).
* **Main statement.** `agreement_of_run`: the directory and the rosters agree, a confirmed
  registration is found by every call, and every call that is handed out finds its handler. -/

namespace Switchboard

variable {η : Type}

/-! ### Links and stations -/

namespace Link

theorem confirms_teardown (l : Link η) (context : String) :
    .registered context (.ok ()) ∉ l.teardown.2 := by
  intro h
  rcases List.mem_append.1 h with h | h
  · obtain ⟨⟨other, _ | id⟩, _, he⟩ := List.mem_map.1 h <;> cases he
  · obtain ⟨job, _, he⟩ := List.mem_map.1 h
    cases he

theorem confirms_write (l : Link η) (m : Message) (context : String) :
    .registered context (.ok ()) ∉ (l.write m).2 := by
  rcases l.write_cases m with hw | hw
  · rw [hw]
    simp
  · rw [hw]
    exact l.confirms_teardown context

variable [DecidableEq η]

theorem confirms_obey (l : Link η) (c : Command η) (context : String) :
    .registered context (.ok ()) ∉ (l.obey c).2 := by
  cases c with
  | register =>
    simp only [obey]
    split
    · simp
    · exact confirms_write _ _ _
  | call => exact confirms_write _ _ _
  | cancel | update | finish =>
    simp only [obey]
    split
    · exact confirms_write _ _ _
    · simp
  | shutdown => exact confirms_teardown _ _

/-- A registration that is written has been commanded. -/
theorem commanded_of_wrote {l : Link η} {e : LinkEvent η} {context name : String}
    {priority : UInt16} {id : HandlerId}
    (h : .register context name priority id ∈ (l.step e).2.filterMap Port.wrote?) :
    ∃ handler, e = .commanded (.register context name priority handler) := by
  have henrolls := l.enrolls_step e
  generalize l.step e = result at h henrolls
  cases henrolls with
  | keeps _ hw => exact absurd rfl (hw _ h)
  | @registers _ _ _ handler _ _ _ hw =>
    rw [hw] at h
    obtain ⟨rfl, rfl, rfl, rfl⟩ := Message.register.inj (List.mem_singleton.1 h)
    exact ⟨handler, rfl⟩
  | rejects _ _ _ hw | lost _ hw =>
    rw [hw] at h
    cases h

theorem confirms_step {l : Link η} {e : LinkEvent η} {context : String}
    (h : .registered context (.ok ()) ∈ (l.step e).2) : ∃ o, e = .heard (.result context o) := by
  unfold step at h
  split at h
  · cases e with
    | commanded c => exact absurd h (l.confirms_obey c context)
    | heard m =>
      cases m with
      | call c =>
        simp only [hear, dispatch] at h
        split at h
        · exact absurd h (confirms_write _ _ _)
        · split at h <;> simp at h
      | result other o =>
        simp only [hear, answer] at h
        split at h
        · simp at h
        · split at h
          · exact ⟨o, by simp_all⟩
          · simp at h
        · simp at h
      | update | cancel =>
        simp only [hear] at h
        split at h <;> simp at h
      | register => simp [hear] at h
    | deafened => simp at h
    | ended => exact absurd h (confirms_teardown _ _)
  · simp at h

end Link

namespace Station

theorem registered_foldl_note {es : List (Effect η)} {s : Station η} {context : String}
    (h : (es.foldl note s).registrations.get? context = some (some (.ok ()))) :
    s.registrations.get? context = some (some (.ok ())) ∨ .registered context (.ok ()) ∈ es := by
  induction es generalizing s with
  | nil => exact .inl h
  | cons e es ih =>
    rcases ih h with h | h
    · cases e with
      | registered other a =>
        simp only [note, Keyed.get?_modify] at h
        split at h
        · next hc =>
          obtain ⟨_, _, ha⟩ := Option.map_eq_some_iff.1 h
          obtain rfl := Option.some.inj ha
          rw [hc]
          exact .inr List.mem_cons_self
        · exact .inl h
      | wrote | delivered | detached | started | interrupted => exact .inl h
    · exact .inr (List.mem_cons_of_mem _ h)

/-- A registration is confirmed by a result that is heard. -/
theorem confirms_happen [DecidableEq η] {s : Station η} {e : LinkEvent η} {context : String}
    (h : (s.happen e).1.registrations.get? context = some (some (.ok ()))) :
    s.registrations.get? context = some (some (.ok ())) ∨
      ∃ o, e = .heard (.result context o) := by
  rcases registered_foldl_note h with h | h
  · exact .inl h
  · have h : .registered context (.ok ()) ∈ (s.happen e).2 := h
    simp only [happen] at h
    split at h
    · exact .inr (Link.confirms_step h)
    · rcases List.mem_append.1 h with h | h
      · exact .inr (Link.confirms_step h)
      · obtain ⟨c, _, hc⟩ := List.mem_flatMap.1 h
        cases c <;> simp [forgotten] at hc

end Station

/-! ### Ports -/

/-- A registration that a participant has asked for. -/
structure Request where
  context : String
  client : ClientId
  name : String
  priority : UInt16

namespace Port

variable {r : Request} {other : ClientId} {p q : Port η} {e : LinkEvent η}

/-- All that is on its way to the exchange about a registration is what has been asked for. -/
structure Asks (r : Request) (other : ClientId) (p : Port η) : Prop where
  queue : ∀ name priority handler, .register r.context name priority handler ∈ p.station.queue →
    other = r.client ∧ name = r.name ∧ priority = r.priority
  uplink : ∀ name priority id, .register r.context name priority id ∈ p.uplink →
    other = r.client ∧ name = r.name ∧ priority = r.priority

/-- A participant has been told that a registration has been made, or is about to be told something
about it. -/
def Told (context : String) (p : Port η) : Prop :=
  (∃ m ∈ p.downlink, m.context = context) ∨
    p.station.registrations.get? context = some (some (.ok ()))

theorem asks_empty (r : Request) (other : ClientId) : ({} : Port η).Asks r other := ⟨nofun, nofun⟩

theorem Asks.happen [DecidableEq η] (h : p.Asks r other) (hm : p.Meets e q) :
    (q.happen e).Asks r other := by
  obtain ⟨hqueue, hup, _⟩ := hm.subset
  constructor
  · intro name priority handler hc
    apply h.queue name priority handler
    have hc : .register r.context name priority handler ∈ (q.station.happen e).1.queue := hc
    rw [Station.happen_queue] at hc
    split at hc
    · exact hqueue hc
    · cases hc
  · intro name priority id hc
    rw [uplink_happen, Station.wrote_happen] at hc
    split at hc
    · rcases List.mem_append.1 hc with hc | hwritten
      · exact h.uplink name priority id (hup hc)
      · obtain ⟨handler, rfl⟩ := Link.commanded_of_wrote hwritten
        cases hm with
        | obeys hq =>
          apply h.queue name priority handler
          rw [hq]
          exact List.mem_cons_self
    · exact h.uplink name priority id (hup hc)

theorem Told.of_happen [DecidableEq η] {context : String} (h : (q.happen e).Told context)
    (hm : p.Meets e q) : p.Told context := by
  rcases h with ⟨m, hd, hc⟩ | h
  · exact .inl ⟨m, hm.subset.2.2 hd, hc⟩
  · rcases Station.confirms_happen h with h | ⟨o, rfl⟩
    · rw [hm.station.2.1] at h
      exact .inr h
    · cases hm with
      | @hears m _ _ hd hm =>
        refine .inl ⟨m, ?_, ?_⟩
        · rw [hd]
          exact List.mem_cons_self
        · exact (Message.alike_of_transmitted hm).context.symm

end Port

/-! ### Strands -/

/-- The context of a registration is used for it when the registration is asked for. -/
theorem Strand.Enrolling.register {p : Port η} {context : String}
    (h : (p.strand context).Enrolling context) (name : String) (priority : UInt16) (handler : η) :
    ((p.restate (p.station.register context name priority handler)).strand context).Enrolling
      context := by
  have hopens := Station.register_opens p context name priority handler context
  have hcall : ((p.restate (p.station.register context name priority handler)).strand context).call =
      (p.strand context).call := by
    unfold Station.register Station.submit
    by_cases hu : p.station.link.up = true
    · rw [if_pos hu]
      rfl
    · rw [if_neg hu]
      rfl
  generalize (p.restate (p.station.register context name priority handler)).strand context = s'
    at hopens hcall ⊢
  rcases hopens with rfl | ⟨_, ho⟩
  · exact h
  · cases ho with
    | issues =>
      rw [h.call] at hcall
      cases hcall
    | requests _ hm =>
      refine { h with queue := ?_ }
      intro k hk
      rcases List.mem_append.1 hk with hk | hk
      · exact h.queue k hk
      · rwa [List.mem_singleton.1 hk]

namespace Network

variable {r : Request} {net net' : Network η} {client : ClientId} {p p' : Port η}

/-- What has been asked for is listed, or the client has left. -/
def Settled (r : Request) (net : Network η) : Prop :=
  (∃ e ∈ net.exchange.directory.entries r.name,
    e.value.client = r.client ∧ e.rank.priority = r.priority) ∨
  ∃ p, net.ports.get? r.client = some p ∧ p.left = true

/-- Nobody is told anything about a registration before it has been made. -/
structure Confirms (r : Request) (net : Network η) : Prop where
  asks : ∀ client p, net.ports.get? client = some p → p.Asks r client
  told : ∀ client p, net.ports.get? client = some p → p.Told r.context → net.Settled r

theorem confirms_start : ({} : Network η).Confirms r := ⟨nofun, nofun⟩

theorem Settled.change (h : net.Settled r) (hp : net.ports.get? client = some p) (x : Exchange)
    (serial : Nat) (hleft : p.left = true → p'.left = true)
    (hx : ∀ e ∈ net.exchange.directory.entries r.name, e.value.client = r.client →
      e ∈ x.directory.entries r.name ∨ client = r.client ∧ p'.left = true) :
    Settled r { net.change client p' with exchange := x, serial } := by
  have hchanged (hc : client = r.client) (hl : p'.left = true) :
      Settled r { net.change client p' with exchange := x, serial } := by
    refine .inr ⟨p', ?_, hl⟩
    rw [get?_change hp, if_pos hc.symm]
  rcases h with ⟨e, he, hc, hpriority⟩ | ⟨q, hq, hl⟩
  · rcases hx e he hc with he | ⟨hc, hl⟩
    · exact .inl ⟨e, he, hc, hpriority⟩
    · exact hchanged hc hl
  · by_cases hc : r.client = client
    · rw [hc, hp] at hq
      obtain rfl := Option.some.inj hq
      exact hchanged hc.symm (hleft hl)
    · refine .inr ⟨q, ?_, hl⟩
      rw [get?_change hp, if_neg hc]
      exact hq

theorem Confirms.change (h : net.Confirms r) (hp : net.ports.get? client = some p) (x : Exchange)
    (serial : Nat) (hleft : p.left = true → p'.left = true)
    (hx : ∀ e ∈ net.exchange.directory.entries r.name, e.value.client = r.client →
      e ∈ x.directory.entries r.name ∨ client = r.client ∧ p'.left = true)
    (hasks : p'.Asks r client) (htold : p'.Told r.context → p.Told r.context) :
    Confirms r { net.change client p' with exchange := x, serial } where
  asks other q hq := by
    rw [get?_change hp] at hq
    split at hq
    · next hc =>
      obtain rfl := Option.some.inj hq
      rw [hc]
      exact hasks
    · exact h.asks other q hq
  told other q hq ht := by
    rw [get?_change hp] at hq
    split at hq
    · obtain rfl := Option.some.inj hq
      exact (h.told client p hp (htold ht)).change hp x serial hleft hx
    · exact (h.told other q hq ht).change hp x serial hleft hx

theorem Settled.tell {e : ExchangeEvent} (v : Visits) (hx : net.exchange.Coherent)
    (h : Settled r { net with exchange := (net.exchange.step e).1 }) :
    (net.tell e v).1.Settled r := by
  rw [← Exchange.stepIn_fst hx v e] at h
  rcases h with h | ⟨p, hp, hl⟩
  · exact .inl h
  · refine .inr ⟨p.post r.client (net.exchange.stepIn v e).2, ?_, ?_⟩
    · rw [get?_tell]
      exact congrArg (Option.map _) hp
    · rw [(p.post_same ..).2.2.2]
      exact hl

theorem Confirms.tell {e : ExchangeEvent} (v : Visits) (hx : net.exchange.Coherent)
    (h : Confirms r { net with exchange := (net.exchange.step e).1 })
    (hs : ∀ s ∈ (net.exchange.step e).2, s.notice.context = r.context →
      Settled r { net with exchange := (net.exchange.step e).1 }) :
    (net.tell e v).1.Confirms r where
  asks client q hq := by
    obtain ⟨p, hp, rfl⟩ := of_get?_tell hq
    obtain ⟨hstation, hup, _⟩ := p.post_same client (net.exchange.stepIn v e).2
    have ha := h.asks client p hp
    constructor
    · rw [hstation]
      exact ha.queue
    · rw [hup]
      exact ha.uplink
  told client q hq ht := by
    obtain ⟨p, hp, rfl⟩ := of_get?_tell hq
    apply Settled.tell v hx
    rcases ht with ⟨m, hm, hc⟩ | ht
    · rcases Port.mem_downlink_post hm with hm | ⟨s, hmem, _, rfl⟩
      · exact h.told client p hp (.inl ⟨m, hm, hc⟩)
      · rw [Notice.context_message] at hc
        exact hs s ((Exchange.mem_stepIn hx).1 hmem) hc
    · rw [(p.post_same ..).1] at ht
      exact h.told client p hp (.inr ht)

theorem Confirms.join (h : net.Confirms r) (hs : net.Sound) : net.join.1.Confirms r := by
  refine Confirms.tell {} ?_ ?_ ?_
  · exact hs.coherent
  · constructor
    · intro other q hq
      rw [Keyed.get?_insert] at hq
      split at hq
      · obtain rfl := Option.some.inj hq
        exact Port.asks_empty r other
      · exact h.asks other q hq
    · intro other q hq ht
      rw [Keyed.get?_insert] at hq
      split at hq
      · obtain rfl := Option.some.inj hq
        rcases ht with ⟨m, hm, _⟩ | ht
        · cases hm
        · cases ht
      · rcases h.told other q hq ht with he | ⟨p, hp, hl⟩
        · exact .inl he
        · refine .inr ⟨p, ?_, hl⟩
          refine (Keyed.get?_insert_of_ne _ _ fun hc => ?_).trans hp
          rw [hc, hs.fresh] at hp
          cases hp
  · intro s hsent
    cases hsent

/-- A message arrives.  Only the registration itself makes the exchange send anything about it. -/
theorem Confirms.receives {m m' : Message} {us : List Message} (h : net.Confirms r)
    (hs : net.Sound) (ht : (net.thread r.context).Enrolling r.context)
    (hp : net.ports.get? client = some p) (hu : p.uplink = m :: us)
    (hm : m.transmitted = .ok m') :
    ((net.change client { p with uplink := us }).tell (.received client m')).1.Confirms r := by
  have hmem : m ∈ p.uplink := by
    rw [hu]
    exact List.mem_cons_self
  have hasks := h.asks client p hp
  refine Confirms.tell {} ?_ ?_ ?_
  · exact hs.coherent
  · refine h.change hp _ net.serial id ?_ ?_ id
    · intro e he _
      exact .inl (Exchange.mem_entries_stays he nofun)
    · refine ⟨hasks.queue, ?_⟩
      intro name priority id hk
      apply hasks.uplink name priority id
      rw [hu]
      exact List.mem_cons_of_mem _ hk
  · intro s hsent hcontext
    have hc : m'.context = r.context :=
      (Exchange.receive_context hs.coherent client m' s hsent).symm.trans hcontext
    have halike := Message.alike_of_transmitted hm
    have hkind : m.kind = .register := by
      apply (ht.strand client _ (strand_thread hp)).uplink
      apply List.mem_filter.2
      exact ⟨hmem, decide_eq_true (halike.context.symm.trans hc)⟩
    cases halike with
    | register context name priority id =>
      obtain rfl : context = r.context := hc
      obtain ⟨hclient, hname, hpriority⟩ := hasks.uplink name priority id hmem
      refine .inl ⟨⟨net.exchange.directory.nextRank priority, ⟨client, id⟩⟩, ?_, hclient, hpriority⟩
      have hdir := net.exchange.step_directory
        (.received client (.register r.context name priority id))
      show _ ∈ (net.exchange.step _).1.directory.entries r.name
      rw [hdir, ← hname]
      exact Directory.mem_entries_insert.2 (.inl ⟨rfl, rfl⟩)
    | call | update | result | cancel => cases hkind

variable [DecidableEq η]

theorem Confirms.leaves (h : net.Confirms r) (hs : net.Sound)
    (ht : (net.thread r.context).Enrolling r.context) (hp : net.ports.get? client = some p)
    (v : Visits) :
    ((net.change client { p.close 0 p.downlink.length with left := true }).tell
      (.left client) v).1.Confirms r := by
  have hmeets := Port.Meets.closes 0 p.downlink.length (List.suffix_refl p.uplink)
  have hclosed : (p.close 0 p.downlink.length).Asks r client := (h.asks client p hp).happen hmeets
  refine Confirms.tell v ?_ ?_ ?_
  · exact hs.coherent
  · refine h.change hp _ net.serial (fun _ => rfl) ?_ ⟨hclosed.queue, hclosed.uplink⟩ ?_
    · intro e he hc
      by_cases hclient : client = r.client
      · exact .inr ⟨hclient, rfl⟩
      · refine .inl (Exchange.mem_entries_stays he ?_)
        intro hleft
        exact hclient ((ExchangeEvent.left.inj hleft).trans hc)
    · intro htold
      have htold : (p.close 0 p.downlink.length).Told r.context := htold
      rw [Port.close_eq] at htold
      exact htold.of_happen hmeets
  · intro s hsent hcontext
    have hturn := Exchange.step_turn hs.coherent (.left client) r.context
    have hmem : s ∈ about r.context (net.exchange.step (.left client)).2 :=
      List.mem_filter.2 ⟨hsent, by simpa using hcontext⟩
    have hrunning : net.exchange.running.get? r.context = none := ht.running
    rw [Exchange.TurnsInto, hrunning] at hturn
    generalize about r.context (net.exchange.step (.left client)).2 = sents at hturn hmem
    generalize (net.exchange.step (.left client)).1.running.get? r.context = r' at hturn
    cases hturn
    cases hmem

/-- An event that gives out the context of a request is the request. -/
def Opening (r : Request) (net : Network η) (e : NetworkEvent η) : Prop :=
  ∀ client p o, e = .act client o → net.ports.get? client = some p →
    ContextId.ofNat net.serial = r.context →
      client = r.client ∧ ∃ handler, o = .register r.name r.priority handler

omit [DecidableEq η] in
theorem Confirms.operates {o : Operation η} (h : net.Confirms r)
    (hopening : net.Opening r (.act client o)) (hp : net.ports.get? client = some p) :
    Confirms r { net.change client
      (p.restate (p.station.operate (ContextId.ofNat net.serial) o).1) with
        serial := net.serial + 1 } := by
  have hk := p.station.operate_kept (ContextId.ofNat net.serial) o
  have hasks := h.asks client p hp
  refine h.change hp net.exchange _ id (fun _ he _ => .inl he) ⟨?_, hasks.uplink⟩ ?_
  · intro name priority handler hc
    have hc : .register r.context name priority handler ∈
      (p.station.operate (ContextId.ofNat net.serial) o).1.queue := hc
    rcases hk.queue with hq | ⟨_, c, hq, hcommand⟩
    · rw [hq] at hc
      exact hasks.queue name priority handler hc
    · rw [hq] at hc
      rcases List.mem_append.1 hc with hc | hc
      · exact hasks.queue name priority handler hc
      · obtain ⟨hcontext, ho⟩ := hcommand _ _ _ _ (List.mem_singleton.1 hc).symm
        obtain ⟨hclient, handler', ho'⟩ := hopening client p o rfl hp hcontext.symm
        obtain ⟨hname, hpriority, _⟩ := Operation.register.inj (ho.symm.trans ho')
        exact ⟨hclient, hname, hpriority⟩
  · rintro (ht | ht)
    · exact .inl ht
    · exact .inr (hk.registrations _ ht)

theorem Confirms.step {e : NetworkEvent η} (h : net.Confirms r) (hs : net.Sound)
    (ht : (net.thread r.context).Enrolling r.context) (hopening : net.Opening r e)
    (hc : net.Change e net') : net'.Confirms r := by
  cases hc with
  | nothing => exact h
  | joins => exact h.join hs
  | operates he hp =>
    subst he
    exact h.operates hopening hp
  | @meets client p q le hp hm =>
    have hleft : p.left = true → (q.happen le).left = true := by
      intro hl
      exact hm.station.2.2.trans hl
    exact h.change hp net.exchange net.serial hleft (fun _ he _ => .inl he)
      ((h.asks client p hp).happen hm) (fun htold => htold.of_happen hm)
  | receives hp hu hm => exact h.receives hs ht hp hu hm
  | leaves hp _ v => exact h.leaves hs ht hp v
  | mutes client =>
    have hmuted : Confirms r { net with exchange := (net.exchange.step (.muted client)).1 } :=
      ⟨h.asks, h.told⟩
    exact hmuted.tell {} hs.coherent nofun

/-! ### Runs -/

/-- A context that is not given out for anything but a registration stays one of a registration. -/
theorem enrolling_step {e : NetworkEvent η} (hs : net.Sound)
    (ht : (net.thread r.context).Enrolling r.context) (hopening : net.Opening r e) :
    ((net.step e).1.thread r.context).Enrolling r.context := by
  rcases (change_step net e).serial_eq with hsame | ⟨client, o, p, rfl, hp⟩
  · rcases step_thread hs e r.context with hsteps | ⟨_, hnext, _⟩
    · exact ht.steps hsteps
    · omega
  · by_cases hc : ContextId.ofNat net.serial = r.context
    · obtain ⟨_, handler, rfl⟩ := hopening client p o rfl hp hc
      have hthread : (net.step (.act client (.register r.name r.priority handler))).1.thread
          r.context = (net.thread r.context).set client ((p.restate
            (p.station.register r.context r.name r.priority handler)).strand r.context) := by
        rw [step_act hp, hc]
        exact thread_change hp
      rw [hthread]
      exact ht.set ((ht.strand client _ (strand_thread hp)).register r.name r.priority handler)
    · rcases step_thread hs (.act client o) r.context with hsteps | ⟨hcontext, _⟩
      · exact ht.steps hsteps
      · exact absurd hcontext.symm hc

/-- What is known of a request along a run. -/
structure Follows (r : Request) (net : Network η) : Prop where
  sound : net.Sound
  enrolling : (net.thread r.context).Enrolling r.context
  confirms : net.Confirms r

omit [DecidableEq η] in
theorem follows_start : ({} : Network η).Follows r := by
  refine ⟨sound_start, ⟨rfl, ?_⟩, confirms_start⟩
  intro client s hs
  have hnone : (({} : Network η).thread r.context).strand client = none := rfl
  rw [hnone] at hs
  cases hs

theorem Follows.step {e : NetworkEvent η} (h : net.Follows r) (hopening : net.Opening r e) :
    (net.step e).1.Follows r where
  sound := sound_step h.sound e
  enrolling := enrolling_step h.sound h.enrolling hopening
  confirms := h.confirms.step h.sound h.enrolling hopening (change_step net e)

theorem Follows.run (h : net.Follows r) (es : List (NetworkEvent η))
    (hother : ∀ n, net.serial ≤ n → n < (net.run es).serial → ContextId.ofNat n ≠ r.context) :
    (net.run es).Follows r := by
  induction es generalizing net with
  | nil => exact h
  | cons e es ih =>
    have hle := (net.step e).1.serial_le_run es
    have hstep := net.serial_le_step e
    apply ih
    · apply h.step
      rintro client p o rfl hp hc
      have hserial : (net.step (.act client o)).1.serial = net.serial + 1 := by rw [step_act hp]
      refine absurd hc (hother net.serial (Nat.le_refl _) ?_)
      show _ < ((net.step (.act client o)).1.run es).serial
      omega
    · intro n hn hlt
      exact hother n (Nat.le_trans hstep hn) hlt

theorem ofNat_ne {count m n : Nat} (h : (ContextId.series count).Nodup) (hm : m < n)
    (hn : n < count) : ContextId.ofNat m ≠ ContextId.ofNat n := by
  intro he
  apply ContextId.fresh_of_nodup h hn
  rw [← he]
  exact List.mem_map_of_mem (List.mem_range.2 hm)

theorem follows_of_run {past later : List (NetworkEvent η)} {handler : η}
    (hstarted : ((run ({} : Network η) past).step
      (.act r.client (.register r.name r.priority handler))).2.reply =
        some (.started (.ok r.context)))
    (hn : (ContextId.series (run ({} : Network η)
      (past ++ .act r.client (.register r.name r.priority handler) :: later)).serial).Nodup) :
    (run ({} : Network η)
      (past ++ .act r.client (.register r.name r.priority handler) :: later)).Follows r := by
  obtain ⟨p, hp⟩ : ∃ p, (run ({} : Network η) past).ports.get? r.client = some p := by
    cases hp : (run ({} : Network η) past).ports.get? r.client with
    | some p => exact ⟨p, rfl⟩
    | none =>
      have hport : (run ({} : Network η) past).port?
          (.act r.client (.register r.name r.priority handler)) = none := congrArg (Option.map _) hp
      rw [step_of_port?_none hport (by intro he; cases he)] at hstarted
      cases hstarted
  have hcontext : ContextId.ofNat (run ({} : Network η) past).serial = r.context := by
    have hport : (run ({} : Network η) past).port?
        (.act r.client (.register r.name r.priority handler)) = some (r.client, p) :=
      congrArg (Option.map _) hp
    rw [step_of_port? hport] at hstarted
    exact Except.ok.inj (Reply.started.inj (Option.some.inj hstarted))
  rw [run_append] at hn ⊢
  have hserial : ((run ({} : Network η) past).step
      (.act r.client (.register r.name r.priority handler))).1.serial =
        (run ({} : Network η) past).serial + 1 := by rw [step_act hp]
  have hle := ((run ({} : Network η) past).step
    (.act r.client (.register r.name r.priority handler))).1.serial_le_run later
  rw [hserial] at hle
  -- the context is given out neither before nor after
  have hbefore : (run ({} : Network η) past).Follows r := by
    refine follows_start.run past ?_
    intro n _ hlt
    rw [← hcontext]
    exact ofNat_ne hn hlt hle
  have hasked : ((run ({} : Network η) past).step
      (.act r.client (.register r.name r.priority handler))).1.Follows r := by
    apply hbefore.step
    rintro client q o he _ _
    obtain ⟨rfl, rfl⟩ := NetworkEvent.act.inj he
    exact ⟨rfl, handler, rfl⟩
  refine hasked.run later ?_
  intro n hge hlt
  rw [hserial] at hge
  rw [← hcontext]
  exact (ofNat_ne hn hge hlt).symm

omit [DecidableEq η] in
/-- A call that finds an entry is not refused as unknown. -/
theorem known_of_listed {x : Exchange} {c : Call} (h : x.directory.entries c.function ≠ [])
    (caller : ClientId) (details : Json) :
    ∀ s ∈ (x.receive caller (.call c)).2,
      s.notice ≠ .answered c.context (.fault ⟨.unknownRpc, details⟩) := by
  obtain ⟨e, es, hd⟩ := List.exists_cons_of_ne_nil h
  intro s hs hn
  simp only [Exchange.receive, Exchange.call, hd] at hs
  split at hs
  · rw [List.mem_singleton.1 hs] at hn
    cases hn
  · rcases x.offer_cases c (e :: es) with ⟨ho, _⟩ | ⟨_, _, _, _, _, _, ho⟩
    · simp only [ho] at hs
      rcases List.mem_append.1 hs with hs | hs
      · obtain ⟨f, _, rfl⟩ := List.mem_map.1 hs
        cases hn
      · rw [List.mem_singleton.1 hs] at hn
        cases hn
    · simp only [ho] at hs
      obtain ⟨f, _, rfl⟩ := List.mem_map.1 hs
      cases hn

/-- **The directory and the rosters agree.**  Take any run in which contexts differ, and a
participant in it.

As long as its link is not lost, each entry of the directory that is the participant's stands for a
handler on its roster, with the same name and the same priority.  If the exchange still reads what
it writes, and it has not asked for so many registrations that ids come twice, each of its handlers
has one entry, or its registration is on its way, and not both.  Each call on its way to it finds
its handler.

A registration that was confirmed is listed until the participant leaves, and a call of that name is
never refused as unknown until then, whoever makes it. -/
theorem agreement_of_run (es : List (NetworkEvent η))
    (hn : (ContextId.series (run ({} : Network η) es).serial).Nodup) {client : ClientId}
    {p : Port η} (hp : (run ({} : Network η) es).ports.get? client = some p) :
    let x := (run ({} : Network η) es).exchange
    let roster := p.station.link.roster
    (p.station.link.up = true →
      (∀ name, ∀ e ∈ x.directory.entries name, e.value.client = client →
        roster.Holds name e.rank.priority e.value.handler) ∧
      (p.reads = true → es.countP (·.registers client) < 2 ^ 64 → ∀ id, (roster.get? id).isSome →
        (∃ name e, x.directory.Sole ⟨client, id⟩ name e ∧ roster.Holds name e.rank.priority id) ∧
            p.uplink.filter (·.enrolls id) = [] ∨
          x.directory.Lacks ⟨client, id⟩ ∧ ∃ context name priority,
            p.uplink.filter (·.enrolls id) = [.register context name priority id] ∧
              roster.Holds name priority id) ∧
      ∀ m ∈ p.downlink, ∀ c, m.transmitted = .ok (.call c) →
        ∃ handler, c.handler.bind roster.get? = some handler) ∧
    ∀ past name priority handler later context,
      es = past ++ .act client (.register name priority handler) :: later →
      ((run ({} : Network η) past).step (.act client (.register name priority handler))).2.reply =
        some (.started (.ok context)) →
      p.station.registrations.get? context = some (some (.ok ())) → p.left = false →
      (∃ e ∈ x.directory.entries name, e.value.client = client ∧ e.rank.priority = priority) ∧
      ∀ caller c, c.function = name → ∀ details, ∀ s ∈ (x.receive caller (.call c)).2,
        s.notice ≠ .answered c.context (.fault ⟨.unknownRpc, details⟩) := by
  intro x roster
  constructor
  · intro hu
    have hagrees := (agreement_run es hn).agrees client p hp hu
    refine ⟨hagrees.listed, ?_, ?_⟩
    · intro hr hd id hid
      exact hagrees.sole_or_asked hd hr hid
    · intro m hm c hc
      exact hagrees.finds hm hc
  · rintro past name priority handler later context rfl hstarted hconfirmed hleft
    have hfollows : (run ({} : Network η)
        (past ++ .act client (.register name priority handler) :: later)).Follows
          ⟨context, client, name, priority⟩ := follows_of_run hstarted hn
    rcases hfollows.confirms.told client p hp (.inr hconfirmed) with hlisted | ⟨q, hq, hl⟩
    · refine ⟨hlisted, ?_⟩
      rintro caller c rfl details
      obtain ⟨e, he, _⟩ := hlisted
      exact known_of_listed (List.ne_nil_of_mem he) caller details
    · obtain rfl := Option.some.inj (hp.symm.trans hq)
      exact Bool.noConfusion (hleft.symm.trans hl)

/-- A participant joins and registers a handler. -/
def registering : List (NetworkEvent Unit) :=
  [.join, .act 1 (.register "f" 0 ()), .obey 1, .route 1, .hear 1]

theorem agreement_registering : ∃ p, (run {} registering).ports.get? 1 = some p ∧ p.Idle ∧
    p.station.registrations.get? (ContextId.ofNat 0) = some (some (.ok ())) ∧
    (∃ name e, (run {} registering).exchange.directory.Sole ⟨1, 1⟩ name e ∧
      p.roster.Holds name e.rank.priority 1) ∧
    ∃ e ∈ (run {} registering).exchange.directory.entries "f",
      e.value.client = 1 ∧ e.rank.priority = 0 := by
  have hdistinct : (ContextId.series (run {} registering).serial).Nodup :=
    ContextId.series_nodup (Nat.le_trans (serial_run_le ..) (by decide))
  have hport : (join ({} : Network Unit)).1.ports.get? 1 = some {} := rfl
  have hleads := leads_register_first () hport rfl
  let p : Port Unit := ({} : Port Unit).enlisted (ContextId.ofNat 0) 1 (.ofHandler ())
  have hp : (run {} registering).ports.get? 1 = some p := by
    show (((join ({} : Network Unit)).1.run (errand 1 (.register "f" 0 ()) 1)).ports.get? 1) = some p
    rw [hleads.run]
    rfl
  have hidle : p.Idle := Port.idle_empty.enlisted ..
  have hconfirmed : p.station.registrations.get? (ContextId.ofNat 0) = some (some (.ok ())) := by
    show ((Keyed.insert _ _ _).modify _ _).get? _ = _
    rw [Keyed.get?_modify, if_pos rfl, Keyed.get?_insert_self]
    rfl
  have hholds : (p.roster.get? 1).isSome := rfl
  obtain ⟨hup, hlater⟩ := agreement_of_run registering hdistinct hp
  refine ⟨p, hp, hidle, hconfirmed, ?_, ?_⟩
  · obtain ⟨_, honce, _⟩ := hup hidle.up
    rcases honce hidle.reads (by decide) 1 hholds with ⟨hsole, _⟩ | ⟨_, _, _, _, hfilter, _⟩
    · exact hsole
    · rw [hidle.uplink] at hfilter
      cases hfilter
  · exact (hlater [.join] "f" 0 () [.obey 1, .route 1, .hear 1] (ContextId.ofNat 0) rfl rfl
      hconfirmed rfl).1

end Network
end Switchboard
