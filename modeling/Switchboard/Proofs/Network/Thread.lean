import Switchboard.Network.Basic
import Switchboard.Proofs.Exchange.Turn
import Switchboard.Proofs.Message.Transmission

/-! # One call in a network

What a network knows of one context is its thread: the entry of the exchange, and at every port a
strand with the commands, messages, entries and handlers of that context.

* **Moves.** `Strand.Move` lists what can happen to a strand without the exchange, and
  `Thread.Step` what can happen to a thread.  Steps are small; an event of the network is a row of
  them (`Thread.Steps`).
* **Deeds.** Steps are labelled by what callers and handlers would tell about them: that a call was
  offered, that a handler was started, passed a partial result or ended its call, and that
  something arrived at the caller.
* **Commands.** A strand holds commands as the messages that they are written as. -/

namespace Switchboard

/-! ### Strands -/

/-- The message that a command is written as.  A registration gets its handler's id only then. -/
def Command.message? {η : Type} : Command η → Option Message
  | .register context name priority _ => some (.register context name priority 0)
  | .call c => some (.call c)
  | .cancel context => some (.cancel context)
  | .update context v => some (.update context v)
  | .finish context o => some (.result context o)
  | .shutdown => none

/-- The messages about a context. -/
def Message.within (context : String) (ms : List Message) : List Message :=
  ms.filter (·.context = context)

/-- The number of messages of a kind. -/
def Message.count (kind : Kind) (ms : List Message) : Nat := ms.countP (·.kind = kind)

/-- What a port has to do with one context. -/
structure Strand where
  up : Bool := true
  reads : Bool := true
  writes : Bool := true
  left : Bool := false
  queue : List Message := []
  uplink : List Message := []
  downlink : List Message := []
  pending : Option Pending := none
  serving : Option JobId := none
  /-- The call as its caller sees it, but for its being attached. -/
  call : Option OutboundCall := none
  /-- The handlers that were started for the call, with whether each has ended it. -/
  handlers : JobId → Option Bool := fun _ => none

/-- The call of a station under a context, but for its being attached. -/
def Station.held {η : Type} (context : String) (s : Station η) : Option OutboundCall :=
  (s.calls.get? context).map (·.detach)

/-- The handlers of a station that were started for a context, with whether each has ended it. -/
def Station.handlers {η : Type} (context : String) (s : Station η) (job : JobId) : Option Bool :=
  ((s.jobs[job]?).filter (·.context = context)).map (·.finished)

/-- The strand of a port. -/
def Port.strand {η : Type} (context : String) (p : Port η) : Strand where
  up := p.station.link.up
  reads := p.reads
  writes := p.writes
  left := p.left
  queue := Message.within context (p.station.queue.filterMap Command.message?)
  uplink := Message.within context p.uplink
  downlink := Message.within context p.downlink
  pending := p.station.link.pending.get? context
  serving := p.station.link.running.get? context
  call := p.station.held context
  handlers := p.station.handlers context

/-- Something that a caller or a handler would tell. -/
inductive Act where
  /-- The call is offered to a handler of the client. -/
  | offered (handler : Option HandlerId)
  /-- A handler is started. -/
  | started (job : JobId) (handler : Option HandlerId)
  /-- A handler passes a partial result. -/
  | passed (job : JobId) (v : Json)
  /-- A handler ends its call, or lets go of it, which declines it. -/
  | ended (job : JobId) (o : Outcome)
  /-- Something is put into the queue of the caller. -/
  | arrived (e : CallEvent)
deriving DecidableEq

/-- What an effect tells about a call, given whether its caller keeps what arrives. -/
def Effect.acts {η : Type} (context : String) (accepts : Bool) : Effect η → List Act
  | .started job _ c => if c.context = context then [.started job c.handler] else []
  | .delivered other e => if other = context ∧ accepts then [.arrived e] else []
  | _ => []

/-- What an operation tells about a call, if it succeeds. -/
def Operation.acts {η : Type} (context : String) (s : Station η) : Operation η → List Act
  | .update job v =>
    if ((s.job? job).any (·.context = context) && (s.update job v).isOk) = true then
      [.passed job v] else []
  | .finish job o =>
    if ((s.job? job).any (·.context = context) && (s.finish job o).isOk) = true then
      [.ended job o] else []
  | .dropJob job =>
    if ((s.job? job).any (·.context = context) && (s.finish job .declined).isOk) = true then
      [.ended job .declined] else []
  | _ => []

/-- An act at a client. -/
abbrev Deed := ClientId × Act

namespace OutboundCall

/-- Whether what arrives is kept. -/
def accepts (c : OutboundCall) : Bool := !(c.dropped || c.state = .cancelled)

/-- A call has a result if and only if it is not pending. -/
def Concluded (c : OutboundCall) : Prop := c.result.isSome = true ↔ c.state ≠ .pending

/-- A caller reads: the call is completed, or partial results were taken off the queue. -/
structure Reads (c c' : OutboundCall) : Prop where
  concluded : c.Concluded → c'.Concluded
  accepts : c'.accepts = c.accepts
  events : c'.events <:+ c.events
  pending : c'.state = .pending → c.state = .pending ∧ c'.dropped = c.dropped ∧
    ∃ us, c.events = us ++ c'.events ∧ ∀ e ∈ us, ∃ v, e = .update v

/-- A caller has cancelled the call or let go of it: nothing is kept any more. -/
structure GivenUp (c c' : OutboundCall) : Prop where
  concluded : c.Concluded → c'.Concluded
  accepts : c'.accepts = false
  events : c'.events = c.events
  dropped : c'.state = .pending → c'.dropped = true

end OutboundCall

namespace Strand

/-- The uplink after a message has been written. -/
def written (s : Strand) (m : Message) : List Message :=
  if s.reads then s.uplink ++ [m] else s.uplink

/-- Whether what arrives for the call is kept. -/
def accepts (s : Strand) : Bool := s.call.any (·.accepts)

/-- Nothing of a context has come to a port yet. -/
structure Blank (s : Strand) : Prop where
  queue : s.queue = []
  uplink : s.uplink = []
  downlink : s.downlink = []
  pending : s.pending = none
  serving : s.serving = none
  call : s.call = none
  handlers : ∀ job, s.handlers job = none
  left : s.left = true → s.writes = false

/-- A strand of a port whose link is lost. -/
def gone (s : Strand) : Strand := { s with up := false, queue := [], pending := none, serving := none }

/-- What can happen to a strand, all but what the exchange does. -/
inductive Move (context : String) : Strand → List Act → Strand → Prop
  | reads {s : Strand} {k k' : OutboundCall} (hk : s.call = some k) (h : k.Reads k') :
    Move context s [] { s with call := some k' }
  | givesUp {s : Strand} {k k' : OutboundCall} {ms : List Message} (hk : s.call = some k)
      (h : k.GivenUp k') (hm : ms = [] ∨ s.up = true ∧ ms = [.cancel context]) :
    Move context s [] { s with call := some k', queue := s.queue ++ ms }
  | passes {s : Strand} {job : JobId} {v : Json} (hj : s.handlers job = some false)
      (hu : s.up = true) :
    Move context s [.passed job v] { s with queue := s.queue ++ [.update context v] }
  | ends {s : Strand} {job : JobId} {o : Outcome} (hj : s.handlers job = some false) :
    Move context s [.ended job o] { s with
      handlers := fun i => if i = job then some true else s.handlers i
      queue := if s.up then s.queue ++ [.result context o] else s.queue }
  | forgets {s : Strand} {m : Message} {q : List Message} (hq : s.queue = m :: q)
      (h : m.kind = .register ∨ m.kind = .cancel ∧ s.pending = none ∨
        (m.kind = .update ∨ m.kind = .result) ∧ s.serving = none) :
    Move context s [] { s with queue := q }
  | asks {s : Strand} {c : Call} {q : List Message} (hq : s.queue = .call c :: q) :
    Move context s [] { s with
      queue := q, pending := some .call, uplink := s.written (.call c) }
  | enrolls {s : Strand} {m m' : Message} {q : List Message} {id : HandlerId}
      (hq : s.queue = m :: q) (hm : m.kind = .register) (hm' : m'.kind = .register) :
    Move context s [] { s with
      queue := q, pending := some (.registration id), uplink := s.written m' }
  | withdraws {s : Strand} {q : List Message} (hq : s.queue = .cancel context :: q)
      (hp : s.pending ≠ none) :
    Move context s [] { s with
      queue := q, pending := none, uplink := s.written (.cancel context) }
  | relays {s : Strand} {v : Json} {q : List Message} (hq : s.queue = .update context v :: q)
      (hs : s.serving ≠ none) :
    Move context s [] { s with queue := q, uplink := s.written (.update context v) }
  | answers {s : Strand} {o : Outcome} {q : List Message} (hq : s.queue = .result context o :: q)
      (hs : s.serving ≠ none) :
    Move context s [] { s with
      queue := q, serving := none, uplink := s.written (.result context o) }
  | starts {s : Strand} {c : Call} {d : List Message} {job : JobId}
      (hd : s.downlink = .call c :: d) (hu : s.up = true) (hs : s.serving = none)
      (hj : s.handlers job = none) :
    Move context s [.started job c.handler] { s with
      downlink := d, serving := some job
      handlers := fun i => if i = job then some false else s.handlers i }
  | declines {s : Strand} {c : Call} {d : List Message} (hd : s.downlink = .call c :: d)
      (hu : s.up = true) :
    Move context s [] { s with
      downlink := d, uplink := s.written (.result context .declined) }
  | hearsUpdate {s : Strand} {m : Message} {v : Json} {d : List Message}
      (hd : s.downlink = m :: d) (hm : m.transmitted = .ok (.update context v))
      (hu : s.up = true) (hp : s.pending = some .call) :
    Move context s (if s.accepts then [.arrived (.update v)] else []) { s with
      downlink := d, call := s.call.map (·.push (.update v)) }
  | hearsResult {s : Strand} {m : Message} {o : Outcome} {d : List Message}
      (hd : s.downlink = m :: d) (hm : m.transmitted = .ok (.result context o))
      (hu : s.up = true) (hp : s.pending = some .call) :
    Move context s (if s.accepts then [.arrived (.finished o)] else []) { s with
      downlink := d, pending := none, call := s.call.map (·.push (.finished o)) }
  | enrolled {s : Strand} {m : Message} {d : List Message} {id : HandlerId}
      (hd : s.downlink = m :: d) (hm : m.kind = .result) (hp : s.pending = some (.registration id)) :
    Move context s [] { s with downlink := d, pending := none }
  | stops {s : Strand} {m : Message} {d : List Message} (hd : s.downlink = m :: d)
      (hm : m.kind = .cancel) (hu : s.up = true) :
    Move context s [] { s with downlink := d, serving := none }
  | ignores {s : Strand} {m : Message} {d : List Message} (hd : s.downlink = m :: d)
      (h : m.kind = .register ∨ m.kind = .call ∧ s.serving ≠ none ∨
        m.kind = .update ∧ s.pending ≠ some .call ∨ m.kind = .result ∧ s.pending = none ∨
        s.up = false) :
    Move context s [] { s with downlink := d }
  | lost {s : Strand} : Move context s [] s.gone
  | closes {s : Strand} {up down : List Message} (hu : up <+: s.uplink) (hd : down <+: s.downlink) :
    Move context s [] { s with uplink := up, downlink := down, reads := false, writes := false }

/-- A context comes to be used: for a call or for a registration. -/
inductive Opens : Strand → Strand → Prop
  | issues {s : Strand} {k : OutboundCall} {c : Call} (hu : s.up = true) (hk : k.state = .pending)
      (he : k.events = []) (hd : k.dropped = false) :
    Opens s { s with call := some k, queue := s.queue ++ [.call c] }
  | requests {s : Strand} {m : Message} (hu : s.up = true) (hm : m.kind = .register) :
    Opens s { s with queue := s.queue ++ [m] }

/-- What the exchange sends to a client is put on its way, or the broker stops writing. -/
def Posted (ms : List Message) (s s' : Strand) : Prop :=
  ∃ kept writes, s' = { s with downlink := s.downlink ++ kept, writes } ∧ kept <+: ms ∧
    (writes = true → s.writes = true ∧ kept = ms) ∧ (s.writes = false → kept = [])

end Strand

/-! ### Threads -/

/-- What a network knows of one context. -/
structure Thread where
  running : Option Running := none
  strand : ClientId → Option Strand := fun _ => none

/-- The thread of a network. -/
def Network.thread {η : Type} (context : String) (net : Network η) : Thread where
  running := net.exchange.running.get? context
  strand client := (net.ports.get? client).map (·.strand context)

namespace Thread

/-- Puts a strand in place of the one that a client has. -/
def set (t : Thread) (client : ClientId) (s : Strand) : Thread :=
  { t with strand := fun other => if other = client then some s else t.strand other }

/-- Nothing of a context has come into the network yet. -/
structure Blank (t : Thread) : Prop where
  running : t.running = none
  strand : ∀ client s, t.strand client = some s → s.Blank

/-- What of all that is sent reaches a client. -/
def reaching (client : ClientId) (sents : List Sent) : List Message :=
  (sents.filter fun s => s.delivered && s.client = client).map (·.notice.message)

/-- The exchange's lines are those of the clients that have not left, and a line is live as long as
what is sent on it gets to the station. -/
structure Attends (x : Exchange) (t : Thread) : Prop where
  there : ∀ client, x.Reachable client → ∃ s, t.strand client = some s ∧ s.left = false
  live : ∀ client s, t.strand client = some s → s.left = false → s.writes = true → s.up = true →
    x.Reachable client

/-- What is sent about a context is put on its way. -/
structure Posts (sents : List Sent) (t t' : Thread) : Prop where
  before : ∀ client s', t'.strand client = some s' →
    ∃ s, t.strand client = some s ∧ s.Posted (reaching client sents) s'
  after : ∀ client s, t.strand client = some s →
    ∃ s', t'.strand client = some s' ∧ s.Posted (reaching client sents) s'

/-- The offers among what is sent. -/
def offers (sents : List Sent) : List Deed :=
  sents.filterMap fun
    | ⟨client, .offered _ c, true⟩ => some (client, .offered c.handler)
    | _ => none

/-- A context comes to be used at some client. -/
def Opens (t t' : Thread) : Prop :=
  ∃ client s s', t.strand client = some s ∧ s.Opens s' ∧ t' = t.set client s'

/-- What can happen to a thread. -/
inductive Step (context : String) : Thread → List Deed → Thread → Prop
  | moves {t : Thread} {client : ClientId} {s s' : Strand} {acts : List Act}
      (hs : t.strand client = some s) (h : s.Move context acts s') :
    Step context t (acts.map (client, ·)) (t.set client s')
  | joins {t : Thread} {client : ClientId} (h : t.strand client = none) :
    Step context t [] (t.set client {})
  /-- The exchange is concerned with other contexts. -/
  | passesBy {t t' : Thread} (hr : t'.running = t.running) (hp : Posts [] t t') :
    Step context t [] t'
  /-- The exchange receives a message. -/
  | routes {t t' : Thread} {client : ClientId} {s : Strand} {m m' : Message} {us : List Message}
      {x : Exchange} {sents : List Sent} (hs : t.strand client = some s) (hu : s.uplink = m :: us)
      (hm : m.transmitted = .ok m') (hc : m'.context = context)
      (ht : Exchange.Turn context x t.running (.received client m') t'.running sents)
      (hx : Attends x (t.set client { s with uplink := us }))
      (hp : Posts sents (t.set client { s with uplink := us }) t') :
    Step context t (offers sents) t'
  /-- The exchange hears that a client left. -/
  | leaves {t t' : Thread} {client : ClientId} {s : Strand} {x : Exchange} {sents : List Sent}
      (hs : t.strand client = some s) (hu : s.uplink = []) (hr : s.reads = false)
      (hw : s.writes = false) (hl : s.left = false)
      (ht : Exchange.Turn context x t.running (.left client) t'.running sents)
      (hx : Attends x (t.set client { s with left := true }))
      (hp : Posts sents (t.set client { s with left := true }) t') :
    Step context t (offers sents) t'

/-- Steps in a row. -/
inductive Steps (context : String) : Thread → List Deed → Thread → Prop
  | refl {t : Thread} : Steps context t [] t
  | step {t t' t'' : Thread} {ds ds' : List Deed} (h : Step context t ds t')
      (hs : Steps context t' ds' t'') : Steps context t (ds ++ ds') t''

theorem Steps.one {context : String} {t t' : Thread} {ds : List Deed} (h : Step context t ds t') :
    Steps context t ds t' := by
  have hs := Steps.step h .refl
  rwa [List.append_nil] at hs

/-- What every step preserves holds after steps in a row. -/
theorem Steps.preserves {context : String} {P : List Deed → Thread → Prop}
    (hstep : ∀ done t ds t', P done t → Step context t ds t' → P (done ++ ds) t')
    {done ds : List Deed} {t t' : Thread} (h : P done t) (hs : Steps context t ds t') :
    P (done ++ ds) t' := by
  induction hs generalizing done with
  | refl => rwa [List.append_nil]
  | step hd hs ih => rw [← List.append_assoc]; exact ih (hstep _ _ _ _ h hd)

/-! ### Strands in place -/

theorem set_self {t : Thread} {client : ClientId} {s : Strand} (h : t.strand client = some s) :
    t.set client s = t := by
  cases t with
  | mk running strand =>
    simp only [set, mk.injEq, true_and]
    funext other
    split
    · next e => rw [e, ← h]
    · rfl

theorem set_set (t : Thread) (client : ClientId) (s s' : Strand) :
    (t.set client s).set client s' = t.set client s' := by
  simp only [set, mk.injEq, true_and]
  funext other
  split <;> rfl

theorem strand_set (t : Thread) (client : ClientId) (s : Strand) :
    (t.set client s).strand client = some s := if_pos rfl

theorem strand_set_ne (t : Thread) {client other : ClientId} (s : Strand) (h : other ≠ client) :
    (t.set client s).strand other = t.strand other := if_neg h

/-- A strand in a thread that a client has joined. -/
theorem strand_of_join {t : Thread} {client other : ClientId} {u : Strand}
    (hu : (t.set client {}).strand other = some u) : t.strand other = some u ∨ u = {} := by
  by_cases ho : other = client
  · subst ho
    rw [strand_set] at hu
    exact .inr (Option.some.inj hu).symm
  · exact .inl ((strand_set_ne t {} ho).symm.trans hu)

/-- A strand where another one may have been put in place. -/
def Swapped (client : ClientId) (s s' : Strand) (other : ClientId) (v w : Strand) : Prop :=
  other = client ∧ v = s ∧ w = s' ∨ other ≠ client ∧ w = v

section Swapped

variable {t t' : Thread} {client other : ClientId} {s s' u v : Strand} {sents : List Sent}

theorem of_strand_set (hs : t.strand client = some s) (hu : (t.set client s').strand other = some u) :
    ∃ v, t.strand other = some v ∧ Swapped client s s' other v u := by
  by_cases ho : other = client
  · subst ho
    rw [strand_set] at hu
    exact ⟨s, hs, .inl ⟨rfl, rfl, (Option.some.inj hu).symm⟩⟩
  · rw [strand_set_ne t s' ho] at hu
    exact ⟨u, hu, .inr ⟨ho, rfl⟩⟩

theorem to_strand_set (hs : t.strand client = some s) (hv : t.strand other = some v) :
    ∃ u, (t.set client s').strand other = some u ∧ Swapped client s s' other v u := by
  by_cases ho : other = client
  · subst ho
    obtain rfl := Option.some.inj (hs.symm.trans hv)
    exact ⟨s', strand_set .., .inl ⟨rfl, rfl, rfl⟩⟩
  · exact ⟨v, (strand_set_ne t s' ho).trans hv, .inr ⟨ho, rfl⟩⟩

/-- Where a strand comes from to which something has been sent. -/
theorem Posts.of_set (hp : Posts sents (t.set client s') t') (hs : t.strand client = some s)
    (hu : t'.strand other = some u) : ∃ v w, t.strand other = some v ∧
      Swapped client s s' other v w ∧ (t.set client s').strand other = some w ∧
      w.Posted (reaching other sents) u := by
  obtain ⟨w, hw, hposted⟩ := hp.before other u hu
  obtain ⟨v, hv, hsw⟩ := of_strand_set hs hw
  exact ⟨v, w, hv, hsw, hw, hposted⟩

theorem Posts.to_set (hp : Posts sents (t.set client s') t') (hs : t.strand client = some s)
    (hv : t.strand other = some v) : ∃ w u, t'.strand other = some u ∧
      Swapped client s s' other v w ∧ w.Posted (reaching other sents) u := by
  obtain ⟨w, hw, hsw⟩ := to_strand_set hs hv
  obtain ⟨u, hu, hposted⟩ := hp.after other w hw
  exact ⟨w, u, hu, hsw, hposted⟩

theorem Swapped.rel {R : Strand → Strand → Prop} {w : Strand} (h : Swapped client s s' other v w)
    (hr : R s s') (hrefl : ∀ v, R v v) : R v w := by
  rcases h with ⟨_, rfl, rfl⟩ | ⟨_, rfl⟩
  · exact hr
  · exact hrefl _

end Swapped

/-! ### What is sent -/

section Sent

variable {x : Exchange} {missed : List (Entry Route)}

theorem reaching_append (client : ClientId) (sents sents' : List Sent) :
    reaching client (sents ++ sents') = reaching client sents ++ reaching client sents' := by
  simp only [reaching, List.filter_append, List.map_append]

theorem reaching_send (x : Exchange) (client other : ClientId) (n : Notice) :
    reaching client [x.send other n] =
      if x.Reachable other ∧ other = client then [n.message] else [] := by
  by_cases hr : x.Reachable other
  · have hd := (x.send_delivered other n).2 hr
    by_cases ho : other = client
    · subst ho
      simp [reaching, hd, hr]
    · simp [reaching, ho]
  · have hd : (x.send other n).delivered = false :=
      Bool.eq_false_iff.2 (mt (x.send_delivered other n).1 hr)
    simp [reaching, hd, hr]

theorem reaching_missed (hm : x.Unreachable missed) (c : Call) (client : ClientId) :
    reaching client (missed.map (x.offering c)) = [] := by
  rw [reaching, List.filter_eq_nil_iff.2, List.map_nil]
  intro s hs
  obtain ⟨e, he, rfl⟩ := List.mem_map.1 hs
  have hd := mt (x.send_delivered e.value.client (.offered e.rank { c with
    handler := e.value.handler })).1 (hm e he)
  simp only [Exchange.offering, Bool.and_eq_true]
  exact fun h => hd h.1

theorem reaching_offered (hm : x.Unreachable missed) {e : Entry Route}
    (he : x.Reachable e.value.client) (c : Call) (client : ClientId) :
    reaching client ((missed ++ [e]).map (x.offering c)) =
      if e.value.client = client then [.call { c with handler := e.value.handler }] else [] := by
  rw [List.map_append, reaching_append, reaching_missed hm, List.nil_append, List.map_singleton,
    Exchange.offering, reaching_send]
  by_cases h : e.value.client = client
  · rw [if_pos ⟨he, h⟩, if_pos h]
    rfl
  · rw [if_neg (fun h' => h h'.2), if_neg h]

theorem offers_append (sents sents' : List Sent) :
    offers (sents ++ sents') = offers sents ++ offers sents' := List.filterMap_append

theorem offers_missed (hm : x.Unreachable missed) (c : Call) :
    offers (missed.map (x.offering c)) = [] := by
  refine List.filterMap_eq_nil_iff.2 fun s hs => ?_
  obtain ⟨e, he, rfl⟩ := List.mem_map.1 hs
  have hd : (x.offering c e).delivered = false :=
    Bool.eq_false_iff.2 (mt (x.send_delivered ..).1 (hm e he))
  rw [show x.offering c e = ⟨_, _, (x.offering c e).delivered⟩ from rfl, hd]

/-- Of the offers of a call, the last one counts. -/
theorem offers_offered (hm : x.Unreachable missed) {e : Entry Route}
    (he : x.Reachable e.value.client) (c : Call) :
    offers ((missed ++ [e]).map (x.offering c)) =
      [(e.value.client, .offered e.value.handler)] := by
  have hd : (x.offering c e).delivered = true := (x.send_delivered ..).2 he
  rw [List.map_append, offers_append, offers_missed hm, List.nil_append, List.map_singleton,
    show x.offering c e = ⟨_, _, (x.offering c e).delivered⟩ from rfl, hd]
  rfl

end Sent

end Thread
end Switchboard
