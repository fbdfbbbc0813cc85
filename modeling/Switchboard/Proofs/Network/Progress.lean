import Switchboard.Proofs.Message.Codec
import Switchboard.Proofs.Message.Size
import Switchboard.Proofs.Network.Change

/-! # Errands

An operation of one participant may come to another one, or back to the first: it leaves a command,
the link writes a message, the exchange takes that and sends one, and a link hears it.  Where nothing
else is on the way, such an errand takes four events.

* **Messages.** A message that fits into a frame arrives as it is, if its values are plain
  (`Message.travels_of_plain`).
* **Ports.** Nothing is on its way at an idle port (`Port.Idle`).
* **Errands.** `Network.Leads` says what events make of a network and what would be told of them;
  `leads_errand` is about any errand, and the theorems after it are about registrations, calls,
  partial results, outcomes, and calls that are declined.
* **An example.** In `Network.serving` one participant calls another one, which serves the call. -/

namespace Switchboard

open Json (str)

variable {η : Type}

/-! ### Messages -/

namespace Message

/-- A message can be written, and arrives as it is. -/
def Travels (m : Message) : Prop := (∃ f, m.encode = .ok f) ∧ m.transmitted = .ok m

theorem travels_of_plain {m : Message} (hv : ∀ v ∈ m.values, v.Plain)
    (hd : m.toJson.depth ≤ Json.maxDepth) (hs : m.size ≤ maxFrameSize) : m.Travels := by
  obtain ⟨f, hf⟩ := m.encode_eq.1 hs
  refine ⟨⟨f, hf⟩, ?_⟩
  rw [transmitted, hf]
  show decode f.payload = _
  rw [payload_of_encode hf]
  exact decode_of_plain hv hd

theorem travels_register {context name : String} {priority : UInt16} {id : HandlerId}
    (hs : (str context).size + (str name).size ≤ 2 ^ 23) :
    (register context name priority id).Travels := by
  have hp : (Json.num (.ofUInt16 priority)).size ≤ 20 := Json.size_natural_le _
  have hi := size_word id
  refine travels_of_plain nofun ?_ ?_
  · simp [toJson, members, Json.depth, Json.depthMembers, Json.maxDepth]
  · rw [size_register, maxFrameSize]
    omega

theorem travels_call {c : Call} (hv : c.args.Plain) (hd : c.args.depth < Json.maxDepth)
    (hs : (str c.context).size + (str c.function).size + c.args.size ≤ 2 ^ 23) :
    (call c).Travels := by
  obtain ⟨context, function, args, depth, handler⟩ := c
  refine travels_of_plain (List.forall_mem_singleton.2 hv) ?_ ?_
  · cases handler <;> simp [toJson, members, Json.depth, Json.depthMembers] <;> omega
  · have hn : (Json.num (.ofUInt32 depth)).size ≤ 20 := Json.size_natural_le _
    have hh : handler.elim 0 (fun h => (Json.num (.ofUInt64 h)).size + 11) ≤ 31 := by
      cases handler with
      | none => exact Nat.zero_le _
      | some h => exact Nat.add_le_add_right (size_word h) 11
    rw [size_call, maxFrameSize]
    dsimp only at hs ⊢
    omega

theorem travels_update {context : String} {v : Json} (hv : v.Plain) (hd : v.depth < Json.maxDepth)
    (hs : (str context).size + v.size ≤ 2 ^ 23) : (update context v).Travels := by
  refine travels_of_plain (List.forall_mem_singleton.2 hv) ?_ ?_
  · simp [toJson, members, Json.depth, Json.depthMembers]
    omega
  · rw [size_update, maxFrameSize]
    omega

theorem travels_result {context : String} {o : Outcome} (hv : ∀ v ∈ o.values, v.Plain)
    (hd : o.toJson.depth < Json.maxDepth) (hs : (str context).size + o.toJson.size ≤ 2 ^ 23) :
    (result context o).Travels := by
  refine travels_of_plain hv ?_ ?_
  · simp [toJson, members, Json.depth, Json.depthMembers]
    omega
  · rw [size_result, maxFrameSize]
    omega

end Message

/-! ### Ports -/

namespace Port

/-- Nothing is on its way at a port, and nothing is in the way of what will be. -/
structure Idle (p : Port η) : Prop where
  up : p.station.link.up = true
  writable : p.station.link.writable = true
  queue : p.station.queue = []
  uplink : p.uplink = []
  downlink : p.downlink = []
  reads : p.reads = true
  writes : p.writes = true

theorem idle_empty : ({} : Port η).Idle := ⟨rfl, rfl, rfl, rfl, rfl, rfl, rfl⟩

variable {p : Port η}

theorem Idle.restate (h : p.Idle) {s : Station η} (hu : s.link.up = true)
    (hw : s.link.writable = true) (hq : s.queue = []) : (p.restate s).Idle :=
  ⟨hu, hw, hq, h.uplink, h.downlink, h.reads, h.writes⟩

variable [DecidableEq η] {s : Station η} {l : Link η} {cmd : Command η} {m : Message}

theorem happen_eq (p : Port η) (e : LinkEvent η) : p.happen e = { p with
    station := (p.station.happen e).1
    uplink := if p.reads then p.uplink ++ (p.station.happen e).2.filterMap wrote?
      else p.uplink } := rfl

/-- At an idle port a command becomes the only message on the uplink. -/
theorem Idle.obeys (h : p.Idle) (hl : s.link.step (.commanded cmd) = (l, [.wrote m]))
    (hu : l.up = true) :
    ((p.restate { s with queue := [cmd] }).popped []).happen (.commanded cmd) =
      { p.restate { s with link := l, queue := [] } with uplink := [m] } := by
  simp [happen_eq, Station.happen, popped, Port.restate, hl, hu, h.reads, h.uplink, Station.note,
    wrote?]

theorem Idle.hears (h : p.Idle) {es : List (Effect η)}
    (hl : p.station.link.step (.heard m) = (l, es)) (hu : l.up = true)
    (hes : es.filterMap wrote? = []) :
    (({ p with downlink := [m] } : Port η).taken []).happen (.heard m) =
      p.restate (es.foldl Station.note { p.station with link := l }) := by
  have hs : p.station.happen (.heard m) =
      (es.foldl Station.note { p.station with link := l }, es) := by
    simp [Station.happen, hl, hu]
  have hd : p.downlink = [] := h.downlink
  have hp : ({ p with downlink := [m] } : Port η).taken [] = p := by rw [taken, ← hd]
  rw [hp, happen_eq, hs, hes, List.append_nil, ite_self]
  rfl

end Port

namespace Network

variable {net : Network η} {a b : ClientId} {p q : Port η}

/-- What reaches one client is put on its way, and nothing else. -/
theorem post_one (hq : net.ports.get? b = some q) (hw : q.writes = true) {n : Notice}
    (hn : ∃ f, n.message.encode = .ok f) :
    net.post [⟨b, n, true⟩] = net.change b { q with downlink := q.downlink ++ [n.message] } := by
  obtain ⟨f, hf⟩ := hn
  have hports : (net.ports.map fun client p => p.post client [⟨b, n, true⟩]) =
      net.ports.modify b fun _ => { q with downlink := q.downlink ++ [n.message] } := by
    apply Keyed.ext
    refine List.map_congr_left fun e he => ?_
    by_cases hb : e.1 = b
    · have hget : net.ports.get? e.1 = some e.2 := Keyed.get?_eq_some_iff.2 he
      obtain rfl : e.2 = q := Option.some.inj (hget.symm.trans (hb ▸ hq))
      simp [Port.post, Port.send, hb, hw, hf]
    · simp [Port.post, hb, Ne.symm hb]
  rw [post, change, hports]

variable [DecidableEq η] {o : Operation η}

/-! ### What is told of single events -/

theorem deeds_obey (net : Network η) (client : ClientId) (context : String) :
    net.deeds context (.obey client) = [] := by
  cases hport : net.port? (.obey client : NetworkEvent η) with
  | none => rw [deeds, hport]
  | some cp =>
    rw [deeds_port hport (by simp)]
    simp only [stepPort, acts_obey]
    rfl

theorem deeds_route (hp : net.ports.get? a = some p) {m m' : Message} {ms : List Message}
    (hu : p.uplink = m :: ms) (hm : m.transmitted = .ok m') (context : String) :
    net.deeds context (.route a) =
      Thread.offers (about context (net.exchange.step (.received a m')).2) := by
  have hport : net.port? (.route a) = some (a, p) := congrArg (Option.map _) hp
  rw [deeds_port hport (by simp)]
  simp only [stepPort, hu, hm]
  rfl

theorem deeds_hear (hp : net.ports.get? a = some p) {m m' : Message} {ms : List Message}
    (hd : p.downlink = m :: ms) (hm : m.transmitted = .ok m') (context : String) :
    net.deeds context (.hear a) =
      (((p.taken ms).station.happen (.heard m')).2.flatMap
        (Effect.acts context (p.strand context).accepts)).map (a, ·) := by
  have hport : net.port? (.hear a) = some (a, p) := congrArg (Option.map _) hp
  rw [deeds_port hport (by simp)]
  simp only [stepPort, Port.hear_ok hd hm]
  exact List.append_nil _

/-! ### Errands -/

/-- What events make of a network, and what callers and handlers would tell of them. -/
structure Leads (net : Network η) (es : List (NetworkEvent η)) (net' : Network η)
    (told : String → List Deed) : Prop where
  run : net.run es = net'
  history : ∀ context, net.history context es = told context

theorem history_append (context : String) (net : Network η) (es es' : List (NetworkEvent η)) :
    net.history context (es ++ es') = net.history context es ++ (net.run es).history context es' := by
  induction es generalizing net with
  | nil => rfl
  | cons e es ih =>
    show net.deeds context e ++ history context (net.step e).1 (es ++ es') = _
    rw [ih, ← List.append_assoc]
    rfl

theorem Leads.trans {es es' : List (NetworkEvent η)} {net' net'' : Network η}
    {told told' : String → List Deed} (h : net.Leads es net' told) (h' : net'.Leads es' net'' told') :
    net.Leads (es ++ es') net'' fun context => told context ++ told' context where
  run := by rw [run_append, h.run, h'.run]
  history context := by rw [history_append, h.run, h.history, h'.history]

/-- An operation of `a` from which something comes to `b`. -/
def errand (a : ClientId) (o : Operation η) (b : ClientId) : List (NetworkEvent η) :=
  [.act a o, .obey a, .route a, .hear b]

/-- The operation leaves a command, and the link writes a message. -/
theorem leads_sending {s : Station η} {cmd : Command η} {l : Link η} {m : Message}
    (hp : net.ports.get? a = some p) (hi : p.Idle)
    (ho : (p.station.operate (ContextId.ofNat net.serial) o).1 = { s with queue := [cmd] })
    (hl : s.link.step (.commanded cmd) = (l, [.wrote m])) (hu : l.up = true) :
    net.Leads [.act a o, .obey a]
      { net.change a { p.restate { s with link := l, queue := [] } with uplink := [m] } with
        serial := net.serial + 1 }
      fun context => (o.acts context p.station).map (a, ·) := by
  let net₁ : Network η :=
    { net.change a (p.restate { s with queue := [cmd] }) with serial := net.serial + 1 }
  have hnet₁ : (net.step (.act a o)).1 = net₁ := by rw [step_act hp, ho]
  have hp₁ : net₁.ports.get? a = some (p.restate { s with queue := [cmd] }) := get?_change_self hp _
  constructor
  · show ((net.step (.act a o)).1.step (.obey a)).1 = _
    rw [hnet₁, step_obey hp₁ rfl, hi.obeys hl hu]
    exact congrArg (fun net' : Network η => { net' with serial := net.serial + 1 })
      (change_change net a _ _)
  · intro context
    show net.deeds context (.act a o) ++ ((net.step (.act a o)).1.deeds context (.obey a) ++ []) = _
    rw [deeds_act hp, deeds_obey, List.append_nil, List.append_nil]

/-- The exchange takes a message and sends another one, which is heard. -/
theorem leads_answer {l : Link η} {m : Message} {x : Exchange} {n : Notice} {es : List (Effect η)}
    (hp : net.ports.get? a = some { p with uplink := [m] }) (hup : p.uplink = [])
    (hm : m.transmitted = .ok m)
    (hx : net.exchange.step (.received a m) = (x, [⟨b, n, true⟩])) (hn : n.message.Travels)
    (hq : (net.change a p).ports.get? b = some q) (hj : q.Idle)
    (hl : q.station.link.step (.heard n.message) = (l, es)) (hu : l.up = true)
    (hes : es.filterMap Port.wrote? = []) :
    net.Leads [.route a, .hear b]
      { (net.change a p).change b
          (q.restate (es.foldl Station.note { q.station with link := l })) with
        exchange := x }
      fun context => Thread.offers (about context [⟨b, n, true⟩]) ++
        (es.flatMap (Effect.acts context (q.strand context).accepts)).map (b, ·) := by
  let net₁ : Network η :=
    { (net.change a p).change b { q with downlink := [n.message] } with exchange := x }
  have hnet₁ : (net.step (.route a)).1 = net₁ := by
    have hsame : { p with uplink := [] } = p := by rw [← hup]
    let net₀ : Network η := { net.change a p with exchange := x }
    have hq₀ : net₀.ports.get? b = some q := hq
    have hpost := post_one hq₀ hj.writes hn.1
    rw [hj.downlink, List.nil_append] at hpost
    have htold : (net.change a p).exchange.stepIn {} (.received a m) = (x, [⟨b, n, true⟩]) := hx
    rw [step_route hp rfl hm]
    show ((net.change a { p with uplink := [] }).tell (.received a m)).1 = _
    rw [hsame, tell, htold]
    exact hpost
  have hp₁ : net₁.ports.get? b = some { q with downlink := [n.message] } := get?_change_self hq _
  constructor
  · show ((net.step (.route a)).1.step (.hear b)).1 = _
    rw [hnet₁, step_hear hp₁ rfl hn.2, hj.hears hl hu hes]
    exact congrArg (fun net' : Network η => { net' with exchange := x })
      (change_change (net.change a p) b _ _)
  · intro context
    have hheard : (({ q with downlink := [n.message] } : Port η).taken []).station.happen
        (.heard n.message) = (es.foldl Station.note { q.station with link := l }, es) := by
      simp [Port.taken, Station.happen, hl, hu]
    show net.deeds context (.route a) ++ ((net.step (.route a)).1.deeds context (.hear b) ++ []) = _
    rw [hnet₁, deeds_route hp rfl hm, hx, deeds_hear hp₁ rfl hn.2, hheard, List.append_nil]
    rfl

/-- At idle ports an errand takes four events. -/
theorem leads_errand {s : Station η} {cmd : Command η} {l l' : Link η} {m : Message} {x : Exchange}
    {n : Notice} {es : List (Effect η)}
    (hp : net.ports.get? a = some p) (hi : p.Idle)
    (ho : (p.station.operate (ContextId.ofNat net.serial) o).1 = { s with queue := [cmd] })
    (hl : s.link.step (.commanded cmd) = (l, [.wrote m])) (hu : l.up = true) (hm : m.Travels)
    (hx : net.exchange.step (.received a m) = (x, [⟨b, n, true⟩])) (hn : n.message.Travels)
    (hq : (net.change a (p.restate { s with link := l, queue := [] })).ports.get? b = some q)
    (hj : q.Idle) (hl' : q.station.link.step (.heard n.message) = (l', es)) (hu' : l'.up = true)
    (hes : es.filterMap Port.wrote? = []) :
    net.Leads (errand a o b)
      { (net.change a (p.restate { s with link := l, queue := [] })).change b
          (q.restate (es.foldl Station.note { q.station with link := l' })) with
        exchange := x
        serial := net.serial + 1 }
      fun context => (o.acts context p.station).map (a, ·) ++
        (Thread.offers (about context [⟨b, n, true⟩]) ++
          (es.flatMap (Effect.acts context (q.strand context).accepts)).map (b, ·)) := by
  let p' := p.restate { s with link := l, queue := [] }
  let net₁ : Network η := { net.change a { p' with uplink := [m] } with serial := net.serial + 1 }
  have hp₁ : net₁.ports.get? a = some { p' with uplink := [m] } := get?_change_self hp _
  have hchange : net₁.change a p' = { net.change a p' with serial := net.serial + 1 } :=
    congrArg (fun net' : Network η => { net' with serial := net.serial + 1 })
      (change_change net a _ p')
  have hq₁ : (net₁.change a p').ports.get? b = some q := by
    rw [hchange]
    exact hq
  have hanswer := leads_answer hp₁ hi.uplink hm.2 hx hn hq₁ hj hl' hu' hes
  rw [hchange] at hanswer
  exact (leads_sending hp hi ho hl hu).trans hanswer

end Network

/-! ### Registrations, calls and answers -/

namespace Exchange

variable {x : Exchange} {a : ClientId} {r : Running} {e : Entry Route} {es : List (Entry Route)}

theorem step_call_first {c : Call} (hr : x.running.get? c.context = none)
    (he : x.directory.entries c.function = e :: es)
    (hl : x.lines.get? e.value.client = some .live) :
    x.step (.received a (.call c)) =
      ({ x with
          running := x.running.insert c.context
            ⟨a, e, { c with handler := some e.value.handler }⟩ },
        [⟨e.value.client, .offered e.rank { c with handler := some e.value.handler }, true⟩]) := by
  simp [step, receive, call, Keyed.contains, hr, he, offer, send, hl]

theorem step_update_of {context : String} (hr : x.running.get? context = some r)
    (hc : r.callee.value.client = a) (hl : x.lines.get? r.caller = some .live) (v : Json) :
    x.step (.received a (.update context v)) = (x, [⟨r.caller, .updated context v, true⟩]) := by
  simp [step, receive, update, hr, hc, send, hl]

theorem step_result_of {context : String} (hr : x.running.get? context = some r)
    (hc : r.callee.value.client = a) (hl : x.lines.get? r.caller = some .live) {out : Outcome}
    (ho : out.isDeclined = false) :
    x.step (.received a (.result context out)) =
      ({ x with running := x.running.erase context }, [⟨r.caller, .answered context out, true⟩]) := by
  simp [step, receive, result, hr, hc, send, hl, ho]

theorem step_declined_of {context : String} (hr : x.running.get? context = some r)
    (hc : r.callee.value.client = a)
    (he : x.directory.after r.call.function r.callee.rank = e :: es)
    (hl : x.lines.get? e.value.client = some .live) :
    x.step (.received a (.result context .declined)) =
      ({ x with running := x.running.modify context fun r =>
          { r with callee := e, call := { r.call with handler := some e.value.handler } } },
        [⟨e.value.client, .offered e.rank { r.call with handler := some e.value.handler }, true⟩]) := by
  simp [step, receive, result, hr, hc, Outcome.isDeclined, reroute, he, offer, send, hl]

end Exchange

namespace Port

/-- The port after a registration has been confirmed. -/
def enlisted (p : Port η) (context : String) (id : HandlerId) (roster : Roster η) : Port η :=
  p.restate { p.station with
    link := { p.station.link with
      roster, pending := (p.station.link.pending.insert context (.registration id)).erase context }
    queue := []
    registrations :=
      (p.station.registrations.insert context none).modify context fun _ => some (.ok ()) }

/-- The port after a call has been written. -/
def calling (p : Port η) (c : Call) : Port η :=
  p.restate { p.station with
    link := { p.station.link with pending := p.station.link.pending.insert c.context .call }
    queue := []
    calls := p.station.calls.insert c.context
      { context := c.context, function := c.function, args := c.args } }

/-- The port after a handler has been started for a call. -/
def serving (p : Port η) (c : Call) : Port η :=
  p.restate { p.station with
    link := { p.station.link with
      running := p.station.link.running.insert c.context p.station.link.jobs
      jobs := p.station.link.jobs + 1 }
    jobs := p.station.jobs ++ [.ofCall c] }

/-- The port after a handler has ended its call. -/
def ending (p : Port η) (job : JobId) (k : InboundCall) : Port η :=
  p.restate { p.station with
    link := { p.station.link with running := p.station.link.running.erase k.context }
    queue := []
    jobs := p.station.jobs.set job { k with finished := true } }

/-- The port after something has arrived for a call that waits. -/
def receiving (p : Port η) (context : String) (e : CallEvent) : Port η :=
  p.restate { p.station with
    link := match e with
      | .update _ => p.station.link
      | .finished _ =>
        { p.station.link with pending := p.station.link.pending.erase context }
    calls := p.station.calls.modify context (·.push e) }

variable {p : Port η} {c : Call}

theorem Idle.calling (h : p.Idle) (c : Call) : (p.calling c).Idle := h.restate h.up h.writable rfl

theorem Idle.serving (h : p.Idle) (c : Call) : (p.serving c).Idle :=
  h.restate h.up h.writable h.queue

theorem Idle.ending (h : p.Idle) (job : JobId) (k : InboundCall) : (p.ending job k).Idle :=
  h.restate h.up h.writable rfl

theorem Idle.receiving (h : p.Idle) (context : String) (e : CallEvent) :
    (p.receiving context e).Idle := by
  cases e with
  | update => exact h.restate h.up h.writable h.queue
  | finished => exact h.restate h.up h.writable h.queue

theorem Idle.enlisted (h : p.Idle) (context : String) (id : HandlerId) (roster : Roster η) :
    (p.enlisted context id roster).Idle := h.restate h.up h.writable rfl

theorem Idle.submit (h : p.Idle) (cmd : Command η) :
    p.station.submit cmd = .ok { p.station with queue := [cmd] } := by
  rw [Station.submit, if_pos h.up, h.queue]
  rfl

theorem Idle.callAt (h : p.Idle) (context function : String) (args : Json) (depth : UInt32) :
    p.station.callAt context function args depth = .ok { p.station with
      queue := [.call { context, function, args, depth }]
      calls := p.station.calls.insert context { context, function, args } } := by
  rw [Station.callAt, h.submit]
  rfl

theorem Idle.operate_call (h : p.Idle) (context function : String) (args : Json) :
    (p.station.operate context (.call function args)).1 = { p.station with
      queue := [.call { context, function, args }]
      calls := p.station.calls.insert context { context, function, args } } := by
  show (p.station.attempt (p.station.callAt context function args 0)).1 = _
  rw [h.callAt]
  rfl

theorem Idle.operate_nested (h : p.Idle) {job : JobId} {k : InboundCall} {depth : UInt32}
    (hk : p.station.jobs[job]? = some k) (hd : k.nestedDepth = .ok depth)
    (context function : String) (args : Json) :
    (p.station.operate context (.nested job function args)).1 = { p.station with
      queue := [.call { context, function, args, depth }]
      calls := p.station.calls.insert context { context, function, args } } := by
  simp only [Station.operate, Station.nested, Station.job?, hk, hd]
  show (p.station.attempt (p.station.callAt context function args depth)).1 = _
  rw [h.callAt]
  rfl

theorem Idle.finish (h : p.Idle) {job : JobId} {k : InboundCall}
    (hk : p.station.jobs[job]? = some k) (hf : k.finished = false) (out : Outcome) :
    p.station.finish job out = .ok { p.station with
      queue := [.finish k.context out]
      jobs := p.station.jobs.set job { k with finished := true } } := by
  simp [Station.finish, Station.job?, hk, InboundCall.finish, hf, Station.offer, Station.submit,
    h.up, h.queue, bind, Except.bind]

theorem accepts_strand (p : Port η) {context : String} {call : OutboundCall}
    (hcall : p.station.calls.get? context = some call) (ha : call.accepts = true) :
    (p.strand context).accepts = true := by
  rw [Strand.accepts]
  simp only [Port.strand, Station.held, hcall]
  exact ha

end Port

namespace Network

variable {net : Network η} {a b : ClientId} {p q : Port η} [DecidableEq η] {o : Operation η}

theorem offers_about_one {b : ClientId} {n : Notice} {context : String}
    (hn : ∀ rank c, n ≠ .offered rank c) : Thread.offers (about context [⟨b, n, true⟩]) = [] := by
  refine List.filterMap_eq_nil_iff.2 fun s hs => ?_
  obtain rfl := List.mem_singleton.1 (List.mem_filter.1 hs).1
  cases n with
  | offered rank c => exact (hn rank c rfl).elim
  | registered | answered | updated | withdrawn => rfl

theorem offers_about_offered {b : ClientId} {rank : Rank} {c : Call} {context : String} :
    Thread.offers (about context [⟨b, .offered rank c, true⟩]) =
      if c.context = context then [(b, .offered c.handler)] else [] := by
  by_cases hc : c.context = context <;> simp [Thread.offers, about, Notice.context, hc]

theorem leads_register {name : String} {priority : UInt16} {handler : η} {id : HandlerId}
    {roster : Roster η} {context : String} (hc : ContextId.ofNat net.serial = context)
    (hp : net.ports.get? a = some p) (hi : p.Idle)
    (hr : p.station.link.roster.register name priority handler = .ok (id, roster))
    (hm : (Message.register context name priority id).Travels)
    (hl : net.exchange.lines.get? a = some .live)
    (hn : (Message.result context (.value .null)).Travels) :
    net.Leads (errand a (.register name priority handler) a)
      { net.change a (p.enlisted context id roster) with
        exchange := { net.exchange with
          directory := net.exchange.directory.insert name priority ⟨a, id⟩ }
        serial := net.serial + 1 }
      fun _ => [] := by
  let s : Station η := { p.station with
    registrations := p.station.registrations.insert context none }
  let l : Link η := { p.station.link with
    roster, pending := p.station.link.pending.insert context (.registration id) }
  let p' : Port η := p.restate { s with link := l, queue := [] }
  have hoperates : (p.station.operate (ContextId.ofNat net.serial)
      (.register name priority handler)).1 =
        { s with queue := [.register context name priority handler] } := by
    simp only [hc, Station.operate, Station.register, hi.submit]
    rfl
  have hobeys : s.link.step (.commanded (.register context name priority handler)) =
      (l, [.wrote (.register context name priority id)]) := by
    obtain ⟨f, hf⟩ := hm.1
    simp [Link.step, Link.obey, Link.write, hr, hi.up, hi.writable, hf, s, l]
  have hreceives : net.exchange.step (.received a (.register context name priority id)) =
      ({ net.exchange with directory := net.exchange.directory.insert name priority ⟨a, id⟩ },
        [⟨a, .registered context, true⟩]) := by
    simp [Exchange.step, Exchange.receive, Exchange.register, Exchange.send, hl]
  have hhears : p'.station.link.step (.heard (.result context (.value .null))) =
      ({ l with pending := l.pending.erase context }, [.registered context (.ok ())]) := by
    have hpending : l.pending.get? context = some (.registration id) :=
      Keyed.get?_insert_self ..
    have hlink : p'.station.link = l := rfl
    simp [hlink, Link.step, Link.hear, Link.answer, hpending, hi.up, Outcome.isValue, l]
  have hp' : (net.change a p').ports.get? a = some p' := get?_change_self hp p'
  have hleads := leads_errand hp hi hoperates hobeys hi.up hm hreceives hn hp'
    (hi.restate hi.up hi.writable rfl) hhears hi.up rfl
  rw [change_change] at hleads
  refine ⟨hleads.run, fun context' => (hleads.history context').trans ?_⟩
  rw [offers_about_one (by simp)]
  rfl

theorem leads_call {c : Call} {e : Entry Route} {es : List (Entry Route)} {handler : η}
    (hp : net.ports.get? a = some p) (hi : p.Idle)
    (ho : (p.station.operate (ContextId.ofNat net.serial) o).1 = { p.station with
      queue := [.call c]
      calls := p.station.calls.insert c.context
        { context := c.context, function := c.function, args := c.args } })
    (hm : (Message.call c).Travels) (hr : net.exchange.running.get? c.context = none)
    (he : net.exchange.directory.entries c.function = e :: es)
    (hl : net.exchange.lines.get? e.value.client = some .live)
    (hn : (Message.call { c with handler := some e.value.handler }).Travels)
    (hq : (net.change a (p.calling c)).ports.get? e.value.client = some q) (hj : q.Idle)
    (hh : q.station.link.roster.get? e.value.handler = some handler)
    (hs : q.station.link.running.get? c.context = none) :
    net.Leads (errand a o e.value.client)
      { (net.change a (p.calling c)).change e.value.client
          (q.serving { c with handler := some e.value.handler }) with
        exchange := { net.exchange with
          running := net.exchange.running.insert c.context
            ⟨a, e, { c with handler := some e.value.handler }⟩ }
        serial := net.serial + 1 }
      fun context => (o.acts context p.station).map (a, ·) ++
        if c.context = context then
          [(e.value.client, .offered (some e.value.handler)),
            (e.value.client, .started q.station.link.jobs (some e.value.handler))]
        else [] := by
  have hobeys : p.station.link.step (.commanded (.call c)) =
      ({ p.station.link with pending := p.station.link.pending.insert c.context .call },
        [.wrote (.call c)]) := by
    obtain ⟨f, hf⟩ := hm.1
    simp [Link.step, Link.obey, Link.write, hi.up, hi.writable, hf]
  have hhears : q.station.link.step
        (.heard (.call { c with handler := some e.value.handler })) =
      ({ q.station.link with
          running := q.station.link.running.insert c.context q.station.link.jobs
          jobs := q.station.link.jobs + 1 },
        [.started q.station.link.jobs handler { c with handler := some e.value.handler }]) := by
    simp [Link.step, Link.hear, Link.dispatch, hj.up, hh, Keyed.contains, hs]
  have hleads := leads_errand (s := { p.station with
      calls := p.station.calls.insert c.context
        { context := c.context, function := c.function, args := c.args } })
    hp hi ho hobeys hi.up hm (Exchange.step_call_first hr he hl) hn hq hj hhears hj.up rfl
  refine ⟨hleads.run, fun context => ?_⟩
  rw [hleads.history, offers_about_offered]
  congr 1
  by_cases hc : c.context = context <;> simp [Effect.acts, hc]

theorem leads_update {job : JobId} {k : InboundCall} {v : Json} {r : Running} {call : OutboundCall}
    (hp : net.ports.get? a = some p) (hi : p.Idle) (hk : p.station.jobs[job]? = some k)
    (hf : k.finished = false) (hs : p.station.link.running.contains k.context = true)
    (hm : (Message.update k.context v).Travels)
    (hr : net.exchange.running.get? k.context = some r) (hcallee : r.callee.value.client = a)
    (hcaller : r.caller = b) (hl : net.exchange.lines.get? b = some .live)
    (hq : net.ports.get? b = some q) (hj : q.Idle)
    (hw : q.station.link.pending.get? k.context = some .call)
    (hcall : q.station.calls.get? k.context = some call) (ha : call.accepts = true) :
    net.Leads (errand a (.update job v) b)
      { net.change b (q.receiving k.context (.update v)) with serial := net.serial + 1 }
      fun context => if k.context = context then
        [(a, .passed job v), (b, .arrived (.update v))] else [] := by
  subst hcaller
  have hsame : p.restate { p.station with queue := [] } = p := by
    rw [← hi.queue]
    rfl
  have hoperates : (p.station.operate (ContextId.ofNat net.serial) (.update job v)).1 =
      { p.station with queue := [.update k.context v] } := by
    simp [Station.operate, Station.update, Station.job?, hk, InboundCall.update, hf, hi.submit,
      Station.attempt, bind, Except.bind]
  have hobeys : p.station.link.step (.commanded (.update k.context v)) =
      (p.station.link, [.wrote (.update k.context v)]) := by
    obtain ⟨f, hencode⟩ := hm.1
    simp [Link.step, Link.obey, Link.write, hi.up, hi.writable, hs, hencode]
  have hhears : q.station.link.step (.heard (.update k.context v)) =
      (q.station.link, [.delivered k.context (.update v)]) := by
    simp [Link.step, Link.hear, hj.up, hw]
  have hreceives := Exchange.step_update_of hr hcallee hl v
  have hleads := leads_errand hp hi hoperates hobeys hi.up hm hreceives hm
    (q := q) (by rw [hsame, change_self hp]; exact hq) hj hhears hj.up rfl
  rw [hsame, change_self hp] at hleads
  refine ⟨hleads.run, fun context => (hleads.history context).trans ?_⟩
  have haccepts := q.accepts_strand hcall ha
  rw [offers_about_one (by simp), List.nil_append]
  by_cases hc : k.context = context
  · subst hc
    simp [Operation.acts, Station.job?, hk, Station.update, InboundCall.update, hf, hi.submit,
      Effect.acts, haccepts, Except.isOk, Except.toBool, bind, Except.bind]
  · simp [Operation.acts, Station.job?, hk, hc, Effect.acts]

theorem finish_obeys {k : InboundCall} {out : Outcome} (hi : p.Idle)
    (hs : p.station.link.running.contains k.context = true)
    (hm : (Message.result k.context out).Travels) :
    p.station.link.step (.commanded (.finish k.context out)) =
      ({ p.station.link with running := p.station.link.running.erase k.context },
        [.wrote (.result k.context out)]) := by
  obtain ⟨f, hf⟩ := hm.1
  simp [Link.step, Link.obey, Link.write, hi.up, hi.writable, hs, hf]

theorem leads_finish {job : JobId} {k : InboundCall} {out : Outcome} {r : Running}
    {call : OutboundCall}
    (hp : net.ports.get? a = some p) (hi : p.Idle) (hk : p.station.jobs[job]? = some k)
    (hf : k.finished = false) (hs : p.station.link.running.contains k.context = true)
    (hm : (Message.result k.context out).Travels) (ho : out.isDeclined = false)
    (hr : net.exchange.running.get? k.context = some r) (hcallee : r.callee.value.client = a)
    (hcaller : r.caller = b) (hl : net.exchange.lines.get? b = some .live)
    (hq : (net.change a (p.ending job k)).ports.get? b = some q) (hj : q.Idle)
    (hw : q.station.link.pending.get? k.context = some .call)
    (hcall : q.station.calls.get? k.context = some call) (ha : call.accepts = true) :
    net.Leads (errand a (.finish job out) b)
      { (net.change a (p.ending job k)).change b (q.receiving k.context (.finished out)) with
        exchange := { net.exchange with running := net.exchange.running.erase k.context }
        serial := net.serial + 1 }
      fun context => if k.context = context then
        [(a, .ended job out), (b, .arrived (.finished out))] else [] := by
  subst hcaller
  have hoperates : (p.station.operate (ContextId.ofNat net.serial) (.finish job out)).1 =
      { p.station with
        queue := [.finish k.context out]
        jobs := p.station.jobs.set job { k with finished := true } } := by
    simp only [Station.operate, hi.finish hk hf]
    rfl
  have hhears : q.station.link.step (.heard (.result k.context out)) =
      ({ q.station.link with pending := q.station.link.pending.erase k.context },
        [.delivered k.context (.finished out)]) := by
    simp [Link.step, Link.hear, Link.answer, hj.up, hw]
  have hleads := leads_errand (s := { p.station with
      jobs := p.station.jobs.set job { k with finished := true } })
    hp hi hoperates (finish_obeys hi hs hm) hi.up hm
    (Exchange.step_result_of hr hcallee hl ho) hm hq hj hhears hj.up rfl
  refine ⟨hleads.run, fun context => (hleads.history context).trans ?_⟩
  have haccepts := q.accepts_strand hcall ha
  rw [offers_about_one (by simp), List.nil_append]
  by_cases hc : k.context = context
  · subst hc
    simp [Operation.acts, Station.job?, hk, hi.finish hk hf, Effect.acts, haccepts, Except.isOk,
      Except.toBool]
  · simp [Operation.acts, Station.job?, hk, hc, Effect.acts]

/-- A call that is declined goes on to the next handler. -/
theorem leads_dropJob {job : JobId} {k : InboundCall} {r : Running} {e : Entry Route}
    {es : List (Entry Route)} {handler : η}
    (hp : net.ports.get? a = some p) (hi : p.Idle) (hk : p.station.jobs[job]? = some k)
    (hf : k.finished = false) (hs : p.station.link.running.contains k.context = true)
    (hm : (Message.result k.context .declined).Travels)
    (hr : net.exchange.running.get? k.context = some r) (hcallee : r.callee.value.client = a)
    (hcontext : r.call.context = k.context)
    (he : net.exchange.directory.after r.call.function r.callee.rank = e :: es)
    (hl : net.exchange.lines.get? e.value.client = some .live)
    (hn : (Message.call { r.call with handler := some e.value.handler }).Travels)
    (hq : (net.change a (p.ending job k)).ports.get? e.value.client = some q) (hj : q.Idle)
    (hh : q.station.link.roster.get? e.value.handler = some handler)
    (hfree : q.station.link.running.get? k.context = none) :
    net.Leads (errand a (.dropJob job) e.value.client)
      { (net.change a (p.ending job k)).change e.value.client
          (q.serving { r.call with handler := some e.value.handler }) with
        exchange := { net.exchange with
          running := net.exchange.running.modify k.context fun r =>
            { r with callee := e, call := { r.call with handler := some e.value.handler } } }
        serial := net.serial + 1 }
      fun context => if k.context = context then
        [(a, .ended job .declined), (e.value.client, .offered (some e.value.handler)),
          (e.value.client, .started q.station.link.jobs (some e.value.handler))] else [] := by
  have hoperates : (p.station.operate (ContextId.ofNat net.serial) (.dropJob job)).1 =
      { p.station with
        queue := [.finish k.context .declined]
        jobs := p.station.jobs.set job { k with finished := true } } := by
    simp only [Station.operate, Station.dropJob, hi.finish hk hf]
  have hhears : q.station.link.step
        (.heard (.call { r.call with handler := some e.value.handler })) =
      ({ q.station.link with
          running := q.station.link.running.insert r.call.context q.station.link.jobs
          jobs := q.station.link.jobs + 1 },
        [.started q.station.link.jobs handler
          { r.call with handler := some e.value.handler }]) := by
    simp [Link.step, Link.hear, Link.dispatch, hj.up, hh, Keyed.contains, hcontext, hfree]
  have hleads := leads_errand (s := { p.station with
      jobs := p.station.jobs.set job { k with finished := true } })
    hp hi hoperates (finish_obeys hi hs hm) hi.up hm
    (Exchange.step_declined_of hr hcallee he hl) hn hq hj hhears hj.up rfl
  refine ⟨hleads.run, fun context => (hleads.history context).trans ?_⟩
  rw [offers_about_offered]
  by_cases hc : k.context = context
  · subst hc
    simp [Operation.acts, Station.job?, hk, hi.finish hk hf, Effect.acts, Except.isOk,
      Except.toBool, hcontext]
  · simp [Operation.acts, Station.job?, hk, hc, Effect.acts, hcontext]

end Network

/-! ### A call that is served -/

theorem Json.size_f : (str "f").size = 3 := by cbv

namespace Message

theorem travels_register_f (n : Nat) (id : HandlerId) :
    (register (ContextId.ofNat n) "f" 0 id).Travels :=
  travels_register (by rw [ContextId.size_ofNat, Json.size_f]; decide)

theorem travels_call_f (n : Nat) (depth : UInt32) (handler : Option HandlerId) :
    (call { context := ContextId.ofNat n, function := "f", args := .null, depth, handler }).Travels :=
  travels_call ⟨trivial, rfl⟩ (show 0 < Json.maxDepth by decide)
    (by rw [ContextId.size_ofNat, Json.size_f, Json.size_null]; decide)

theorem travels_confirmed (n : Nat) : (result (ContextId.ofNat n) (.value .null)).Travels :=
  travels_result (List.forall_mem_singleton.2 ⟨trivial, rfl⟩) (by decide)
    (by rw [ContextId.size_ofNat, Outcome.size_value, Json.size_null]; decide)

end Message

/-- The roster of somebody who has registered a handler of a function. -/
def Roster.ofHandler (handler : η) : Roster η where
  directory := ({} : Directory HandlerId).insert "f" 0 1
  handlers := (∅ : Keyed HandlerId η).insert 1 handler
  issued := 1

namespace Network

theorem leads_register_first [DecidableEq η] {net : Network η} {a : ClientId} (handler : η)
    (hp : net.ports.get? a = some {}) (hl : net.exchange.lines.get? a = some .live) :
    net.Leads (errand a (.register "f" 0 handler) a)
      { net.change a
          (({} : Port η).enlisted (ContextId.ofNat net.serial) 1 (.ofHandler handler)) with
        exchange := { net.exchange with
          directory := net.exchange.directory.insert "f" 0 ⟨a, 1⟩ }
        serial := net.serial + 1 }
      fun _ => [] := by
  have hregisters : ({} : Roster η).register "f" 0 handler = .ok (1, .ofHandler handler) := rfl
  exact leads_register rfl hp Port.idle_empty hregisters (Message.travels_register_f ..) hl
    (Message.travels_confirmed ..)

/-- Two participants join, and the second one registers a handler of a function. -/
def offering : List (NetworkEvent Unit) := [.join, .join] ++ errand 2 (.register "f" 0 ()) 2

/-- The first one calls the function. -/
def serving : List (NetworkEvent Unit) := offering ++ errand 1 (.call "f" .null) 2

/-- The first participant waits for a call that the second one serves. -/
structure Serves (net : Network Unit) (context : String) (p q : Port Unit) : Prop where
  caller : net.ports.get? 1 = some p
  callerIdle : p.Idle
  callerThere : p.left = false
  call : p.station.calls.get? context = some { context, function := "f", args := .null }
  waits : p.station.link.pending.get? context = some .call
  callee : net.ports.get? 2 = some q
  calleeIdle : q.Idle
  calleeThere : q.left = false
  job : q.station.jobs = [{ context, args := .null, depth := 0 }]
  serves : q.station.link.running.get? context = some 0
  line : net.exchange.lines.get? 1 = some .live
  running : net.exchange.running.get? context = some
    ⟨1, ⟨⟨0, 0⟩, ⟨2, 1⟩⟩, { context, function := "f", handler := some 1 }⟩

theorem leads_serving : ∃ net p q, ({} : Network Unit).Leads serving net
      (fun context => if ContextId.ofNat 1 = context then
        [(2, .offered (some 1)), (2, .started 0 (some 1))] else []) ∧
    net.Serves (ContextId.ofNat 1) p q := by
  -- both join
  let net₀ : Network Unit := ({} : Network Unit).run [.join, .join]
  have hjoined : ({} : Network Unit).Leads [.join, .join] net₀ fun _ => [] := ⟨rfl, fun _ => rfl⟩
  have hcallee : net₀.ports.get? 2 = some {} := rfl
  have hoffered := leads_register_first () hcallee rfl
  -- the first one calls
  let q : Port Unit := ({} : Port Unit).enlisted (ContextId.ofNat 0) 1 (.ofHandler ())
  have hq : q.Idle := Port.idle_empty.enlisted ..
  let net₁ : Network Unit := { net₀.change 2 q with
    exchange := { net₀.exchange with directory := net₀.exchange.directory.insert "f" 0 ⟨2, 1⟩ }
    serial := net₀.serial + 1 }
  let c : Call := { context := ContextId.ofNat 1, function := "f" }
  have hcaller : net₁.ports.get? 1 = some {} := rfl
  have hhandler : q.station.link.roster.get? 1 = some () := rfl
  have hserved := leads_call (o := .call "f" .null) (c := c) (e := ⟨⟨0, 0⟩, ⟨2, 1⟩⟩) (q := q)
    hcaller Port.idle_empty rfl (Message.travels_call_f 1 0 none) rfl rfl rfl
    (Message.travels_call_f 1 0 (some 1)) rfl hq hhandler rfl
  have hleads := (hjoined.trans hoffered).trans hserved
  refine ⟨_, ({} : Port Unit).calling c, q.serving { c with handler := some 1 },
    ⟨hleads.run, fun context => hleads.history context⟩, ?_⟩
  exact {
    caller := rfl
    callerIdle := Port.idle_empty.calling c
    callerThere := rfl
    call := Keyed.get?_insert_self ..
    waits := Keyed.get?_insert_self ..
    callee := rfl
    calleeIdle := hq.serving _
    calleeThere := rfl
    job := rfl
    serves := Keyed.get?_insert_self ..
    line := rfl
    running := Keyed.get?_insert_self .. }

end Network
end Switchboard
