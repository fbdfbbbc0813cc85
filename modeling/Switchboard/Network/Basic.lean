import Switchboard.Exchange.Basic
import Switchboard.Participant.Operation
import Switchboard.ContextId
import Switchboard.Frame

/-! # Networks

A network is an exchange with any number of participants around it.

* **Ports.** Each participant is a client of the exchange and has a port, in which messages are on
  their way: on the uplink what its station has written, on the downlink what the exchange has sent.
  Both are queues that lose nothing while the session lives.
* **Events.** Participants do things, links obey and hear, the exchange receives, and sessions end.
  An event concerns one port, and what can happen may happen in any order; an event that cannot
  happen does nothing.  One by which the exchange learns that a client left says in which orders the
  calls of that client are visited.
* **Transmission.** A message arrives as what is read from its frame.  One that does not fit into a
  frame ends the writing, and one that cannot be read ends the session.
* **Contexts.** The network names calls and registrations by the ids of successive serial numbers,
  so no two of them have the same. -/

namespace Switchboard

/-- A participant with its connection to the exchange. -/
structure Port (η : Type) where
  station : Station η := {}
  /-- What the station has written and the exchange has not received, the oldest first. -/
  uplink : List Message := []
  /-- What the exchange has sent and the station has not heard, the oldest first. -/
  downlink : List Message := []
  /-- Whether the broker still takes what the station writes. -/
  reads : Bool := true
  /-- Whether the broker still writes what the exchange sends. -/
  writes : Bool := true
  /-- Whether the exchange has been told that the client left. -/
  left : Bool := false
deriving Inhabited

/-- An exchange with participants around it. -/
structure Network (η : Type) where
  exchange : Exchange := {}
  ports : Keyed ClientId (Port η) := ∅
  /-- The number of contexts given out so far. -/
  serial : Nat := 0
deriving Inhabited

/-- What may happen in a network. -/
inductive NetworkEvent (η : Type) where
  /-- A participant joins. -/
  | join
  /-- A caller or a handler of a participant does something. -/
  | act (client : ClientId) (o : Operation η)
  /-- A link obeys its oldest command. -/
  | obey (client : ClientId)
  /-- A link hears the oldest message of the downlink, or that there will be none any more. -/
  | hear (client : ClientId)
  /-- The exchange receives the oldest message of the uplink, or hears that the client left.  Then it
  visits the client's calls in these orders. -/
  | route (client : ClientId) (v : Visits := {})
  /-- The exchange's line to a client that does not get its messages any more dies. -/
  | mute (client : ClientId)
  /-- The broker ends a session.  Of what is on the way, so much from the start still arrives. -/
  | close (client : ClientId) (up down : Nat)

/-- What an event brings about. -/
structure Happening (η : Type) where
  reply : Option Reply := none
  effects : List (Effect η) := []
  sent : List Sent := []
deriving Inhabited

namespace Port

variable {η : Type}

/-- Takes the new state of the station, with what it has written. -/
def settle (p : Port η) (s : Station η) (es : List (Effect η)) : Port η :=
  let written := es.filterMap fun
    | .wrote m => some m
    | _ => none
  { p with station := s, uplink := if p.reads then p.uplink ++ written else p.uplink }

/-- The session ends at the broker.  Of what is on the way, so much still arrives. -/
def close [DecidableEq η] (p : Port η) (up down : Nat) : Port η :=
  { p with
    station := p.station.deafen
    uplink := p.uplink.take up
    downlink := p.downlink.take down
    reads := false
    writes := false }

/-- The station hears the oldest message on its way, or that there will be none any more. -/
def hear [DecidableEq η] (p : Port η) : Port η × List (Effect η) :=
  match p.downlink with
  | m :: ms =>
    let (s, es) := match m.transmitted with
      | .ok m => p.station.hear m
      | .error _ => p.station.hangUp
    (settle { p with downlink := ms } s es, es)
  | [] =>
    if p.writes then (p, [])
    else
      let (s, es) := p.station.hangUp
      (p.settle s es, es)

/-- Whether nothing will come from the station any more. -/
def exhausted (p : Port η) : Bool := p.uplink.isEmpty && !(p.reads && p.station.link.up)

/-- Whether the exchange's messages do not reach the station any more. -/
def unheard (p : Port η) : Bool := !(p.writes && p.station.link.up)

/-- Puts a message on the way to the station, as long as the broker writes. -/
def send (p : Port η) (m : Message) : Port η :=
  if p.writes then
    if m.encode matches .ok _ then { p with downlink := p.downlink ++ [m] }
    else { p with writes := false }
  else p

/-- Puts on the way to the station what is addressed to its client. -/
def post (p : Port η) (client : ClientId) (sents : List Sent) : Port η :=
  (sents.filter fun s => s.delivered && s.client = client).foldl
    (fun p s => p.send s.notice.message) p

end Port

namespace Network

variable {η : Type}

/-- Puts what the exchange sends on its way. -/
def post (net : Network η) (sents : List Sent) : Network η :=
  { net with ports := net.ports.map fun client p => p.post client sents }

/-- Tells the exchange of an event.  A departure visits the calls in the given orders. -/
def tell (net : Network η) (e : ExchangeEvent) (v : Visits := {}) : Network η × Happening η :=
  let (x, sent) := net.exchange.stepIn v e
  (post { net with exchange := x } sent, { sent })

/-- Changes a port. -/
def change (net : Network η) (client : ClientId) (p : Port η) : Network η :=
  { net with ports := net.ports.modify client fun _ => p }

/-- An event of a port. -/
def stepPort [DecidableEq η] (net : Network η) (client : ClientId) (p : Port η) :
    NetworkEvent η → Network η × Happening η
  | .join => (net, {})
  | .act _ o =>
    let (s, reply) := p.station.operate (ContextId.ofNat net.serial) o
    (change { net with serial := net.serial + 1 } client { p with station := s },
      { reply := some reply })
  | .obey _ =>
    let (s, effects) := p.station.obey
    (net.change client (p.settle s effects), { effects })
  | .hear _ =>
    let (p, effects) := p.hear
    (net.change client p, { effects })
  | .route _ v =>
    match p.uplink with
    | m :: ms =>
      let p := { p with uplink := ms }
      match m.transmitted with
      | .ok m => (net.change client p).tell (.received client m)
      | .error _ => (net.change client (p.close 0 p.downlink.length), {})
    | [] =>
      if p.exhausted && !p.left then
        (net.change client { p.close 0 p.downlink.length with left := true }).tell (.left client) v
      else (net, {})
  | .mute _ => if p.unheard && !p.left then net.tell (.muted client) else (net, {})
  | .close _ up down => (net.change client (p.close up down), {})

/-- The port that an event concerns. -/
def port? (net : Network η) : NetworkEvent η → Option (ClientId × Port η)
  | .join => none
  | .act client _ | .obey client | .hear client | .route client _ | .mute client
  | .close client _ _ => (net.ports.get? client).map (client, ·)

/-- A participant joins. -/
def join (net : Network η) : Network η × Happening η :=
  let client := net.ports.size + 1
  tell { net with ports := net.ports.insert client {} } (.connected client)

/-- An event. -/
def step [DecidableEq η] (net : Network η) (e : NetworkEvent η) : Network η × Happening η :=
  match e, net.port? e with
  | .join, _ => net.join
  | e, some (client, p) => net.stepPort client p e
  | _, none => (net, {})

/-- A network that can come about. -/
inductive Reachable [DecidableEq η] : Network η → Prop where
  | start : Reachable {}
  | step {net : Network η} (e : NetworkEvent η) : Reachable net → Reachable (net.step e).1

end Network

end Switchboard
