import Switchboard.Broker.Reception
import Switchboard.Broker.Site

/-! # The broker

A broker is a reception in front of an exchange, behind a socket.

* **Writing.** What the exchange sends goes through the client's line.  A line dies with the first
  message that cannot be written, because the client does not listen or because the message does not
  fit into a frame; that message is lost, and the exchange cannot reach the client any more.  In the
  second case the client notices that nothing more will come, but it may still send.
* **Shutting down** ends all sessions and lets nobody in; dropping the broker also removes its
  socket. -/

namespace Switchboard

/-- A message that arrived at a client. -/
abbrev Arrival := ClientId × Message

/-- A running broker. -/
structure Broker where
  site : Site
  reception : Reception := {}
  exchange : Exchange := {}
  /-- The clients that do not listen. -/
  deaf : List ClientId := []
  /-- The clients that listen but are not written to any more. -/
  severed : List ClientId := []
  /-- Whether the broker is still held by whoever started it. -/
  held : Bool := true
deriving Inhabited

namespace Broker

/-- Starts a broker. -/
def start (site : Site) : Except Failure Broker := do
  .ok { site := ← site.bind.mapError .io }

/-- A client's line dies. -/
def mute (b : Broker) (client : ClientId) : Broker :=
  { b with exchange := (b.exchange.step (.muted client)).1 }

/-- Writes what the exchange sends, and returns what arrives. -/
def write (b : Broker) : List Sent → Broker × List Arrival
  | [] => (b, [])
  | s :: sents =>
    if s.delivered && b.exchange.lines.get? s.client = some .live then
      if b.deaf.contains s.client then write (b.mute s.client) sents
      else
        match s.notice.message.encode with
        | .error _ =>
          write { b.mute s.client with severed := s.client :: b.severed } sents
        | .ok _ =>
          let (b, arrivals) := b.write sents
          (b, (s.client, s.notice.message) :: arrivals)
    else b.write sents

/-- Tells the exchange what the reception heard, and returns what arrives at the clients. -/
def tell (b : Broker) : List ExchangeEvent → Broker × List Arrival
  | [] => (b, [])
  | e :: es =>
    let (x, sents) := b.exchange.step e
    let (b, arrivals) := write { b with exchange := x } sents
    let (b, arrivals') := b.tell es
    (b, arrivals ++ arrivals')

/-- Lets things happen at the reception, and returns what arrives at the clients. -/
def handle (b : Broker) (inputs : List Reception.Input) : Broker × List Arrival :=
  let (r, es) := b.reception.run inputs
  tell { b with reception := r } es

/-- Whether a client can get through to the reception. -/
def reach (b : Broker) : Except Failure Unit := do
  b.site.reachable.mapError .io
  if b.reception.listening then .ok () else .error (.io .refused)

/-- A client connects.  It is given an id unless it is turned away. -/
def connect (b : Broker) : Except Failure (Broker × Option ClientId) := do
  b.reach
  let client := b.reception.last + 1
  let (b', _) := b.handle [.arrive, .announce client]
  .ok (b', if b.reception.admits then some client else none)

/-- A client sends bytes. -/
def receive (b : Broker) (client : ClientId) (s : Bytes) : Broker × List Arrival :=
  b.handle [.bytes client s, .release client]

/-- A client ends its side. -/
def hangUp (b : Broker) (client : ClientId) : Broker × List Arrival :=
  b.handle [.hangUp client, .release client]

/-- A client stops listening. -/
def deafen (b : Broker) (client : ClientId) : Broker := { b with deaf := client :: b.deaf }

/-- Ends all sessions and lets nobody in any more.  What the ending sessions still make the exchange
send finds no client that listens. -/
def shutdown (b : Broker) : Broker :=
  let clients := b.reception.sessions.keys
  (b.handle (.shutdown :: clients.map .dismiss ++ clients.map .release)).1

/-- Shuts down and removes the socket. -/
def drop (b : Broker) : Broker :=
  let b := b.shutdown
  { b with site := b.site.unlink, held := false }

/-- Whether a client's session is going on. -/
def serves (b : Broker) (client : ClientId) : Bool := b.reception.serves client

/-- Whether a client can tell that its session is going on. -/
def attends (b : Broker) (client : ClientId) : Bool :=
  b.serves client && !b.severed.contains client

end Broker

end Switchboard
