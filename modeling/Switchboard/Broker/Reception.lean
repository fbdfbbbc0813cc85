import Switchboard.Exchange.Basic
import Switchboard.Frame

/-! # Reception

The reception admits clients, reads what they send and tells the exchange about it.

* **Admission.** Whoever arrives while `maxSessions` sessions are counted is turned away at once and
  takes no client id.
* **Sessions.** A session is counted from its admission on.  It is announced to the exchange, hands
  on the messages it reads, and ends when the client ends its side, when something comes that is no
  message, or when the broker shuts down; then the exchange is told that the client left, and last
  the session is counted out.
* **Order.** These things happen one after the other, but the steps of different sessions may come
  in any order. -/

namespace Switchboard

/-- How far a session has come. -/
inductive Session where
  /-- It is counted but not yet announced. -/
  | admitted
  | reading (r : Reader)
  /-- The exchange knows that the client left, but the session is still counted. -/
  | ending
deriving DecidableEq, Repr

/-- The sessions of a broker. -/
structure Reception where
  /-- Whether newcomers are let in at all. -/
  listening : Bool := true
  sessions : Keyed ClientId Session := ∅
  /-- The number of sessions that count against the limit. -/
  active : Nat := 0
  /-- The id given out last. -/
  last : ClientId := 0
deriving Inhabited

namespace Reception

/-- What may happen at the reception. -/
inductive Input where
  | arrive
  /-- A session that was admitted starts. -/
  | announce (client : ClientId)
  | bytes (client : ClientId) (s : Bytes)
  /-- The client ends its side. -/
  | hangUp (client : ClientId)
  /-- The broker stops letting anybody in. -/
  | shutdown
  /-- A session notices that the broker shuts down. -/
  | dismiss (client : ClientId)
  /-- A session that has ended is counted out. -/
  | release (client : ClientId)
deriving DecidableEq, Repr

/-- Whether a newcomer is admitted. -/
def admits (r : Reception) : Bool := r.listening && r.active < maxSessions

/-- Ends a session that is reading. -/
def finish (r : Reception) (client : ClientId) : Reception × List ExchangeEvent :=
  ({ r with sessions := r.sessions.insert client .ending }, [.left client])

/-- What happens, and what the exchange hears of it. -/
def step (r : Reception) : Input → Reception × List ExchangeEvent
  | .arrive =>
    if r.admits then
      ({ r with
          sessions := r.sessions.insert (r.last + 1) .admitted
          active := r.active + 1
          last := r.last + 1 }, [])
    else (r, [])
  | .announce client =>
    match r.sessions.get? client with
    | some .admitted =>
      ({ r with sessions := r.sessions.insert client (.reading {}) }, [.connected client])
    | _ => (r, [])
  | .bytes client s =>
    match r.sessions.get? client with
    | some (.reading reader) =>
      let (reader, ms) := reader.feed s
      let heard := ms.map (.received client)
      if reader.broken then
        let (r, left) := r.finish client
        (r, heard ++ left)
      else ({ r with sessions := r.sessions.insert client (.reading reader) }, heard)
    | _ => (r, [])
  | .hangUp client =>
    match r.sessions.get? client with
    | some (.reading _) => r.finish client
    | _ => (r, [])
  | .shutdown => ({ r with listening := false }, [])
  | .dismiss client =>
    match r.sessions.get? client with
    | some (.reading _) => if r.listening then (r, []) else r.finish client
    | _ => (r, [])
  | .release client =>
    match r.sessions.get? client with
    | some .ending =>
      ({ r with sessions := r.sessions.erase client, active := r.active - 1 }, [])
    | _ => (r, [])

/-- Inputs in a row. -/
def run (r : Reception) : List Input → Reception × List ExchangeEvent
  | [] => (r, [])
  | i :: is =>
    let (r, es) := r.step i
    let (r, es') := r.run is
    (r, es ++ es')

/-- Whether a client's session is going on. -/
def serves (r : Reception) (client : ClientId) : Bool :=
  match r.sessions.get? client with
  | some (.reading _) => true
  | _ => false

/-- Whether what a client has sent so far ends inside a frame. -/
def insideFrame (r : Reception) (client : ClientId) : Bool :=
  match r.sessions.get? client with
  | some (.reading reader) => !reader.atBoundary
  | _ => false

end Reception

end Switchboard
