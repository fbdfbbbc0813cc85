import Switchboard.Frame
import Switchboard.Participant.InboundCall
import Switchboard.Participant.OutboundCall
import Switchboard.Roster

/-! # A participant's link to the broker

The link owns what a participant's session is about: calls and registrations that wait for an
answer, calls that are being served, and the handlers.

* **Events.** It obeys the participant's commands and hears the broker's messages, one at a time
  (`LinkEvent`), and says what comes of each (`Effect`).
* **Loss.** The link is lost when the participant shuts it down, when the broker's stream ends or
  cannot be read, and when something cannot be written.  Then registrations that wait fail, calls
  that wait are detached, handlers are interrupted, and the roster is emptied.  Nothing comes of
  events after that. -/

namespace Switchboard

/-- What a participant asks of its link. -/
inductive Command (η : Type) where
  | register (context name : String) (priority : UInt16) (handler : η)
  | call (c : Call)
  | cancel (context : String)
  | update (context : String) (v : Json)
  | finish (context : String) (o : Outcome)
  | shutdown
deriving DecidableEq, Repr

/-- What may happen to a link. -/
inductive LinkEvent (η : Type) where
  | commanded (c : Command η)
  | heard (m : Message)
  /-- The broker does not take any more what is written. -/
  | deafened
  /-- The broker's stream ends, or cannot be read any further. -/
  | ended
deriving DecidableEq, Repr

/-- What waits for an answer of the broker. -/
inductive Pending where
  | call
  /-- A registration of the handler that was given this id. -/
  | registration (id : HandlerId)
deriving DecidableEq, Repr

/-- Names a handler's work on one call among all that the participant has done. -/
abbrev JobId := Nat

/-- What comes of a command or a message. -/
inductive Effect (η : Type) where
  | wrote (m : Message)
  /-- Something arrived for a call. -/
  | delivered (context : String) (e : CallEvent)
  /-- Nothing will arrive for a call any more. -/
  | detached (context : String)
  /-- A registration has been answered. -/
  | registered (context : String) (answer : Except Failure Unit)
  /-- A handler is started. -/
  | started (job : JobId) (handler : η) (c : Call)
  /-- A handler is told that its call does not count any more. -/
  | interrupted (job : JobId)

/-- A participant's side of its session. -/
structure Link (η : Type) where
  /-- Whether the session is going on. -/
  up : Bool := true
  /-- Whether the broker still takes what is written. -/
  writable : Bool := true
  pending : Keyed String Pending := ∅
  /-- The calls that are being served, with the job of each. -/
  running : Keyed String JobId := ∅
  roster : Roster η := {}
  /-- The number of jobs begun so far. -/
  jobs : Nat := 0
deriving Inhabited

namespace Link

variable {η : Type}

/-- What becomes of something that waits when the link is lost. -/
def abandoned : String × Pending → Effect η
  | (context, .call) => .detached context
  | (context, .registration _) => .registered context (.error .disconnected)

/-- The link is lost. -/
def teardown (l : Link η) : Link η × List (Effect η) :=
  ({ l with up := false, pending := ∅, running := ∅, roster := l.roster.clear },
    l.pending.entries.map abandoned ++ l.running.values.map .interrupted)

/-- Writes a message.  The link is lost if that cannot be done. -/
def write (l : Link η) (m : Message) : Link η × List (Effect η) :=
  if l.writable && m.encode matches .ok _ then (l, [.wrote m]) else l.teardown

/-- Obeys a command. -/
def obey [DecidableEq η] (l : Link η) : Command η → Link η × List (Effect η)
  | .register context name priority handler =>
    match l.roster.register name priority handler with
    | .error e => (l, [.registered context (.error e)])
    | .ok (id, roster) =>
      write { l with roster, pending := l.pending.insert context (.registration id) }
        (.register context name priority id)
  | .call c => write { l with pending := l.pending.insert c.context .call } (.call c)
  | .cancel context =>
    if l.pending.contains context then
      write { l with pending := l.pending.erase context } (.cancel context)
    else (l, [])
  | .update context v =>
    if l.running.contains context then l.write (.update context v) else (l, [])
  | .finish context o =>
    if l.running.contains context then
      write { l with running := l.running.erase context } (.result context o)
    else (l, [])
  | .shutdown => l.teardown

/-- Starts the handler that the broker has chosen, or declines the call if it is not there. -/
def dispatch (l : Link η) (c : Call) : Link η × List (Effect η) :=
  match c.handler.bind l.roster.get? with
  | none => l.write (.result c.context .declined)
  | some handler =>
    if l.running.contains c.context then (l, [])
    else
      ({ l with running := l.running.insert c.context l.jobs, jobs := l.jobs + 1 },
        [.started l.jobs handler c])

/-- The answer to something that waits. -/
def answer (l : Link η) (context : String) (o : Outcome) : Link η × List (Effect η) :=
  let l' := { l with pending := l.pending.erase context }
  match l.pending.get? context with
  | some .call => (l', [.delivered context (.finished o)])
  | some (.registration id) =>
    if o.isValue then (l', [.registered context (.ok ())])
    else
      ({ l' with roster := l.roster.remove id },
        [.registered context (.error (.io (.rejected o)))])
  | none => (l, [])

/-- Hears a message of the broker. -/
def hear (l : Link η) : Message → Link η × List (Effect η)
  | .call c => l.dispatch c
  | .update context v =>
    match l.pending.get? context with
    | some .call => (l, [.delivered context (.update v)])
    | _ => (l, [])
  | .result context o => l.answer context o
  | .cancel context =>
    match l.running.get? context with
    | some job => ({ l with running := l.running.erase context }, [.interrupted job])
    | none => (l, [])
  | .register .. => (l, [])

/-- An event. -/
def step [DecidableEq η] (l : Link η) (e : LinkEvent η) : Link η × List (Effect η) :=
  if l.up then
    match e with
    | .commanded c => l.obey c
    | .heard m => l.hear m
    | .deafened => ({ l with writable := false }, [])
    | .ended => l.teardown
  else (l, [])

/-- Events in a row. -/
def run [DecidableEq η] (l : Link η) : List (LinkEvent η) → Link η × List (Effect η)
  | [] => (l, [])
  | e :: es =>
    let (l, fs) := l.step e
    let (l, fs') := l.run es
    (l, fs ++ fs')

end Link

end Switchboard
