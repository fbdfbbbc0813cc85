import Switchboard.Participant.Link

/-! # Participants

A station is a participant with all it holds: its link, the commands that the link has not obeyed
yet, the calls it has made, the jobs of its handlers, and the registrations it has asked for.

Operations of callers and handlers change what they hold and leave commands in the queue; only
`obey`, `hear` and `hangUp` touch the link.  Once the link is lost there is no queue any more, and
what would have to be commanded fails or is forgotten. -/

namespace Switchboard

/-- A participant. -/
structure Station (η : Type) where
  link : Link η := {}
  /-- Commands that the link has not obeyed yet, the oldest first. -/
  queue : List (Command η) := []
  /-- The calls that were made, by context. -/
  calls : Keyed String OutboundCall := ∅
  /-- The calls that handlers were started for, by job. -/
  jobs : List InboundCall := []
  /-- The registrations that were asked for, by context, with their answers. -/
  registrations : Keyed String (Option (Except Failure Unit)) := ∅
deriving Inhabited

namespace Station

variable {η : Type}

/-- Whether the session is going on. -/
def isConnected (s : Station η) : Bool := s.link.up

/-- Leaves a command for the link. -/
def submit (s : Station η) (c : Command η) : Except Failure (Station η) :=
  if s.link.up then .ok { s with queue := s.queue ++ [c] } else .error .disconnected

/-- Leaves a command for the link, unless the link is lost. -/
def offer (s : Station η) (c : Command η) : Station η :=
  match s.submit c with
  | .ok s => s
  | .error _ => s

/-! ### What comes of commands and messages -/

/-- Takes note of an effect. -/
def note (s : Station η) : Effect η → Station η
  | .wrote _ => s
  | .delivered context e => { s with calls := s.calls.modify context (·.push e) }
  | .detached context => { s with calls := s.calls.modify context (·.detach) }
  | .registered context a =>
    { s with registrations := s.registrations.modify context fun _ => some a }
  | .started _ _ c => { s with jobs := s.jobs ++ [.ofCall c] }
  | .interrupted job => { s with jobs := s.jobs.modify job (·.interrupt) }

/-- What becomes of a command that the link will not obey any more. -/
def forgotten : Command η → List (Effect η)
  | .register context .. => [.registered context (.error .disconnected)]
  | .call c => [.detached c.context]
  | _ => []

/-- Something happens to the link.  If the link is lost by that, so is the queue. -/
def happen [DecidableEq η] (s : Station η) (e : LinkEvent η) :
    Station η × List (Effect η) :=
  let (l, es) := s.link.step e
  let es := if l.up then es else es ++ s.queue.flatMap forgotten
  (es.foldl note { s with link := l, queue := if l.up then s.queue else [] }, es)

/-- The link obeys the oldest command. -/
def obey [DecidableEq η] (s : Station η) : Station η × List (Effect η) :=
  match s.queue with
  | [] => (s, [])
  | c :: cs => happen { s with queue := cs } (.commanded c)

/-- The link hears a message. -/
def hear [DecidableEq η] (s : Station η) (m : Message) : Station η × List (Effect η) :=
  s.happen (.heard m)

/-- The broker does not take any more what the link writes. -/
def deafen [DecidableEq η] (s : Station η) : Station η := (s.happen .deafened).1

/-- The broker's stream ends, or cannot be read any further. -/
def hangUp [DecidableEq η] (s : Station η) : Station η × List (Effect η) :=
  s.happen .ended

/-- The link obeys a number of commands, one after the other. -/
def obeyMany [DecidableEq η] : Nat → Station η → Station η × List (Effect η)
  | 0, s => (s, [])
  | n + 1, s =>
    let (s, es) := s.obey
    let (s, es') := obeyMany n s
    (s, es ++ es')

/-- The link obeys all commands. -/
def obeyAll [DecidableEq η] (s : Station η) : Station η × List (Effect η) :=
  s.obeyMany s.queue.length

/-! ### Operations -/

/-- Asks for a handler to be registered. -/
def register (s : Station η) (context name : String) (priority : UInt16) (handler : η) :
    Station η :=
  match s.submit (.register context name priority handler) with
  | .ok s => { s with registrations := s.registrations.insert context none }
  | .error e => { s with registrations := s.registrations.insert context (some (.error e)) }

/-- Makes a call at a depth. -/
def callAt (s : Station η) (context function : String) (args : Json) (depth : UInt32) :
    Except Failure (Station η) := do
  let s ← s.submit (.call { context, function, args, depth })
  .ok { s with calls := s.calls.insert context { context, function, args } }

/-- Makes a call. -/
def call (s : Station η) (context function : String) (args : Json) : Except Failure (Station η) :=
  s.callAt context function args 0

/-- Uses a call that was made. -/
def onCall {α : Type} (s : Station η) (context : String)
    (f : OutboundCall → α × OutboundCall) : Option (α × Station η) := do
  let (a, c) := f (← s.calls.get? context)
  some (a, { s with calls := s.calls.modify context fun _ => c })

/-- Cancels a call that was made. -/
def cancel (s : Station η) (context : String) : Except Failure (Station η) :=
  match s.calls.get? context with
  | none => .error .done
  | some c => do
    let c ← c.cancel
    .ok (offer { s with calls := s.calls.modify context fun _ => c } (.cancel context))

/-- Lets go of a call that was made; a pending call is withdrawn. -/
def dropCall (s : Station η) (context : String) : Station η :=
  match s.calls.get? context with
  | none => s
  | some c =>
    let s := { s with calls := s.calls.modify context (·.drop) }
    if c.isDone || c.dropped then s else s.offer (.cancel context)

/-- The call that a job is about. -/
def job? (s : Station η) (job : JobId) : Option InboundCall := s.jobs[job]?

/-- A handler streams a partial result. -/
def update (s : Station η) (job : JobId) (v : Json) : Except Failure (Station η) :=
  match s.job? job with
  | none => .error .done
  | some c => do
    c.update
    s.submit (.update c.context v)

/-- A handler ends its call.  If the link is lost the outcome is forgotten. -/
def finish (s : Station η) (job : JobId) (o : Outcome) : Except Failure (Station η) :=
  match s.job? job with
  | none => .error .done
  | some c => do
    let c' ← c.finish
    .ok (offer { s with jobs := s.jobs.set job c' } (.finish c.context o))

/-- A handler lets go of its call, and declines it unless it has ended it. -/
def dropJob (s : Station η) (job : JobId) : Station η :=
  match s.finish job .declined with
  | .ok s => s
  | .error _ => s

/-- A handler makes a call while serving one. -/
def nested (s : Station η) (job : JobId) (context function : String) (args : Json) :
    Except Failure (Station η) :=
  match s.job? job with
  | none => .error .done
  | some c => do s.callAt context function args (← c.nestedDepth)

/-- Ends the session. -/
def disconnect (s : Station η) : Station η := s.offer .shutdown

end Station

end Switchboard
