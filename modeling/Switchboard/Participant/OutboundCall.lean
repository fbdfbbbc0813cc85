import Switchboard.Failure

/-! # A call as its caller sees it

A caller holds an `OutboundCall`.  Partial results queue up in it in the order in which the handler
made them, and the result comes last.  The call is pending until the caller has read the result or
has cancelled the call; then its result is noted, and neither changes any more.

An operation that would have to wait answers `Answer.blocked`.  When the link to the broker is lost,
what has arrived can still be read, and after that every further reading fails. -/

namespace Switchboard

/-- What an operation that may have to wait comes to. -/
inductive Answer (α : Type) where
  | ready (a : Except Failure α)
  | blocked

/-- Something that arrives for a call. -/
inductive CallEvent where
  | update (v : Json)
  | finished (o : Outcome)
deriving DecidableEq, Repr

/-- How far a call has come for its caller. -/
inductive CallState where
  | pending
  | completed
  | cancelled
deriving DecidableEq, Repr

/-- A call as its caller sees it. -/
structure OutboundCall where
  context : String
  function : String
  args : Json
  state : CallState := .pending
  /-- The result that the caller has read or has brought about by cancelling the call. -/
  result : Option Outcome := none
  /-- What has arrived and has not been read yet, the oldest first. -/
  events : List CallEvent := []
  /-- Whether anything can still arrive. -/
  attached : Bool := true
  /-- Whether the caller has let go of the call. -/
  dropped : Bool := false
deriving DecidableEq, Repr

/-- The decoded value of a finished call. -/
def Outcome.decoded {α : Type} (decode : Json → Except String α) : Outcome → Except Failure α
  | .value v => (decode v).mapError .mismatch
  | .fault f => .error (.faulted f)
  | .declined => .error .declined

namespace OutboundCall

/-- Whether the caller has read the result or cancelled the call. -/
def isDone (c : OutboundCall) : Bool := c.state ≠ .pending

/-- Something arrives.  It is lost if the caller has cancelled the call or let go of it. -/
def push (c : OutboundCall) (e : CallEvent) : OutboundCall :=
  if c.dropped || c.state = .cancelled then c else { c with events := c.events ++ [e] }

/-- Nothing will arrive any more. -/
def detach (c : OutboundCall) : OutboundCall := { c with attached := false }

/-- The call after its result has been read. -/
def complete (c : OutboundCall) (o : Outcome) : OutboundCall :=
  { c with state := .completed, result := some o }

/-- The call after its caller has cancelled it. -/
def withdraw (c : OutboundCall) : OutboundCall :=
  { c with state := .cancelled, result := some (.fault ⟨.cancelled, .null⟩) }

/-- Takes note of an event: an update is handed out, the result completes the call. -/
def observe (c : OutboundCall) : CallEvent → Option Json × OutboundCall
  | .update v => (some v, c)
  | .finished o => (none, c.complete o)

/-- Reads the next partial result; `none` when the result has come instead. -/
def recv (c : OutboundCall) : Answer (Option Json) × OutboundCall :=
  if c.isDone then (.ready (.error .done), c)
  else
    match c.events with
    | e :: es =>
      let (v, c) := { c with events := es }.observe e
      (.ready (.ok v), c)
    | [] => (if c.attached then .blocked else .ready (.error .disconnected), c)

/-- Reads the next partial result if it is there. -/
def tryRecv (c : OutboundCall) : Except Failure (Option Json) × OutboundCall :=
  if c.isDone then (.ok none, c)
  else
    match c.recv with
    | (.ready a, c) => (a, c)
    | (.blocked, c) => (.ok none, c)

/-- What is left of a queue of events after the updates at its start. -/
def skipUpdates : List CallEvent → List CallEvent
  | .update _ :: es => skipUpdates es
  | es => es

/-- Reads the result, passing over the partial results before it. -/
def wait (c : OutboundCall) : Answer Outcome × OutboundCall :=
  match c.result with
  | some o => (.ready (.ok o), c)
  | none =>
    if c.isDone then (.ready (.error .done), c)
    else
      match skipUpdates c.events with
      | .finished o :: es => (.ready (.ok o), { c.complete o with events := es })
      | es =>
        (if c.attached then .blocked else .ready (.error .disconnected), { c with events := es })

/-- Reads the result and decodes its value. -/
def waitFor {α : Type} (c : OutboundCall) (decode : Json → Except String α) :
    Answer α × OutboundCall :=
  match c.wait with
  | (.ready a, c) => (.ready (a >>= Outcome.decoded decode), c)
  | (.blocked, c) => (.blocked, c)

/-- Cancels a pending call. -/
def cancel (c : OutboundCall) : Except Failure OutboundCall :=
  if c.isDone then .error .done else .ok c.withdraw

/-- Lets go of the call.  A pending call has to be cancelled then. -/
def drop (c : OutboundCall) : OutboundCall := { c with dropped := true }

end OutboundCall

end Switchboard
