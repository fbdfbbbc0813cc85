import Switchboard.Participant.Station

/-! # What participants do

An `Operation` is something that a participant's callers and handlers can do, and a `Reply` is what
comes back at once.  Whatever an operation makes the link do happens later. -/

namespace Switchboard

/-- What a participant's callers and handlers can do. -/
inductive Operation (η : Type) where
  | register (name : String) (priority : UInt16) (handler : η)
  | call (function : String) (args : Json)
  | recv (context : String)
  | tryRecv (context : String)
  | wait (context : String)
  | waitFor {α : Type} (context : String) (decode : Json → Except String α)
  | cancel (context : String)
  | dropCall (context : String)
  | update (job : JobId) (v : Json)
  | finish (job : JobId) (o : Outcome)
  | nested (job : JobId) (function : String) (args : Json)
  | dropJob (job : JobId)
  | disconnect

/-- What comes back of an operation. -/
inductive Reply where
  | done (r : Except Failure Unit)
  /-- A registration or a call is under way, under this context. -/
  | started (r : Except Failure String)
  /-- A partial result was read, or `none` in place of the result. -/
  | update (a : Answer (Option Json))
  | outcome (a : Answer Outcome)
  | value {α : Type} (a : Answer α)

namespace Station

variable {η : Type}

/-- Replaces the state unless an operation failed. -/
def attempt (s : Station η) : Except Failure (Station η) → Station η × Except Failure Unit
  | .ok s => (s, .ok ())
  | .error e => (s, .error e)

/-- Uses a call; one that is not there is over. -/
def read {α : Type} (s : Station η) (context : String)
    (f : OutboundCall → Answer α × OutboundCall) : Station η × Answer α :=
  match s.onCall context f with
  | some (a, s) => (s, a)
  | none => (s, .ready (.error .done))

/-- Does an operation.  What it starts is named by the given context, which must be new. -/
def operate (s : Station η) (fresh : String) : Operation η → Station η × Reply
  | .register name priority handler =>
    (s.register fresh name priority handler, .started (.ok fresh))
  | .call function args =>
    (s.attempt (s.call fresh function args)).map id fun r => .started (r.map fun _ => fresh)
  | .recv context => (s.read context OutboundCall.recv).map id .update
  | .tryRecv context =>
    (s.read context fun c => c.tryRecv.map .ready id).map id .update
  | .wait context => (s.read context OutboundCall.wait).map id .outcome
  | .waitFor context decode => (s.read context (·.waitFor decode)).map id .value
  | .cancel context => (s.attempt (s.cancel context)).map id .done
  | .dropCall context => (s.dropCall context, .done (.ok ()))
  | .update job v => (s.attempt (s.update job v)).map id .done
  | .finish job o => (s.attempt (s.finish job o)).map id .done
  | .nested job function args =>
    (s.attempt (s.nested job fresh function args)).map id fun r => .started (r.map fun _ => fresh)
  | .dropJob job => (s.dropJob job, .done (.ok ()))
  | .disconnect => (s.disconnect, .done (.ok ()))

end Station

end Switchboard
