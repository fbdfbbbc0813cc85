import Switchboard.Limits
import Switchboard.Message

/-! # A call as its handler sees it

A handler is given an `InboundCall`, streams partial results and ends the call once.  A handler that
lets go of the call without having ended it declines it, so that the next handler is tried. -/

namespace Switchboard

/-- A call as its handler sees it. -/
structure InboundCall where
  context : String
  args : Json
  depth : UInt32
  /-- Whether the handler has ended the call. -/
  finished : Bool := false
  /-- Whether the caller has withdrawn the call or the link is lost. -/
  cancelled : Bool := false
deriving DecidableEq, Repr

namespace InboundCall

/-- The call that a handler is started for. -/
def ofCall (c : Call) : InboundCall := { context := c.context, args := c.args, depth := c.depth }

/-- Whether a partial result may be streamed. -/
def update (c : InboundCall) : Except Failure Unit :=
  if c.finished then .error .done else .ok ()

/-- Ends the call. -/
def finish (c : InboundCall) : Except Failure InboundCall :=
  if c.finished then .error .done else .ok { c with finished := true }

/-- The caller has withdrawn the call, or the link is lost. -/
def interrupt (c : InboundCall) : InboundCall := { c with cancelled := true }

/-- The depth of a call made while serving this one. -/
def nestedDepth (c : InboundCall) : Except Failure UInt32 :=
  let depth := c.depth + 1
  if maxCallDepth < depth then .error (.callTooDeep depth maxCallDepth) else .ok depth

end InboundCall

end Switchboard
