import Switchboard.Directory
import Switchboard.Message

/-! # The exchange

The exchange is the middle of the switchboard.  It knows which clients are connected, which handlers
they have registered and which calls are being served, and every event of a client's session makes
it send messages to clients.

* **Lines.** A client's line takes what is sent to it until the client leaves.  A line may be dead
  before that; what is sent then is lost, and the exchange notices.
* **Calls.** A call goes to the first handler of its function, in the order of the directory, whose
  client can be reached.  When the handler declines it or its client leaves, the call goes on to the
  handlers after it, and when there are none left the caller is told so.
* **Departures.** The calls of a client that leaves are visited in an order that nobody promises, and
  so are those that it serves; `Visits` says in which.
* **Rights.** Updates and results of a call count only from the client that is serving it, and only
  the caller can withdraw it.
* **Notices.** What the exchange sends is recorded with its purpose, also where it did not reach
  the client (`Sent`). -/

namespace Switchboard

/-- Names a client of the broker. Clients are numbered without a bound, and so are entries
(`Rank.seq`); only the id of a handler, which travels in messages, has 64 bits. -/
abbrev ClientId := Nat

/-- A handler of some client. -/
structure Route where
  client : ClientId
  handler : HandlerId
deriving DecidableEq, Repr, Inhabited

/-- A call that is being served. -/
structure Running where
  caller : ClientId
  /-- Who serves it, with the place of the handler in the directory. -/
  callee : Entry Route
  call : Call
deriving DecidableEq, Repr, Inhabited

/-- Whether a client's outgoing messages still go anywhere. -/
inductive Line where
  | live
  | dead
deriving DecidableEq, Repr, Inhabited

/-- Why a message is sent. -/
inductive Notice where
  /-- A registration is acknowledged. -/
  | registered (context : String)
  /-- A call has ended. -/
  | answered (context : String) (o : Outcome)
  /-- A call is handed to the handler at a place of the directory. -/
  | offered (rank : Rank) (c : Call)
  /-- A partial result is passed on. -/
  | updated (context : String) (v : Json)
  /-- A call is withdrawn from its handler. -/
  | withdrawn (context : String)
deriving DecidableEq, Repr

/-- The message that carries a notice. -/
def Notice.message : Notice → Message
  | registered context => .result context (.value .null)
  | answered context o => .result context o
  | offered _ c => .call c
  | updated context v => .update context v
  | withdrawn context => .cancel context

/-- Something that was addressed to a client. -/
structure Sent where
  client : ClientId
  notice : Notice
  delivered : Bool
deriving DecidableEq, Repr

/-- What happens to a client's session. -/
inductive ExchangeEvent where
  /-- The client is there, with a new line. -/
  | connected (client : ClientId)
  | received (client : ClientId) (m : Message)
  /-- The client's line has died. -/
  | muted (client : ClientId)
  | left (client : ClientId)
deriving DecidableEq, Repr

/-- The orders in which the departure of a client visits the calls that it made and those that it
served.  Nothing is promised about them. -/
structure Visits where
  made : List String := []
  served : List String := []
deriving DecidableEq, Repr, Inhabited

/-- What the exchange knows. -/
structure Exchange where
  lines : Keyed ClientId Line := ∅
  directory : Directory Route := {}
  /-- The calls that are being served, by context. -/
  running : Keyed String Running := ∅
deriving Inhabited, DecidableEq

namespace Exchange

/-- Addresses a client. -/
def send (x : Exchange) (client : ClientId) (n : Notice) : Sent :=
  ⟨client, n, x.lines.get? client = some .live⟩

/-- Offers a call to handlers in turn until one can be reached, and returns that one. -/
def offer (x : Exchange) (c : Call) : List (Entry Route) → List Sent × Option (Entry Route)
  | [] => ([], none)
  | e :: es =>
    let sent := x.send e.value.client (.offered e.rank { c with handler := e.value.handler })
    if sent.delivered then ([sent], some e)
    else
      let (sents, taken) := x.offer c es
      (sent :: sents, taken)

/-- A handler is registered. -/
def register (x : Exchange) (client : ClientId) (context function : String) (priority : UInt16)
    (handler : HandlerId) : Exchange × List Sent :=
  ({ x with directory := x.directory.insert function priority ⟨client, handler⟩ },
    [x.send client (.registered context)])

/-- A call is made.  Its context must not be that of a call that is being served. -/
def call (x : Exchange) (caller : ClientId) (c : Call) : Exchange × List Sent :=
  if x.running.contains c.context then
    (x, [x.send caller (.answered c.context
      (.fault ⟨.invalidArgs, .obj [("context", .str c.context)]⟩))])
  else
    match x.directory.entries c.function with
    | [] =>
      (x, [x.send caller (.answered c.context
        (.fault ⟨.unknownRpc, .obj [("function", .str c.function)]⟩))])
    | es =>
      match x.offer c es with
      | (sents, some e) =>
        ({ x with
            running := x.running.insert c.context
              ⟨caller, e, { c with handler := e.value.handler }⟩ }, sents)
      | (sents, none) => (x, sents ++ [x.send caller (.answered c.context .declined)])

/-- A call goes on to the handlers after the present one. -/
def reroute (x : Exchange) (context : String) : Exchange × List Sent :=
  match x.running.get? context with
  | none => (x, [])
  | some r =>
    match x.offer r.call (x.directory.after r.call.function r.callee.rank) with
    | (sents, some e) =>
      ({ x with
          running := x.running.modify context fun r =>
            { r with callee := e, call := { r.call with handler := e.value.handler } } }, sents)
    | (sents, none) =>
      ({ x with running := x.running.erase context },
        sents ++ [x.send r.caller (.answered context .declined)])

/-- A partial result of a call, which counts from its callee only. -/
def update (x : Exchange) (client : ClientId) (context : String) (v : Json) :
    Exchange × List Sent :=
  match x.running.get? context with
  | some r =>
    if r.callee.value.client = client then (x, [x.send r.caller (.updated context v)]) else (x, [])
  | none => (x, [])

/-- The result of a call, which counts from its callee only. -/
def result (x : Exchange) (client : ClientId) (context : String) (o : Outcome) :
    Exchange × List Sent :=
  match x.running.get? context with
  | some r =>
    if r.callee.value.client = client then
      if o.isDeclined then x.reroute context
      else
        ({ x with running := x.running.erase context }, [x.send r.caller (.answered context o)])
    else (x, [])
  | none => (x, [])

/-- A call ends without an answer, and its handler is told so. -/
def withdraw (x : Exchange) (context : String) : Exchange × List Sent :=
  match x.running.get? context with
  | some r =>
    ({ x with running := x.running.erase context },
      [x.send r.callee.value.client (.withdrawn context)])
  | none => (x, [])

/-- A call is withdrawn, which counts from its caller only. -/
def cancel (x : Exchange) (client : ClientId) (context : String) : Exchange × List Sent :=
  match x.running.get? context with
  | some r => if r.caller = client then x.withdraw context else (x, [])
  | none => (x, [])

/-- Does the same to several calls, one after the other. -/
def forEach (f : Exchange → String → Exchange × List Sent) (x : Exchange) :
    List String → Exchange × List Sent
  | [] => (x, [])
  | c :: cs =>
    let (x, sents) := f x c
    let (x, sents') := forEach f x cs
    (x, sents ++ sents')

/-- The calls being served that pass a test. -/
def contexts (x : Exchange) (p : Running → Bool) : List String :=
  (x.running.filter fun _ r => p r).keys

/-- A client is gone, with its line and its handlers. -/
def forget (x : Exchange) (client : ClientId) : Exchange :=
  { x with
    lines := x.lines.erase client
    directory := x.directory.retain fun _ r => r.client ≠ client }

/-- A client leaves: the calls that it made are withdrawn, and those that it served go on to other
handlers, in the given orders. -/
def leaveInOrder (x : Exchange) (client : ClientId) (made served : List String) :
    Exchange × List Sent :=
  let (x, sents) := forEach withdraw (x.forget client) made
  let (x, sents') := forEach reroute x served
  (x, sents ++ sents')

/-- The calls that a client made. -/
def madeBy (x : Exchange) (client : ClientId) : List String := x.contexts (·.caller = client)

/-- The calls that a client serves for others. -/
def servedBy (x : Exchange) (client : ClientId) : List String :=
  x.contexts fun r => r.caller ≠ client && r.callee.value.client = client

/-- A client leaves. -/
def leave (x : Exchange) (client : ClientId) : Exchange × List Sent :=
  x.leaveInOrder client (x.madeBy client) (x.servedBy client)

/-- The wanted order of some calls.  What is no order of them stands for the order that they are in. -/
def arrange (wanted cs : List String) : List String := if wanted.Perm cs then wanted else cs

/-- A client leaves, and its calls are visited in the wanted orders. -/
def leaveIn (x : Exchange) (v : Visits) (client : ClientId) : Exchange × List Sent :=
  x.leaveInOrder client (arrange v.made (x.madeBy client)) (arrange v.served (x.servedBy client))

/-- A message of a client. -/
def receive (x : Exchange) (client : ClientId) : Message → Exchange × List Sent
  | .register context function priority handler =>
    x.register client context function priority handler
  | .call c => x.call client c
  | .update context v => x.update client context v
  | .result context o => x.result client context o
  | .cancel context => x.cancel client context

/-- An event of a client's session. -/
def step (x : Exchange) : ExchangeEvent → Exchange × List Sent
  | .connected client => ({ x with lines := x.lines.insert client .live }, [])
  | .received client m => x.receive client m
  | .muted client => ({ x with lines := x.lines.modify client fun _ => .dead }, [])
  | .left client => x.leave client

/-- An event of a client's session, in which a departure visits the calls in the wanted orders. -/
def stepIn (x : Exchange) (v : Visits) : ExchangeEvent → Exchange × List Sent
  | .left client => x.leaveIn v client
  | e => x.step e

/-- Events in a row. -/
def run (x : Exchange) : List ExchangeEvent → Exchange × List Sent
  | [] => (x, [])
  | e :: es =>
    let (x, sents) := x.step e
    let (x, sents') := x.run es
    (x, sents ++ sents')

end Exchange

end Switchboard
