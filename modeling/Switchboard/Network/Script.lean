import Switchboard.Network.Basic
import Switchboard.Shape

/-! # Scripted handlers

A script says what a handler does with every call that it is started for: its actions run in order,
and after the last one the handler lets go of the call.  A `Task` is a handler at work.  It runs
without interruption until it has to wait, and it keeps a log of when it started and ended, of
cancellations, and of actions that failed. -/

namespace Switchboard

/-- Something that a scripted handler does. -/
inductive Action where
  | update (v : Json)
  | finish (o : Outcome)
  /-- Ends the call with its arguments. -/
  | echo
  /-- Ends the call with the sum of the arguments `a` and `b`. -/
  | add
  /-- Ends the call with its arguments, provided they have a shape. -/
  | parse (s : Shape)
  /-- Makes a call, with the arguments of the own one by default, and ends the own call as that one
  ends.  Its partial results may be passed on, and no note is made where that fails. -/
  | nested (name : String) (args : Option Json) (relay : Bool)
  /-- Makes a call and cancels it at once. -/
  | nestedCancel (name : String)
  /-- Makes a call and lets go of it at once. -/
  | nestedDrop (name : String)
  | awaitCancel
  /-- Waits for ever. -/
  | hang
  /-- Lets go of the call and does nothing more. -/
  | abort
  | nothing

/-- What a handler writes in the log. -/
inductive LogEntry where
  | started (args : Json) (depth : UInt32)
  | failed (f : Failure)
  | cancelled
  | ended

/-- What a task waits for. -/
inductive Waiting where
  | nothing
  /-- The next event of a call. -/
  | call (context : String) (relay : Bool)
  | cancellation
  | forever

/-- A handler at work. -/
structure Task where
  client : ClientId
  handler : String
  job : JobId
  args : Json
  /-- The actions that are still to come. -/
  script : List Action
  waiting : Waiting := .nothing

/-- A network whose handlers follow scripts. -/
structure Simulation where
  network : Network String := {}
  scripts : Keyed String (List Action) := ∅
  /-- The handlers at work, in the order in which they were started. -/
  tasks : List Task := []
  log : List (String × LogEntry) := []
deriving Inhabited

/-- An integer among the arguments of a call, or else zero. -/
def Action.summand (args : Json) (key : String) : Int64 :=
  match (args.get? key).bind Json.int? with
  | some n => if -0x8000000000000000 ≤ n ∧ n < 0x8000000000000000 then .ofInt n else 0
  | none => 0

/-- The sum of the arguments `a` and `b`. -/
def Action.sum (args : Json) : Json :=
  .obj [("sum", .num (.ofInt64 (summand args "a" + summand args "b")))]

namespace Simulation

/-- The station of a client. -/
def station? (sim : Simulation) (client : ClientId) : Option (Station String) :=
  (sim.network.ports.get? client).map (·.station)

/-- Makes an entry in the log. -/
def note (sim : Simulation) (t : Task) (e : LogEntry) : Simulation :=
  { sim with log := sim.log ++ [(t.handler, e)] }

/-- The task of a handler that has been started. -/
def task? (sim : Simulation) (client : ClientId) : Effect String → Option (Task × LogEntry)
  | .started job handler c =>
    some (⟨client, handler, job, c.args, (sim.scripts.get? handler).getD [], .nothing⟩,
      .started c.args c.depth)
  | _ => none

/-- Lets an event of a client's port happen, with the handlers that it starts. -/
def happen (sim : Simulation) (client : ClientId) (e : NetworkEvent String) :
    Simulation × Happening String :=
  let (network, h) := sim.network.step e
  let started := h.effects.filterMap (sim.task? client)
  ({ sim with
      network
      tasks := sim.tasks ++ started.map (·.1)
      log := sim.log ++ started.map fun (t, e) => (t.handler, e) }, h)

/-- A caller or a handler of a client does something. -/
def act (sim : Simulation) (client : ClientId) (o : Operation String) : Simulation × Reply :=
  let (sim, h) := sim.happen client (.act client o)
  (sim, h.reply.getD (.done (.error .disconnected)))

/-- A task does something, and makes a note if that fails. -/
def attempt (sim : Simulation) (t : Task) (o : Operation String) : Simulation :=
  match sim.act t.client o with
  | (sim, .done (.error e)) | (sim, .started (.error e)) => sim.note t (.failed e)
  | (sim, _) => sim

/-- A task ends its call. -/
def finish (sim : Simulation) (t : Task) (o : Outcome) : Simulation :=
  sim.attempt t (.finish t.job o)

/-- How a call ends whose handler could not make a call of its own. -/
def unmade : Failure → Outcome
  | .callTooDeep depth max => .value (.obj
    [("exceeded", .num (.ofUInt64 depth.toUInt64)), ("max", .num (.ofUInt64 max.toUInt64))])
  | e => .fault ⟨.io, .str e.message⟩

/-- A task does its next action.  Returns the task as it goes on. -/
def perform (sim : Simulation) (t : Task) : Action → Simulation × Option Task
  | .update v => (sim.attempt t (.update t.job v), t)
  | .finish o => (sim.finish t o, t)
  | .echo => (sim.finish t (.value t.args), t)
  | .add => (sim.finish t (.value (Action.sum t.args)), t)
  | .parse s =>
    (sim.finish t (match s.read t.args with
      | .ok v => .value v
      | .error m => .fault m.toFault), t)
  | .nested name args relay =>
    match sim.act t.client (.nested t.job name (args.getD t.args)) with
    | (sim, .started (.ok context)) => (sim, some { t with waiting := .call context relay })
    | (sim, .started (.error e)) => (sim.finish t (unmade e), t)
    | (sim, _) => (sim, t)
  | .nestedCancel name =>
    match sim.act t.client (.nested t.job name t.args) with
    | (sim, .started (.ok context)) =>
      ((sim.attempt t (.cancel context)).attempt t (.dropCall context), t)
    | (sim, .started (.error e)) => (sim.note t (.failed e), t)
    | (sim, _) => (sim, t)
  | .nestedDrop name =>
    match sim.act t.client (.nested t.job name t.args) with
    | (sim, .started (.ok context)) => (sim.attempt t (.dropCall context), t)
    | (sim, .started (.error e)) => (sim.note t (.failed e), t)
    | (sim, _) => (sim, t)
  | .awaitCancel => (sim, some { t with waiting := .cancellation })
  | .hang => (sim, some { t with waiting := .forever })
  | .abort => (sim.attempt t (.dropJob t.job), none)
  | .nothing => (sim, t)

/-- Ends a task's call as the call that it waited for ended. -/
def conclude (sim : Simulation) (t : Task) (context : String) : Simulation :=
  match sim.act t.client (.wait context) with
  | (sim, .outcome (.ready r)) =>
    let o := match r with
      | .ok o => o
      | .error e => unmade e
    (sim.finish t o).attempt t (.dropCall context)
  | (sim, _) => sim

/-- A task that need not wait goes on a little.  Returns the task as it goes on further. -/
def advance (sim : Simulation) (t : Task) : Simulation × Option Task :=
  match t.waiting with
  | .nothing =>
    match t.script with
    | [] => ((sim.note t .ended).attempt t (.dropJob t.job), none)
    | a :: script => sim.perform { t with script } a
  | .call context relay =>
    match sim.act t.client (.recv context) with
    | (sim, .update (.ready (.ok (some v)))) =>
      (if relay then (sim.act t.client (.update t.job v)).1 else sim, t)
    | (sim, .update .blocked) => (sim, t)
    | (sim, _) => (sim.conclude t context, some { t with waiting := .nothing })
  | .cancellation => (sim.note t .cancelled, some { t with waiting := .nothing })
  | .forever => (sim, t)

/-- Whether a task need not wait. -/
def ready (sim : Simulation) (t : Task) : Bool :=
  match t.waiting, sim.station? t.client with
  | .nothing, _ => true
  | .call context _, some s =>
    (s.calls.get? context).any fun c => !(c.recv.1 matches .blocked)
  | .cancellation, some s => (s.job? t.job).any (·.cancelled)
  | _, _ => false

/-! ### Scheduling -/

/-- The first task that need not wait goes on a little. -/
def turn? (sim : Simulation) : Option Simulation := do
  let n ← sim.tasks.findIdx? sim.ready
  let t ← sim.tasks[n]?
  let (sim, rest) := sim.advance t
  some { sim with
    tasks := match rest with
      | some t => sim.tasks.set n t
      | none => sim.tasks.eraseIdx n }

/-- The next event of a kind that can happen at some port. -/
def pending? (sim : Simulation) (p : Exchange → ClientId → Port String → Bool)
    (e : ClientId → NetworkEvent String) : Option Simulation := do
  let (client, _) ← sim.network.ports.entries.find? fun (client, port) =>
    p sim.network.exchange client port
  some (sim.happen client (e client)).1

/-- What happens next, if anything does: tasks go first, then links obey, then the exchange notices
lines that died and receives what was written, and last links hear what was sent. -/
def next? (sim : Simulation) : Option Simulation :=
  sim.turn?
    <|> sim.pending? (fun _ _ p => !p.station.queue.isEmpty) .obey
    <|> sim.pending? (fun x client p => !p.writes && x.lines.get? client = some .live) .mute
    <|> sim.pending? (fun _ _ p => !p.uplink.isEmpty || p.exhausted && !p.left) (.route ·)
    <|> sim.pending? (fun _ _ p => !p.downlink.isEmpty || !p.writes && p.station.link.up) .hear

/-- Lets everything happen that can, up to a number of events. -/
def settle : Nat → Simulation → Simulation
  | 0, sim => sim
  | limit + 1, sim =>
    match sim.next? with
    | some sim => settle limit sim
    | none => sim

/-- A participant joins. -/
def join (sim : Simulation) : Simulation := (sim.happen 0 .join).1

/-- The broker ends all sessions, and nothing that is on the way arrives any more. -/
def shutdown (sim : Simulation) : Simulation :=
  sim.network.ports.keys.foldl (fun sim client => (sim.happen client (.close client 0 0)).1) sim

end Simulation

end Switchboard
