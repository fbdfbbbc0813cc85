import Switchboard.Failure

/-! # Messages

Participants and the broker exchange five kinds of messages, each about one call or registration,
which it names by its context.

* **Form.** A message is a JSON object: `type` first, then the fields of its kind in the order of
  `Kind.fields`.  A call's `handler` is left out while the broker has not chosen one.
* **Reading.** `Message.ofJson?` accepts the members in any order and ignores those that the kind
  does not have, repeated or not; a repeated field of the kind is an error.  An array stands for an
  object with the type and the fields in order; at the end those with a default may be missing. -/

namespace Switchboard

/-- Names a handler among those of its participant. -/
abbrev HandlerId := UInt64

/-- A call on its way to a handler. -/
structure Call where
  context : String
  function : String
  args : Json := .null
  /-- Zero for a call made on its own, one more than its parent's for one made while serving. -/
  depth : UInt32 := 0
  /-- The callee's handler, once the broker has chosen it. -/
  handler : Option HandlerId := none
deriving DecidableEq, Repr, Inhabited

/-- What participants and the broker tell each other. -/
inductive Message where
  | call (c : Call)
  /-- A partial result. -/
  | update (context : String) (v : Json)
  /-- The end of a call, or the answer to a registration. -/
  | result (context : String) (o : Outcome)
  | register (context function : String) (priority : UInt16) (handler : HandlerId)
  /-- The caller does not want the call any more. -/
  | cancel (context : String)
deriving DecidableEq, Repr, Inhabited

namespace Message

/-- The kind of a message. -/
inductive Kind where
  | call
  | update
  | result
  | register
  | cancel
deriving DecidableEq, Repr

namespace Kind

/-- The name of a kind. -/
def name : Kind → String
  | call => "call"
  | update => "update"
  | result => "result"
  | register => "register"
  | cancel => "cancel"

/-- The kind of a name. -/
def ofName? (s : String) : Option Kind :=
  [call, update, result, register, cancel].find? (·.name = s)

/-- The fields of a kind, in order. -/
def fields : Kind → List String
  | call => ["context", "function", "args", "depth", "handler"]
  | update => ["context", "value"]
  | result => ["context", "result"]
  | register => ["context", "function", "priority", "handler"]
  | cancel => ["context"]

end Kind

/-- The kind of a message. -/
def kind : Message → Kind
  | call _ => .call
  | update .. => .update
  | result .. => .result
  | register .. => .register
  | cancel _ => .cancel

/-- The call or registration that a message is about. -/
def context : Message → String
  | call c => c.context
  | update context _ | result context _ | register context .. | cancel context => context

/-! ### Writing -/

/-- The fields of a message with their names, in order. -/
def members : Message → List (String × Json)
  | call c =>
    [("context", .str c.context), ("function", .str c.function), ("args", c.args),
      ("depth", .num (.ofUInt32 c.depth))] ++
    (c.handler.map fun h => ("handler", .num (.ofUInt64 h))).toList
  | update context v => [("context", .str context), ("value", v)]
  | result context o => [("context", .str context), ("result", o.toJson)]
  | register context function priority handler =>
    [("context", .str context), ("function", .str function),
      ("priority", .num (.ofUInt16 priority)), ("handler", .num (.ofUInt64 handler))]
  | cancel context => [("context", .str context)]

/-- A message as a JSON object. -/
def toJson (m : Message) : Json := .obj (("type", .str m.kind.name) :: m.members)

/-! ### Reading -/

/-- A text field. -/
def text? (key : String) (members : List (String × Json)) : Option String := do
  (← Json.required? key members).str?

/-- A free-form field, null by default. -/
def free? (key : String) (members : List (String × Json)) : Option Json := do
  some ((← Json.field? key members).getD .null).canonical

/-- A field that is a word of the given number of values. -/
def word? (bound : Nat) (key : String) (members : List (String × Json)) : Option Nat := do
  (← Json.required? key members).below? bound

/-- The depth of a call, zero by default. -/
def depth? (members : List (String × Json)) : Option UInt32 := do
  match ← Json.field? "depth" members with
  | none => some 0
  | some v => (v.below? 0x100000000).map UInt32.ofNat

/-- The handler of a call, absent or null while there is none. -/
def handler? (members : List (String × Json)) : Option (Option HandlerId) := do
  match ← Json.field? "handler" members with
  | none | some .null => some none
  | some v => (v.below? 0x10000000000000000).map fun n => some (UInt64.ofNat n)

/-- The message of a kind that has these members. -/
def ofMembers? (members : List (String × Json)) : Kind → Option Message
  | .call => do
    some (.call {
      context := ← text? "context" members
      function := ← text? "function" members
      args := ← free? "args" members
      depth := ← depth? members
      handler := ← handler? members })
  | .update => do some (.update (← text? "context" members) (← free? "value" members))
  | .result => do
    some (.result (← text? "context" members)
      (← Outcome.ofJson? (← Json.required? "result" members)))
  | .register => do
    some (.register (← text? "context" members) (← text? "function" members)
      (.ofNat (← word? 0x10000 "priority" members))
      (.ofNat (← word? 0x10000000000000000 "handler" members)))
  | .cancel => do some (.cancel (← text? "context" members))

/-- The message that a JSON value stands for. -/
def ofJson? : Json → Option Message
  | .obj members => do
    ofMembers? members (← Kind.ofName? (← text? "type" members))
  | .arr (.str name :: elems) => do
    let kind ← Kind.ofName? name
    ofMembers? (← (Json.arr elems).record? kind.fields) kind
  | _ => none

end Message

end Switchboard
