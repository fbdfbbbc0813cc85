import Switchboard.Json.Described
import Switchboard.Json.Text

/-! # How calls end

* **Outcome.** A call ends with a value, with a fault, or because nobody took it.
* **Fault.** A fault has a kind and free-form details.  Kinds are an open set: a name that is not
  known here is read as `unknown`.
* **Form.** `{"ok": v}`, `{"error": {"kind": k, "details": d}}` or `{"not_handled": true}`.  A
  reader accepts a fault without details, with members it does not know, and as an array of kind
  and details.
* **Texts.** In a text, the values of members that a fault does not have need only the form of
  values: nothing they denote is looked at (`Outcome.ofText?`). -/

namespace Switchboard

/-- What kind of fault ended a call. -/
inductive FaultKind where
  | unknown
  /-- No handler is registered under the name that was called. -/
  | unknownRpc
  | io
  | invalidArgs
  /-- The caller withdrew the call. -/
  | cancelled
deriving DecidableEq, Repr, Inhabited

namespace FaultKind

/-- The name of a kind. -/
def name : FaultKind → String
  | unknown => "Unknown"
  | unknownRpc => "UnknownRpc"
  | io => "Io"
  | invalidArgs => "InvalidArgs"
  | cancelled => "Cancelled"

/-- The kind of a name. -/
def ofName (s : String) : FaultKind :=
  if s = "UnknownRpc" then unknownRpc
  else if s = "Io" then io
  else if s = "InvalidArgs" then invalidArgs
  else if s = "Cancelled" then cancelled
  else unknown

@[simp] theorem ofName_name (k : FaultKind) : ofName k.name = k := by
  cases k <;> simp [name, ofName]

end FaultKind

/-- A fault that ended a call. -/
structure Fault where
  kind : FaultKind
  details : Json := .null
deriving DecidableEq, Repr, Inhabited

/-- How a call ended. -/
inductive Outcome where
  | value (v : Json)
  | fault (f : Fault)
  /-- The handler declined, and the next one is to be tried. -/
  | declined
deriving DecidableEq, Repr, Inhabited

/-! ### Fields of objects -/

namespace Json

/-- The one member under a key, if there is one.  A repeated key is an error. -/
def field? (key : String) (members : List (String × Json)) : Option (Option Json) :=
  match under key members with
  | [] => some none
  | [v] => some (some v)
  | _ => none

/-- The one member under a key. -/
def required? (key : String) (members : List (String × Json)) : Option Json :=
  (field? key members).join

/-- The members of a record: those of an object, or the elements of an array that has no more of
them than there are keys. -/
def record? (keys : List String) : Json → Option (List (String × Json))
  | obj members => some members
  | arr elems => if elems.length ≤ keys.length then some (keys.zip elems) else none
  | _ => none

end Json

namespace Fault

/-- A fault as a JSON object. -/
def toJson (f : Fault) : Json :=
  .obj [("kind", .str f.kind.name), ("details", f.details)]

/-- The members of a fault. -/
def keys : List String := ["kind", "details"]

/-- The fault that a JSON value stands for. -/
def ofJson? (v : Json) : Option Fault := do
  let members ← v.record? keys
  let kind ← (← Json.required? "kind" members).str?
  let details ← Json.field? "details" members
  some ⟨.ofName kind, (details.getD .null).canonical⟩

/-- A fault as messages describe it. -/
def describe (f : Fault) : String :=
  "RpcError \x7b kind: " ++ f.kind.name ++ ", details: " ++ f.details.describe ++ " \x7d"

end Fault

namespace Outcome

/-- Whether the call ended with a value. -/
def isValue : Outcome → Bool
  | value _ => true
  | _ => false

/-- Whether the call ended with a fault. -/
def isFault : Outcome → Bool
  | fault _ => true
  | _ => false

/-- Whether nobody took the call. -/
def isDeclined : Outcome → Bool
  | declined => true
  | _ => false

/-- Whether the caller withdrew the call. -/
def isCancelled : Outcome → Bool
  | fault f => f.kind = .cancelled
  | _ => false

/-- The value, if the call ended with one. -/
def value? : Outcome → Option Json
  | value v => some v
  | _ => none

/-- The fault, if the call ended with one. -/
def fault? : Outcome → Option Fault
  | fault f => some f
  | _ => none

/-- An outcome as a JSON object. -/
def toJson : Outcome → Json
  | value v => .obj [("ok", v)]
  | fault f => .obj [("error", f.toJson)]
  | declined => .obj [("not_handled", .bool true)]

/-- The outcome that a JSON value stands for: an object with exactly one member. -/
def ofJson? : Json → Option Outcome
  | .obj [(key, v)] =>
    if key = "ok" then some (value v.canonical)
    else if key = "error" then (Fault.ofJson? v).map fault
    else if key = "not_handled" then v.bool?.map fun _ => declined
    else none
  | _ => none

/-- The tokens of an outcome's text, as far as they are read. -/
def tokens? (xs : List Lexeme) : Option (List Token) :=
  match xs with
  | .mark .openObj :: .quoted us :: .mark .colon :: .mark .openObj :: r => do
    let key ← (Lexeme.quoted us).token?
    if key = .str "error" then
      let rest ← Json.wantedTokens? Fault.keys xs.length r
      some (.openObj :: key :: .colon :: .openObj :: rest)
    else xs.mapM Lexeme.token?
  | _ => xs.mapM Lexeme.token?

/-- The outcome that a text denotes. -/
def ofText? (s : String) : Option Outcome := do
  ofJson? (← Json.ofTokens? Json.maxDepth (← tokens? (← Lexeme.scan? s)))

/-- An outcome as messages describe it. -/
def describe : Outcome → String
  | value v => "Ok(" ++ v.describe ++ ")"
  | fault f => "Error(" ++ f.describe ++ ")"
  | declined => "NotHandled"

/-- The value of a call that is expected to have one, or else a complaint that it has none. -/
def expectValue : Outcome → Except String Json
  | value v => .ok v
  | o => .error ("called `RpcResult::unwrap()` on a non-ok value: " ++ o.describe)

/-- The fault of a call that is expected to have one, or else a complaint that it has none. -/
def expectFault : Outcome → Except String Fault
  | fault f => .ok f
  | o => .error ("called `RpcResult::unwrap_err()` on a non-error value: " ++ o.describe)

end Outcome

end Switchboard
