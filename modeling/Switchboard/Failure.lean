import Switchboard.Outcome

/-! # What can go wrong

A `Failure` says why an operation of this library did not do what it was asked to.  Outcomes of
calls are no failures; only an operation that promises a value turns them into one.

A failure is fatal when it means that the session is gone: after a frame that cannot be read, the
bytes that follow have no meaning any more. -/

namespace Switchboard

/-- Why input or output failed. -/
inductive IoCause where
  /-- The stream ends inside a frame. -/
  | truncated
  /-- Nothing is at the path. -/
  | notFound
  /-- Something is at the path, but nobody listens. -/
  | refused
  | isDirectory
  | notDirectory
  /-- The path is too long for the address of a socket. -/
  | pathTooLong
  /-- The broker answered a registration with something else than a value. -/
  | rejected (answer : Outcome)
  /-- Any other cause, in words. -/
  | other (text : String)
deriving DecidableEq, Repr

/-- The cause in words. -/
def IoCause.message : IoCause → String
  | truncated => "early eof"
  | notFound => "No such file or directory (os error 2)"
  | refused => "Connection refused (os error 111)"
  | isDirectory => "Is a directory (os error 21)"
  | notDirectory => "Not a directory (os error 20)"
  | pathTooLong => "path must be shorter than SUN_LEN"
  | rejected answer => "Broker rejected registration: " ++ answer.describe
  | other text => text

/-- Why an operation failed. -/
inductive Failure where
  | disconnected
  | io (cause : IoCause)
  /-- A text is no JSON, or not of the form that is wanted. -/
  | malformed
  | notUtf8
  /-- The call is over, or the handler is registered already. -/
  | done
  | frameTooLarge (size max : Nat)
  | callTooDeep (depth max : UInt32)
  /-- A call that was to yield a value ended with a fault. -/
  | faulted (fault : Fault)
  /-- A call that was to yield a value was declined by everybody. -/
  | declined
  /-- The value of a call is not of the wanted shape. -/
  | mismatch (text : String)
deriving DecidableEq, Repr

namespace Failure

/-- The failure in words. -/
def message : Failure → String
  | disconnected => "Channel or socket is disconnected"
  | io cause => "IO error: " ++ cause.message
  | malformed => "JSON parsing error"
  | notUtf8 => "Frame payload is not valid UTF-8"
  | done => "RPC is already finished or cancelled"
  | frameTooLarge size max =>
    "Frame size " ++ decimalText size ++ " exceeds maximum " ++ decimalText max
  | callTooDeep depth max =>
    "Nested call depth " ++ decimalText depth.toNat ++ " exceeds maximum " ++ decimalText max.toNat
  | faulted f => "RPC failed: " ++ f.kind.name
  | declined => "No handler accepted the call"
  | mismatch text => "Result does not match the expected type: " ++ text

/-- Whether the session is gone for good. -/
def isFatal : Failure → Bool
  | disconnected | io _ | malformed | notUtf8 | frameTooLarge .. => true
  | _ => false

end Failure

end Switchboard
