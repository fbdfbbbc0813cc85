import Switchboard.Failure

/-! # The socket's place in the file system

Whether a broker can start and whether a client can reach it depends on what is at the socket's path
and above it.  A plain file or an old socket at the path makes way for the new socket; nothing else
does. -/

namespace Switchboard

/-- What is at a path. -/
inductive Occupant where
  | nothing
  | file
  | socket
  | directory
deriving DecidableEq, Repr, Inhabited

/-- A path at which a socket is wanted. -/
structure Site where
  path : String
  /-- What is at the path that the last name of this one belongs to. -/
  parent : Occupant := .directory
  occupant : Occupant := .nothing
deriving DecidableEq, Repr, Inhabited

namespace Site

/-- The longest path, in bytes, that the address of a socket has room for. -/
def maxPathSize : Nat := 107

/-- Removes what an earlier broker may have left at the path. -/
def clear (s : Site) : Except IoCause Site :=
  match s.parent, s.occupant with
  | .nothing, _ => .ok s
  | .directory, .directory => .error .isDirectory
  | .directory, _ => .ok { s with occupant := .nothing }
  | _, _ => .error .notDirectory

/-- Puts a new socket at the path. -/
def bind (s : Site) : Except IoCause Site := do
  let s ← s.clear
  if maxPathSize < s.path.utf8ByteSize then .error .pathTooLong
  else if s.parent = .nothing then .error .notFound
  else .ok { s with occupant := .socket }

/-- Why nobody can be reached at the path, apart from there being nobody who listens. -/
def reachable (s : Site) : Except IoCause Unit :=
  if maxPathSize < s.path.utf8ByteSize then .error .pathTooLong
  else
    match s.parent, s.occupant with
    | .directory, .socket => .ok ()
    | .directory, .nothing | .nothing, _ => .error .notFound
    | .directory, _ => .error .refused
    | _, _ => .error .notDirectory

/-- Removes the socket, as far as that can be done: a directory stays. -/
def unlink (s : Site) : Site :=
  if s.occupant = .directory then s else { s with occupant := .nothing }

end Site

end Switchboard
