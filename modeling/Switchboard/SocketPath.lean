import Switchboard.Limits

/-! # Where the broker's socket lives -/

namespace Switchboard.SocketPath

/-- Whether a path starts at the root. -/
def isAbsolute (path : String) : Bool := path.toList.head? == some '/'

/-- The directory of the socket: the runtime directory if that is an absolute path, or else the
directory for temporary files. -/
def directory (runtime temporary : Option String) : String :=
  match runtime.filter isAbsolute with
  | some dir => dir
  | none => temporary.getD "/tmp"

/-- A name inside a directory.  A name that is an absolute path stands for itself. -/
def join (dir name : String) : String :=
  if isAbsolute name then name
  else if dir.isEmpty || dir.toList.getLast? == some '/' then dir ++ name
  else dir ++ "/" ++ name

/-- The directory in which the last name of a path is looked up. -/
def parent (path : String) : String :=
  match path.toList.reverse.dropWhile (· ≠ '/') with
  | [] => "."
  | ['/'] => "/"
  | _ :: front => String.ofList front.reverse

/-- The path of the socket where nothing else is asked for. -/
def default (runtime temporary : Option String) : String :=
  join (directory runtime temporary) socketFileName

end Switchboard.SocketPath
