import Switchboard.Broker.Basic
import Switchboard.SocketPath

/-! # The broker's command line

* **Options.** `--socket` or `-s` takes a path, `--debug` or `-d` and `--help` or `-h` stand alone.
  Each may come once, and there is nothing else; a `--` says that no option follows.
* **Values.** A value follows its option as an argument of its own, which must not look like an
  option, or in the same argument, after `=` or, for the short form, at once.  Short options may
  share an argument.
* **Order.** Arguments are read from left to right; help is given as soon as it is asked for, unless
  something was wrong before. -/

namespace Switchboard.CommandLine

/-- What the arguments ask for. -/
structure Options where
  socket : Option String := none
  debug : Bool := false
deriving DecidableEq, Repr, Inhabited

/-- What is wrong with the arguments. -/
inductive Misuse where
  | unexpected (arg : String)
  | missingValue
  | emptyValue
  | unwantedValue (name : String)
  | repeated (name : String)
deriving DecidableEq, Repr

/-- Why a broker does not come to serve. -/
inductive Stop where
  /-- Only help was asked for. -/
  | help
  | misused (m : Misuse)
  | unable (path : String) (f : Failure)
deriving DecidableEq, Repr

/-! ### Reading arguments -/

namespace Options

/-- Asks for a path. -/
def setSocket (o : Options) (path : String) : Except Stop Options :=
  if path.isEmpty then .error (.misused .emptyValue)
  else if o.socket.isSome then .error (.misused (.repeated "--socket"))
  else .ok { o with socket := some path }

/-- Asks for details in the log. -/
def setDebug (o : Options) : Except Stop Options :=
  if o.debug then .error (.misused (.repeated "--debug")) else .ok { o with debug := true }

/-- The path of the socket. -/
def path (o : Options) (runtime temporary : Option String) : String :=
  o.socket.getD (SocketPath.default runtime temporary)

end Options

/-- Whether an argument looks like an option and thus cannot be the value of one. -/
def looksLikeOption (arg : String) : Bool :=
  match arg.toList with
  | '-' :: _ :: _ => true
  | _ => false

/-- Reads short options that share an argument, and says whether the last one wants a value. -/
def readShort (o : Options) : List Char → Except Stop (Options × Bool)
  | [] => .ok (o, false)
  | 'd' :: cs => do readShort (← o.setDebug) cs
  | 'h' :: _ => .error .help
  | ['s'] => .ok (o, true)
  | 's' :: '=' :: value => do .ok (← o.setSocket (String.ofList value), false)
  | 's' :: value => do .ok (← o.setSocket (String.ofList value), false)
  | c :: _ => .error (.misused (.unexpected (String.ofList ['-', c])))

/-- Reads a long option with the value after its `=`, and says whether it wants a value. -/
def readLong (o : Options) (name : String) (value : Option String) :
    Except Stop (Options × Bool) :=
  match name, value with
  | "socket", some path => do .ok (← o.setSocket path, false)
  | "socket", none => .ok (o, true)
  | "debug", none => do .ok (← o.setDebug, false)
  | "help", none => .error .help
  | "debug", some _ | "help", some _ => .error (.misused (.unwantedValue name))
  | _, _ => .error (.misused (.unexpected ("--" ++ name)))

/-- Reads an argument that is not the value of an option. -/
def readOne (o : Options) (arg : String) : Except Stop (Options × Bool) :=
  match arg.toList with
  | '-' :: '-' :: cs =>
    readLong o (String.ofList (cs.takeWhile (· ≠ '=')))
      (match cs.dropWhile (· ≠ '=') with
        | [] => none
        | _ :: value => some (String.ofList value))
  | '-' :: c :: cs => readShort o (c :: cs)
  | _ => .error (.misused (.unexpected arg))

/-- Reads arguments, the first of which may have to be a value. -/
def readAll : Options → Bool → List String → Except Stop Options
  | o, false, [] => .ok o
  | _, true, [] => .error (.misused .missingValue)
  | o, true, arg :: args =>
    if looksLikeOption arg then .error (.misused .missingValue)
    else do readAll (← o.setSocket arg) false args
  | o, false, arg :: args =>
    if arg = "--" then
      match args with
      | [] => .ok o
      | arg :: _ => .error (.misused (.unexpected arg))
    else do
      let (o, wanting) ← readOne o arg
      readAll o wanting args

/-- The options that the arguments ask for. -/
def read (args : List String) : Except Stop Options := readAll {} false args

/-! ### Starting -/

/-- Starts the broker that the arguments ask for.  What is at which path is told by `occupant`. -/
def launch (args : List String) (runtime temporary : Option String)
    (occupant : String → Occupant) : Except Stop Broker := do
  let o ← read args
  let path := o.path runtime temporary
  (Broker.start { path, parent := occupant (SocketPath.parent path), occupant := occupant path })
    |>.mapError (.unable path)

/-- The line that tells where the broker is. -/
def announcement (b : Broker) : String := "BROKER_SOCKET=" ++ b.site.path

namespace Stop

/-- The exit code of a broker that did not come to serve. -/
def exitCode : Stop → UInt32
  | help => 0
  | misused _ => 2
  | unable .. => 1

/-- The reason in words. -/
def message : Stop → String
  | help => "Usage: [--socket PATH] [--debug] [--help]"
  | misused (.unexpected arg) => "unexpected argument: " ++ arg
  | misused .missingValue => "a value is required for --socket PATH"
  | misused .emptyValue => "the value of --socket PATH must not be empty"
  | misused (.unwantedValue name) => "no value is allowed for --" ++ name
  | misused (.repeated name) => name ++ " cannot be used multiple times"
  | unable path f => "failed to start broker on " ++ path ++ ": " ++ f.message

end Stop

end Switchboard.CommandLine
