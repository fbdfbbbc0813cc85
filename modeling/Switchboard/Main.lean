import Switchboard.CommandLine

/-! # The broker as a program

The program reads its command line, announces its socket, and serves one client, whose connection is
its standard input and output.  It ends when the client does. -/

namespace Switchboard.CommandLine

/-- What has been opened: a directory can be opened but not read. -/
def occupantOf (handle : IO.FS.Handle) : IO Occupant := do
  try
    discard (handle.read 1)
    return .file
  catch _ => return .directory

/-- What is at a path. -/
def occupantAt (path : String) : IO Occupant := do
  try
    occupantOf (← IO.FS.Handle.mk path .read)
  catch _ => return .nothing

/-- Serves a client until it ends its side or its session ends. -/
partial def serve (b : Broker) (client : ClientId) (input output : IO.FS.Stream) : IO Unit := do
  let bytes := (← input.read 65536).toList
  if bytes.isEmpty then return
  let (b, arrivals) := b.receive client bytes
  for (_, m) in arrivals do
    if let .ok frame := m.encode then
      output.write ⟨frame.bytes.toArray⟩
  output.flush
  if b.serves client then serve b client input output

end Switchboard.CommandLine

open Switchboard in
def main (args : List String) : IO UInt32 := do
  let runtime ← IO.getEnv "XDG_RUNTIME_DIR"
  let temporary ← IO.getEnv "TMPDIR"
  let path := match CommandLine.read args with
    | .ok o => o.path runtime temporary
    | .error _ => ""
  let parent ← CommandLine.occupantAt (SocketPath.parent path)
  let occupant ← CommandLine.occupantAt path
  let at' (p : String) : Occupant := if p = path then occupant else parent
  match CommandLine.launch args runtime temporary at' with
  | .error stop =>
    IO.eprintln stop.message
    return stop.exitCode
  | .ok b =>
    IO.println (CommandLine.announcement b)
    (← IO.getStdout).flush
    match b.connect with
    | .ok (b, some client) => CommandLine.serve b client (← IO.getStdin) (← IO.getStdout)
    | _ => return 1
    return 0
