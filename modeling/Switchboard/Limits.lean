/-! # Limits and defaults -/

namespace Switchboard

/-- The largest payload of a frame, in bytes. -/
def maxFrameSize : Nat := 16 * 1024 * 1024

/-- How long a participant waits for the broker to accept it, in milliseconds. -/
def connectTimeout : Nat := 5000

/-- The number of sessions that a broker keeps open at once. -/
def maxSessions : Nat := 256

/-- The greatest nesting of calls made while serving calls. -/
def maxCallDepth : UInt32 := 32

/-- The name of the broker's socket in its directory. -/
def socketFileName : String := "plexus.sock"

/-- The priority of a handler that asks for none in particular. -/
def defaultPriority : UInt16 := 100

end Switchboard
