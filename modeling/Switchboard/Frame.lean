import Switchboard.Json.Text
import Switchboard.Limits
import Switchboard.Message

/-! # Frames

On the wire every message is a frame: the size of the payload in four bytes, the least significant
first, and then the payload, a JSON text in UTF-8.

* **Writing.** `Message.encode` refuses a payload that is larger than `maxFrameSize`.
* **Cutting.** `cut` takes the first frame off a row of bytes.  Whether a frame is too large shows
  from its first four bytes.
* **Reading.** A `Reader` is fed with bytes as they arrive and yields the messages they complete.
  How the bytes were divided does not matter. -/

namespace Switchboard

/-- A row of bytes. -/
abbrev Bytes := List UInt8

/-- Four bytes, the least significant first. -/
def le32 (n : Nat) : Bytes :=
  [.ofNat n, .ofNat (n / 0x100), .ofNat (n / 0x10000), .ofNat (n / 0x1000000)]

/-- The number that four bytes spell. -/
def ofLe32 (a b c d : UInt8) : Nat :=
  a.toNat + 0x100 * b.toNat + 0x10000 * c.toNat + 0x1000000 * d.toNat

theorem ofLe32_of_le32 {n : Nat} (h : n < 0x100000000) :
    ofLe32 (.ofNat n) (.ofNat (n / 0x100)) (.ofNat (n / 0x10000)) (.ofNat (n / 0x1000000)) = n := by
  simp only [ofLe32, UInt8.toNat_ofNat']
  omega

/-- A payload with its size in front of it. -/
def framed (p : Bytes) : Bytes := le32 p.length ++ p

/-- A message as it goes over the wire. -/
structure Frame where
  text : String
  fits : text.utf8ByteSize ≤ maxFrameSize
deriving DecidableEq

namespace Frame

/-- The four bytes before the payload. -/
def head (f : Frame) : Bytes := le32 f.text.utf8ByteSize

/-- The bytes after the first four. -/
def payload (f : Frame) : Bytes := f.text.toUTF8.toList

/-- All bytes of a frame. -/
def bytes (f : Frame) : Bytes := f.head ++ f.payload

/-- The number of bytes of a frame. -/
def size (f : Frame) : Nat := 4 + f.text.utf8ByteSize

end Frame

namespace Message

/-- The frame of a message. -/
def encode (m : Message) : Except Failure Frame :=
  let text := m.toJson.render
  if h : text.utf8ByteSize ≤ maxFrameSize then .ok ⟨text, h⟩
  else .error (.frameTooLarge text.utf8ByteSize maxFrameSize)

/-- The message of a text. -/
def ofText (s : String) : Except Failure Message :=
  match Json.parse? s >>= ofJson? with
  | some m => .ok m
  | none => .error .malformed

/-- The message of a payload. -/
def decode (payload : Bytes) : Except Failure Message :=
  match String.fromUTF8? ⟨payload.toArray⟩ with
  | some s => ofText s
  | none => .error .notUtf8

/-- The message that arrives when this one is sent. -/
def transmitted (m : Message) : Except Failure Message := do
  decode (← m.encode).payload

end Message

/-! ### Reading -/

/-- What stands at the start of a row of bytes. -/
inductive Cut where
  /-- A payload, and what follows it. -/
  | payload (p rest : Bytes)
  /-- The size of a frame that is too large. -/
  | tooLarge (size : Nat)
  /-- Less than a frame. -/
  | short
deriving DecidableEq, Repr

/-- Takes the first frame off a row of bytes. -/
def cut : Bytes → Cut
  | a :: b :: c :: d :: r =>
    let n := ofLe32 a b c d
    if maxFrameSize < n then .tooLarge n
    else if n ≤ r.length then .payload (r.take n) (r.drop n)
    else .short
  | _ => .short

theorem length_lt_of_cut {s p r : Bytes} (h : cut s = .payload p r) : r.length < s.length := by
  unfold cut at h
  split at h
  · dsimp only at h
    split at h
    · simp at h
    · split at h
      · obtain ⟨_, rfl⟩ := Cut.payload.inj h
        simp only [List.length_cons, List.length_drop]
        omega
      · simp at h
  · simp at h

/-- The payloads at the start of a row of bytes, and what is left of it. -/
def payloads (s : Bytes) : List Bytes × Bytes :=
  match _h : cut s with
  | .payload p r =>
    let (ps, rest) := payloads r
    (p :: ps, rest)
  | _ => ([], s)
termination_by s.length
decreasing_by exact length_lt_of_cut _h

/-- Reads messages from bytes that arrive in pieces. -/
structure Reader where
  /-- Bytes that do not make a frame yet. -/
  held : Bytes := []
  /-- Whether something came that cannot be read; then the rest is ignored. -/
  broken : Bool := false
deriving DecidableEq, Repr

namespace Reader

/-- Reads payloads up to the first that is no message. -/
def messages : List Bytes → List Message × Bool
  | [] => ([], false)
  | p :: ps =>
    match Message.decode p with
    | .ok m =>
      let (ms, broken) := messages ps
      (m :: ms, broken)
    | .error _ => ([], true)

/-- Takes bytes, and yields the messages they complete. -/
def feed (r : Reader) (s : Bytes) : Reader × List Message :=
  if r.broken then (r, []) else
    let (ps, rest) := payloads (r.held ++ s)
    let (ms, broken) := messages ps
    (⟨rest, broken || cut rest matches .tooLarge _⟩, ms)

/-- Whether the stream may end here. -/
def atBoundary (r : Reader) : Bool := r.held.isEmpty && !r.broken

end Reader

end Switchboard
