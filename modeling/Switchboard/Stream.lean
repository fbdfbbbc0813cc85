import Switchboard.Frame

/-! # Streams

The bytes of a stream arrive in pieces of any size, and a read takes as many bytes as it needs, no
matter how many pieces they are spread over.

* **Frames.** `readFrame` reads the four bytes of a size and then so many bytes.  Only an end before
  the first of the four is a clean one, and a size that is too large shows before anything after it
  is read.
* **Repeating.** `readAll` reads frames until there is an ending, and `readMessages` reads their
  payloads as messages.  A payload that is no message does not end the reading. -/

namespace Switchboard

/-- A stream as it arrives: pieces in order, and its end after the last one. -/
abbrev Pieces := List Bytes

/-- How the reading of a stream ends. -/
inductive StreamEnd where
  /-- The stream ended after a frame. -/
  | clean
  | failed (f : Failure)
deriving DecidableEq, Repr

/-- What the reading of a frame comes to. -/
inductive FrameRead where
  /-- A payload, and what follows it. -/
  | payload (p : Bytes) (rest : Pieces)
  | ended (e : StreamEnd)
deriving DecidableEq, Repr

namespace Pieces

/-- Takes `n` bytes off a stream, if so many arrive. -/
def take? (n : Nat) : Pieces → Option (Bytes × Pieces)
  | [] => if n = 0 then some ([], []) else none
  | p :: s =>
    if n ≤ p.length then some (p.take n, p.drop n :: s)
    else (take? (n - p.length) s).map fun (q, rest) => (p ++ q, rest)

/-- Reads a frame off a stream. -/
def readFrame (s : Pieces) : FrameRead :=
  match s.take? 1 with
  | some ([a], s) =>
    match s.take? 3 with
    | some ([b, c, d], s) =>
      let n := ofLe32 a b c d
      if maxFrameSize < n then .ended (.failed (.frameTooLarge n maxFrameSize))
      else
        match s.take? n with
        | some (p, s) => .payload p s
        | none => .ended (.failed (.io .truncated))
    | _ => .ended (.failed (.io .truncated))
  | _ => .ended .clean

/-! ### What is left -/

theorem flatten_of_take? {n : Nat} {s r : Pieces} {p : Bytes} (h : s.take? n = some (p, r)) :
    s.flatten = p ++ r.flatten ∧ p.length = n := by
  induction s generalizing n p with
  | nil =>
    unfold take? at h
    split at h
    · obtain ⟨rfl, rfl⟩ := Prod.mk.inj (Option.some.inj h)
      simp_all
    · cases h
  | cons q s ih =>
    unfold take? at h
    split at h
    · next hn =>
      obtain ⟨rfl, rfl⟩ := Prod.mk.inj (Option.some.inj h)
      constructor
      · rw [List.flatten_cons, List.flatten_cons, ← List.append_assoc, List.take_append_drop]
      · rw [List.length_take]
        omega
    · next hn =>
      obtain ⟨⟨q', r'⟩, ht, he⟩ := Option.map_eq_some_iff.1 h
      obtain ⟨rfl, rfl⟩ := Prod.mk.inj he
      obtain ⟨hs, hl⟩ := ih ht
      constructor
      · rw [List.flatten_cons, hs, List.append_assoc]
      · rw [List.length_append]
        omega

theorem length_lt_of_readFrame {s r : Pieces} {p : Bytes} (h : s.readFrame = .payload p r) :
    r.flatten.length < s.flatten.length := by
  unfold readFrame at h
  split at h
  · next a s₁ h₁ =>
    split at h
    · next b c d s₂ h₂ =>
      dsimp only at h
      split at h
      · cases h
      · split at h
        · next q s₃ h₃ =>
          obtain ⟨rfl, rfl⟩ := FrameRead.payload.inj h
          have h₁ := congrArg List.length (flatten_of_take? h₁).1
          have h₂ := congrArg List.length (flatten_of_take? h₂).1
          have h₃ := congrArg List.length (flatten_of_take? h₃).1
          simp only [List.length_append, List.length_cons, List.length_nil] at h₁ h₂ h₃
          omega
        · cases h
    · cases h
  · cases h

/-! ### Reading on -/

/-- Everything that a stream holds: its payloads, and how it ends. -/
def readAll (s : Pieces) : List Bytes × StreamEnd :=
  match _h : s.readFrame with
  | .payload p r =>
    let (ps, e) := readAll r
    (p :: ps, e)
  | .ended e => ([], e)
termination_by s.flatten.length
decreasing_by exact length_lt_of_readFrame _h

/-- What the payloads of a stream say, and how it ends. -/
def readMessages (s : Pieces) : List (Except Failure Message) × StreamEnd :=
  match _h : s.readFrame with
  | .payload p r =>
    let (ms, e) := readMessages r
    (Message.decode p :: ms, e)
  | .ended e => ([], e)
termination_by s.flatten.length
decreasing_by exact length_lt_of_readFrame _h

end Pieces

end Switchboard
