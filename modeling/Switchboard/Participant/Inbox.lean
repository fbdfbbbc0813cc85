import Switchboard.Participant.Link
import Switchboard.Stream

/-! # The inbox of a participant

A participant reads the broker's stream into an inbox, and its link takes from the inbox what it
finds there.

* **Reading.** `readMessage` reads a frame and what it says.  What is read is put into the inbox, and
  so is the first failure after which there is no point in reading on (`inbox`).
* **Taking.** The link hears the messages of the inbox.  It is lost with a failure that is fatal, and
  when the inbox has ended; any other failure it skips (`LinkEvent.ofInbox`). -/

namespace Switchboard

namespace Pieces

/-- Reads a message off a stream, which may have ended, and returns what is left of the stream.
Where the stream breaks off, nothing is left, and of a frame that is too large no more than its size
is read. -/
def readMessage (s : Pieces) : Except Failure (Option Message) × Pieces :=
  match s.readFrame with
  | .payload p r => ((Message.decode p).map some, r)
  | .ended .clean => (.ok none, [])
  | .ended (.failed (.frameTooLarge n m)) =>
    (.error (.frameTooLarge n m), (s.take? 4).elim [] (·.2))
  | .ended (.failed f) => (.error f, [])

/-- A stream that ends otherwise than cleanly is not empty. -/
theorem ne_nil_of_failed {s : Pieces} {f : Failure} (h : s.readFrame = .ended (.failed f)) :
    0 < s.flatten.length := by
  unfold readFrame at h
  split at h
  · next h₁ =>
    have := congrArg List.length (flatten_of_take? h₁).1
    simp only [List.length_append, List.length_cons, List.length_nil] at this
    omega
  · cases h

theorem length_lt_of_readMessage {s r : Pieces} {a : Except Failure (Option Message)}
    (h : s.readMessage = (a, r)) (ha : a ≠ .ok none) : r.flatten.length < s.flatten.length := by
  unfold readMessage at h
  split at h
  · next p r' hp =>
    obtain ⟨_, rfl⟩ := Prod.mk.inj h
    exact length_lt_of_readFrame hp
  · exact absurd (Prod.mk.inj h).1.symm ha
  · next n m hf =>
    obtain ⟨_, rfl⟩ := Prod.mk.inj h
    cases ht : s.take? 4 with
    | none => exact ne_nil_of_failed hf
    | some q =>
      obtain ⟨hs, hl⟩ := flatten_of_take? (r := q.2) (p := q.1) ht
      have := congrArg List.length hs
      rw [List.length_append] at this
      simp only [Option.elim_some]
      omega
  · next f _ hf =>
    obtain ⟨_, rfl⟩ := Prod.mk.inj h
    exact ne_nil_of_failed hf

/-- What a participant reads off a stream: messages and failures, up to the first that is fatal or
the end of the stream. -/
def inbox (s : Pieces) : List (Except Failure Message) :=
  match _h : s.readMessage with
  | (.ok none, _) => []
  | (.ok (some m), r) => .ok m :: inbox r
  | (.error f, r) => .error f :: if f.isFatal then [] else inbox r
termination_by s.flatten.length
decreasing_by all_goals exact length_lt_of_readMessage _h (by simp)

end Pieces

/-- What the link makes of its inbox, if nothing else happens to it. -/
def LinkEvent.ofInbox {η : Type} : List (Except Failure Message) → List (LinkEvent η)
  | [] => [.ended]
  | .ok m :: is => .heard m :: ofInbox is
  | .error f :: is => if f.isFatal then [.ended] else ofInbox is

end Switchboard
