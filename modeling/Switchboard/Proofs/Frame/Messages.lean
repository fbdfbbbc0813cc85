import Switchboard.Proofs.Frame.Boundaries

/-! # What a stream says

A stream says the messages of its frames, up to the first frame that is too large or does not hold a
message.  After that frame nothing counts any more.

* **Said and spoilt.** `said` are the messages, and `Spoilt` says that there is such a frame.  The
  messages are those of the longest beginning that is made of good frames (`Opens`,
  `opens_said`, `Opens.prefix_said`).
* **Going on.** What comes after a spoilt stream changes nothing (`said_append_of_spoilt`); after any
  other one only what is left over from it counts (`said_append`).
* **Readers.** A reader that is fed piece by piece knows what it would have got from the whole stream
  at once (`Tracks`, `Tracks.feed`). -/

namespace Switchboard

/-! ### Payloads in a row -/

namespace Reader

theorem messages_ok {p : Bytes} {m : Message} (h : Message.decode p = .ok m) (ps : List Bytes) :
    messages (p :: ps) = (m :: (messages ps).1, (messages ps).2) := by
  rw [messages, h]

theorem messages_error {p : Bytes} {f : Failure} (h : Message.decode p = .error f)
    (ps : List Bytes) : messages (p :: ps) = ([], true) := by
  rw [messages, h]

theorem messages_append (ps qs : List Bytes) :
    messages (ps ++ qs) =
      if (messages ps).2 then messages ps
      else ((messages ps).1 ++ (messages qs).1, (messages qs).2) := by
  induction ps with
  | nil => rfl
  | cons p ps ih =>
    rw [List.cons_append]
    cases hp : Message.decode p with
    | error f => rw [messages_error hp, messages_error hp, if_pos rfl]
    | ok m =>
      rw [messages_ok hp, messages_ok hp, ih]
      split <;> rfl

theorem messages_eq_iff {ps : List Bytes} {ms : List Message} :
    messages ps = (ms, false) ↔ ps.map Message.decode = ms.map .ok := by
  induction ps generalizing ms with
  | nil => cases ms <;> simp [messages]
  | cons p ps ih =>
    cases hp : Message.decode p with
    | error f => cases ms <;> simp [messages_error hp, hp]
    | ok m =>
      rw [messages_ok hp]
      cases ms with
      | nil => simp
      | cons m' ms =>
        rw [List.map_cons, List.map_cons, List.cons.injEq, hp, ← ih]
        simp [Prod.ext_iff, and_assoc]

/-- The payloads of the messages that are read come first, and the next one, if there are more, is no
message. -/
theorem messages_split (ps : List Bytes) :
    ∃ good bad, ps = good ++ bad ∧ good.map Message.decode = (messages ps).1.map .ok ∧
      ((messages ps).2 = false ∧ bad = [] ∨
        (messages ps).2 = true ∧ ∃ p rest f, bad = p :: rest ∧ Message.decode p = .error f) := by
  induction ps with
  | nil => exact ⟨[], [], rfl, rfl, .inl ⟨rfl, rfl⟩⟩
  | cons p ps ih =>
    cases hp : Message.decode p with
    | error f =>
      rw [messages_error hp]
      exact ⟨[], p :: ps, rfl, rfl, .inr ⟨rfl, p, ps, f, rfl, hp⟩⟩
    | ok m =>
      obtain ⟨good, bad, rfl, hgood, hbad⟩ := ih
      rw [messages_ok hp]
      refine ⟨p :: good, bad, rfl, ?_, hbad⟩
      rw [List.map_cons, List.map_cons, hp, hgood]

end Reader

/-! ### Said and spoilt -/

/-- The messages of a stream, up to the first frame that cannot be read. -/
def said (s : Bytes) : List Message := (Reader.messages (payloads s).1).1

/-- What is left of a stream after its complete frames. -/
def leftover (s : Bytes) : Bytes := (payloads s).2

/-- A frame of the stream is too large, or is complete and does not hold a message. -/
def Spoilt (s : Bytes) : Prop :=
  (Reader.messages (payloads s).1).2 = true ∨ ∃ n, cut (leftover s) = .tooLarge n

theorem spoilt_iff {s : Bytes} :
    ((Reader.messages (payloads s).1).2 || cut (leftover s) matches .tooLarge _) = true ↔
      Spoilt s := by
  rw [Spoilt]
  cases h : cut (leftover s) <;> simp

instance (s : Bytes) : Decidable (Spoilt s) := decidable_of_iff _ spoilt_iff

/-- The stream starts with good frames, of these messages. -/
def Opens (s : Bytes) (ms : List Message) : Prop :=
  ∃ (ps : List Bytes) (r : Bytes), s = (ps.map framed).flatten ++ r ∧
    (∀ p ∈ ps, p.length ≤ maxFrameSize) ∧ ps.map Message.decode = ms.map .ok

/-- A frame that cannot be read, whatever follows it: its size is not allowed, or it is complete and
its payload is no message. -/
def Bad (r : Bytes) : Prop :=
  (∃ n, maxFrameSize < n ∧ ∃ a b c d t, r = a :: b :: c :: d :: t ∧ ofLe32 a b c d = n) ∨
    ∃ p t f, r = framed p ++ t ∧ p.length ≤ maxFrameSize ∧ Message.decode p = .error f

theorem said_nil : said [] = [] := by
  rw [said, payloads_of_no_frame (by simp [cut])]
  rfl

theorem not_spoilt_nil : ¬ Spoilt [] := by
  rw [Spoilt, leftover, payloads_of_no_frame (by simp [cut])]
  simp [Reader.messages, cut]

/-- What a stream says stands in its frames, and then comes a bad frame or the proper beginning of
one. -/
theorem said_split (s : Bytes) :
    ∃ (ps : List Bytes) (r : Bytes), s = (ps.map framed).flatten ++ r ∧
      (∀ p ∈ ps, p.length ≤ maxFrameSize) ∧ ps.map Message.decode = (said s).map .ok ∧
      (Spoilt s ∧ Bad r ∨ ¬ Spoilt s ∧ r = leftover s ∧ Unfinished r) := by
  obtain ⟨hs, hfits, hrest⟩ := eq_of_payloads s
  obtain ⟨good, bad, hps, hgood, hbad⟩ := Reader.messages_split (payloads s).1
  have hgoodfits : ∀ p ∈ good, p.length ≤ maxFrameSize := by
    intro p hp
    refine hfits p ?_
    rw [hps]
    exact List.mem_append_left _ hp
  have hbytes : s = (good.map framed).flatten ++ ((bad.map framed).flatten ++ leftover s) := by
    rw [← List.append_assoc, ← List.flatten_append, ← List.map_append, ← hps]
    exact hs
  refine ⟨good, _, hbytes, hgoodfits, hgood, ?_⟩
  rcases hbad with ⟨hread, rfl⟩ | ⟨hread, p, rest, f, rfl, hp⟩
  · rw [List.map_nil, List.flatten_nil, List.nil_append]
    cases hc : cut (leftover s) with
    | payload p r => exact absurd hc (hrest p r)
    | tooLarge n => exact .inl ⟨.inr ⟨n, hc⟩, .inl ⟨n, cut_eq_tooLarge_iff.1 hc⟩⟩
    | short =>
      have hsound : ¬ Spoilt s := by
        rw [Spoilt, hread, hc]
        simp
      exact .inr ⟨hsound, rfl, cut_eq_short_iff.1 hc⟩
  · have hfit : p.length ≤ maxFrameSize := by
      refine hfits p ?_
      rw [hps]
      simp
    refine .inl ⟨.inl hread, .inr ⟨p, (rest.map framed).flatten ++ leftover s, f, ?_, hfit, hp⟩⟩
    rw [List.map_cons, List.flatten_cons, List.append_assoc]

theorem opens_said (s : Bytes) : Opens s (said s) := by
  obtain ⟨ps, r, hs, hfits, hps, _⟩ := said_split s
  exact ⟨ps, r, hs, hfits, hps⟩

theorem Opens.prefix_said {s : Bytes} {ms : List Message} (h : Opens s ms) : ms <+: said s := by
  obtain ⟨ps, r, rfl, hfits, hps⟩ := h
  have hread : Reader.messages ps = (ms, false) := Reader.messages_eq_iff.2 hps
  rw [said, payloads_append hfits, Reader.messages_append, hread]
  exact List.prefix_append _ _

/-! ### Going on -/

/-- The payloads of a longer stream are those of the stream and those of what goes on from what is
left of it. -/
theorem payloads_going_on (s t : Bytes) :
    payloads (s ++ t) =
      ((payloads s).1 ++ (payloads (leftover s ++ t)).1, leftover (leftover s ++ t)) := by
  obtain ⟨hs, hfits, _⟩ := eq_of_payloads s
  have hbytes : s ++ t = ((payloads s).1.map framed).flatten ++ (leftover s ++ t) := by
    rw [← List.append_assoc]
    exact congrArg (· ++ t) hs
  rw [hbytes, payloads_append hfits]
  rfl

theorem payloads_of_tooLarge {s : Bytes} {n : Nat} (h : cut s = .tooLarge n) (t : Bytes) :
    payloads (s ++ t) = ([], s ++ t) ∧ cut (s ++ t) = .tooLarge n := by
  obtain ⟨hn, a, b, c, d, u, rfl, hsize⟩ := cut_eq_tooLarge_iff.1 h
  have hcut : cut (a :: b :: c :: d :: u ++ t) = .tooLarge n :=
    cut_eq_tooLarge_iff.2 ⟨hn, a, b, c, d, u ++ t, rfl, hsize⟩
  refine ⟨payloads_of_no_frame fun p r h => ?_, hcut⟩
  cases hcut.symm.trans h

/-- What a longer stream says. -/
theorem said_append (s t : Bytes) :
    said (s ++ t) = if Spoilt s then said s else said s ++ said (leftover s ++ t) := by
  rw [said, payloads_going_on, Reader.messages_append]
  by_cases hread : (Reader.messages (payloads s).1).2 = true
  · rw [if_pos hread, if_pos (.inl hread)]
    rfl
  · rw [if_neg hread]
    split
    · next h =>
      obtain ⟨n, hn⟩ := h.resolve_left hread
      rw [(payloads_of_tooLarge hn t).1]
      exact List.append_nil _
    · rfl

theorem spoilt_append (s t : Bytes) :
    Spoilt (s ++ t) ↔ Spoilt s ∨ Spoilt (leftover s ++ t) := by
  have hleft : leftover (s ++ t) = leftover (leftover s ++ t) := by
    rw [leftover, payloads_going_on]
  rw [Spoilt, hleft, payloads_going_on, Reader.messages_append]
  by_cases hread : (Reader.messages (payloads s).1).2 = true
  · rw [if_pos hread]
    have hs : Spoilt s := .inl hread
    simp [hread, hs]
  · rw [if_neg hread]
    constructor
    · exact .inr
    · rintro (h | h)
      · obtain ⟨n, hn⟩ := h.resolve_left hread
        obtain ⟨hnone, hcut⟩ := payloads_of_tooLarge hn t
        refine .inr ⟨n, ?_⟩
        rw [leftover, hnone]
        exact hcut
      · exact h

/-- Nothing counts that comes after a frame that cannot be read. -/
theorem said_append_of_spoilt {s : Bytes} (h : Spoilt s) (t : Bytes) :
    said (s ++ t) = said s ∧ Spoilt (s ++ t) := by
  rw [said_append, if_pos h]
  exact ⟨rfl, (spoilt_append s t).2 (.inl h)⟩

/-! ### Readers -/

/-- The reader has been fed this stream. -/
structure Reader.Tracks (r : Reader) (s : Bytes) : Prop where
  broken : r.broken = true ↔ Spoilt s
  held : r.broken = false → r.held = leftover s

namespace Reader.Tracks

variable {r : Reader} {s : Bytes}

theorem nil : Tracks {} [] := by
  refine ⟨by simpa using not_spoilt_nil, fun _ => ?_⟩
  rw [leftover, payloads_of_no_frame (by simp [cut])]

/-- Feeding a reader goes on with the stream, and yields what the stream says more. -/
theorem feed (h : Tracks r s) (t : Bytes) :
    Tracks (r.feed t).1 (s ++ t) ∧ said (s ++ t) = said s ++ (r.feed t).2 := by
  rw [Reader.feed]
  split
  · next hbroken =>
    obtain ⟨hsaid, hspoilt⟩ := said_append_of_spoilt (h.broken.1 hbroken) t
    exact ⟨⟨by simp [hbroken, hspoilt], by simp [hbroken]⟩, by rw [hsaid, List.append_nil]⟩
  · next hbroken =>
    have hsound : ¬ Spoilt s := mt h.broken.2 hbroken
    have hleft : leftover (s ++ t) = leftover (leftover s ++ t) := by
      rw [leftover, payloads_going_on]
    rw [h.held (Bool.eq_false_iff.2 hbroken)]
    refine ⟨⟨?_, fun _ => hleft.symm⟩, ?_⟩
    · rw [spoilt_append, or_iff_right hsound]
      exact spoilt_iff
    · rw [said_append, if_neg hsound]
      rfl

end Reader.Tracks

end Switchboard
