import Switchboard.Participant.Inbox
import Switchboard.Proofs.Frame.Messages

/-! # What a participant finds in its inbox

A participant reads its stream message by message, and puts into its inbox what it reads.

* **Failures.** Whatever goes wrong with reading a message is fatal (`isFatal_of_readMessage`), so the
  first failure in an inbox is also the last thing in it.
* **Main statement.** `inbox_eq`: the inbox holds what the stream says, and then a failure unless the
  stream ends cleanly.  So the link hears what the stream says and then is lost, and nothing is
  skipped (`ofInbox_inbox`). -/

namespace Switchboard

theorem decode_error {p : Bytes} {f : Failure} (h : Message.decode p = .error f) :
    f = .malformed ∨ f = .notUtf8 := by
  unfold Message.decode at h
  split at h
  · unfold Message.ofText at h
    split at h
    · cases h
    · exact .inl (Except.error.inj h).symm
  · exact .inr (Except.error.inj h).symm

theorem isFatal_of_decode {p : Bytes} {f : Failure} (h : Message.decode p = .error f) :
    f.isFatal = true := by
  rcases decode_error h with rfl | rfl <;> rfl

/-! ### What is said, frame by frame -/

theorem said_of_ok {s p r : Bytes} {m : Message} (h : cut s = .payload p r)
    (hp : Message.decode p = .ok m) :
    said s = m :: said r ∧ (Spoilt s ↔ Spoilt r) ∧ leftover s = leftover r := by
  obtain ⟨rfl, hfits⟩ := eq_of_cut h
  simp only [said, Spoilt, leftover, payloads_framed hfits, Reader.messages_ok hp, and_self]

theorem said_of_error {s p r : Bytes} {f : Failure} (h : cut s = .payload p r)
    (hp : Message.decode p = .error f) : said s = [] ∧ Spoilt s := by
  obtain ⟨rfl, hfits⟩ := eq_of_cut h
  simp only [said, Spoilt, leftover, payloads_framed hfits, Reader.messages_error hp, true_or,
    and_self]

theorem said_of_no_frame {s : Bytes} (h : ∀ p r, cut s ≠ .payload p r) :
    said s = [] ∧ (Spoilt s ↔ ∃ n, cut s = .tooLarge n) ∧ leftover s = s := by
  simp [said, Spoilt, leftover, payloads_of_no_frame h, Reader.messages]

namespace Pieces

/-! ### Reading a message -/

/-- Reading a message off pieces does what cutting does to their bytes. -/
theorem readMessage_cases (s : Pieces) :
    (∃ p r, s.readMessage = ((Message.decode p).map some, r) ∧
      cut s.flatten = .payload p r.flatten) ∨
    (∃ n r, s.readMessage = (.error (.frameTooLarge n maxFrameSize), r) ∧
      cut s.flatten = .tooLarge n) ∨
    (s.readMessage = (if s.flatten = [] then .ok none else .error (.io .truncated), []) ∧
      cut s.flatten = .short) := by
  unfold readMessage
  rcases s.readFrame_cases with ⟨p, r, h, hc⟩ | ⟨n, h, hc⟩ | ⟨h, hc⟩
  · rw [h]
    exact .inl ⟨p, r, rfl, hc⟩
  · rw [h]
    exact .inr (.inl ⟨n, _, rfl, hc⟩)
  · rw [h]
    refine .inr (.inr ⟨?_, hc⟩)
    by_cases hs : s.flatten = [] <;> simp [hs]

theorem isFatal_of_readMessage {s r : Pieces} {f : Failure} (h : s.readMessage = (.error f, r)) :
    f.isFatal = true := by
  rcases s.readMessage_cases with ⟨p, r', hp, _⟩ | ⟨n, r', hn, _⟩ | ⟨hs, _⟩
  · rw [hp] at h
    cases hd : Message.decode p with
    | ok m =>
      rw [hd] at h
      cases (Prod.mk.inj h).1
    | error g =>
      rw [hd] at h
      obtain rfl := Except.error.inj (Prod.mk.inj h).1
      exact isFatal_of_decode hd
  · rw [hn] at h
    obtain rfl := Except.error.inj (Prod.mk.inj h).1
    rfl
  · rw [hs] at h
    have hf := (Prod.mk.inj h).1
    split at hf
    · cases hf
    · obtain rfl := Except.error.inj hf
      rfl

/-! ### The inbox -/

theorem inbox_of_end {s r : Pieces} (h : s.readMessage = (.ok none, r)) : s.inbox = [] := by
  rw [inbox]
  split
  · rfl
  · next h' => cases h.symm.trans h'
  · next h' => cases h.symm.trans h'

theorem inbox_of_message {s r : Pieces} {m : Message} (h : s.readMessage = (.ok (some m), r)) :
    s.inbox = .ok m :: r.inbox := by
  rw [inbox]
  split
  · next h' => cases h.symm.trans h'
  · next h' =>
    obtain ⟨hm, rfl⟩ := Prod.mk.inj (h.symm.trans h')
    obtain rfl := Option.some.inj (Except.ok.inj hm)
    rfl
  · next h' => cases h.symm.trans h'

/-- After a failure, which is fatal, nothing is read. -/
theorem inbox_of_failure {s r : Pieces} {f : Failure} (h : s.readMessage = (.error f, r)) :
    s.inbox = [.error f] := by
  rw [inbox]
  split
  · next h' => cases h.symm.trans h'
  · next h' => cases h.symm.trans h'
  · next h' =>
    obtain ⟨hf, rfl⟩ := Prod.mk.inj (h.symm.trans h')
    obtain rfl := Except.error.inj hf
    rw [if_pos (isFatal_of_readMessage h)]

/-- **The inbox holds what the stream says**, and then one failure, which is fatal, unless the stream
ends cleanly: it is not spoilt, and nothing is left of it after its frames. -/
theorem inbox_eq (s : Pieces) :
    ∃ last : Option Failure, s.inbox = (said s.flatten).map .ok ++ last.toList.map .error ∧
      (∀ f ∈ last, f.isFatal = true) ∧
      (last = none ↔ ¬ Spoilt s.flatten ∧ leftover s.flatten = []) := by
  have broken {f : Failure} {r : Pieces} (h : s.readMessage = (.error f, r))
      (hsaid : said s.flatten = []) (hbad : Spoilt s.flatten ∨ leftover s.flatten ≠ []) :
      ∃ last : Option Failure, s.inbox = (said s.flatten).map .ok ++ last.toList.map .error ∧
        (∀ f ∈ last, f.isFatal = true) ∧
        (last = none ↔ ¬ Spoilt s.flatten ∧ leftover s.flatten = []) := by
    refine ⟨some f, ?_, ?_, ?_⟩
    · rw [inbox_of_failure h, hsaid]
      rfl
    · rintro g ⟨⟩
      exact isFatal_of_readMessage h
    · simp only [reduceCtorEq, false_iff]
      rintro ⟨hsound, hleft⟩
      exact hbad.elim hsound (· hleft)
  rcases s.readMessage_cases with ⟨p, r, h, hc⟩ | ⟨n, r, h, hc⟩ | ⟨h, hc⟩
  · cases hp : Message.decode p with
    | error f =>
      rw [hp] at h
      obtain ⟨hsaid, hspoilt⟩ := said_of_error hc hp
      exact broken h hsaid (.inl hspoilt)
    | ok m =>
      rw [hp] at h
      obtain ⟨hsaid, hspoilt, hleft⟩ := said_of_ok hc hp
      obtain ⟨last, hlast, hfatal, hnone⟩ := inbox_eq r
      refine ⟨last, ?_, hfatal, ?_⟩
      · rw [inbox_of_message h, hsaid, hlast]
        rfl
      · rw [hnone, hspoilt, hleft]
  · have hno : ∀ p r, cut s.flatten ≠ .payload p r := by simp [hc]
    obtain ⟨hsaid, hspoilt, _⟩ := said_of_no_frame hno
    exact broken h hsaid (.inl (hspoilt.2 ⟨n, hc⟩))
  · have hno : ∀ p r, cut s.flatten ≠ .payload p r := by simp [hc]
    obtain ⟨hsaid, hspoilt, hleft⟩ := said_of_no_frame hno
    by_cases hs : s.flatten = []
    · rw [if_pos hs] at h
      refine ⟨none, ?_, by simp, ?_⟩
      · rw [inbox_of_end h, hsaid]
        rfl
      · rw [hspoilt, hleft, hc]
        simp [hs]
    · rw [if_neg hs] at h
      exact broken h hsaid (.inr (by rwa [hleft]))
termination_by s.flatten.length
decreasing_by exact length_lt_of_cut hc

end Pieces

theorem LinkEvent.ofInbox_append {η : Type} (ms : List Message) {last : Option Failure}
    (h : ∀ f ∈ last, f.isFatal = true) :
    (ofInbox (ms.map .ok ++ last.toList.map .error) : List (LinkEvent η)) =
      ms.map .heard ++ [.ended] := by
  induction ms with
  | nil =>
    cases last with
    | none => rfl
    | some f =>
      simp only [List.map_nil, List.nil_append, Option.toList_some, List.map_cons]
      rw [ofInbox, if_pos (h f rfl)]
  | cons m ms ih =>
    rw [List.map_cons, List.cons_append, ofInbox, ih]
    rfl

/-- **Nothing is skipped.**  The link hears what the stream says, and then it is lost. -/
theorem ofInbox_inbox {η : Type} (s : Pieces) :
    (LinkEvent.ofInbox s.inbox : List (LinkEvent η)) =
      (said s.flatten).map .heard ++ [.ended] := by
  obtain ⟨last, hlast, hfatal, _⟩ := s.inbox_eq
  rw [hlast]
  exact LinkEvent.ofInbox_append (said s.flatten) hfatal

end Switchboard
