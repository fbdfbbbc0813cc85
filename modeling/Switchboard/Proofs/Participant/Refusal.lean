import Switchboard.Proofs.Exchange.Room
import Switchboard.Proofs.Participant.Enlisting
import Switchboard.Proofs.Participant.Loss

/-! # Commands that ask for too much

A command may ask for a message that does not fit into a frame.  Nothing of the message is written
then, but the link is lost with it, as when the broker does not take any more what is written.

* **Limit.** Whether the link outlives a command depends on the size of what is to be written, and on
  whether anything can be written at all (`Writes.step_of_fits`, `Writes.step_of_large`).
* **Others.** A message that fits leaves everything alone that it is not about.  One that does not
  fit takes everything with it.
* **Main statement.** `large_message_ends_session`. -/

namespace Switchboard.Link

variable {η : Type} [DecidableEq η] {l l' : Link η} {e : LinkEvent η} {m : Message}

/-! ### The limit -/

theorem Writes.writable (h : l.Writes e l' m) : l'.writable = l.writable := by
  cases h <;> rfl

/-- An event that something is to be written for is over when it has been written, or else the link
is torn down. -/
theorem Writes.step_eq (h : l.Writes e l' m) (hu : l.up = true) : l.step e = l'.write m := by
  cases h with
  | registers hr =>
    rw [step_commanded hu]
    simp only [obey, hr]
  | calls c => rw [step_commanded hu, obey]
  | cancels hp =>
    rw [step_commanded hu]
    simp only [obey, hp, if_true]
  | updates hr | finishes hr =>
    rw [step_commanded hu]
    simp only [obey, Keyed.contains, hr, Option.isSome_some, if_true]
  | declines hh =>
    rw [step_heard hu]
    simp only [hear, dispatch, hh]

theorem Writes.step_of_fits (h : l.Writes e l' m) (hu : l.up = true) (hw : l.writable = true)
    (hm : m.size ≤ maxFrameSize) : l.step e = (l', [.wrote m]) := by
  rw [h.step_eq hu]
  rcases l'.write_of_fits m with ⟨-, hwrite⟩ | ⟨hnot, -⟩
  · exact hwrite
  · exact (hnot ⟨h.writable.trans hw, m.encode_eq.1 hm⟩).elim

/-- Nothing else is tried when a message is too large. -/
theorem Writes.step_of_large (h : l.Writes e l' m) (hu : l.up = true)
    (hm : maxFrameSize < m.size) : l.step e = l'.teardown := by
  rw [h.step_eq hu]
  rcases l'.write_of_fits m with ⟨⟨-, f, hf⟩, -⟩ | ⟨-, hwrite⟩
  · rw [m.encode_eq.2 hm] at hf
    cases hf
  · exact hwrite

theorem Writes.up_iff (h : l.Writes e l' m) (hu : l.up = true) :
    (l.step e).1.up = true ↔ m.size ≤ maxFrameSize ∧ l.writable = true := by
  rw [h.step_eq hu, ← h.writable]
  rcases l'.write_of_fits m with ⟨⟨hw, f, hf⟩, hwrite⟩ | ⟨hnot, hwrite⟩
  · have hm : m.size ≤ maxFrameSize := by
      by_contra hm
      rw [m.encode_eq.2 (Nat.lt_of_not_le hm)] at hf
      cases hf
    rw [hwrite]
    exact iff_of_true (h.up.trans hu) ⟨hm, hw⟩
  · rw [hwrite]
    exact iff_of_false nofun fun ⟨hm, hw⟩ => hnot ⟨hw, m.encode_eq.1 hm⟩

/-! ### Others -/

theorem Writes.roster (h : l.Writes e l' m)
    (hr : ∀ context name priority handler,
      e ≠ .commanded (.register context name priority handler)) : l'.roster = l.roster := by
  cases h with
  | registers => exact (hr _ _ _ _ rfl).elim
  | calls | cancels | updates | finishes | declines => rfl

omit [DecidableEq η] in
theorem not_wrote_of_teardown : .wrote m ∉ l.teardown.2 := by
  intro h
  rcases List.mem_append.1 h with h | h
  · obtain ⟨⟨context, _ | id⟩, -, heq⟩ := List.mem_map.1 h <;> cases heq
  · obtain ⟨job, -, heq⟩ := List.mem_map.1 h
    cases heq

/-- **A message that is too large ends the session.**  A command has something written, and changes
nothing but what it is about.  The link stays up just when that fits into a frame and the broker
takes what is written.  If it does not fit, nothing is written, but whatever waits and whatever is
being served, about the command or not, is told that it does not count any more, and nothing comes
of anything later. -/
theorem large_message_ends_session {c : Command η} (hu : l.up = true)
    (hc : l.Writes (.commanded c) l' m) :
    let r := l.step (.commanded c)
    (r.1.up = true ↔ m.size ≤ maxFrameSize ∧ l.writable = true) ∧
    (m.size ≤ maxFrameSize → l.writable = true → r = (l', [.wrote m])) ∧
    (∀ k, (LinkEvent.commanded c).concerns? ≠ some k → l'.pending.get? k = l.pending.get? k) ∧
    (∀ k, (∀ o, c ≠ .finish k o) → l'.running.get? k = l.running.get? k) ∧
    ((∀ context name priority handler, c ≠ .register context name priority handler) →
      l'.roster = l.roster) ∧
    (maxFrameSize < m.size →
      m.encode = .error (.frameTooLarge m.size maxFrameSize) ∧ r = l'.teardown ∧
      r.1.up = false ∧ (∀ m', .wrote m' ∉ r.2) ∧
      (∀ k p, (LinkEvent.commanded c).concerns? ≠ some k → l.pending.get? k = some p →
        abandoned (k, p) ∈ r.2) ∧
      (∀ k job, (∀ o, c ≠ .finish k o) → l.running.get? k = some job → .interrupted job ∈ r.2) ∧
      r.1.pending = ∅ ∧ r.1.running = ∅ ∧ r.1.roster.size = 0 ∧
      (∀ name, r.1.roster.directory.entries name = []) ∧
      ∀ es, r.1.run es = (r.1, [])) := by
  intro r
  have hpending (k : String) (hk : (LinkEvent.commanded c).concerns? ≠ some k) :
      l'.pending.get? k = l.pending.get? k := hc.elsewhere hk
  have hrunning (k : String) (hk : ∀ o, c ≠ .finish k o) :
      l'.running.get? k = l.running.get? k :=
    hc.running_elsewhere fun o ho => hk o (LinkEvent.commanded.inj ho)
  refine ⟨hc.up_iff hu, fun hm hw => hc.step_of_fits hu hw hm, hpending, hrunning,
    fun hr => hc.roster fun _ _ _ _ h => hr _ _ _ _ (LinkEvent.commanded.inj h), fun hm => ?_⟩
  have hr : r = l'.teardown := hc.step_of_large hu hm
  refine ⟨m.encode_eq.2 hm, hr, ?_⟩
  rw [hr]
  refine ⟨rfl, fun m' => not_wrote_of_teardown, fun k p hk hp => ?_, fun k job hk hj => ?_, rfl, rfl,
    rfl, fun name => l'.roster.directory.entries_clear name, run_of_lost rfl⟩
  · exact mem_teardown_of_pending ((hpending k hk).trans hp)
  · exact mem_teardown_of_running ((hrunning k hk).trans hj)

/-- A link at which a registration and a call wait. -/
def awaiting : Link Unit := { applying with pending := applying.pending.insert "a" .call }

theorem run_awaiting :
    run ({} : Link Unit) [.commanded (.register "r" "f" 0 ()),
        .commanded (.call { context := "a", function := "g" })] =
      (awaiting, [.wrote (.register "r" "f" 0 1),
        .wrote (.call { context := "a", function := "g" })]) := by
  have hs : (Message.call { context := "a", function := "g" }).size = 66 := by cbv
  have hcall : applying.step (.commanded (.call { context := "a", function := "g" })) =
      (awaiting, [.wrote (.call { context := "a", function := "g" })]) :=
    (Writes.calls _).step_of_fits rfl rfl (by rw [hs]; decide)
  simp only [run, step_applying, hcall, List.append_nil, List.cons_append, List.nil_append]

/-- A call whose arguments are as long as a frame can be. -/
def immense : Call := { context := "b", function := "h", args := Exchange.repeated maxFrameSize }

theorem size_immense : (Message.call immense).size = maxFrameSize + 64 := by
  have hsmall : (Json.str "b").size = 3 ∧ (Json.str "h").size = 3 ∧
      (Json.num (.ofUInt32 0)).size = 1 := by
    refine ⟨?_, ?_, ?_⟩ <;> cbv
  obtain ⟨hb, hh, hd⟩ := hsmall
  rw [Message.size_call, immense]
  simp only [hb, hh, hd, Exchange.size_repeated, Option.elim_none]
  rw [Nat.add_comm maxFrameSize]
  omega

theorem large_immense : maxFrameSize < (Message.call immense).size := by
  rw [size_immense]
  exact Nat.lt_add_of_pos_right (by decide)

/-- Two commands are waiting for their answers when a call is too large. -/
theorem large_message_ends_session_call :
    let r := awaiting.step (.commanded (.call immense))
    maxFrameSize < (Message.call immense).size ∧ r.1.up = false ∧
      .detached "a" ∈ r.2 ∧ .registered "r" (.error .disconnected) ∈ r.2 ∧
      ∀ es, r.1.run es = (r.1, []) := by
  intro r
  obtain ⟨-, -, -, -, -, hends⟩ := large_message_ends_session (l := awaiting) rfl (.calls immense)
  obtain ⟨-, -, hdown, -, hpending, -, -, -, -, -, hlater⟩ := hends large_immense
  exact ⟨large_immense, hdown, hpending "a" .call (by decide) rfl,
    hpending "r" (.registration 1) (by decide) rfl, hlater⟩

/-- A call that was to be answered is not, because another one was too large. -/
theorem large_call_detaches_others :
    let l := (run ({} : Link Unit) [.commanded (.register "r" "f" 0 ()),
      .commanded (.call { context := "a", function := "g" })]).1
    let r := l.step (.commanded (.call immense))
    let answer : LinkEvent Unit := .heard (.result "a" (.value .null))
    (Message.call immense).encode = .error (.frameTooLarge (maxFrameSize + 64) maxFrameSize) ∧
      l.up = true ∧ r.1.up = false ∧
      (l.step answer).2 = [.delivered "a" (.finished (.value .null))] ∧
      (r.1.step answer).2 = [] ∧
      l.pending.get? "r" = some (.registration 1) ∧ r.1.pending.get? "r" = none := by
  intro l r answer
  have hl : l = awaiting := congrArg Prod.fst run_awaiting
  have hr : r = _ := (Writes.calls immense).step_of_large (l := l) (hl ▸ rfl) large_immense
  rw [← size_immense, hr, hl]
  exact ⟨(Message.encode_eq _).2 large_immense, rfl, rfl, rfl, rfl, rfl, rfl⟩

end Switchboard.Link
