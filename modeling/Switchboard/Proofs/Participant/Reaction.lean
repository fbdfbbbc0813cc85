import Switchboard.Proofs.Network.Sound

/-! # What a link does about an event

An event at a link comes to one of four things: nothing comes of it, the link takes note of it, the
link writes something, or the link is lost.  What is said of every event at a link is proved from
this list.

* **Skipping.** `Link.Skips` says when nothing comes of an event.
* **Notes.** `Link.Notes` says what the link has become, and what comes of that, where nothing is
  written.
* **Writing.** `Link.Writes` says what is to be written, and for what.  If it cannot be written, the
  link is lost as it has become.
* **Main statement.** `Link.reacts_step`: what an event does is one of the reactions of
  `Link.Reacts`. -/

namespace Switchboard.Link

variable {η : Type} [DecidableEq η]

/-- An event that nothing comes of. -/
inductive Skips (l : Link η) : LinkEvent η → Prop
  | lost {e : LinkEvent η} (hu : l.up = false) : Skips l e
  | withdrawal {context : String} (hp : l.pending.get? context = none) :
    Skips l (.commanded (.cancel context))
  | update {context : String} {v : Json} (hr : l.running.get? context = none) :
    Skips l (.commanded (.update context v))
  | finish {context : String} {o : Outcome} (hr : l.running.get? context = none) :
    Skips l (.commanded (.finish context o))
  | served {c : Call} {job : JobId} (hr : l.running.get? c.context = some job) :
    Skips l (.heard (.call c))
  | updated {context : String} {v : Json} (hp : l.pending.get? context ≠ some .call) :
    Skips l (.heard (.update context v))
  | answered {context : String} {o : Outcome} (hp : l.pending.get? context = none) :
    Skips l (.heard (.result context o))
  | withdrawn {context : String} (hr : l.running.get? context = none) :
    Skips l (.heard (.cancel context))
  | registered {context name : String} {priority : UInt16} {id : HandlerId} :
    Skips l (.heard (.register context name priority id))

/-- An event that the link takes note of, with the link that has done so and what comes of it. -/
inductive Notes (l : Link η) : LinkEvent η → Link η → List (Effect η) → Prop
  | refuses {context name : String} {priority : UInt16} {handler : η} {e : Failure}
      (hr : l.roster.register name priority handler = .error e) :
    Notes l (.commanded (.register context name priority handler)) l
      [.registered context (.error e)]
  | starts {c : Call} {handler : η} (hh : c.handler.bind l.roster.get? = some handler)
      (hr : l.running.get? c.context = none) :
    Notes l (.heard (.call c))
      { l with running := l.running.insert c.context l.jobs, jobs := l.jobs + 1 }
      [.started l.jobs handler c]
  | passes {context : String} {v : Json} (hp : l.pending.get? context = some .call) :
    Notes l (.heard (.update context v)) l [.delivered context (.update v)]
  | ends {context : String} {o : Outcome} (hp : l.pending.get? context = some .call) :
    Notes l (.heard (.result context o)) { l with pending := l.pending.erase context }
      [.delivered context (.finished o)]
  | confirms {context : String} {o : Outcome} {id : HandlerId}
      (hp : l.pending.get? context = some (.registration id)) (ho : o.isValue = true) :
    Notes l (.heard (.result context o)) { l with pending := l.pending.erase context }
      [.registered context (.ok ())]
  | rejects {context : String} {o : Outcome} {id : HandlerId}
      (hp : l.pending.get? context = some (.registration id)) (ho : o.isValue = false) :
    Notes l (.heard (.result context o))
      { l with pending := l.pending.erase context, roster := l.roster.remove id }
      [.registered context (.error (.io (.rejected o)))]
  | stops {context : String} {job : JobId} (hr : l.running.get? context = some job) :
    Notes l (.heard (.cancel context)) { l with running := l.running.erase context }
      [.interrupted job]
  | deafens : Notes l .deafened { l with writable := false } []

/-- An event that the link writes something for, with the link that has taken note of it and what is
to be written. -/
inductive Writes (l : Link η) : LinkEvent η → Link η → Message → Prop
  | registers {context name : String} {priority : UInt16} {handler : η} {id : HandlerId}
      {roster : Roster η} (hr : l.roster.register name priority handler = .ok (id, roster)) :
    Writes l (.commanded (.register context name priority handler))
      { l with roster, pending := l.pending.insert context (.registration id) }
      (.register context name priority id)
  | calls (c : Call) : Writes l (.commanded (.call c))
      { l with pending := l.pending.insert c.context .call } (.call c)
  | cancels {context : String} (hp : l.pending.contains context = true) :
    Writes l (.commanded (.cancel context)) { l with pending := l.pending.erase context }
      (.cancel context)
  | updates {context : String} {v : Json} {job : JobId}
      (hr : l.running.get? context = some job) :
    Writes l (.commanded (.update context v)) l (.update context v)
  | finishes {context : String} {o : Outcome} {job : JobId}
      (hr : l.running.get? context = some job) :
    Writes l (.commanded (.finish context o)) { l with running := l.running.erase context }
      (.result context o)
  | declines {c : Call} (hh : c.handler.bind l.roster.get? = none) :
    Writes l (.heard (.call c)) l (.result c.context .declined)

/-- What becomes of a link by an event, and what comes of that. -/
inductive Reacts (l : Link η) (e : LinkEvent η) : Link η × List (Effect η) → Prop
  | skips (h : l.Skips e) : Reacts l e (l, [])
  | notes {l' : Link η} {fs : List (Effect η)} (hu : l.up = true) (h : l.Notes e l' fs) :
    Reacts l e (l', fs)
  | wrote {l' : Link η} {m : Message} (hu : l.up = true) (h : l.Writes e l' m)
      (hf : l'.writable = true ∧ ∃ f, m.encode = .ok f) : Reacts l e (l', [.wrote m])
  /-- What is to be written cannot be written. -/
  | breaks {l' : Link η} {m : Message} (hu : l.up = true) (h : l.Writes e l' m)
      (hf : ¬(l'.writable = true ∧ ∃ f, m.encode = .ok f)) : Reacts l e l'.teardown
  /-- The link is shut down, or hears that the broker's stream ends. -/
  | falls (hu : l.up = true) (he : e = .commanded .shutdown ∨ e = .ended) : Reacts l e l.teardown

variable {l l' : Link η} {e : LinkEvent η} {m : Message} {fs : List (Effect η)}

omit [DecidableEq η] in
theorem get?_of_not_contains {ν : Type} {k : Keyed String ν} {context : String}
    (h : ¬k.contains context = true) : k.get? context = none := by
  rwa [Keyed.contains, Option.isSome_iff_ne_none, ne_eq, Classical.not_not] at h

theorem step_of_lost (h : l.up = false) (e : LinkEvent η) : l.step e = (l, []) := by
  simp only [step, h, Bool.false_eq_true, if_false]

theorem step_commanded (hu : l.up = true) (c : Command η) : l.step (.commanded c) = l.obey c :=
  if_pos hu

theorem step_heard (hu : l.up = true) (m : Message) : l.step (.heard m) = l.hear m := if_pos hu

omit [DecidableEq η] in
/-- A message is written if it can be, and else the link is lost. -/
theorem write_of_fits (l : Link η) (m : Message) :
    (l.writable = true ∧ ∃ f, m.encode = .ok f) ∧ l.write m = (l, [.wrote m]) ∨
      ¬(l.writable = true ∧ ∃ f, m.encode = .ok f) ∧ l.write m = l.teardown := by
  cases he : m.encode with
  | error e => exact .inr ⟨(fun ⟨_, _, hf⟩ => nomatch hf), by simp [write, he]⟩
  | ok f =>
    cases hw : l.writable with
    | false => exact .inr ⟨fun h => Bool.noConfusion h.1, by simp [write, hw]⟩
    | true => exact .inl ⟨⟨rfl, f, rfl⟩, by simp [write, hw, he]⟩

theorem Writes.reacts (h : l.Writes e l' m) (hu : l.up = true) : l.Reacts e (l'.write m) := by
  rcases l'.write_of_fits m with ⟨hf, hw⟩ | ⟨hf, hw⟩
  · rw [hw]
    exact .wrote hu h hf
  · rw [hw]
    exact .breaks hu h hf

theorem reacts_obey (hu : l.up = true) (c : Command η) : l.Reacts (.commanded c) (l.obey c) := by
  cases c with
  | register context name priority handler =>
    cases hr : l.roster.register name priority handler with
    | error e =>
      simp only [obey, hr]
      exact .notes hu (.refuses hr)
    | ok r =>
      simp only [obey, hr]
      exact (Writes.registers hr).reacts hu
  | call c => exact (Writes.calls c).reacts hu
  | cancel context =>
    simp only [obey]
    split
    · next hp => exact (Writes.cancels hp).reacts hu
    · next hp => exact .skips (.withdrawal (get?_of_not_contains hp))
  | update context v =>
    simp only [obey]
    split
    · next hr =>
      obtain ⟨job, hjob⟩ := Option.isSome_iff_exists.1 hr
      exact (Writes.updates hjob).reacts hu
    · next hr => exact .skips (.update (get?_of_not_contains hr))
  | finish context o =>
    simp only [obey]
    split
    · next hr =>
      obtain ⟨job, hjob⟩ := Option.isSome_iff_exists.1 hr
      exact (Writes.finishes hjob).reacts hu
    · next hr => exact .skips (.finish (get?_of_not_contains hr))
  | shutdown => exact .falls hu (.inl rfl)

theorem reacts_hear (hu : l.up = true) (m : Message) : l.Reacts (.heard m) (l.hear m) := by
  cases m with
  | call c =>
    simp only [hear, dispatch]
    split
    · next hh => exact (Writes.declines hh).reacts hu
    · next hh =>
      split
      · next hr =>
        obtain ⟨job, hjob⟩ := Option.isSome_iff_exists.1 hr
        exact .skips (.served hjob)
      · next hr => exact .notes hu (.starts hh (get?_of_not_contains hr))
  | update context v =>
    simp only [hear]
    split
    · next hp => exact .notes hu (.passes hp)
    · next hp => exact .skips (.updated hp)
  | result context o =>
    simp only [hear, answer]
    split
    · next hp => exact .notes hu (.ends hp)
    · next hp =>
      split
      · next ho => exact .notes hu (.confirms hp ho)
      · next ho => exact .notes hu (.rejects hp (Bool.eq_false_iff.2 ho))
    · next hp => exact .skips (.answered hp)
  | cancel context =>
    simp only [hear]
    split
    · next hr => exact .notes hu (.stops hr)
    · next hr => exact .skips (.withdrawn hr)
  | register => exact .skips .registered

/-- What an event does is one of the reactions. -/
theorem reacts_step (l : Link η) (e : LinkEvent η) : l.Reacts e (l.step e) := by
  cases hu : l.up with
  | false =>
    rw [step_of_lost hu]
    exact .skips (.lost hu)
  | true =>
    unfold step
    rw [if_pos hu]
    cases e with
    | commanded c => exact reacts_obey hu c
    | heard m => exact reacts_hear hu m
    | deafened => exact .notes hu .deafens
    | ended => exact .falls hu (.inr rfl)

theorem Notes.up (h : l.Notes e l' fs) : l'.up = l.up := by
  cases h <;> rfl

theorem Writes.up (h : l.Writes e l' m) : l'.up = l.up := by
  cases h <;> rfl

end Switchboard.Link
