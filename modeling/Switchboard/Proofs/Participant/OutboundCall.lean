import Switchboard.Proofs.Network.Operate

/-! # A call ends once for its caller

A caller reads a call, waits for it, cancels it and lets go of it in the end, while events arrive for
it and stop arriving at any time.

* **Uses.** `Use` names what the caller can do with a call.  A use of a station's call changes that
  call as `OutboundCall.use` says, and leaves a command for the link only if the call was pending and
  is given up by it (`operate_use`).
* **Finished calls.** A call has a result just when it is not pending (`Concluded`).  Then it answers
  every use by its result alone (`Use.afterwards`), stays as it is, and keeps what has not been read
  (`use_of_done`).
* **Lost links.** A use fails for want of a link only if nothing is left to be read (`Stranded`).
* **Lives.** `Lives` follows a call through everything that can happen at its station, and a `Log`
  says what has arrived for it, what the caller has seen of that and which commands were left.  The
  log always fits the call (`Log.Fits`, `Lives.fits`).
* **Main statement.** `call_ends_once`. -/

namespace Switchboard

/-! ### Uses -/

/-- What a caller does with a call. -/
inductive Use where
  | recv
  | tryRecv
  | wait
  | waitFor {α : Type} (decode : Json → Except String α)
  | cancel
  | drop

namespace Use

/-- A use as an operation on a participant's call. -/
def operation {η : Type} (context : String) : Use → Operation η
  | recv => .recv context
  | tryRecv => .tryRecv context
  | wait => .wait context
  | waitFor decode => .waitFor context decode
  | cancel => .cancel context
  | drop => .dropCall context

/-- What a use comes to when the call has ended with an outcome. -/
def afterwards (o : Outcome) : Use → Reply
  | recv => .update (.ready (.error .done))
  | tryRecv => .update (.ready (.ok none))
  | wait => .outcome (.ready (.ok o))
  | waitFor decode => .value (.ready (o.decoded decode))
  | cancel => .done (.error .done)
  | drop => .done (.ok ())

end Use

/-- Why an operation failed, if it did. -/
def Reply.failure? : Reply → Option Failure
  | done (.error e) | started (.error e) | update (.ready (.error e))
  | outcome (.ready (.error e)) | value (.ready (.error e)) => some e
  | _ => none

/-- The partial result in the answer to a use, if there is one. -/
def Reply.given : Reply → List Json
  | update (.ready (.ok (some v))) => [v]
  | _ => []

/-- The partial results among some events. -/
def updatesOf (es : List CallEvent) : List Json :=
  es.filterMap fun
    | .update v => some v
    | .finished _ => none

theorem updatesOf_append (es fs : List CallEvent) :
    updatesOf (es ++ fs) = updatesOf es ++ updatesOf fs := List.filterMap_append

/-- The partial results that a use takes off the queue: one that is read is given to the caller, and
those before a result that is waited for are passed over. -/
def Use.seen (before after : OutboundCall) (reply : Reply) : Use → List Json
  | recv | tryRecv => reply.given
  | wait | waitFor _ => updatesOf (before.events.take (before.events.length - after.events.length))
  | cancel | drop => []

namespace OutboundCall

/-- What a use answers and makes of a call. -/
def use (c : OutboundCall) : Use → Reply × OutboundCall
  | .recv => (.update c.recv.1, c.recv.2)
  | .tryRecv => (.update (.ready c.tryRecv.1), c.tryRecv.2)
  | .wait => (.outcome c.wait.1, c.wait.2)
  | .waitFor decode => (.value (c.waitFor decode).1, (c.waitFor decode).2)
  | .cancel =>
    match c.cancel with
    | .ok c' => (.done (.ok ()), c')
    | .error e => (.done (.error e), c)
  | .drop => (.done (.ok ()), c.drop)

/-- Whether a use withdraws a call. -/
def withdraws (c : OutboundCall) : Use → Bool
  | .cancel => !c.isDone
  | .drop => !(c.isDone || c.dropped)
  | _ => false

/-- The commands that a use of a call leaves; without a link there is nobody to leave them for. -/
def withdrawal {η : Type} (c : OutboundCall) (context : String) (up : Bool) (u : Use) :
    List (Command η) :=
  if c.withdraws u && up then [.cancel context] else []

section Withdrawal

variable {η : Type} {c : OutboundCall} {u : Use}

theorem withdraws_of_done (h : c.isDone = true) (u : Use) : c.withdraws u = false := by
  cases u <;> simp [withdraws, h]

theorem withdrawal_of_not (h : c.withdraws u = false) (context : String) (up : Bool) :
    c.withdrawal context up u = ([] : List (Command η)) := by
  rw [withdrawal, h]
  rfl

theorem withdrawal_of_done (h : c.isDone = true) (context : String) (up : Bool) (u : Use) :
    c.withdrawal context up u = ([] : List (Command η)) :=
  withdrawal_of_not (withdraws_of_done h u) context up

theorem withdrawal_cases (c : OutboundCall) (context : String) (up : Bool) (u : Use) :
    c.withdrawal context up u = ([] : List (Command η)) ∨
      c.withdrawal context up u = ([.cancel context] : List (Command η)) := by
  unfold withdrawal
  split
  · exact .inr rfl
  · exact .inl rfl

end Withdrawal

end OutboundCall

namespace Station

variable {η : Type} {s : Station η} {context : String} {c : OutboundCall}

theorem get?_modify_self (h : s.calls.get? context = some c) (f : OutboundCall → OutboundCall) :
    (s.calls.modify context f).get? context = some (f c) := by
  rw [Keyed.get?_modify, if_pos rfl, h]
  rfl

theorem read_eq {α : Type} (h : s.calls.get? context = some c)
    (f : OutboundCall → Answer α × OutboundCall) :
    s.read context f =
      ({ s with calls := s.calls.modify context fun _ => (f c).2 }, (f c).1) := by
  simp only [read, onCall, h, Option.bind_eq_bind, Option.bind_some]

theorem cancel_of_done (h : s.calls.get? context = some c) (hd : c.isDone = true) :
    s.cancel context = .error .done := by
  simp only [Station.cancel, h, OutboundCall.cancel, if_pos hd]
  rfl

theorem cancel_of_pending (h : s.calls.get? context = some c) (hd : ¬ c.isDone = true) :
    s.cancel context = .ok (offer { s with
      calls := s.calls.modify context fun _ => c.withdraw } (.cancel context)) := by
  simp only [Station.cancel, h, OutboundCall.cancel, if_neg hd]
  rfl

theorem dropCall_eq (h : s.calls.get? context = some c) :
    s.dropCall context =
      if c.isDone || c.dropped then { s with calls := s.calls.modify context (·.drop) }
      else offer { s with calls := s.calls.modify context (·.drop) } (.cancel context) := by
  simp only [dropCall, h]

/-- Using a call of a station is using the call, and what is withdrawn is withdrawn by a command. -/
theorem operate_use (h : s.calls.get? context = some c) (u : Use) (fresh : String) :
    (s.operate fresh (u.operation context)).1.calls.get? context = some (c.use u).2 ∧
      (s.operate fresh (u.operation context)).1.queue =
        s.queue ++ c.withdrawal context s.link.up u ∧
      (s.operate fresh (u.operation context)).2 = (c.use u).1 := by
  have kept (hw : c.withdraws u = false) : s.queue = s.queue ++ c.withdrawal context s.link.up u := by
    rw [OutboundCall.withdrawal_of_not hw, List.append_nil]
  -- A command that is left is the last of the queue, if the link is there.
  have left (hw : c.withdraws u = true) (t : Station η) (hl : t.link = s.link)
      (hq : t.queue = s.queue) :
      (t.offer (.cancel context)).queue = s.queue ++ c.withdrawal context s.link.up u := by
    rw [offer_eq, OutboundCall.withdrawal, hl, hq, hw]
    by_cases hu : s.link.up = true <;> simp [hu]
  cases u with
  | recv | tryRecv | wait | waitFor =>
    simp only [Use.operation, operate, read_eq h]
    exact ⟨get?_modify_self h _, kept rfl, rfl⟩
  | cancel =>
    by_cases hd : c.isDone = true
    · simp only [Use.operation, operate, cancel_of_done h hd, attempt, OutboundCall.use,
        OutboundCall.cancel, hd]
      exact ⟨h, kept (OutboundCall.withdraws_of_done hd _), rfl⟩
    · simp only [Use.operation, operate, cancel_of_pending h hd, attempt, OutboundCall.use,
        OutboundCall.cancel, hd]
      have hw : c.withdraws .cancel = true := by simp [OutboundCall.withdraws, hd]
      refine ⟨?_, left hw _ rfl rfl, rfl⟩
      rw [offer_eq]
      exact get?_modify_self h _
  | drop =>
    simp only [Use.operation, operate, dropCall_eq h, OutboundCall.use]
    by_cases hd : (c.isDone || c.dropped) = true
    · rw [if_pos hd]
      exact ⟨get?_modify_self h _, kept (by rw [OutboundCall.withdraws, hd]; rfl), trivial⟩
    · have hw : c.withdraws .drop = true := by
        rw [OutboundCall.withdraws, Bool.eq_false_iff.2 hd]; rfl
      rw [if_neg hd]
      refine ⟨?_, left hw _ rfl rfl, trivial⟩
      rw [offer_eq]
      exact get?_modify_self h _

end Station

namespace OutboundCall

variable {c : OutboundCall}

/-! ### Finished calls -/

theorem isDone_iff : c.isDone = true ↔ c.state ≠ .pending := decide_eq_true_iff

theorem isDone_congr {c' : OutboundCall} (h : c'.state = c.state) : c'.isDone = c.isDone := by
  rw [isDone, isDone, h]

/-- A call that is done answers by its result alone, and reading changes nothing about it. -/
theorem use_of_done {o : Outcome} (hd : c.isDone = true) (h : c.result = some o) {u : Use}
    (hu : u ≠ .drop) : c.use u = (u.afterwards o, c) := by
  have hwait : c.wait = (.ready (.ok o), c) := by simp only [wait, h]
  cases u with
  | recv => simp only [use, recv, if_pos hd, Use.afterwards]
  | tryRecv => simp only [use, tryRecv, if_pos hd, Use.afterwards]
  | wait => simp only [use, hwait, Use.afterwards]
  | waitFor decode =>
    simp only [use, waitFor, hwait, Use.afterwards]
    rfl
  | cancel => simp only [use, cancel, if_pos hd, Use.afterwards]
  | drop => exact absurd rfl hu

theorem use_cancel (h : ¬ c.isDone = true) :
    c.use .cancel = (.done (.ok ()), c.withdraw) := by
  simp only [use, cancel, if_neg h]

theorem concluded_new (context function : String) (args : Json) :
    Concluded { context, function, args } := iff_of_false nofun fun h => h rfl

theorem Concluded.congr (h : c.Concluded) {c' : OutboundCall} (hs : c'.state = c.state)
    (hr : c'.result = c.result) : c'.Concluded := by
  rw [Concluded, hs, hr]
  exact h

/-- No use gives a call a result without ending it, or ends it without giving it a result. -/
theorem Concluded.use (h : c.Concluded) (u : Use) : (c.use u).2.Concluded := by
  cases u with
  | recv => exact c.reads_recv.concluded h
  | tryRecv => exact c.reads_tryRecv.concluded h
  | wait => exact c.reads_wait.concluded h
  | waitFor decode => exact (c.reads_waitFor decode).concluded h
  | cancel =>
    by_cases hd : c.isDone = true
    · simp only [OutboundCall.use, cancel, if_pos hd]
      exact h
    · rw [use_cancel hd]
      exact c.concluded_withdraw
  | drop => exact h

/-! ### What is read -/

theorem skipUpdates_eq_nil {es : List CallEvent}
    (h : ∀ o fs, skipUpdates es = .finished o :: fs → False) : skipUpdates es = [] := by
  induction es with
  | nil => rfl
  | cons e es ih =>
    cases e with
    | update v => exact ih h
    | finished o => exact (h o es rfl).elim

theorem updatesOf_suffix {es fs : List CallEvent} (h : fs <:+ es) :
    updatesOf es = updatesOf (es.take (es.length - fs.length)) ++ updatesOf fs := by
  rw [← updatesOf_append, List.suffix_iff_eq_append.1 h]

theorem updatesOf_recv (c : OutboundCall) :
    updatesOf c.events = (Reply.update c.recv.1).given ++ updatesOf c.recv.2.events := by
  unfold recv
  split
  · rfl
  · split
    · next e es he =>
      rw [he]
      cases e <;> rfl
    · next he =>
      split <;> rfl

theorem updatesOf_tryRecv (c : OutboundCall) :
    updatesOf c.events =
      (Reply.update (.ready c.tryRecv.1)).given ++ updatesOf c.tryRecv.2.events := by
  have h := c.updatesOf_recv
  unfold tryRecv
  split
  · rfl
  · split
    · next hr => rw [hr] at h; exact h
    · next hr => rw [hr] at h; exact h

/-- A use takes partial results off the front of the queue, and what it takes off is seen. -/
theorem updatesOf_use {u : Use} (hu : u ≠ .drop) :
    updatesOf c.events = u.seen c (c.use u).2 (c.use u).1 ++ updatesOf (c.use u).2.events := by
  cases u with
  | recv => exact c.updatesOf_recv
  | tryRecv => exact c.updatesOf_tryRecv
  | wait => exact updatesOf_suffix c.reads_wait.events
  | waitFor decode => exact updatesOf_suffix (c.reads_waitFor decode).events
  | cancel =>
    by_cases hd : c.isDone = true
    · simp only [use, cancel, if_pos hd]
      rfl
    · rw [use_cancel hd]
      rfl
  | drop => exact absurd rfl hu

theorem held_use {u : Use} (hu : u ≠ .drop) (hp : c.state = .pending) (hd : c.dropped = false) :
    (c.use u).2.dropped = false := by
  have reads {c' : OutboundCall} (h : c.Reads c') : c'.dropped = false := by
    have ha : c'.accepts = true := by rw [h.accepts, accepts, hp, hd]; rfl
    simp only [accepts, Bool.not_eq_true', Bool.or_eq_false_iff] at ha
    exact ha.1
  cases u with
  | recv => exact reads c.reads_recv
  | tryRecv => exact reads c.reads_tryRecv
  | wait => exact reads c.reads_wait
  | waitFor decode => exact reads (c.reads_waitFor decode)
  | cancel =>
    rw [use_cancel (by rw [isDone_iff, hp]; exact fun h => h rfl)]
    exact hd
  | drop => exact absurd rfl hu

/-! ### Lost links -/

/-- A pending call for which nothing more can arrive, and what it is when all has been read. -/
structure Stranded (c c' : OutboundCall) : Prop where
  before : c.state = .pending
  detached : c.attached = false
  after : c'.state = .pending
  result : c'.result = c.result
  empty : c'.events = []

theorem stranded_recv (h : (Reply.update c.recv.1).failure? = some .disconnected) :
    c.Stranded c.recv.2 := by
  unfold recv at h ⊢
  split at h
  · cases h
  · next hd =>
    have hp := state_of_isDone hd
    rw [if_neg hd]
    split at h
    · cases h
    · next he =>
      split at h
      · cases h
      · next ha => exact ⟨hp, Bool.eq_false_iff.2 ha, hp, rfl, he⟩

theorem stranded_tryRecv
    (h : (Reply.update (.ready c.tryRecv.1)).failure? = some .disconnected) :
    c.Stranded c.tryRecv.2 := by
  have hr := c.stranded_recv
  unfold tryRecv at h ⊢
  split at h
  · cases h
  · next hd =>
    rw [if_neg hd]
    split at h
    · next heq =>
      rw [heq] at hr
      exact hr h
    · cases h

theorem stranded_wait (h : c.wait.1 = .ready (.error .disconnected)) : c.Stranded c.wait.2 := by
  unfold wait at h ⊢
  split at h
  · cases h
  · split at h
    · cases h
    · next hd =>
      have hp := state_of_isDone hd
      rw [if_neg hd]
      split at h
      · cases h
      · next hs =>
        have he := skipUpdates_eq_nil hs
        split at h
        · cases h
        · next ha =>
          rw [he]
          exact ⟨hp, Bool.eq_false_iff.2 ha, hp, rfl, rfl⟩

/-- The outcome of a call may not be what is wanted, but then the link is not to blame. -/
theorem decoded_ne_disconnected {α : Type} (decode : Json → Except String α) (o : Outcome) :
    o.decoded decode ≠ .error .disconnected := by
  intro h
  cases o with
  | value v =>
    simp only [Outcome.decoded] at h
    cases hr : decode v with
    | ok w => rw [hr] at h; cases h
    | error m => rw [hr] at h; cases h
  | fault f => cases h
  | declined => cases h

theorem stranded_waitFor {α : Type} {decode : Json → Except String α}
    (h : (c.waitFor decode).1 = .ready (.error .disconnected)) :
    c.Stranded (c.waitFor decode).2 := by
  have hw := c.stranded_wait
  unfold waitFor at h ⊢
  split at h
  · next a c' heq =>
    rw [heq] at hw
    cases a with
    | ok o => exact absurd (Answer.ready.inj h) (decoded_ne_disconnected decode o)
    | error e =>
      obtain rfl : e = .disconnected := Except.error.inj (Answer.ready.inj h)
      exact hw rfl
  · cases h

/-- A use fails for want of a link only if nothing is left to be read. -/
theorem stranded_use {u : Use} (h : (c.use u).1.failure? = some .disconnected) :
    c.Stranded (c.use u).2 := by
  -- What fails is the answer itself.
  have ready {α : Type} {a : Answer α} {r : Answer α → Reply}
      (hr : ∀ e, (r (.ready (.error e))).failure? = some e)
      (hok : ∀ v, (r (.ready (.ok v))).failure? = none) (hb : (r .blocked).failure? = none)
      (h : (r a).failure? = some .disconnected) : a = .ready (.error .disconnected) := by
    cases a with
    | blocked => rw [hb] at h; cases h
    | ready x =>
      cases x with
      | ok v => rw [hok] at h; cases h
      | error e => rw [hr] at h; rw [Option.some.inj h]
  cases u with
  | recv => exact stranded_recv h
  | tryRecv => exact stranded_tryRecv h
  | wait =>
    exact stranded_wait (ready (r := .outcome) (fun _ => rfl) (fun _ => rfl) rfl h)
  | waitFor decode =>
    exact stranded_waitFor (ready (r := .value) (fun _ => rfl) (fun _ => rfl) rfl h)
  | cancel =>
    by_cases hd : c.isDone = true
    · simp [use, cancel, hd, Reply.failure?] at h
    · simp [use_cancel hd, Reply.failure?] at h
  | drop => cases h

end OutboundCall

/-! ### Effects -/

/-- The partial results that an effect brings for a context. -/
def Effect.updates {η : Type} (context : String) : Effect η → List Json
  | .delivered other e => if other = context then updatesOf [e] else []
  | _ => []

/-- What an effect makes of the call under a context. -/
def OutboundCall.noted {η : Type} (context : String) (c : OutboundCall) : Effect η → OutboundCall
  | .delivered other e => if other = context then c.push e else c
  | .detached other => if other = context then c.detach else c
  | _ => c

theorem OutboundCall.push_of_cancelled {c : OutboundCall} (h : c.state = .cancelled)
    (e : CallEvent) : c.push e = c := by
  simp [push, h]

theorem OutboundCall.push_of_held {c : OutboundCall} (hd : c.dropped = false)
    (h : c.state ≠ .cancelled) (e : CallEvent) :
    c.push e = { c with events := c.events ++ [e] } := by
  simp [push, hd, h]

theorem OutboundCall.noted_spec {η : Type} (context : String) (c : OutboundCall) (e : Effect η) :
    (c.noted context e).state = c.state ∧ (c.noted context e).result = c.result ∧
      (c.noted context e).dropped = c.dropped ∧ c.events <+: (c.noted context e).events := by
  have hpush (e : CallEvent) : (c.push e).state = c.state ∧ (c.push e).result = c.result ∧
      (c.push e).dropped = c.dropped ∧ c.events <+: (c.push e).events := by
    unfold push
    split
    · exact ⟨rfl, rfl, rfl, List.prefix_refl _⟩
    · exact ⟨rfl, rfl, rfl, List.prefix_append ..⟩
  have hsame : c.state = c.state ∧ c.result = c.result ∧ c.dropped = c.dropped ∧
      c.events <+: c.events := ⟨rfl, rfl, rfl, List.prefix_refl _⟩
  cases e with
  | delivered other e =>
    rw [noted]
    split
    · exact hpush e
    · exact hsame
  | detached other =>
    rw [noted]
    split <;> exact hsame
  | wrote | registered | started | interrupted => exact hsame

theorem Station.get?_note {η : Type} {s : Station η} {context : String} {c : OutboundCall}
    (h : s.calls.get? context = some c) (e : Effect η) :
    (s.note e).calls.get? context = some (c.noted context e) := by
  have hmodify (other : String) (f : OutboundCall → OutboundCall) :
      (s.calls.modify other f).get? context = some (if other = context then f c else c) := by
    rw [Keyed.get?_modify, h]
    by_cases he : other = context
    · rw [if_pos he.symm, if_pos he, Option.map_some]
    · rw [if_neg (Ne.symm he), if_neg he]
  cases e with
  | delivered other e => exact hmodify other (·.push e)
  | detached other => exact hmodify other (·.detach)
  | wrote | registered | started | interrupted => exact h

/-! ### Lives -/

variable {η : Type}

/-- What is known of a call from some time on. -/
structure Log (η : Type) where
  /-- The partial results that arrived for it. -/
  arrived : List Json := []
  /-- The partial results that its caller was given or passed over. -/
  seen : List Json := []
  /-- The commands that its caller left. -/
  sent : List (Command η) := []

/-- The commands that an operation leaves for the link. -/
def Station.leaves (s : Station η) (fresh : String) (o : Operation η) : List (Command η) :=
  (s.operate fresh o).1.queue.drop s.queue.length

/-- Everything that can happen at a station that has made a call, as long as the caller does not let
go of the call. -/
inductive Lives (context : String) (s₀ : Station η) : Log η → Station η → Prop
  | begins : Lives context s₀ {} s₀
  /-- An event arrives, or the call is detached, or something else comes of the link's work. -/
  | notes {l : Log η} {s : Station η} (h : Lives context s₀ l s) (e : Effect η) :
    Lives context s₀ { l with arrived := l.arrived ++ e.updates context } (s.note e)
  /-- Something happens that is not about the call. -/
  | elsewhere {l : Log η} {s s' : Station η} (h : Lives context s₀ l s)
    (hc : s'.calls.get? context = s.calls.get? context) : Lives context s₀ l s'
  | uses {l : Log η} {s s' : Station η} {reply : Reply} {c c' : OutboundCall}
    (h : Lives context s₀ l s) {u : Use} (hu : u ≠ .drop) (fresh : String)
    (hs : s.operate fresh (u.operation context) = (s', reply))
    (hc : s.calls.get? context = some c) (hc' : s'.calls.get? context = some c') :
    Lives context s₀
      { l with
        seen := l.seen ++ u.seen c c' reply
        sent := l.sent ++ s.leaves fresh (u.operation context) } s'

theorem Station.leaves_use {s : Station η} {context : String} {c : OutboundCall}
    (h : s.calls.get? context = some c) (u : Use) (fresh : String) :
    s.leaves fresh (u.operation context) = c.withdrawal context s.link.up u := by
  rw [leaves, (operate_use h u fresh).2.1, List.drop_left]

/-- What is known of a call fits the call: it has a result once it is done, what arrived has been
seen, is still queued up, or was lost because the call was cancelled, and only a cancelled call has
been withdrawn. -/
structure Log.Fits (context : String) (l : Log η) (c : OutboundCall) : Prop where
  held : c.dropped = false
  ended : c.Concluded
  read : ∃ lost, l.arrived = l.seen ++ updatesOf c.events ++ lost ∧
    (lost = [] ∨ c.state = .cancelled)
  sent : l.sent = [] ∨ l.sent = [.cancel context] ∧ c.state = .cancelled

namespace Log.Fits

variable {context : String} {l : Log η} {c : OutboundCall}

/-- What arrives is queued up or lost. -/
theorem note (h : l.Fits context c) (e : Effect η) :
    Fits context { l with arrived := l.arrived ++ e.updates context } (c.noted context e) := by
  obtain ⟨hstate, hresult, hdropped, -⟩ := c.noted_spec context e
  obtain ⟨lost, hl, hlost⟩ := h.read
  refine ⟨hdropped.trans h.held, h.ended.congr hstate hresult, ?_, hstate ▸ h.sent⟩
  rw [hstate]
  -- An effect that brings nothing leaves the account as it is.
  have quiet {c' : OutboundCall} (hc : c'.events = c.events) :
      ∃ lost, l.arrived ++ [] = l.seen ++ updatesOf c'.events ++ lost ∧
        (lost = [] ∨ c.state = .cancelled) := by
    rw [hc, List.append_nil]
    exact ⟨lost, hl, hlost⟩
  cases e with
  | delivered other e =>
    simp only [Effect.updates, OutboundCall.noted]
    split
    · by_cases hc : c.state = .cancelled
      · rw [OutboundCall.push_of_cancelled hc, hl, List.append_assoc]
        exact ⟨_, rfl, .inr hc⟩
      · obtain rfl := hlost.resolve_right hc
        rw [OutboundCall.push_of_held h.held hc, hl]
        exact ⟨[], by simp [updatesOf_append], .inl rfl⟩
    · exact quiet rfl
  | detached other =>
    simp only [Effect.updates, OutboundCall.noted]
    split
    · exact quiet rfl
    · exact quiet rfl
  | wrote | registered | started | interrupted => exact quiet rfl

/-- What a use takes off the queue is seen, and what it withdraws it withdraws once. -/
theorem use (h : l.Fits context c) {u : Use} (hu : u ≠ .drop) (up : Bool) :
    Fits context
      { l with
        seen := l.seen ++ u.seen c (c.use u).2 (c.use u).1
        sent := l.sent ++ c.withdrawal context up u }
      (c.use u).2 := by
  by_cases hd : c.isDone = true
  · -- The call is done: nothing changes.
    obtain ⟨o, ho⟩ := Option.isSome_iff_exists.1 (h.ended.2 (OutboundCall.isDone_iff.1 hd))
    have hseen := OutboundCall.updatesOf_use (c := c) hu
    rw [OutboundCall.use_of_done hd ho hu] at hseen ⊢
    have hnil : u.seen c c (u.afterwards o) = [] := List.self_eq_append_left.1 hseen
    rw [OutboundCall.withdrawal_of_done hd, hnil, List.append_nil, List.append_nil]
    exact h
  · have hp := OutboundCall.state_of_isDone hd
    obtain ⟨lost, hl, hlost⟩ := h.read
    obtain rfl := hlost.resolve_right (by rw [hp]; nofun)
    have hsent : l.sent = [] := h.sent.resolve_right (by rw [hp]; nofun)
    refine ⟨OutboundCall.held_use hu hp h.held, h.ended.use u, ⟨[], ?_, .inl rfl⟩, ?_⟩
    · rw [hl, OutboundCall.updatesOf_use hu]
      simp only [List.append_assoc]
    · rw [hsent]
      cases u with
      | recv | tryRecv | wait | waitFor => exact .inl rfl
      | cancel =>
        rw [OutboundCall.use_cancel hd]
        exact (c.withdrawal_cases context up .cancel).imp_right fun hs => ⟨hs, rfl⟩
      | drop => exact absurd rfl hu

theorem drop (h : l.Fits context c) (up : Bool) {sent : List (Command η)}
    (hs : sent = l.sent ++ c.withdrawal context up .drop) :
    (sent = [] ∨ sent = [.cancel context]) ∧ (c.state = .completed → sent = []) := by
  subst hs
  by_cases hd : c.isDone = true
  · rw [OutboundCall.withdrawal_of_done hd, List.append_nil]
    exact ⟨h.sent.imp_right And.left, fun ho => h.sent.resolve_right (by rw [ho]; nofun)⟩
  · have hp := OutboundCall.state_of_isDone hd
    rw [h.sent.resolve_right (by rw [hp]; nofun), List.nil_append, hp]
    exact ⟨c.withdrawal_cases context up .drop, nofun⟩

end Log.Fits

namespace Lives

variable {context : String} {s₀ s : Station η} {l : Log η} {c₀ : OutboundCall}

theorem foldl_note (es : List (Effect η)) (h : Lives context s₀ l s) :
    Lives context s₀ { l with arrived := l.arrived ++ es.flatMap (·.updates context) }
      (es.foldl Station.note s) := by
  induction es generalizing l s with
  | nil => rw [List.flatMap_nil, List.append_nil]; exact h
  | cons e es ih =>
    rw [List.flatMap_cons, ← List.append_assoc]
    exact ih (h.notes e)

theorem happen [DecidableEq η] (h : Lives context s₀ l s) (e : LinkEvent η) :
    Lives context s₀ { l with arrived := l.arrived ++ (s.happen e).2.flatMap (·.updates context) }
      (s.happen e).1 :=
  foldl_note _ (h.elsewhere rfl)

theorem fits (h : Lives context s₀ l s) (hc₀ : s₀.calls.get? context = some c₀)
    (h₀ : Log.Fits context ({} : Log η) c₀) :
    ∃ c, s.calls.get? context = some c ∧ l.Fits context c := by
  induction h with
  | begins => exact ⟨c₀, hc₀, h₀⟩
  | notes _ e ih =>
    obtain ⟨c, hc, hf⟩ := ih
    exact ⟨_, Station.get?_note hc e, hf.note e⟩
  | elsewhere _ hs ih =>
    obtain ⟨c, hc, hf⟩ := ih
    exact ⟨c, hs.trans hc, hf⟩
  | @uses l s s' reply c c' _ u hu fresh hs hc hc' ih =>
    obtain ⟨k, hk, hf⟩ := ih
    obtain rfl : k = c := Option.some.inj (hk.symm.trans hc)
    obtain ⟨hcall, -, hreply⟩ := Station.operate_use hc u fresh
    rw [hs] at hcall hreply
    obtain rfl : c' = (k.use u).2 := Option.some.inj (hc'.symm.trans hcall)
    obtain rfl : reply = (k.use u).1 := hreply
    rw [Station.leaves_use hc u fresh]
    exact ⟨_, hc', hf.use hu _⟩

/-- A call that has ended stays as it has ended; events may only queue up for it. -/
theorem ended (h : Lives context s₀ l s) (hc₀ : s₀.calls.get? context = some c₀) {o : Outcome}
    (hd : c₀.isDone = true) (ho : c₀.result = some o) :
    ∃ c, s.calls.get? context = some c ∧ c.state = c₀.state ∧ c.result = some o ∧
      c₀.events <+: c.events := by
  induction h with
  | begins => exact ⟨c₀, hc₀, rfl, ho, List.prefix_refl _⟩
  | notes _ e ih =>
    obtain ⟨c, hc, hs, hr, hp⟩ := ih
    obtain ⟨hstate, hresult, -, hevents⟩ := c.noted_spec context e
    exact ⟨_, Station.get?_note hc e, hstate.trans hs, hresult.trans hr, hp.trans hevents⟩
  | elsewhere _ hs ih =>
    obtain ⟨c, hc, hf⟩ := ih
    exact ⟨c, hs.trans hc, hf⟩
  | @uses l s s' reply c c' _ u hu fresh hs hc hc' ih =>
    obtain ⟨k, hk, hstate, hr, hp⟩ := ih
    have hkd : k.isDone = true := (OutboundCall.isDone_congr hstate).trans hd
    obtain ⟨hcall, -, -⟩ := Station.operate_use hk u fresh
    rw [hs, OutboundCall.use_of_done hkd hr hu] at hcall
    exact ⟨k, hcall, hstate, hr, hp⟩

end Lives

/-! ### Main statement -/

/-- A call ends once for its caller, and whatever is done with it accords with how it ended.

Let a station make a call, and let its caller use the call in any way while anything happens at the
station.  Then:

* the call has a result if and only if it is not pending;
* once it has a result it keeps it whatever happens: every use answers by that result alone,
  changes nothing about the call and leaves no command, and nothing that is queued up is read;
* the partial results that the caller has seen are a prefix of those that arrived;
* a use fails for want of a link only if the call is pending, nothing more can arrive for it and
  nothing is left to be read, and then neither its state nor its result changes;
* if the caller lets go of the call in the end, the call has been withdrawn once at most, and not at
  all if it was completed. -/
theorem call_ends_once {s₀ s₁ s : Station η} {context function : String} {args : Json}
    {depth : UInt32} {l : Log η} (hcall : s₀.callAt context function args depth = .ok s₁)
    (h : Lives context s₁ l s) :
    ∃ c, s.calls.get? context = some c ∧
      (c.result.isSome = true ↔ c.state ≠ .pending) ∧
      (∀ o, c.result = some o → ∀ l' s', Lives context s l' s' →
        ∃ c', s'.calls.get? context = some c' ∧ c'.state = c.state ∧ c'.result = some o ∧
          c.events <+: c'.events ∧
          ∀ fresh (u : Use), u ≠ .drop →
            (s'.operate fresh (u.operation context)).2 = u.afterwards o ∧
              (s'.operate fresh (u.operation context)).1.calls.get? context = some c' ∧
              s'.leaves fresh (u.operation context) = []) ∧
      l.seen <+: l.arrived ∧
      (∀ fresh (u : Use), (s.operate fresh (u.operation context)).2.failure? = some .disconnected →
        c.state = .pending ∧ c.attached = false ∧
          ∃ c', (s.operate fresh (u.operation context)).1.calls.get? context = some c' ∧
            c'.state = .pending ∧ c'.result = c.result ∧ c'.events = []) ∧
      (∀ fresh sent, sent = l.sent ++ s.leaves fresh (.dropCall context) →
        (sent = [] ∨ sent = [.cancel context]) ∧ (c.state = .completed → sent = [])) := by
  obtain ⟨-, -, -, -, hcalls⟩ := Station.callAt_eq hcall
  have hc₁ : s₁.calls.get? context = some { context, function, args } := by
    rw [hcalls, Keyed.get?_insert_self]
  obtain ⟨c, hc, hf⟩ :=
    h.fits hc₁ ⟨rfl, OutboundCall.concluded_new .., ⟨[], rfl, .inl rfl⟩, .inl rfl⟩
  refine ⟨c, hc, hf.ended, ?_, ?_, ?_, ?_⟩
  · intro o ho l' s' h'
    have hd : c.isDone = true :=
      OutboundCall.isDone_iff.2 (hf.ended.1 (Option.isSome_iff_exists.2 ⟨o, ho⟩))
    obtain ⟨c', hc', hs, ho', he⟩ := h'.ended hc hd ho
    have hd' : c'.isDone = true := (OutboundCall.isDone_congr hs).trans hd
    refine ⟨c', hc', hs, ho', he, fun fresh u hu => ?_⟩
    obtain ⟨hcall, -, hreply⟩ := Station.operate_use hc' u fresh
    rw [OutboundCall.use_of_done hd' ho' hu] at hcall hreply
    refine ⟨hreply, hcall, ?_⟩
    rw [Station.leaves_use hc', OutboundCall.withdrawal_of_done hd']
  · obtain ⟨lost, hl, -⟩ := hf.read
    rw [hl, List.append_assoc]
    exact List.prefix_append ..
  · intro fresh u hu
    obtain ⟨hcall, -, hreply⟩ := Station.operate_use hc u fresh
    rw [hreply] at hu
    have hs := OutboundCall.stranded_use hu
    exact ⟨hs.before, hs.detached, _, hcall, hs.after, hs.result, hs.empty⟩
  · intro fresh sent hs
    exact hf.drop s.link.up (hs.trans (congrArg _ (Station.leaves_use hc .drop fresh)))

/-- A station that has made a call. -/
def calling : Station Unit where
  queue := [.call { context := "c", function := "f" }]
  calls := (∅ : Keyed String OutboundCall).insert "c"
    { context := "c", function := "f", args := .null }

/-- That station after its link has written the call. -/
def waiting : Station Unit :=
  { calling with
    link := { pending := (∅ : Keyed String Pending).insert "c" .call }
    queue := [] }

/-- The link hears a partial result and the end of the call.  The caller reads both, and then it is
too late to cancel the call. -/
theorem call_ends_once_read :
    let s₁ := ((waiting.hear (.update "c" .null)).1.hear (.result "c" .declined)).1
    let s₂ := (s₁.operate "d" (.recv "c")).1
    let s := (s₂.operate "d" (.wait "c")).1
    ∃ (l : Log Unit) (c : OutboundCall),
      ({} : Station Unit).callAt "c" "f" .null 0 = .ok calling ∧ Lives "c" calling l s ∧
        s.calls.get? "c" = some c ∧ c.state = .completed ∧ c.result = some .declined ∧
        l.seen = [.null] ∧ l.seen <+: l.arrived ∧
        (s.operate "d" (.cancel "c")).2 = .done (.error .done) ∧
        l.sent ++ s.leaves "d" (.dropCall "c") = [] := by
  intro s₁ s₂ s
  have hcall : ({} : Station Unit).callAt "c" "f" .null 0 = .ok calling := rfl
  have h₀ : Lives "c" calling {} waiting := Lives.begins.elsewhere rfl
  have h₁ : Lives "c" calling _ s₁ := (h₀.happen (.heard _)).happen (.heard _)
  have h₂ : Lives "c" calling _ s₂ := h₁.uses (u := .recv) nofun "d" rfl rfl rfl
  have h : Lives "c" calling _ s := h₂.uses (u := .wait) nofun "d" rfl rfl rfl
  obtain ⟨c, hc, -, hend, hseen, -, hsent⟩ := call_ends_once hcall h
  obtain rfl : _ = c := Option.some.inj hc
  obtain ⟨_, -, -, -, -, huse⟩ := hend .declined rfl _ _ .begins
  exact ⟨_, _, hcall, h, hc, rfl, rfl, rfl, hseen, (huse "d" .cancel nofun).1,
    (hsent "d" _ rfl).2 rfl⟩

end Switchboard
