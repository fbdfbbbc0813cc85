import Switchboard.Proofs.Network.Change
import Switchboard.Proofs.Participant.Reaction

/-! # What happens at a station

A station's callers and handlers act, and its link meets one event after the other: the oldest
command, a message, that the broker takes nothing any more, or that its stream ends.  All this
happens in any order.

* **Steps.** A step is an operation, or the link meets something (`Station.Happens`).
* **Jobs.** A job is never forgotten.  The link's work leaves it as it is, but that it may be
  interrupted (`getElem?_jobs_happen`), and a new one is that of a call that is heard
  (`old_or_new_job`).
* **Operations.** An operation does one of the things of `Station.Does` (`does_operate`), and so a
  job stays what it is as time goes by (`ages_run`). -/

namespace Switchboard

/-- What may happen at a station. -/
inductive StationEvent (η : Type) where
  /-- A caller or a handler does something.  What it starts is named by the given context. -/
  | act (fresh : String) (o : Operation η)
  /-- The link obeys the oldest command. -/
  | obey
  | hear (m : Message)
  /-- The broker does not take any more what the link writes. -/
  | deafen
  /-- The broker's stream ends, or cannot be read any further. -/
  | hangUp

/-- Whether an effect interrupts a job. -/
def Effect.interrupts {η : Type} (job : JobId) : Effect η → Bool
  | .interrupted other => other = job
  | _ => false

/-- What may become of a call as its handler sees it: it is ended, and it is interrupted. -/
structure InboundCall.Ages (k k' : InboundCall) : Prop where
  context : k'.context = k.context
  args : k'.args = k.args
  depth : k'.depth = k.depth
  finished : k.finished = true → k'.finished = true
  cancelled : k.cancelled = true → k'.cancelled = true

theorem InboundCall.Ages.refl (k : InboundCall) : k.Ages k := ⟨rfl, rfl, rfl, id, id⟩

theorem InboundCall.Ages.trans {k k' k'' : InboundCall} (h : k.Ages k') (h' : k'.Ages k'') :
    k.Ages k'' :=
  ⟨h'.context.trans h.context, h'.args.trans h.args, h'.depth.trans h.depth,
    h'.finished ∘ h.finished, h'.cancelled ∘ h.cancelled⟩

namespace InboundCall

variable {k : InboundCall} {depth : UInt32}

/-- The depth does not overflow within the bound. -/
theorem depth_succ (h : k.depth ≤ maxCallDepth) : (k.depth + 1).toNat = k.depth.toNat + 1 := by
  have hle : k.depth.toNat ≤ 32 := UInt32.le_iff_toNat_le.1 h
  rw [UInt32.toNat_add]
  exact Nat.mod_eq_of_lt (by simp; omega)

theorem nestedDepth_of_lt (h : k.depth < maxCallDepth) : k.nestedDepth = .ok (k.depth + 1) := by
  have hlt : k.depth.toNat < 32 := UInt32.lt_iff_toNat_lt.1 h
  refine if_neg fun hmore => ?_
  have hmore : 32 < (k.depth + 1).toNat := UInt32.lt_iff_toNat_lt.1 hmore
  rw [depth_succ (UInt32.le_of_lt h)] at hmore
  omega

theorem nestedDepth_of_eq (h : k.depth = maxCallDepth) :
    k.nestedDepth = .error (.callTooDeep (maxCallDepth + 1) maxCallDepth) := by
  rw [nestedDepth, h]
  rfl

theorem depth_of_nestedDepth (hb : k.depth ≤ maxCallDepth) (h : k.nestedDepth = .ok depth) :
    k.depth < maxCallDepth ∧ depth = k.depth + 1 := by
  rcases UInt32.lt_or_eq_of_le hb with hlt | heq
  · rw [nestedDepth_of_lt hlt] at h
    exact ⟨hlt, (Except.ok.inj h).symm⟩
  · rw [nestedDepth_of_eq heq] at h
    cases h

end InboundCall

/-! ### Reading -/

namespace OutboundCall

/-- Reading does not change whether anything can still arrive. -/
theorem attached_recv (k : OutboundCall) : k.recv.2.attached = k.attached := by
  unfold recv
  split
  · rfl
  · split
    · next e es _ => cases e <;> rfl
    · rfl

theorem attached_tryRecv (k : OutboundCall) : k.tryRecv.2.attached = k.attached := by
  have h := k.attached_recv
  unfold tryRecv
  split
  · rfl
  · split <;> next hr => rw [hr] at h; exact h

theorem attached_wait (k : OutboundCall) : k.wait.2.attached = k.attached := by
  unfold wait
  split
  · rfl
  · split
    · rfl
    · split <;> rfl

theorem attached_waitFor {α : Type} (k : OutboundCall) (decode : Json → Except String α) :
    (k.waitFor decode).2.attached = k.attached := by
  have h := k.attached_wait
  unfold waitFor
  split <;> next hw => rw [hw] at h; exact h

end OutboundCall

/-! ### Handlers -/

namespace Link

variable {η : Type}

/-- A handler is started only for a call that is heard and is not being served yet. -/
theorem started_of_step [DecidableEq η] {l : Link η} {e : LinkEvent η} {i : JobId} {handler : η}
    {c : Call} (h : .started i handler c ∈ (l.step e).2) :
    l.up = true ∧ e = .heard (.call c) ∧ l.running.get? c.context = none ∧ i = l.jobs ∧
      l.step e = ({ l with running := l.running.insert c.context l.jobs, jobs := l.jobs + 1 },
        [.started l.jobs handler c]) := by
  have torn {l : Link η} : .started i handler c ∉ l.teardown.2 := fun hf =>
    List.countP_eq_zero.1 l.starts_teardown _ hf rfl
  have hreacts := l.reacts_step e
  generalize l.step e = r at hreacts h ⊢
  cases hreacts with
  | skips => cases h
  | notes hu hn =>
    cases hn with
    | starts hh hr =>
      obtain ⟨rfl, rfl, rfl⟩ := Effect.started.inj (List.mem_singleton.1 h)
      exact ⟨hu, rfl, hr, rfl, rfl⟩
    | deafens => cases h
    | refuses | passes | ends | confirms | rejects | stops => cases List.mem_singleton.1 h
  | wrote => cases List.mem_singleton.1 h
  | breaks | falls => exact (torn h).elim

end Link

namespace Station

variable {η : Type}

section Steps

variable [DecidableEq η]

/-- What happens at a station, with what comes of it at the link. -/
def step (s : Station η) : StationEvent η → Station η × List (Effect η)
  | .act fresh o => ((s.operate fresh o).1, [])
  | .obey => s.obey
  | .hear m => s.hear m
  | .deafen => s.happen .deafened
  | .hangUp => s.hangUp

/-- Events in a row. -/
def run (s : Station η) : List (StationEvent η) → Station η × List (Effect η)
  | [] => (s, [])
  | e :: es =>
    let (s, fs) := s.step e
    let (s, fs') := s.run es
    (s, fs ++ fs')

theorem run_append (s : Station η) (es fs : List (StationEvent η)) :
    s.run (es ++ fs) = (((s.run es).1.run fs).1, (s.run es).2 ++ ((s.run es).1.run fs).2) := by
  induction es generalizing s with
  | nil => rfl
  | cons e es ih => simp only [List.cons_append, run, ih, List.append_assoc]

theorem run_snoc (s : Station η) (es : List (StationEvent η)) (e : StationEvent η) :
    s.run (es ++ [e]) = (((s.run es).1.step e).1, (s.run es).2 ++ ((s.run es).1.step e).2) := by
  rw [run_append]
  simp only [run, List.append_nil]

/-- What the link meets by an event, with the station as it is when the link meets it: a command is
not left any more that is obeyed. -/
inductive Meets (s : Station η) : StationEvent η → LinkEvent η → Station η → Prop
  | obeys {c : Command η} {cs : List (Command η)} (hq : s.queue = c :: cs) :
    Meets s .obey (.commanded c) { s with queue := cs }
  | hears (m : Message) : Meets s (.hear m) (.heard m) s
  | deafens : Meets s .deafen .deafened s
  | hangsUp : Meets s .hangUp .ended s

/-- What an event comes to at a station. -/
inductive Happens (s : Station η) (e : StationEvent η) (r : Station η × List (Effect η)) : Prop
  | acts {fresh : String} {o : Operation η} (he : e = .act fresh o)
      (hr : r = ((s.operate fresh o).1, []))
  | idles (he : e = .obey) (hq : s.queue = []) (hr : r = (s, []))
  | meets {le : LinkEvent η} {t : Station η} (hm : s.Meets e le t) (hr : r = t.happen le)

theorem happens_step (s : Station η) (e : StationEvent η) : s.Happens e (s.step e) := by
  cases e with
  | act => exact .acts rfl rfl
  | obey =>
    cases hq : s.queue with
    | nil => exact .idles rfl hq (by rw [step, obey, hq])
    | cons c cs => exact .meets (.obeys hq) (by rw [step, obey, hq])
  | hear m => exact .meets (.hears m) rfl
  | deafen => exact .meets .deafens rfl
  | hangUp => exact .meets .hangsUp rfl

omit [DecidableEq η] in
theorem Meets.same {s t : Station η} {e : StationEvent η} {le : LinkEvent η} (h : s.Meets e le t) :
    t.link = s.link ∧ t.calls = s.calls ∧ t.jobs = s.jobs ∧ t.registrations = s.registrations := by
  cases h <;> exact ⟨rfl, rfl, rfl, rfl⟩

omit [DecidableEq η] in
theorem Meets.queue_eq {s t : Station η} {e : StationEvent η} {le : LinkEvent η}
    (h : s.Meets e le t) : (∃ c, le = .commanded c ∧ s.queue = c :: t.queue) ∨
      (∀ c, le ≠ .commanded c) ∧ t.queue = s.queue := by
  cases h with
  | obeys hq => exact .inl ⟨_, rfl, hq⟩
  | hears | deafens | hangsUp => exact .inr ⟨nofun, rfl⟩

theorem state_happen (s : Station η) (e : LinkEvent η) :
    (s.happen e).1 = (s.happen e).2.foldl note { s with
      link := (s.link.step e).1, queue := if (s.link.step e).1.up then s.queue else [] } := rfl

theorem effects_happen (s : Station η) (e : LinkEvent η) :
    (s.happen e).2 = (s.link.step e).2 ++
      if (s.link.step e).1.up then [] else s.queue.flatMap forgotten := by
  simp only [happen]
  split <;> simp

theorem Sound.step {s : Station η} (h : s.Sound) (e : StationEvent η) : (s.step e).1.Sound := by
  rcases s.happens_step e with ⟨_, hr⟩ | ⟨_, _, hr⟩ | ⟨hm, hr⟩
  · rw [hr]
    exact (s.operate_kept _ _).sound h
  · rwa [hr]
  · rw [hr]
    obtain ⟨hl, _, hj, _⟩ := hm.same
    exact sound_happen (by rw [hl, hj]; exact h.jobs) _

theorem Sound.run {s : Station η} (h : s.Sound) (es : List (StationEvent η)) :
    (s.run es).1.Sound := by
  induction es generalizing s with
  | nil => exact h
  | cons e es ih => exact ih (h.step e)

omit [DecidableEq η] in
theorem sound_start : ({} : Station η).Sound := ⟨nofun, rfl⟩

theorem up_of_step {s : Station η} {e : StationEvent η} (h : (s.step e).1.link.up = true) :
    s.link.up = true := by
  rcases s.happens_step e with ⟨_, hr⟩ | ⟨_, _, hr⟩ | ⟨hm, hr⟩
  · rwa [hr, (s.operate_kept _ _).link] at h
  · rwa [hr] at h
  · rw [hr] at h
    rw [← hm.same.1]
    exact Port.up_of_happen h

end Steps

/-! ### Jobs -/

/-- What the link's work does to a job: it may interrupt it. -/
theorem getElem?_jobs_foldl_note {s : Station η} {job : JobId} {k : InboundCall}
    (h : s.jobs[job]? = some k) (es : List (Effect η)) :
    (es.foldl note s).jobs[job]? =
      some { k with cancelled := k.cancelled || es.any (·.interrupts job) } := by
  induction es generalizing s k with
  | nil => rw [List.foldl_nil, h, List.any_nil, Bool.or_false]
  | cons e es ih =>
    have hnote : (s.note e).jobs[job]? =
        some { k with cancelled := k.cancelled || e.interrupts job } := by
      cases e with
      | started =>
        have hlt : job < s.jobs.length := (List.getElem?_eq_some_iff.1 h).1
        simp only [note, List.getElem?_append_left hlt, h, Effect.interrupts, Bool.or_false]
      | interrupted other =>
        rw [note, List.getElem?_modify, h]
        by_cases ho : other = job
        · simp [ho, Effect.interrupts, InboundCall.interrupt]
        · simp [ho, Effect.interrupts]
      | wrote | delivered | detached | registered =>
        simp only [Effect.interrupts, Bool.or_false]
        exact h
    rw [List.foldl_cons, ih hnote, List.any_cons, Bool.or_assoc]

theorem started_of_foldl_note {s : Station η} {job : JobId} {k : InboundCall} {es : List (Effect η)}
    (hn : s.jobs[job]? = none) (h : (es.foldl note s).jobs[job]? = some k) :
    ∃ i handler c, .started i handler c ∈ es ∧
      k.context = c.context ∧ k.args = c.args ∧ k.depth = c.depth := by
  induction es generalizing s with
  | nil => rw [List.foldl_nil, hn] at h; cases h
  | cons e es ih =>
    cases hnote : (s.note e).jobs[job]? with
    | none =>
      obtain ⟨i, handler, c, hmem, hk⟩ := ih hnote h
      exact ⟨i, handler, c, List.mem_cons_of_mem _ hmem, hk⟩
    | some k₀ =>
      rw [List.foldl_cons, getElem?_jobs_foldl_note hnote] at h
      obtain rfl := Option.some.inj h
      cases e with
      | started i handler c =>
        rw [note, List.getElem?_append_right (List.getElem?_eq_none_iff.1 hn)] at hnote
        obtain rfl := List.mem_singleton.1 (List.mem_of_getElem? hnote)
        exact ⟨i, handler, c, List.mem_cons_self, rfl, rfl, rfl⟩
      | interrupted other =>
        rw [note, List.getElem?_modify, hn] at hnote
        cases hnote
      | wrote | delivered | detached | registered =>
        cases hn.symm.trans hnote

section Happen

variable [DecidableEq η]

theorem getElem?_jobs_happen {s : Station η} {job : JobId} {k : InboundCall}
    (h : s.jobs[job]? = some k) (e : LinkEvent η) : (s.happen e).1.jobs[job]? =
      some { k with cancelled := k.cancelled || (s.happen e).2.any (·.interrupts job) } := by
  rw [state_happen]
  exact getElem?_jobs_foldl_note (by exact h) _

/-- Only a call that is heard can be a new job's. -/
theorem old_or_new_job {s : Station η} {e : LinkEvent η} {job : JobId} {k : InboundCall}
    (h : (s.happen e).1.jobs[job]? = some k) :
    (∃ k₀, s.jobs[job]? = some k₀ ∧ k.context = k₀.context ∧ k.depth = k₀.depth) ∨
      ∃ c, e = .heard (.call c) ∧ s.link.up = true ∧
        k.context = c.context ∧ k.depth = c.depth := by
  cases hk : s.jobs[job]? with
  | some k₀ =>
    rw [getElem?_jobs_happen hk] at h
    obtain rfl := Option.some.inj h
    exact .inl ⟨k₀, rfl, rfl, rfl⟩
  | none =>
    rw [state_happen] at h
    obtain ⟨i, handler, c, hc, hcontext, _, hdepth⟩ := started_of_foldl_note (by exact hk) h
    rw [effects_happen] at hc
    rcases List.mem_append.1 hc with hc | hc
    · obtain ⟨hu, he, _⟩ := Link.started_of_step hc
      exact .inr ⟨c, he, hu, hcontext, hdepth⟩
    · split at hc
      · cases hc
      · exact (List.countP_eq_zero.1 (starts_forgotten s.queue) _ hc rfl).elim

end Happen

/-! ### Operations -/

/-- What a handler passes on by an operation: a partial result, or the outcome of its call.  Letting go
of a call that has not been ended declines it. -/
def emission (s : Station η) : Operation η → Option (JobId × CallEvent)
  | .update job v => if (s.update job v).isOk then some (job, .update v) else none
  | .finish job o => if (s.finish job o).isOk then some (job, .finished o) else none
  | .dropJob job => if (s.finish job .declined).isOk then some (job, .finished .declined) else none
  | _ => none

/-- What an operation does to a station, given what a handler passes on by it. -/
inductive Does (s : Station η) (fresh : String) (o : Operation η) :
    Option (JobId × CallEvent) → Station η → Prop
  | nothing : Does s fresh o none s
  | registers {name : String} {priority : UInt16} {handler : η}
      (ho : o = .register name priority handler) (hu : s.link.up = true) :
    Does s fresh o none { s with
      queue := s.queue ++ [.register fresh name priority handler]
      registrations := s.registrations.insert fresh none }
  /-- A registration is asked for, but the link is lost. -/
  | refused {name : String} {priority : UInt16} {handler : η}
      (ho : o = .register name priority handler) (hu : s.link.up = false) :
    Does s fresh o none { s with
      registrations := s.registrations.insert fresh (some (.error .disconnected)) }
  | calls {function : String} {args : Json} {depth : UInt32}
      (ho : o = .call function args ∧ depth = 0 ∨ ∃ job k, o = .nested job function args ∧
        s.jobs[job]? = some k ∧ k.nestedDepth = .ok depth) (hu : s.link.up = true) :
    Does s fresh o none { s with
      queue := s.queue ++ [.call { context := fresh, function, args, depth }]
      calls := s.calls.insert fresh { context := fresh, function, args } }
  | reads {context : String} {k k' : OutboundCall} (hk : s.calls.get? context = some k)
      (hr : k.Reads k') (ha : k'.attached = k.attached) :
    Does s fresh o none { s with calls := s.calls.modify context fun _ => k' }
  | givesUp {context : String} {k : OutboundCall} {f : OutboundCall → OutboundCall}
      {cs : List (Command η)} (hk : s.calls.get? context = some k) (hg : k.GivenUp (f k))
      (hc : cs = [] ∨ s.link.up = true ∧ cs = [.cancel context]) :
    Does s fresh o none { s with queue := s.queue ++ cs, calls := s.calls.modify context f }
  | passes {job : JobId} {k : InboundCall} {v : Json} (hk : s.jobs[job]? = some k)
      (hf : k.finished = false) (hu : s.link.up = true) :
    Does s fresh o (some (job, .update v)) { s with queue := s.queue ++ [.update k.context v] }
  | ends {job : JobId} {k : InboundCall} {out : Outcome} (hk : s.jobs[job]? = some k)
      (hf : k.finished = false) :
    Does s fresh o (some (job, .finished out)) { s with
      jobs := s.jobs.set job { k with finished := true }
      queue := if s.link.up then s.queue ++ [.finish k.context out] else s.queue }
  | shutsDown (hu : s.link.up = true) :
    Does s fresh o none { s with queue := s.queue ++ [.shutdown] }

section Does

variable {s s' : Station η} {fresh : String} {o : Operation η}

theorem submit_of_up (hu : s.link.up = true) (c : Command η) :
    s.submit c = .ok { s with queue := s.queue ++ [c] } := if_pos hu

theorem submit_of_lost (hu : s.link.up = false) (c : Command η) :
    s.submit c = .error .disconnected := if_neg (by simp [hu])

/-- Only a handler that has not ended its call can end it. -/
theorem finish_eq {job : JobId} {out : Outcome} {k : InboundCall} (hk : s.jobs[job]? = some k)
    (hf : k.finished = false) : s.finish job out = .ok { s with
      jobs := s.jobs.set job { k with finished := true }
      queue := if s.link.up then s.queue ++ [.finish k.context out] else s.queue } := by
  simp only [finish, job?, hk, InboundCall.finish, hf, Bool.false_eq_true, if_false]
  exact congrArg Except.ok (offer_eq ..)

theorem finish_of_done {job : JobId} {out : Outcome}
    (h : ∀ k, s.jobs[job]? = some k → k.finished = true) : s.finish job out = .error .done := by
  simp only [finish, job?]
  cases hk : s.jobs[job]? with
  | none => rfl
  | some k =>
    simp only [InboundCall.finish, h k hk, if_true]
    rfl

/-- Ending a job changes nothing else about jobs. -/
theorem job_of_set {j i : JobId} {k k' : InboundCall} (hk : s.jobs[j]? = some k)
    (h : (s.jobs.set j { k with finished := true })[i]? = some k') :
    ∃ k₀, s.jobs[i]? = some k₀ ∧ k'.context = k₀.context ∧ k'.depth = k₀.depth := by
  by_cases hj : j = i
  · subst hj
    rw [List.getElem?_set_self (List.getElem?_eq_some_iff.1 hk).1] at h
    obtain rfl := Option.some.inj h
    exact ⟨k, hk, rfl, rfl⟩
  · rw [List.getElem?_set_ne hj] at h
    exact ⟨k', h, rfl, rfl⟩

theorem open_or_done (s : Station η) (job : JobId) :
    (∃ k, s.jobs[job]? = some k ∧ k.finished = false) ∨
      ∀ k, s.jobs[job]? = some k → k.finished = true := by
  cases hk : s.jobs[job]? with
  | none => exact .inr nofun
  | some k =>
    cases hf : k.finished with
    | false => exact .inl ⟨k, rfl, hf⟩
    | true => exact .inr fun k' h => Option.some.inj h ▸ hf

theorem does_finish {job : JobId} {out : Outcome} : s.Does fresh o
    (if (s.finish job out).isOk then some (job, .finished out) else none)
      (s.attempt (s.finish job out)).1 := by
  rcases s.open_or_done job with ⟨k, hk, hf⟩ | hd
  · rw [finish_eq hk hf]
    exact .ends hk hf
  · rw [finish_of_done hd]
    exact .nothing

theorem does_callAt {function : String} {args : Json} {depth : UInt32}
    (ho : o = .call function args ∧ depth = 0 ∨ ∃ job k, o = .nested job function args ∧
      s.jobs[job]? = some k ∧ k.nestedDepth = .ok depth) :
    s.Does fresh o none (s.attempt (s.callAt fresh function args depth)).1 := by
  cases hu : s.link.up with
  | true =>
    simp only [callAt, submit_of_up hu]
    exact .calls ho hu
  | false =>
    simp only [callAt, submit_of_lost hu]
    exact .nothing

theorem does_nested {job : JobId} {function : String} {args : Json} :
    s.Does fresh (.nested job function args) none
      (s.attempt (s.nested job fresh function args)).1 := by
  simp only [nested, job?]
  cases hk : s.jobs[job]? with
  | none => exact .nothing
  | some k =>
    cases hd : k.nestedDepth with
    | error e =>
      simp only [hd]
      exact .nothing
    | ok depth =>
      simp only [hd]
      exact does_callAt (.inr ⟨job, k, rfl, hk, hd⟩)

theorem does_register (name : String) (priority : UInt16) (handler : η) :
    s.Does fresh (.register name priority handler) none
      (s.register fresh name priority handler) := by
  cases hu : s.link.up with
  | true =>
    simp only [register, submit_of_up hu]
    exact .registers rfl hu
  | false =>
    simp only [register, submit_of_lost hu]
    exact .refused rfl hu

theorem does_read {α : Type} (context : String) {f : OutboundCall → Answer α × OutboundCall}
    (hf : ∀ k : OutboundCall, k.Reads (f k).2 ∧ (f k).2.attached = k.attached) :
    s.Does fresh o none (s.read context f).1 := by
  simp only [read, onCall]
  cases hk : s.calls.get? context with
  | none => exact .nothing
  | some k => exact .reads hk (hf k).1 (hf k).2

theorem does_offer_cancel {context : String} {k : OutboundCall} {f : OutboundCall → OutboundCall}
    (hk : s.calls.get? context = some k) (hg : k.GivenUp (f k)) :
    s.Does fresh o none
      (offer { s with calls := s.calls.modify context f } (.cancel context)) := by
  rw [offer_eq]
  cases hu : s.link.up with
  | true =>
    simp only [if_true]
    exact .givesUp hk hg (.inr ⟨hu, rfl⟩)
  | false =>
    have hd : s.Does fresh o none _ := .givesUp hk hg (.inl rfl)
    rw [List.append_nil] at hd
    exact hd

theorem does_cancel (context : String) :
    s.Does fresh o none (s.attempt (s.cancel context)).1 := by
  simp only [cancel]
  cases hk : s.calls.get? context with
  | none => exact .nothing
  | some k =>
    cases hd : k.isDone with
    | true =>
      simp only [OutboundCall.cancel, hd, if_true]
      exact .nothing
    | false =>
      simp only [OutboundCall.cancel, hd, Bool.false_eq_true, if_false]
      exact does_offer_cancel (f := fun _ => k.withdraw) hk
        ⟨fun _ => k.concluded_withdraw, by simp [OutboundCall.accepts, OutboundCall.withdraw], rfl,
          by rintro ⟨⟩⟩

theorem does_dropCall (context : String) : s.Does fresh o none (s.dropCall context) := by
  simp only [dropCall]
  cases hk : s.calls.get? context with
  | none => exact .nothing
  | some k =>
    have hg : k.GivenUp k.drop :=
      ⟨id, by simp [OutboundCall.accepts, OutboundCall.drop], rfl, fun _ => rfl⟩
    dsimp only
    split
    · have hd : s.Does fresh o none _ := .givesUp hk hg (.inl rfl)
      rw [List.append_nil] at hd
      exact hd
    · exact does_offer_cancel hk hg

theorem update_of_open {job : JobId} {k : InboundCall} (hk : s.jobs[job]? = some k)
    (hf : k.finished = false) (v : Json) : s.update job v = s.submit (.update k.context v) := by
  simp only [update, job?, hk, InboundCall.update, hf, Bool.false_eq_true, if_false]
  rfl

theorem update_of_done {job : JobId} (h : ∀ k, s.jobs[job]? = some k → k.finished = true)
    (v : Json) : s.update job v = .error .done := by
  simp only [update, job?]
  cases hk : s.jobs[job]? with
  | none => rfl
  | some k =>
    simp only [InboundCall.update, h k hk, if_true]
    rfl

theorem does_update {job : JobId} {v : Json} : s.Does fresh o
    (if (s.update job v).isOk then some (job, .update v) else none)
      (s.attempt (s.update job v)).1 := by
  rcases s.open_or_done job with ⟨k, hk, hf⟩ | hd
  · rw [update_of_open hk hf]
    cases hu : s.link.up with
    | true =>
      rw [submit_of_up hu]
      exact .passes hk hf hu
    | false =>
      rw [submit_of_lost hu]
      exact .nothing
  · rw [update_of_done hd]
    exact .nothing

theorem does_operate (s : Station η) (fresh : String) (o : Operation η) :
    s.Does fresh o (s.emission o) (s.operate fresh o).1 := by
  cases o with
  | register name priority handler => exact does_register name priority handler
  | call function args => exact does_callAt (.inl ⟨rfl, rfl⟩)
  | recv context => exact does_read context fun k => ⟨k.reads_recv, k.attached_recv⟩
  | tryRecv context => exact does_read context fun k => ⟨k.reads_tryRecv, k.attached_tryRecv⟩
  | wait context => exact does_read context fun k => ⟨k.reads_wait, k.attached_wait⟩
  | waitFor context decode =>
    exact does_read context fun k => ⟨k.reads_waitFor decode, k.attached_waitFor decode⟩
  | cancel context => exact does_cancel context
  | dropCall context => exact does_dropCall context
  | update => exact does_update
  | finish => exact does_finish
  | nested => exact does_nested
  | dropJob job =>
    have hd : s.dropJob job = (s.attempt (s.finish job .declined)).1 := by
      rw [dropJob]
      cases s.finish job .declined <;> rfl
    have hdoes : s.Does fresh (.dropJob job) (s.emission (.dropJob job)) _ := does_finish
    rwa [← hd] at hdoes
  | disconnect =>
    have ho : (s.operate fresh .disconnect).1 = s.offer .shutdown := rfl
    rw [ho, offer_eq]
    cases hu : s.link.up with
    | true =>
      simp only [if_true]
      exact .shutsDown hu
    | false => exact .nothing

end Does

/-! ### Jobs as time goes by -/

section Ages

variable [DecidableEq η] {s : Station η} {job : JobId} {k : InboundCall}

/-- A job is never forgotten. -/
theorem ages_step (h : s.jobs[job]? = some k) (e : StationEvent η) :
    ∃ k', (s.step e).1.jobs[job]? = some k' ∧ k.Ages k' := by
  rcases s.happens_step e with @⟨fresh, o, _, hr⟩ | ⟨_, _, hr⟩ | ⟨hm, hr⟩
  · rw [hr]
    have hd := s.does_operate fresh o
    generalize s.emission o = em, (s.operate fresh o).1 = s' at hd
    cases hd with
    | @ends j k₀ _ hk =>
      by_cases hj : j = job
      · subst hj
        obtain rfl := Option.some.inj (h.symm.trans hk)
        exact ⟨_, List.getElem?_set_self (List.getElem?_eq_some_iff.1 hk).1, rfl, rfl, rfl,
          fun _ => rfl, id⟩
      · exact ⟨k, (List.getElem?_set_ne hj).trans h, .refl k⟩
    | nothing | registers | refused | calls | reads | givesUp | passes | shutsDown =>
      exact ⟨k, h, .refl k⟩
  · rw [hr]
    exact ⟨k, h, .refl k⟩
  · rw [hr]
    exact ⟨_, getElem?_jobs_happen (hm.same.2.2.1 ▸ h) _, rfl, rfl, rfl, id,
      fun hc => by rw [hc, Bool.true_or]⟩

theorem ages_run (h : s.jobs[job]? = some k) (es : List (StationEvent η)) :
    ∃ k', (s.run es).1.jobs[job]? = some k' ∧ k.Ages k' := by
  induction es generalizing s k with
  | nil => exact ⟨k, h, .refl k⟩
  | cons e es ih =>
    obtain ⟨k₁, hk₁, h₁⟩ := ages_step h e
    obtain ⟨k₂, hk₂, h₂⟩ := ih hk₁
    exact ⟨k₂, hk₂, h₁.trans h₂⟩

end Ages

end Station
end Switchboard
