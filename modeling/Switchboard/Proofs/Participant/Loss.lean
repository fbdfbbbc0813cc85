import Switchboard.Proofs.Participant.Unanswered

/-! # When the link is lost

The link is lost when it is shut down, when the broker's stream ends or cannot be read, and when
something cannot be written.  All that waits, and all that is being served, learns of it.

* **Links.** A link that is lost is torn down as it was, but for what the last event has changed
  (`Link.Torn`).
* **Stations.** What waits is accounted for, so all of it is told (`Station.Accounted.told_of_lost`),
  and nothing waits afterwards, or ever again (`Station.Settled`).
* **Callers and handlers.** Nothing is begun any more, and handlers are refused or not heard
  (`Station.Closed`).  What has arrived for a call can still be read, and reading on comes to its
  result or to the loss (`Station.Yields`).
* **Main statement.** `Station.loss_settles` is about the loss of the link by any event, after
  anything that may have happened, and says what is found then, whatever happens later. -/

namespace Switchboard

variable {η : Type}

/-! ### Links -/

namespace Link

variable [DecidableEq η]

/-- A link is lost by an event.  `l'` is the link that is torn down: what waits has waited before,
or has just been opened, and what is served has been served before. -/
structure Torn (l : Link η) (e : LinkEvent η) (l' : Link η) : Prop where
  step : l.step e = l'.teardown
  pending : ∀ context, e.concerns? ≠ some context →
    l'.pending.get? context = l.pending.get? context
  call : ∀ c, e = .commanded (.call c) → l'.pending.get? c.context = some .call
  registration : ∀ context name priority handler,
    e = .commanded (.register context name priority handler) →
      ∃ id, l'.pending.get? context = some (.registration id)
  heard : ∀ m, e = .heard m → l'.pending = l.pending
  running : ∀ context, (∀ o, e ≠ .commanded (.finish context o)) →
    l'.running.get? context = l.running.get? context

variable {l l' : Link η} {e : LinkEvent η}

/-- A job goes on until it is finished. -/
theorem Writes.running_elsewhere {m : Message} (h : l.Writes e l' m) {context : String}
    (ho : ∀ o, e ≠ .commanded (.finish context o)) :
    l'.running.get? context = l.running.get? context := by
  cases h with
  | finishes => exact Keyed.get?_erase_of_ne _ fun hk => ho _ (by rw [hk])
  | registers | calls | cancels | updates | declines => rfl

/-- A link that cannot write what an event asks for is torn down. -/
theorem Writes.torn {m : Message} (h : l.Writes e l' m) (hs : l.step e = l'.teardown) :
    l.Torn e l' := by
  refine ⟨hs, fun context hc => h.elsewhere hc, ?_, ?_, ?_, fun _ => h.running_elsewhere⟩
  · rintro c rfl
    cases h with
    | calls => exact Keyed.get?_insert_self ..
  · rintro context name priority handler rfl
    cases h with
    | registers => exact ⟨_, Keyed.get?_insert_self ..⟩
  · rintro m rfl
    cases h with
    | declines => rfl

/-- A link is lost only by being torn down. -/
theorem torn_of_lost (hu : l.up = true) (hd : (l.step e).1.up = false) : ∃ l', l.Torn e l' := by
  have hreacts := l.reacts_step e
  generalize hr : l.step e = r at hreacts hd
  cases hreacts with
  | skips => exact Bool.noConfusion (hu.symm.trans hd)
  | notes _ h => exact Bool.noConfusion ((h.up.trans hu).symm.trans hd)
  | wrote _ h => exact Bool.noConfusion ((h.up.trans hu).symm.trans hd)
  | breaks _ h => exact ⟨_, h.torn hr⟩
  | falls _ he =>
    rcases he with rfl | rfl <;>
      exact ⟨l, hr, fun _ _ => rfl, nofun, nofun, fun _ _ => rfl, fun _ _ => rfl⟩

/-- What waits does so until the link is torn down, unless it is withdrawn or its context is used
again. -/
theorem Torn.kept (h : l.Torn e l') {context : String}
    (hcancel : e ≠ .commanded (.cancel context)) :
    l'.pending.get? context = l.pending.get? context ∨ e.opens? = some context := by
  by_cases hc : e.concerns? = some context
  · rcases LinkEvent.concerns_cases hc with ho | he | ⟨v, rfl⟩ | ⟨o, rfl⟩
    · exact .inr ho
    · exact (hcancel he).elim
    · exact .inl (by rw [h.heard _ rfl])
    · exact .inl (by rw [h.heard _ rfl])
  · exact .inl (h.pending context hc)

theorem Torn.registration_kept (h : l.Torn e l') {context : String} {id : HandlerId}
    (hp : l.pending.get? context = some (.registration id))
    (hcall : ∀ c, e = .commanded (.call c) → c.context ≠ context)
    (hcancel : e ≠ .commanded (.cancel context)) :
    ∃ id, l'.pending.get? context = some (.registration id) := by
  rcases h.kept hcancel with hk | ho
  · exact ⟨id, hk.trans hp⟩
  · rcases LinkEvent.opens_cases ho with ⟨name, priority, handler, hr⟩ | ⟨c, hc, hctx⟩
    · exact h.registration context name priority handler hr
    · exact (hcall c hc hctx).elim

theorem Torn.call_kept (h : l.Torn e l') {context : String}
    (hp : l.pending.get? context = some .call)
    (hregister : ∀ name priority handler,
      e ≠ .commanded (.register context name priority handler))
    (hcancel : e ≠ .commanded (.cancel context)) : l'.pending.get? context = some .call := by
  rcases h.kept hcancel with hk | ho
  · exact hk.trans hp
  · rcases LinkEvent.opens_cases ho with ⟨name, priority, handler, hr⟩ | ⟨c, hc, hctx⟩
    · exact (hregister name priority handler hr).elim
    · exact hctx ▸ h.call c hc

omit [DecidableEq η] in
theorem mem_teardown_of_pending {context : String} {p : Pending}
    (hp : l.pending.get? context = some p) : abandoned (context, p) ∈ l.teardown.2 :=
  List.mem_append_left _ (List.mem_map_of_mem (Keyed.get?_eq_some_iff.1 hp))

omit [DecidableEq η] in
theorem mem_teardown_of_running {context : String} {job : JobId}
    (hr : l.running.get? context = some job) : .interrupted job ∈ l.teardown.2 :=
  List.mem_append_right _ (List.mem_map_of_mem
    (List.mem_map_of_mem (f := (·.2)) (Keyed.get?_eq_some_iff.1 hr)))

omit [DecidableEq η] in
theorem answer_of_mem_teardown {context : String} {a : Except Failure Unit}
    (h : .registered context a ∈ l.teardown.2) : a = .error .disconnected := by
  rcases List.mem_append.1 h with h | h
  · obtain ⟨⟨other, _ | id⟩, -, heq⟩ := List.mem_map.1 h
    · cases heq
    · exact (Effect.registered.inj heq).2.symm
  · obtain ⟨job, -, heq⟩ := List.mem_map.1 h
    cases heq

end Link

namespace OutboundCall

variable {k : OutboundCall} {context : String}

theorem attached_noted (h : k.attached = false) (e : Effect η) :
    (k.noted context e).attached = false := by
  cases e with
  | delivered other e =>
    rw [noted]
    split
    · unfold push
      split <;> exact h
    · exact h
  | detached other =>
    rw [noted]
    split
    · rfl
    · exact h
  | wrote | registered | started | interrupted => exact h

theorem attached_foldl_noted (h : k.attached = false) (es : List (Effect η)) :
    (es.foldl (·.noted context) k).attached = false := by
  induction es generalizing k with
  | nil => exact h
  | cons e es ih => exact ih (attached_noted h e)

theorem attached_of_detached {es : List (Effect η)} (h : .detached context ∈ es) :
    (es.foldl (·.noted context) k).attached = false := by
  induction es generalizing k with
  | nil => cases h
  | cons e es ih =>
    rcases List.mem_cons.1 h with rfl | h
    · rw [List.foldl_cons]
      refine attached_foldl_noted ?_ es
      rw [noted, if_pos rfl]
      rfl
    · exact ih h

end OutboundCall

namespace Station

/-! ### What is noted -/

section Notes

variable {s : Station η} {context : String} {es : List (Effect η)}

theorem answered_foldl_note {a : Except Failure Unit}
    (hs : s.registrations.get? context = some (some a))
    (hsole : ∀ a', .registered context a' ∈ es → a' = a) :
    (es.foldl note s).registrations.get? context = some (some a) := by
  induction es generalizing s with
  | nil => exact hs
  | cons e es ih =>
    refine ih ?_ fun a' h => hsole a' (List.mem_cons_of_mem _ h)
    cases e with
    | registered other a' =>
      rw [note, Keyed.get?_modify, hs]
      split
      · next ho =>
        subst ho
        rw [hsole a' List.mem_cons_self]
        rfl
      · rfl
    | wrote | delivered | detached | started | interrupted => exact hs

theorem answer_of_registered {a : Except Failure Unit} {x : Option (Except Failure Unit)}
    (hs : s.registrations.get? context = some x) (h : .registered context a ∈ es)
    (hsole : ∀ a', .registered context a' ∈ es → a' = a) :
    (es.foldl note s).registrations.get? context = some (some a) := by
  induction es generalizing s x with
  | nil => cases h
  | cons e es ih =>
    have hsole' : ∀ a', .registered context a' ∈ es → a' = a := fun a' h =>
      hsole a' (List.mem_cons_of_mem _ h)
    rcases List.mem_cons.1 h with rfl | h
    · rw [List.foldl_cons]
      refine answered_foldl_note ?_ hsole'
      rw [note, Keyed.get?_modify, if_pos rfl, hs]
      rfl
    · have hsome : ∃ x', (s.note e).registrations.get? context = some x' := by
        cases e with
        | registered other a' =>
          rw [note, Keyed.get?_modify, hs]
          split
          · exact ⟨_, rfl⟩
          · exact ⟨_, rfl⟩
        | wrote | delivered | detached | started | interrupted => exact ⟨x, hs⟩
      obtain ⟨x', hx'⟩ := hsome
      exact ih hx' h hsole'

end Notes

/-! ### Nothing waits any more -/

section Settled

variable {s s' : Station η} {fresh : String} {o : Operation η} {em : Option (JobId × CallEvent)}

/-- Nothing waits at a station whose link is lost. -/
structure Settled (s : Station η) : Prop where
  down : s.link.up = false
  queue : s.queue = []
  pending : s.link.pending = ∅
  running : s.link.running = ∅
  roster : s.link.roster.size = 0 ∧ ∀ name, s.link.roster.directory.entries name = []
  registrations : ∀ context, s.registrations.get? context ≠ some none
  calls : ∀ context k, s.calls.get? context = some k → k.Open → k.attached = false
variable [DecidableEq η] {e : StationEvent η} {le : LinkEvent η} {t : Station η}

omit [DecidableEq η] in
theorem answer_of_forgotten {context : String} {a : Except Failure Unit} {q : List (Command η)}
    (h : .registered context a ∈ q.flatMap forgotten) : a = .error .disconnected := by
  obtain ⟨cmd, -, hf⟩ := List.mem_flatMap.1 h
  cases cmd with
  | register => exact (Effect.registered.inj (List.mem_singleton.1 hf)).2
  | call | cancel | update | finish | shutdown => simp [forgotten] at hf

/-- What comes of the loss of a link: whatever waits is told, and what is served is interrupted. -/
theorem Accounted.told_of_lost (h : s.Accounted) (hm : s.Meets e le t) {l' : Link η}
    (ht : s.link.Torn le l') :
    (∀ context a, .registered context a ∈ (t.happen le).2 → a = .error .disconnected) ∧
      (∀ context, s.registrations.get? context = some none →
        .registered context (.error .disconnected) ∈ (t.happen le).2) ∧
      (∀ context k, s.calls.get? context = some k → k.Open →
        .detached context ∈ (t.happen le).2) ∧
      ∀ context job, s.link.running.get? context = some job →
        (∀ o, le ≠ .commanded (.finish context o)) → .interrupted job ∈ (t.happen le).2 := by
  have heffects : (t.happen le).2 = l'.teardown.2 ++ t.queue.flatMap forgotten := by
    rw [effects_happen, hm.same.1, ht.step]
    rfl
  rw [heffects]
  refine ⟨fun context a hmem => ?_, fun context hnone => ?_, fun context k hk ho => ?_,
    fun context job hr hle => ?_⟩
  · rcases List.mem_append.1 hmem with hmem | hmem
    · exact Link.answer_of_mem_teardown hmem
    · exact answer_of_forgotten hmem
  · have waits {id : HandlerId} (hp : l'.pending.get? context = some (.registration id)) :
        .registered context (.error .disconnected) ∈
          l'.teardown.2 ++ t.queue.flatMap forgotten :=
      List.mem_append_left _ (Link.mem_teardown_of_pending hp)
    rcases h.registration context hnone with ⟨name, priority, handler, hcmd⟩ | ⟨id, hp⟩
    · by_cases hle : le = .commanded (.register context name priority handler)
      · obtain ⟨id, hp⟩ := ht.registration context name priority handler hle
        exact waits hp
      · exact List.mem_append_right _ (List.mem_flatMap.2
          ⟨_, hm.left hcmd hle, List.mem_singleton.2 rfl⟩)
    · obtain ⟨hcall, hcancel⟩ := h.of_registration hm (by rw [hnone]; nofun)
      obtain ⟨id, hp⟩ := ht.registration_kept hp hcall hcancel
      exact waits hp
  · have waits (hp : l'.pending.get? context = some .call) :
        .detached context ∈ l'.teardown.2 ++ t.queue.flatMap forgotten :=
      List.mem_append_left _ (Link.mem_teardown_of_pending hp)
    rcases h.call context k hk ho with ⟨c, rfl, hcmd⟩ | hp
    · by_cases hle : le = .commanded (.call c)
      · exact waits (ht.call c hle)
      · exact List.mem_append_right _ (List.mem_flatMap.2
          ⟨_, hm.left hcmd hle, List.mem_singleton.2 rfl⟩)
    · obtain ⟨hregister, hcancel⟩ := h.of_open hm hk ho
      exact waits (ht.call_kept hp hregister hcancel)
  · exact List.mem_append_left _ (Link.mem_teardown_of_running ((ht.running context hle).trans hr))

theorem Accounted.settled (h : s.Accounted) (hm : s.Meets e le t) (hu : s.link.up = true)
    (hd : (t.happen le).1.link.up = false) : (t.happen le).1.Settled := by
  obtain ⟨hl, hc, -, hr⟩ := hm.same
  have hlink : (t.happen le).1.link = (s.link.step le).1 := by rw [happen_link, hl]
  rw [hlink] at hd
  obtain ⟨l', ht⟩ := Link.torn_of_lost hu hd
  obtain ⟨-, hregistered, hdetached, -⟩ := h.told_of_lost hm ht
  have hgone : (t.happen le).1.link = l'.teardown.1 := by rw [hlink, ht.step]
  constructor
  case down =>
    rw [hgone]
    rfl
  case queue =>
    rw [happen_queue, hl, hd]
    rfl
  case pending =>
    rw [hgone]
    rfl
  case running =>
    rw [hgone]
    rfl
  case roster =>
    rw [hgone]
    exact ⟨rfl, fun name => l'.roster.directory.entries_clear name⟩
  case registrations =>
    intro context hnone
    rw [state_happen] at hnone
    obtain ⟨hnone, hunanswered⟩ := unanswered_foldl_note hnone
    exact hunanswered _ (hregistered context (hr ▸ hnone))
  case calls =>
    intro context k' hk' ho
    rw [state_happen, calls_foldl_note] at hk'
    obtain ⟨k, hk, rfl⟩ := Option.map_eq_some_iff.1 hk'
    exact OutboundCall.attached_of_detached (hdetached context k (hc ▸ hk) ho.of_foldl_noted)

theorem happen_of_lost (hu : s.link.up = false) (hq : s.queue = []) (le : LinkEvent η) :
    s.happen le = (s, []) := by
  simp only [Station.happen, Link.step_of_lost hu, hu, hq, List.flatMap_nil, List.append_nil]
  rw [← hq]
  rfl

omit [DecidableEq η] in
/-- At a station whose link is lost nothing comes to wait. -/
theorem Settled.does (h : s.Settled) (hd : s.Does fresh o em s') : s'.Settled := by
  have hdown {P : Prop} (hu : s.link.up = true) : P := Bool.noConfusion (h.down.symm.trans hu)
  cases hd with
  | nothing => exact h
  | registers _ hu | calls _ hu | passes _ _ hu | shutsDown hu => exact hdown hu
  | refused =>
    refine { h with registrations := fun context => ?_ }
    rw [Keyed.get?_insert]
    split
    · rintro ⟨⟩
    · exact h.registrations context
  | @reads context k k' hk hr ha =>
    refine { h with calls := fun other k₁ hk₁ ho => ?_ }
    rw [get?_modify_of hk] at hk₁
    split at hk₁
    · obtain rfl := Option.some.inj hk₁
      exact ha.trans (h.calls context k hk (ho.of_reads hr))
    · exact h.calls other k₁ hk₁ ho
  | @givesUp context k f cs hk hg hc =>
    obtain rfl : cs = [] := hc.resolve_right fun hc => hdown hc.1
    refine { h with queue := (List.append_nil _).trans h.queue, calls := fun other k₁ hk₁ ho => ?_ }
    rw [get?_modify_of hk] at hk₁
    split at hk₁
    · obtain rfl := Option.some.inj hk₁
      exact (hg.not_awaited ho.awaited).elim
    · exact h.calls other k₁ hk₁ ho
  | ends =>
    refine { h with queue := ?_ }
    rw [h.down]
    exact h.queue

omit [DecidableEq η] in
theorem Settled.met (h : s.Settled) (hm : s.Meets e le t) : t = s := by
  cases hm with
  | obeys hq => cases h.queue.symm.trans hq
  | hears | deafens | hangsUp => rfl

theorem Settled.step (h : s.Settled) (e : StationEvent η) : (s.step e).1.Settled := by
  rcases s.happens_step e with @⟨fresh, o, -, hr⟩ | ⟨-, -, hr⟩ | @⟨le, t, hm, hr⟩
  · rw [hr]
    exact h.does (s.does_operate fresh o)
  · rwa [hr]
  · rw [hr, h.met hm, happen_of_lost h.down h.queue]
    exact h

theorem Settled.run (h : s.Settled) (es : List (StationEvent η)) : (s.run es).1.Settled := by
  induction es generalizing s with
  | nil => exact h
  | cons e es ih => exact ih (h.step e)

theorem Settled.answer_step (h : s.Settled) {context : String} {a : Except Failure Unit}
    (ha : s.registrations.get? context = some (some a)) (he : e.opens? ≠ some context) :
    (s.step e).1.registrations.get? context = some (some a) := by
  rcases s.happens_step e with @⟨fresh, o, rfl, hr⟩ | ⟨-, -, hr⟩ | @⟨le, t, hm, hr⟩
  · rw [hr]
    have hd := s.does_operate fresh o
    have hdown {P : Prop} (hu : s.link.up = true) : P := Bool.noConfusion (h.down.symm.trans hu)
    generalize s.emission o = em, (s.operate fresh o).1 = s' at hd
    cases hd with
    | refused ho =>
      subst ho
      exact (Keyed.get?_insert_of_ne _ _ fun hc => he (congrArg some hc.symm)).trans ha
    | registers _ hu | calls _ hu => exact hdown hu
    | nothing | reads | givesUp | passes | ends | shutsDown => exact ha
  · rwa [hr]
  · rw [hr, h.met hm, happen_of_lost h.down h.queue]
    exact ha

theorem Settled.answer_run (h : s.Settled) {context : String} {a : Except Failure Unit}
    (ha : s.registrations.get? context = some (some a)) {es : List (StationEvent η)}
    (hes : context ∉ es.filterMap (·.opens?)) :
    (s.run es).1.registrations.get? context = some (some a) := by
  induction es generalizing s with
  | nil => exact ha
  | cons e es ih =>
    have he : e.opens? ≠ some context := fun ho =>
      hes (List.mem_filterMap.2 ⟨e, List.mem_cons_self, ho⟩)
    refine ih (h.step e) (h.answer_step ha he) fun hmem => hes ?_
    obtain ⟨e', he', ho⟩ := List.mem_filterMap.1 hmem
    exact List.mem_filterMap.2 ⟨e', List.mem_cons_of_mem _ he', ho⟩

end Settled

/-! ### What can still be done -/

/-- Nothing is begun at a station any more, and what handlers tell is refused or forgotten. -/
structure Closed (s : Station η) : Prop where
  call : ∀ fresh function args,
    s.operate fresh (.call function args) = (s, .started (.error .disconnected))
  register : ∀ fresh name priority handler,
    (s.operate fresh (.register name priority handler)).1 = { s with
      registrations := s.registrations.insert fresh (some (.error .disconnected)) }
  update : ∀ (job : JobId) (k : InboundCall), s.jobs[job]? = some k → k.finished = false →
    ∀ fresh v, s.operate fresh (.update job v) = (s, .done (.error .disconnected))
  nested : ∀ (job : JobId) (k : InboundCall), s.jobs[job]? = some k →
    k.depth < maxCallDepth → ∀ fresh function args,
      s.operate fresh (.nested job function args) = (s, .started (.error .disconnected))
  finish : ∀ (job : JobId) (k : InboundCall), s.jobs[job]? = some k → k.finished = false →
    ∀ fresh o, s.operate fresh (.finish job o) =
      ({ s with jobs := s.jobs.set job { k with finished := true } }, .done (.ok ()))
  disconnect : ∀ fresh, s.operate fresh .disconnect = (s, .done (.ok ()))

theorem closed_of_lost {s : Station η} (hu : s.link.up = false) : s.Closed where
  call fresh function args := by
    simp only [operate, Station.call, callAt, submit_of_lost hu]
    rfl
  register fresh name priority handler := by
    simp only [operate, register, submit_of_lost hu]
  update job k hk hf fresh v := by
    simp only [operate, update_of_open hk hf, submit_of_lost hu]
    rfl
  nested job k hk hdepth fresh function args := by
    have hd := InboundCall.nestedDepth_of_lt hdepth
    have hcall : s.callAt fresh function args (k.depth + 1) = .error .disconnected := by
      simp only [callAt, submit_of_lost hu]
      rfl
    have hnested : s.nested job fresh function args = .error .disconnected := by
      simp only [Station.nested, job?, hk, hd]
      exact hcall
    simp only [operate, hnested]
    rfl
  finish job k hk hf fresh o := by
    simp only [operate, finish_eq hk hf, hu]
    rfl
  disconnect fresh := by
    simp only [operate, Station.disconnect, offer_eq, hu]
    rfl

/-! ### What can still be read -/

section Concluded

variable {s s' : Station η} {fresh : String} {o : Operation η} {em : Option (JobId × CallEvent)}

/-- Every call of a station has a result if and only if it is not pending. -/
def Concluded (s : Station η) : Prop :=
  ∀ context k, s.calls.get? context = some k → k.Concluded

theorem concluded_start : ({} : Station η).Concluded := nofun

theorem Concluded.does (h : s.Concluded) (hd : s.Does fresh o em s') : s'.Concluded := by
  have modified {context : String} {k : OutboundCall} {f : OutboundCall → OutboundCall}
      (hk : s.calls.get? context = some k) (hf : k.Concluded → (f k).Concluded) :
      ∀ other k', (s.calls.modify context f).get? other = some k' → k'.Concluded := by
    intro other k' hk'
    rw [get?_modify_of hk] at hk'
    split at hk'
    · obtain rfl := Option.some.inj hk'
      exact hf (h context k hk)
    · exact h other k' hk'
  cases hd with
  | nothing | registers | refused | passes | ends | shutsDown => exact h
  | calls =>
    intro context k hk
    rw [Keyed.get?_insert] at hk
    split at hk
    · obtain rfl := Option.some.inj hk
      exact OutboundCall.concluded_new ..
    · exact h context k hk
  | reads hk hr => exact modified hk hr.concluded
  | givesUp hk hg => exact modified hk hg.concluded

theorem concluded_foldl_noted {context : String} {k : OutboundCall} (h : k.Concluded)
    (es : List (Effect η)) : (es.foldl (·.noted context) k).Concluded := by
  induction es generalizing k with
  | nil => exact h
  | cons e es ih =>
    obtain ⟨hstate, hresult, -⟩ := k.noted_spec context e
    exact ih (h.congr hstate hresult)

variable [DecidableEq η]

theorem Concluded.step (h : s.Concluded) (e : StationEvent η) : (s.step e).1.Concluded := by
  rcases s.happens_step e with @⟨fresh, o, -, hr⟩ | ⟨-, -, hr⟩ | @⟨le, t, hm, hr⟩
  · rw [hr]
    exact h.does (s.does_operate fresh o)
  · rwa [hr]
  · rw [hr]
    intro context k hk
    rw [state_happen, calls_foldl_note] at hk
    obtain ⟨k₀, hk₀, rfl⟩ := Option.map_eq_some_iff.1 hk
    have hk₀ : t.calls.get? context = some k₀ := hk₀
    rw [hm.same.2.1] at hk₀
    exact concluded_foldl_noted (h context k₀ hk₀) _

theorem Concluded.run (h : s.Concluded) (es : List (StationEvent η)) :
    (s.run es).1.Concluded := by
  induction es generalizing s with
  | nil => exact h
  | cons e es ih => exact ih (h.step e)

end Concluded

end Station

namespace OutboundCall

/-- What it comes to if a call is used in one way again and again. -/
def replies (u : Use) : Nat → OutboundCall → List Reply
  | 0, _ => []
  | n + 1, k => (k.use u).1 :: replies u n (k.use u).2

section Reading

variable {k k' : OutboundCall} {u : Use} {us : List Json} {es : List CallEvent}

theorem recv_update {v : Json} (hp : k.state = .pending) (he : k.events = .update v :: es) :
    k.recv = (.ready (.ok (some v)), { k with events := es }) := by
  simp [recv, isDone, hp, he, observe]

theorem recv_finished {o : Outcome} (hp : k.state = .pending)
    (he : k.events = .finished o :: es) :
    k.recv = (.ready (.ok none), { k.complete o with events := es }) := by
  simp [recv, isDone, hp, he, observe, complete]

theorem recv_stranded (hp : k.state = .pending) (ha : k.attached = false) (he : k.events = []) :
    k.recv = (.ready (.error .disconnected), k) := by
  simp [recv, isDone, hp, ha, he]

/-- Reading and trying to read come to the same if reading need not wait. -/
theorem use_of_recv (hu : u = .recv ∨ u = .tryRecv) (hp : k.state = .pending)
    {a : Except Failure (Option Json)} (hr : k.recv = (.ready a, k')) :
    k.use u = (.update (.ready a), k') := by
  rcases hu with rfl | rfl
  · simp only [use, hr]
  · have hd : ¬ k.isDone = true := by
      rw [isDone_iff, hp]
      exact fun h => h rfl
    simp only [use, tryRecv, if_neg hd, hr]

theorem replies_updates (hu : u = .recv ∨ u = .tryRecv) (hp : k.state = .pending)
    (he : k.events = us.map .update ++ es) (n : Nat) :
    k.replies u (us.length + n) = us.map (fun v => .update (.ready (.ok (some v)))) ++
      replies u n { k with events := es } := by
  induction us generalizing k with
  | nil =>
    have hk : k = { k with events := es } := by
      rw [List.map_nil, List.nil_append] at he
      rw [← he]
    rw [List.length_nil, Nat.zero_add, ← hk]
    rfl
  | cons v us ih =>
    have hstep := use_of_recv hu hp (recv_update hp he)
    rw [List.length_cons, Nat.add_right_comm, replies, hstep]
    exact congrArg _ (ih hp rfl)

theorem replies_stranded (hu : u = .recv ∨ u = .tryRecv) (hp : k.state = .pending)
    (ha : k.attached = false) (he : k.events = []) (n : Nat) :
    k.replies u n = List.replicate n (.update (.ready (.error .disconnected))) := by
  induction n with
  | zero => rfl
  | succ n ih =>
    rw [replies, use_of_recv hu hp (recv_stranded hp ha he), ih]
    rfl

theorem replies_of_detached (hu : u = .recv ∨ u = .tryRecv) (hp : k.state = .pending)
    (ha : k.attached = false) (he : k.events = us.map .update) (n : Nat) :
    k.replies u (us.length + n) = us.map (fun v => .update (.ready (.ok (some v)))) ++
      List.replicate n (.update (.ready (.error .disconnected))) := by
  rw [← List.append_nil (us.map _)] at he
  rw [replies_updates hu hp he n,
    replies_stranded (k := { k with events := [] }) hu hp ha rfl n]

theorem replies_of_ended {o : Outcome} (hu : u = .recv ∨ u = .tryRecv) (hp : k.state = .pending)
    (he : k.events = us.map .update ++ .finished o :: es) :
    k.replies u (us.length + 1) =
      us.map (fun v => .update (.ready (.ok (some v)))) ++ [.update (.ready (.ok none))] := by
  have hlast (k : OutboundCall) (hp : k.state = .pending) (he : k.events = .finished o :: es) :
      k.replies u 1 = [.update (.ready (.ok none))] := by
    rw [replies, use_of_recv hu hp (recv_finished hp he)]
    rfl
  rw [replies_updates hu hp he 1, hlast { k with events := .finished o :: es } hp rfl]

theorem skipUpdates_append (us : List Json) (es : List CallEvent) :
    skipUpdates (us.map .update ++ es) = skipUpdates es := by
  induction us with
  | nil => rfl
  | cons v us ih => exact ih

theorem Concluded.result_of_pending (h : k.Concluded) (hp : k.state = .pending) :
    k.result = none :=
  Option.not_isSome_iff_eq_none.1 fun hr => h.1 hr hp

theorem wait_stranded (hc : k.Concluded) (hp : k.state = .pending) (ha : k.attached = false)
    (he : k.events = us.map .update) : k.wait.1 = .ready (.error .disconnected) := by
  have hs : skipUpdates k.events = [] := by
    rw [he, ← List.append_nil (us.map _), skipUpdates_append]
    rfl
  simp [wait, isDone, hc.result_of_pending hp, hp, hs, ha]

theorem wait_finished {o : Outcome} (hc : k.Concluded) (hp : k.state = .pending)
    (he : k.events = us.map .update ++ .finished o :: es) : k.wait.1 = .ready (.ok o) := by
  have hs : skipUpdates k.events = .finished o :: es := by
    rw [he, skipUpdates_append]
    rfl
  simp [wait, isDone, hc.result_of_pending hp, hp, hs]

/-- What has arrived are partial results up to the first end of the call, if there is one. -/
theorem events_cases (es : List CallEvent) :
    (∃ us : List Json, es = us.map .update) ∨
      ∃ (us : List Json) (o : Outcome) (rest : List CallEvent),
        es = us.map .update ++ .finished o :: rest := by
  induction es with
  | nil => exact .inl ⟨[], rfl⟩
  | cons e es ih =>
    cases e with
    | finished o => exact .inr ⟨[], o, es, rfl⟩
    | update v =>
      rcases ih with ⟨us, rfl⟩ | ⟨us, o, rest, rfl⟩
      · exact .inl ⟨v :: us, rfl⟩
      · exact .inr ⟨v :: us, o, rest, rfl⟩

theorem finishes_of_updates (he : k.events = us.map .update) : k.finishes = 0 := by
  rw [finishes, he, List.countP_map]
  exact List.countP_eq_zero.2 fun _ _ h => Bool.noConfusion h

end Reading

end OutboundCall

namespace Station

/-- What it comes to if an operation is done again and again. -/
def replies (fresh : String) (o : Operation η) : Nat → Station η → List Reply
  | 0, _ => []
  | n + 1, s => (s.operate fresh o).2 :: replies fresh o n (s.operate fresh o).1

theorem replies_use {s : Station η} {context : String} {k : OutboundCall}
    (h : s.calls.get? context = some k) (u : Use) (fresh : String) (n : Nat) :
    s.replies fresh (u.operation context) n = k.replies u n := by
  induction n generalizing s k with
  | zero => rfl
  | succ n ih =>
    obtain ⟨hcall, -, hreply⟩ := operate_use h u fresh
    rw [replies, OutboundCall.replies, hreply, ih hcall]

/-! ### Main statement -/

section Main

variable {s t : Station η} {context : String}

/-- Reading a call gives partial results and then, as often as it is tried, something else, and
waiting for it gives an outcome or fails. -/
structure Yields (s : Station η) (context : String) (us : List Json) (n : Nat)
    (after : Except Failure (Option Json)) (outcome : Except Failure Outcome) : Prop where
  read : ∀ (fresh : String) (u : Use), u = .recv ∨ u = .tryRecv →
    s.replies fresh (u.operation context) (us.length + n) =
      us.map (fun v => .update (.ready (.ok (some v)))) ++
        List.replicate n (.update (.ready after))
  waited : ∀ fresh : String,
    (s.operate fresh (.wait context)).2 = .outcome (.ready outcome)

/-- A call that its caller waits for is read to its end, which is what has arrived, or that the link
is lost. -/
theorem yields_of_detached {k : OutboundCall} (hk : s.calls.get? context = some k)
    (hc : k.Concluded) (ha : k.Awaited) (hs : k.Open → k.attached = false) : ∃ us : List Json,
      (k.events = us.map .update ∧
        ∀ n, s.Yields context us n (.error .disconnected) (.error .disconnected)) ∨
      ∃ (o : Outcome) (es : List CallEvent), k.events = us.map .update ++ .finished o :: es ∧
        s.Yields context us 1 (.ok none) (.ok o) := by
  have hwait (fresh : String) : (s.operate fresh (.wait context)).2 = .outcome k.wait.1 :=
    (operate_use hk .wait fresh).2.2
  rcases OutboundCall.events_cases k.events with ⟨us, he⟩ | ⟨us, o, es, he⟩
  · have hdetached := hs ⟨ha, OutboundCall.finishes_of_updates he⟩
    refine ⟨us, .inl ⟨he, fun n => ⟨fun fresh u hu => ?_, fun fresh => ?_⟩⟩⟩
    · rw [replies_use hk]
      exact OutboundCall.replies_of_detached hu ha.state hdetached he n
    · rw [hwait, OutboundCall.wait_stranded hc ha.state hdetached he]
  · refine ⟨us, .inr ⟨o, es, he, ⟨fun fresh u hu => ?_, fun fresh => ?_⟩⟩⟩
    · rw [replies_use hk]
      exact OutboundCall.replies_of_ended hu ha.state he
    · rw [hwait, OutboundCall.wait_finished hc ha.state he]

variable [DecidableEq η]

/-- When the link is lost nothing happens to calls but that they are detached. -/
theorem held_happen {le : LinkEvent η} {l' : Link η} (hl : s.link.step le = l'.teardown) :
    (s.happen le).1.held context = s.held context := by
  have heffects : (s.happen le).2 = l'.teardown.2 ++ s.queue.flatMap forgotten := by
    rw [effects_happen, hl]
    rfl
  rw [state_happen, heffects]
  refine (held_foldl_note (fun f hf => ?_) _).1
  rcases List.mem_append.1 hf with hf | hf
  · exact Port.quiet_teardown context l' f hf
  · exact Port.quiet_forgotten context s.queue f hf

/-- The link is lost when the broker's stream ends, when it is shut down, and when a call cannot be
written. -/
theorem lost_by (s : Station η) :
    (s.step .hangUp).1.link.up = false ∧
      (∀ cs, s.queue = .shutdown :: cs → (s.step .obey).1.link.up = false) ∧
      ∀ c cs, s.queue = .call c :: cs →
        ¬(s.link.writable = true ∧ ∃ f, (Message.call c).encode = .ok f) →
        (s.step .obey).1.link.up = false := by
  have lost (t : Station η) (e : LinkEvent η)
      (he : t.link.up = true → (t.link.step e).1.up = false) : (t.happen e).1.link.up = false := by
    rw [happen_link]
    cases hu : t.link.up with
    | false => rwa [Link.step_of_lost hu]
    | true => exact he hu
  have obeyed {cmd : Command η} {cs : List (Command η)} (hq : s.queue = cmd :: cs) :
      s.step .obey = happen { s with queue := cs } (.commanded cmd) := by
    rw [step, obey, hq]
  refine ⟨lost s .ended fun hu => ?_, fun cs hq => ?_, fun c cs hq hwrite => ?_⟩
  · rw [Link.step, if_pos hu]
    rfl
  · rw [obeyed hq]
    exact lost _ _ fun hu => congrArg (·.1.up) (Link.step_commanded hu _)
  · rw [obeyed hq]
    refine lost _ _ fun hu => ?_
    rw [Link.step_commanded hu, Link.obey]
    rcases Link.write_of_fits { s.link with pending := s.link.pending.insert c.context .call }
      (.call c) with ⟨hfits, -⟩ | ⟨-, hw⟩
    · exact (hwrite hfits).elim
    · exact congrArg (·.1.up) hw

/-- **The loss of the link settles everything.**  Let anything happen at a station, its calls and
registrations being given different contexts, and let the link be lost by one of the events.  Then,
whatever happens afterwards:

* registrations that were not answered have failed, and none waits;
* calls are as they were when the link was lost, but that nothing arrives for them any more; whoever
  waits for one reads what has arrived, and after that either the outcome, if it has arrived, or
  that the link is lost;
* the handlers of all calls that were being served are interrupted, but for the call whose outcome
  could not be written;
* nothing waits or is served at the link, it has no handlers, no commands are left, and the session
  is over;
* no call or registration can be begun, partial results are refused, a call can be ended without
  anything coming of it, and ending the session again changes nothing. -/
theorem loss_settles {es later : List (StationEvent η)} {e : StationEvent η}
    (hd : ((es ++ e :: later).filterMap (·.opens?)).Nodup)
    (hup : (run ({} : Station η) es).1.link.up = true)
    (hlost : ((run ({} : Station η) es).1.step e).1.link.up = false) :
    let s := (run ({} : Station η) es).1
    let s' := (s.step e).1
    let t := (s'.run later).1
    (∀ context, s.registrations.get? context = some none →
      t.registrations.get? context = some (some (.error .disconnected))) ∧
    (∀ context, t.registrations.get? context ≠ some none) ∧
    (∀ context, s'.held context = s.held context) ∧
    (∀ context k, t.calls.get? context = some k → k.Awaited → ∃ us : List Json,
      (k.events = us.map .update ∧
        ∀ n, t.Yields context us n (.error .disconnected) (.error .disconnected)) ∨
      ∃ (o : Outcome) (es : List CallEvent), k.events = us.map .update ++ .finished o :: es ∧
        t.Yields context us 1 (.ok none) (.ok o)) ∧
    (∀ context job, s.link.running.get? context = some job →
      (e = .obey ∧ ∃ o, s.queue.head? = some (.finish context o)) ∨
        ∃ k, t.jobs[job]? = some k ∧ k.cancelled = true) ∧
    (t.link.pending = ∅ ∧ t.link.running = ∅ ∧ t.link.roster.size = 0 ∧
      (∀ name, t.link.roster.directory.entries name = []) ∧
      t.isConnected = false ∧ t.queue = []) ∧
    t.Closed := by
  intro s s' t
  have hsound : s.Sound := sound_start.run es
  rw [List.filterMap_append, List.nodup_append] at hd
  obtain ⟨hes, hrest, hapart⟩ := hd
  obtain ⟨hknows, haccounted⟩ := accounted_run hes
  have h : s.Accounted := haccounted hup
  have hstep : (∃ le t₀, s.Meets e le t₀ ∧ s.step e = t₀.happen le) := by
    rcases s.happens_step e with @⟨fresh, o, -, hr⟩ | ⟨-, -, hr⟩ | ⟨hm, hr⟩
    · have hlost : (s.step e).1.link.up = false := hlost
      rw [hr, (s.operate_kept fresh o).link] at hlost
      exact Bool.noConfusion (hlost.symm.trans hup)
    · have hlost : (s.step e).1.link.up = false := hlost
      rw [hr] at hlost
      exact Bool.noConfusion (hlost.symm.trans hup)
    · exact ⟨_, _, hm, hr⟩
  obtain ⟨le, t₀, hm, hr⟩ := hstep
  have hs' : s' = (t₀.happen le).1 := congrArg Prod.fst hr
  obtain ⟨hl, hcalls, hjobs, hregistrations⟩ := hm.same
  have hdown : (t₀.happen le).1.link.up = false := hs' ▸ hlost
  have hsettled' : s'.Settled := hs' ▸ h.settled hm hup hdown
  have hsettled : t.Settled := hsettled'.run later
  have hconcluded : t.Concluded := ((concluded_start.run es).step e).run later
  rw [happen_link, hl] at hdown
  obtain ⟨l', htorn⟩ := Link.torn_of_lost hup hdown
  obtain ⟨honly, hregistered, -, hinterrupted⟩ := h.told_of_lost hm htorn
  refine ⟨fun context hnone => ?_, hsettled.registrations, fun context => ?_,
    fun context k hk ha => yields_of_detached hk (hconcluded context k hk) ha fun ho =>
      hsettled.calls context k hk ho,
    fun context job hrunning => ?_,
    ⟨hsettled.pending, hsettled.running, hsettled.roster.1, hsettled.roster.2, hsettled.down,
      hsettled.queue⟩, closed_of_lost hsettled.down⟩
  · have ha : s'.registrations.get? context = some (some (.error .disconnected)) := by
      rw [hs', state_happen]
      exact answer_of_registered (x := none) (hregistrations ▸ hnone) (hregistered context hnone)
        (honly context)
    refine hsettled'.answer_run ha fun hmem => ?_
    have hknown : context ∈ es.filterMap (·.opens?) := hknows context (.inr (by rw [hnone]; nofun))
    obtain ⟨e', he', ho⟩ := List.mem_filterMap.1 hmem
    exact hapart context hknown context
      (List.mem_filterMap.2 ⟨e', List.mem_cons_of_mem _ he', ho⟩) rfl
  · rw [hs', held_happen (hl ▸ htorn.step), held, held, hcalls]
  · by_cases hle : ∃ o, le = .commanded (.finish context o)
    · obtain ⟨o, rfl⟩ := hle
      left
      cases hm with
      | obeys hq => exact ⟨rfl, o, by rw [hq]; rfl⟩
    · right
      have hmem := hinterrupted context job hrunning fun o ho => hle ⟨o, ho⟩
      have hlt : job < s.jobs.length := by
        rw [← hsound.jobs]
        exact h.running context job hrunning
      have hk : t₀.jobs[job]? = some s.jobs[job] := by
        rw [hjobs]
        exact List.getElem?_eq_getElem hlt
      have hk' := getElem?_jobs_happen hk le
      rw [← hs'] at hk'
      obtain ⟨k, hk'', hages⟩ := ages_run hk' later
      refine ⟨k, hk'', hages.cancelled ?_⟩
      have hany : (t₀.happen le).2.any (·.interrupts job) = true :=
        List.any_eq_true.2 ⟨_, hmem, decide_eq_true rfl⟩
      simp only [hany, Bool.or_true]

end Main

/-- A registration and a call wait in the queue when the broker's stream ends. -/
theorem loss_settles_queued :
    let es : List (StationEvent Unit) :=
      [.act "r" (.register "f" 0 ()), .act "c" (.call "g" .null)]
    let s := (run ({} : Station Unit) es).1
    let t := (s.step .hangUp).1
    ((es ++ StationEvent.hangUp :: []).filterMap StationEvent.opens?).Nodup ∧ s.link.up = true ∧ t.link.up = false ∧
      s.registrations.get? "r" = some none ∧
      t.registrations.get? "r" = some (some (.error .disconnected)) ∧
      (t.operate "x" (.wait "c")).2 = .outcome (.ready (.error .disconnected)) ∧ t.Closed := by
  intro es s t
  have hd : ((es ++ StationEvent.hangUp :: []).filterMap StationEvent.opens?).Nodup := by decide
  have hcall : t.calls.get? "c" =
      some { context := "c", function := "g", args := .null, attached := false } := rfl
  obtain ⟨hregistrations, -, -, hcalls, -, -, hclosed⟩ := loss_settles hd rfl rfl
  obtain ⟨us, ⟨-, hyields⟩ | ⟨o, events, he, -⟩⟩ := hcalls "c" _ hcall ⟨rfl, rfl⟩
  · exact ⟨hd, rfl, rfl, rfl, hregistrations "r" rfl, (hyields 0).waited "x", hclosed⟩
  · cases us <;> cases he

end Station
end Switchboard
