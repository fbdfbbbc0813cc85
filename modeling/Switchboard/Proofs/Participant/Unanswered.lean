import Switchboard.Proofs.Network.Waiting
import Switchboard.Proofs.Participant.Arrivals
import Switchboard.Proofs.Participant.Course
import Switchboard.Proofs.Participant.OutboundCall

/-! # What waits at a participant

A call that its caller waits for, and a registration that is not answered, wait for a command that is
still in the queue, or for an answer that the link waits for, too.  As long as the link is up, nothing
waits for anything else (`Station.Accounted`), so that whoever loses the link knows whom to tell.

* **Links.** A registration that a link waits for is answered or waits on, and so does a call.
* **Stations.** What operations leave in the queue, and what the link's work makes of it, keeps all
  that waits accounted for (`Station.Accounted.does`, `Station.Accounted.happen`), whatever happens
  (`Station.accounted_run`), if calls and registrations are given different contexts. -/

namespace Switchboard

variable {η : Type}

/-! ### Links -/

namespace Link

variable [DecidableEq η] {l : Link η} {e : LinkEvent η}

theorem register_step {context name : String} {priority : UInt16} {handler : η} (hu : l.up = true)
    (hup : (l.step (.commanded (.register context name priority handler))).1.up = true) :
    (∃ id, (l.step (.commanded (.register context name priority handler))).1.pending.get? context =
        some (.registration id)) ∨
      ∃ a, .registered context a ∈
        (l.step (.commanded (.register context name priority handler))).2 := by
  have hreacts := l.reacts_step (.commanded (.register context name priority handler))
  generalize l.step (.commanded (.register context name priority handler)) = r at hreacts hup ⊢
  cases hreacts with
  | skips h =>
    cases h with
    | lost hd => exact Bool.noConfusion (hd.symm.trans hu)
  | notes _ h =>
    cases h with
    | refuses => exact .inr ⟨_, List.mem_singleton.2 rfl⟩
  | wrote _ h =>
    cases h with
    | registers => exact .inl ⟨_, Keyed.get?_insert_self ..⟩
  | breaks | falls => cases hup

/-- What waits does so until it is answered, unless it is withdrawn or its context is used again. -/
theorem waits_step {context : String} (hup : (l.step e).1.up = true)
    (hcancel : e ≠ .commanded (.cancel context)) :
    (l.step e).1.pending.get? context = l.pending.get? context ∨ e.opens? = some context ∨
      ∃ o, e = .heard (.result context o) := by
  by_cases hc : e.concerns? = some context
  · rcases LinkEvent.concerns_cases hc with ho | he | ⟨v, rfl⟩ | ho
    · exact .inr (.inl ho)
    · exact (hcancel he).elim
    · left
      simp only [step_heard (up_of_step hup), hear]
      split <;> rfl
    · exact .inr (.inr ho)
  · exact .inl ((l.spares_step hc).untouched hup).1

theorem registration_step {context : String} {id : HandlerId} (hup : (l.step e).1.up = true)
    (hp : l.pending.get? context = some (.registration id))
    (hcall : ∀ c, e = .commanded (.call c) → c.context ≠ context)
    (hcancel : e ≠ .commanded (.cancel context)) :
    (∃ id, (l.step e).1.pending.get? context = some (.registration id)) ∨
      ∃ a, .registered context a ∈ (l.step e).2 := by
  rcases waits_step hup hcancel with hk | ho | ⟨o, rfl⟩
  · exact .inl ⟨id, hk.trans hp⟩
  · rcases LinkEvent.opens_cases ho with ⟨name, priority, handler, rfl⟩ | ⟨c, hc, hctx⟩
    · exact register_step (up_of_step hup) hup
    · exact (hcall c hc hctx).elim
  · right
    simp only [step_heard (up_of_step hup), hear, answer, hp]
    split <;> exact ⟨_, List.mem_singleton.2 rfl⟩

theorem call_step {context : String} (hup : (l.step e).1.up = true)
    (hp : l.pending.get? context = some .call)
    (hregister : ∀ name priority handler,
      e ≠ .commanded (.register context name priority handler))
    (hcancel : e ≠ .commanded (.cancel context)) :
    (l.step e).1.pending.get? context = some .call ∨
      ∃ o, .delivered context (.finished o) ∈ (l.step e).2 := by
  rcases waits_step hup hcancel with hk | ho | ⟨o, rfl⟩
  · exact .inl (hk.trans hp)
  · rcases LinkEvent.opens_cases ho with ⟨name, priority, handler, hr⟩ | ⟨c, rfl, rfl⟩
    · exact (hregister name priority handler hr).elim
    · exact .inl ((l.step_call c).2 hup)
  · rw [step_result (up_of_step hup) hp o]
    exact .inr ⟨o, List.mem_singleton.2 rfl⟩

/-- What is served has been served before, or its handler has just been started. -/
theorem running_step {context : String} {job : JobId}
    (h : (l.step e).1.running.get? context = some job) :
    l.running.get? context = some job ∨ job = l.jobs ∧ (l.step e).1.jobs = l.jobs + 1 := by
  have erased {k : String} (h : (l.running.erase k).get? context = some job) :
      l.running.get? context = some job := by
    rw [Keyed.get?_erase] at h
    split at h
    · cases h
    · exact h
  have hreacts := l.reacts_step e
  generalize l.step e = r at hreacts h ⊢
  cases hreacts with
  | skips => exact .inl h
  | notes _ hn =>
    cases hn with
    | starts =>
      rw [Keyed.get?_insert] at h
      split at h
      · exact .inr ⟨(Option.some.inj h).symm, rfl⟩
      · exact .inl h
    | stops => exact .inl (erased h)
    | refuses | passes | ends | confirms | rejects | deafens => exact .inl h
  | wrote _ hw =>
    cases hw with
    | finishes => exact .inl (erased h)
    | registers | calls | cancels | updates | declines => exact .inl h
  | breaks | falls => cases h

end Link

/-- Whether an operation asks for a registration or makes a call. -/
def Operation.opens : Operation η → Bool
  | .register .. | .call .. | .nested .. => true
  | _ => false

/-- The context that an event at a station is given for something that it starts. -/
def StationEvent.opens? : StationEvent η → Option String
  | .act fresh o => if o.opens then some fresh else none
  | _ => none

/-! ### Calls that wait -/

namespace OutboundCall

/-- The caller waits for the end of the call, and the end has not arrived. -/
structure Open (k : OutboundCall) : Prop where
  awaited : k.Awaited
  unfinished : k.finishes = 0

variable {k k' : OutboundCall} {context : String}

theorem Open.of_reads (h : k'.Open) (hr : k.Reads k') : k.Open :=
  ⟨(hr.awaited h.awaited).1, (hr.awaited h.awaited).2 ▸ h.unfinished⟩

theorem Open.of_noted {e : Effect η} (h : (k.noted context e).Open) : k.Open := by
  obtain ⟨hs, -, hd, he⟩ := k.noted_spec context e
  refine ⟨⟨hs ▸ h.awaited.state, hd ▸ h.awaited.dropped⟩, ?_⟩
  exact Nat.eq_zero_of_le_zero (Nat.le_trans he.sublist.countP_le (Nat.le_of_eq h.unfinished))

theorem Open.of_foldl_noted {es : List (Effect η)} (h : (es.foldl (·.noted context) k).Open) :
    k.Open := by
  induction es generalizing k with
  | nil => exact h
  | cons e es ih => exact (ih h).of_noted

theorem accepts_of_open (h : k.Open) : k.accepts = true := by
  rw [accepts, h.awaited.dropped, h.awaited.state]
  rfl

theorem accepts_foldl_noted (es : List (Effect η)) :
    (es.foldl (·.noted context) k).accepts = k.accepts := by
  induction es generalizing k with
  | nil => rfl
  | cons e es ih =>
    obtain ⟨hs, -, hd, -⟩ := k.noted_spec context e
    rw [List.foldl_cons, ih, accepts, accepts, hs, hd]

/-- The end of a call that is open arrives. -/
theorem not_open_of_delivered {es : List (Effect η)} {o : Outcome}
    (h : .delivered context (.finished o) ∈ es) : ¬ (es.foldl (·.noted context) k).Open := by
  induction es generalizing k with
  | nil => cases h
  | cons e es ih =>
    rcases List.mem_cons.1 h with rfl | h
    · intro ho
      rw [List.foldl_cons] at ho
      have hn := ho.of_foldl_noted
      rw [noted, if_pos rfl] at hn
      obtain ⟨_, he⟩ := hn.awaited.push
      have hf := hn.unfinished
      rw [finishes, he, List.countP_append] at hf
      exact Nat.succ_ne_zero _ hf
    · exact ih h


end OutboundCall

namespace Station

/-! ### What is noted -/

section Notes

variable {s : Station η} {context : String} {es : List (Effect η)}

theorem calls_foldl_note (s : Station η) (context : String) (es : List (Effect η)) :
    (es.foldl note s).calls.get? context =
      (s.calls.get? context).map (es.foldl (·.noted context)) := by
  induction es generalizing s with
  | nil => exact Option.map_id'.symm ▸ rfl
  | cons e es ih =>
    rw [List.foldl_cons, ih]
    cases h : s.calls.get? context with
    | some k => rw [get?_note h e]; rfl
    | none =>
      have hnone : (s.note e).calls.get? context = none := by
        have modified (other : String) (f : OutboundCall → OutboundCall) :
            (s.calls.modify other f).get? context = none := by
          rw [Keyed.get?_modify, h]
          split <;> rfl
        cases e with
        | delivered | detached => exact modified _ _
        | wrote | registered | started | interrupted => exact h
      rw [hnone]
      rfl

theorem isSome_registrations_foldl_note (s : Station η) (context : String)
    (es : List (Effect η)) : ((es.foldl note s).registrations.get? context).isSome =
      (s.registrations.get? context).isSome := by
  induction es generalizing s with
  | nil => rfl
  | cons e es ih =>
    rw [List.foldl_cons, ih]
    cases e with
    | registered other a =>
      rw [note, Keyed.get?_modify]
      split
      · rw [Option.isSome_map]
      · rfl
    | wrote | delivered | detached | started | interrupted => rfl

theorem unanswered_foldl_note (h : (es.foldl note s).registrations.get? context = some none) :
    s.registrations.get? context = some none ∧ ∀ a, .registered context a ∉ es := by
  induction es generalizing s with
  | nil => exact ⟨h, nofun⟩
  | cons e es ih =>
    obtain ⟨hs, hes⟩ := ih h
    cases e with
    | registered other a =>
      rw [note, Keyed.get?_modify] at hs
      split at hs
      · obtain ⟨_, _, ha⟩ := Option.map_eq_some_iff.1 hs
        cases ha
      · next ho =>
        refine ⟨hs, fun a' hmem => ?_⟩
        rcases List.mem_cons.1 hmem with hmem | hmem
        · exact ho (Effect.registered.inj hmem).1
        · exact hes a' hmem
    | wrote | delivered | detached | started | interrupted =>
      refine ⟨hs, fun a' hmem => ?_⟩
      rcases List.mem_cons.1 hmem with hmem | hmem
      · cases hmem
      · exact hes a' hmem


end Notes

/-! ### What waits is accounted for -/

/-- As long as the link is up, whatever waits at a station does so for a command that is still in the
queue, or for an answer that the link waits for, too. -/
structure Accounted (s : Station η) : Prop where
  /-- A context is a call's or a registration's. -/
  apart : ∀ context k, s.calls.get? context = some k → s.registrations.get? context = none
  registers : ∀ context name priority handler,
    .register context name priority handler ∈ s.queue → s.registrations.get? context ≠ none
  calls : ∀ c, .call c ∈ s.queue → s.calls.get? c.context ≠ none
  /-- Only calls that have been given up are withdrawn. -/
  cancels : ∀ context, .cancel context ∈ s.queue →
    ∃ k, s.calls.get? context = some k ∧ k.accepts = false
  registration : ∀ context, s.registrations.get? context = some none →
    (∃ name priority handler, .register context name priority handler ∈ s.queue) ∨
      ∃ id, s.link.pending.get? context = some (.registration id)
  call : ∀ context k, s.calls.get? context = some k → k.Open →
    (∃ c, c.context = context ∧ .call c ∈ s.queue) ∨ s.link.pending.get? context = some .call
  running : ∀ context job, s.link.running.get? context = some job → job < s.link.jobs

section Accounted

variable {s s' : Station η} {fresh : String} {o : Operation η} {em : Option (JobId × CallEvent)}

theorem accounted_start : ({} : Station η).Accounted :=
  ⟨nofun, nofun, nofun, nofun, nofun, nofun, nofun⟩

/-- Commands that are about nothing that waits. -/
theorem Accounted.grows (h : s.Accounted) {cs : List (Command η)} (hq : s'.queue = s.queue ++ cs)
    (hcs : ∀ cmd ∈ cs, (LinkEvent.commanded cmd : LinkEvent η).concerns? = none)
    (hl : s'.link = s.link) (hc : s'.calls = s.calls)
    (hr : s'.registrations = s.registrations) : s'.Accounted := by
  have older {cmd : Command η} (hcmd : cmd ∈ s'.queue)
      (hcon : (LinkEvent.commanded cmd : LinkEvent η).concerns? ≠ none) : cmd ∈ s.queue := by
    rw [hq] at hcmd
    exact (List.mem_append.1 hcmd).resolve_right fun hmem => hcon (hcs cmd hmem)
  have newer {cmd : Command η} (hcmd : cmd ∈ s.queue) : cmd ∈ s'.queue := by
    rw [hq]
    exact List.mem_append_left _ hcmd
  constructor
  case apart =>
    rw [hc, hr]
    exact h.apart
  case registers =>
    rw [hr]
    exact fun context name priority handler hcmd =>
      h.registers context name priority handler (older hcmd nofun)
  case calls =>
    rw [hc]
    exact fun c hcmd => h.calls c (older hcmd nofun)
  case cancels =>
    rw [hc]
    exact fun context hcmd => h.cancels context (older hcmd nofun)
  case registration =>
    rw [hr, hl]
    intro context hnone
    rcases h.registration context hnone with ⟨name, priority, handler, hcmd⟩ | hp
    · exact .inl ⟨name, priority, handler, newer hcmd⟩
    · exact .inr hp
  case call =>
    rw [hc, hl]
    intro context k hk ho
    rcases h.call context k hk ho with ⟨c, hctx, hcmd⟩ | hp
    · exact .inl ⟨c, hctx, newer hcmd⟩
    · exact .inr hp
  case running =>
    rw [hl]
    exact h.running

theorem get?_modify_of {context : String} {k : OutboundCall} (hk : s.calls.get? context = some k)
    (f : OutboundCall → OutboundCall) (other : String) :
    (s.calls.modify context f).get? other =
      if other = context then some (f k) else s.calls.get? other := by
  rw [Keyed.get?_modify]
  split
  · next he => rw [he, hk]; rfl
  · rfl

theorem mem_of_snoc {q : List (Command η)} {cmd last : Command η} (h : cmd ∈ q ++ [last])
    (hne : cmd ≠ last) : cmd ∈ q :=
  (List.mem_append.1 h).resolve_right fun hmem => hne (List.mem_singleton.1 hmem)

theorem Accounted.registers_new (h : s.Accounted) {name : String} {priority : UInt16} {handler : η}
    (hc : s.calls.get? fresh = none) : Accounted { s with
      queue := s.queue ++ [.register fresh name priority handler]
      registrations := s.registrations.insert fresh none } := by
  have kept {context : String} (hctx : context ≠ fresh) :
      (s.registrations.insert fresh none).get? context = s.registrations.get? context :=
    Keyed.get?_insert_of_ne _ _ hctx
  constructor
  case apart =>
    intro context k hk
    by_cases hctx : context = fresh
    · subst hctx
      cases hc.symm.trans hk
    · exact (kept hctx).trans (h.apart context k hk)
  case registers =>
    intro context name' priority' handler' hcmd
    by_cases hctx : context = fresh
    · rw [Keyed.get?_insert, if_pos hctx]
      nofun
    · rw [kept hctx]
      exact h.registers context name' priority' handler'
        (mem_of_snoc hcmd fun he => hctx (Command.register.inj he).1)
  case calls => exact fun c hcmd => h.calls c (mem_of_snoc hcmd nofun)
  case cancels => exact fun context hcmd => h.cancels context (mem_of_snoc hcmd nofun)
  case registration =>
    intro context hnone
    by_cases hctx : context = fresh
    · subst hctx
      exact .inl ⟨name, priority, handler, List.mem_append_right _ (List.mem_singleton.2 rfl)⟩
    · rw [kept hctx] at hnone
      rcases h.registration context hnone with ⟨name', priority', handler', hcmd⟩ | hp
      · exact .inl ⟨name', priority', handler', List.mem_append_left _ hcmd⟩
      · exact .inr hp
  case call =>
    intro context k hk ho
    rcases h.call context k hk ho with ⟨c, hctx, hcmd⟩ | hp
    · exact .inl ⟨c, hctx, List.mem_append_left _ hcmd⟩
    · exact .inr hp
  case running => exact h.running

theorem Accounted.calls_new (h : s.Accounted) {c : Call} {k : OutboundCall}
    (hc : s.calls.get? c.context = none) (hr : s.registrations.get? c.context = none) :
    Accounted { s with queue := s.queue ++ [.call c], calls := s.calls.insert c.context k } := by
  have kept {context : String} (hctx : context ≠ c.context) :
      (s.calls.insert c.context k).get? context = s.calls.get? context :=
    Keyed.get?_insert_of_ne _ _ hctx
  constructor
  case apart =>
    intro context k' hk
    by_cases hctx : context = c.context
    · rw [hctx]
      exact hr
    · exact h.apart context k' ((kept hctx).symm.trans hk)
  case registers =>
    exact fun context name priority handler hcmd =>
      h.registers context name priority handler (mem_of_snoc hcmd nofun)
  case calls =>
    intro c' hcmd
    by_cases hctx : c'.context = c.context
    · rw [Keyed.get?_insert, if_pos hctx]
      nofun
    · rw [kept hctx]
      exact h.calls c' (mem_of_snoc hcmd fun he => hctx (congrArg Call.context (Command.call.inj he)))
  case cancels =>
    intro context hcmd
    obtain ⟨k', hk', ha⟩ := h.cancels context (mem_of_snoc hcmd nofun)
    refine ⟨k', (kept fun hctx => ?_).trans hk', ha⟩
    rw [hctx, hc] at hk'
    cases hk'
  case registration =>
    intro context hnone
    rcases h.registration context hnone with ⟨name, priority, handler, hcmd⟩ | hp
    · exact .inl ⟨name, priority, handler, List.mem_append_left _ hcmd⟩
    · exact .inr hp
  case call =>
    intro context k' hk' ho
    by_cases hctx : context = c.context
    · exact .inl ⟨c, hctx.symm, List.mem_append_right _ (List.mem_singleton.2 rfl)⟩
    · rcases h.call context k' ((kept hctx).symm.trans hk') ho with ⟨c', hctx', hcmd⟩ | hp
      · exact .inl ⟨c', hctx', List.mem_append_left _ hcmd⟩
      · exact .inr hp
  case running => exact h.running

/-- A caller uses its call, and may withdraw it if it gives it up. -/
theorem Accounted.modifies (h : s.Accounted) {context : String} {k k' : OutboundCall}
    {cs : List (Command η)} (hk : s.calls.get? context = some k)
    (hget : ∀ other, s'.calls.get? other =
      if other = context then some k' else s.calls.get? other)
    (ha : k.accepts = false → k'.accepts = false) (ho : k'.Open → k.Open)
    (hq : s'.queue = s.queue ++ cs)
    (hcs : ∀ cmd ∈ cs, cmd = .cancel context ∧ k'.accepts = false)
    (hl : s'.link = s.link) (hr : s'.registrations = s.registrations) : s'.Accounted := by
  have older {cmd : Command η} (hcmd : cmd ∈ s'.queue) (hne : ∀ other, cmd ≠ .cancel other) :
      cmd ∈ s.queue := by
    rw [hq] at hcmd
    exact (List.mem_append.1 hcmd).resolve_right fun hmem => hne context (hcs cmd hmem).1
  have newer {cmd : Command η} (hcmd : cmd ∈ s.queue) : cmd ∈ s'.queue := by
    rw [hq]
    exact List.mem_append_left _ hcmd
  have hself : s'.calls.get? context = some k' := (hget context).trans (if_pos rfl)
  have hother {other : String} (hne : other ≠ context) :
      s'.calls.get? other = s.calls.get? other := (hget other).trans (if_neg hne)
  constructor
  case apart =>
    rw [hr]
    intro other k₁ hk₁
    by_cases hne : other = context
    · exact hne ▸ h.apart context k hk
    · exact h.apart other k₁ ((hother hne).symm.trans hk₁)
  case registers =>
    rw [hr]
    exact fun other name priority handler hcmd =>
      h.registers other name priority handler (older hcmd nofun)
  case calls =>
    intro c hcmd
    by_cases hne : c.context = context
    · rw [hne, hself]
      nofun
    · rw [hother hne]
      exact h.calls c (older hcmd nofun)
  case cancels =>
    intro other hcmd
    by_cases hne : other = context
    · subst hne
      refine ⟨k', hself, ?_⟩
      rw [hq] at hcmd
      rcases List.mem_append.1 hcmd with hcmd | hcmd
      · obtain ⟨k₁, hk₁, hacc⟩ := h.cancels other hcmd
        obtain rfl := Option.some.inj (hk.symm.trans hk₁)
        exact ha hacc
      · exact (hcs _ hcmd).2
    · rw [hother hne]
      rw [hq] at hcmd
      rcases List.mem_append.1 hcmd with hcmd | hcmd
      · exact h.cancels other hcmd
      · exact (hne (Command.cancel.inj (hcs _ hcmd).1)).elim
  case registration =>
    rw [hr, hl]
    intro other hnone
    rcases h.registration other hnone with ⟨name, priority, handler, hcmd⟩ | hp
    · exact .inl ⟨name, priority, handler, newer hcmd⟩
    · exact .inr hp
  case call =>
    rw [hl]
    intro other k₁ hk₁ hopen
    have hold : ∃ k₀, s.calls.get? other = some k₀ ∧ k₀.Open := by
      by_cases hne : other = context
      · subst hne
        obtain rfl := Option.some.inj (hself.symm.trans hk₁)
        exact ⟨k, hk, ho hopen⟩
      · exact ⟨k₁, (hother hne).symm.trans hk₁, hopen⟩
    obtain ⟨k₀, hk₀, hopen₀⟩ := hold
    rcases h.call other k₀ hk₀ hopen₀ with ⟨c, hctx, hcmd⟩ | hp
    · exact .inl ⟨c, hctx, newer hcmd⟩
    · exact .inr hp
  case running =>
    rw [hl]
    exact h.running

theorem Accounted.does (h : s.Accounted) (hu : s.link.up = true)
    (hfresh : o.opens = true → s.calls.get? fresh = none ∧ s.registrations.get? fresh = none)
    (hd : s.Does fresh o em s') : s'.Accounted := by
  cases hd with
  | nothing => exact h
  | refused _ hdown => exact Bool.noConfusion (hdown.symm.trans hu)
  | registers ho =>
    subst ho
    exact h.registers_new (hfresh rfl).1
  | calls ho =>
    have hopens : o.opens = true := by
      rcases ho with ⟨rfl, -⟩ | ⟨job, k, rfl, -⟩ <;> rfl
    obtain ⟨hc, hr⟩ := hfresh hopens
    exact h.calls_new hc hr
  | reads hk hr =>
    exact h.modifies hk (get?_modify_of hk _) (fun ha => hr.accepts.trans ha)
      (fun ho => ho.of_reads hr) (List.append_nil _).symm nofun rfl rfl
  | givesUp hk hg hc =>
    refine h.modifies hk (get?_modify_of hk _) (fun _ => hg.accepts)
      (fun ho => (hg.not_awaited ho.awaited).elim) rfl (fun cmd hcmd => ?_) rfl rfl
    rcases hc with rfl | ⟨-, rfl⟩
    · cases hcmd
    · exact ⟨List.mem_singleton.1 hcmd, hg.accepts⟩
  | passes | shutsDown =>
    exact h.grows rfl (fun cmd hcmd => List.mem_singleton.1 hcmd ▸ rfl) rfl rfl rfl
  | ends =>
    exact h.grows (if_pos hu) (fun cmd hcmd => List.mem_singleton.1 hcmd ▸ rfl) rfl rfl rfl

section Happen

variable [DecidableEq η] {e : StationEvent η} {le : LinkEvent η} {t : Station η}

omit [DecidableEq η] in
theorem Meets.obeyed (hm : s.Meets e le t) {cmd : Command η} (hle : le = .commanded cmd) :
    cmd ∈ s.queue := by
  rcases hm.queue_eq with ⟨cmd', hle', hq⟩ | ⟨hle', -⟩
  · obtain rfl := LinkEvent.commanded.inj (hle.symm.trans hle')
    rw [hq]
    exact List.mem_cons_self
  · exact (hle' cmd hle).elim

omit [DecidableEq η] in
theorem Meets.left (hm : s.Meets e le t) {cmd : Command η} (hcmd : cmd ∈ s.queue)
    (hle : le ≠ .commanded cmd) : cmd ∈ t.queue := by
  rcases hm.queue_eq with ⟨cmd', hle', hq⟩ | ⟨-, hq⟩
  · rw [hq] at hcmd
    rcases List.mem_cons.1 hcmd with rfl | hcmd
    · exact (hle hle').elim
    · exact hcmd
  · rwa [hq]

omit [DecidableEq η] in
theorem Meets.queue_subset (hm : s.Meets e le t) : t.queue ⊆ s.queue := by
  rcases hm.queue_eq with ⟨cmd, -, hq⟩ | ⟨-, hq⟩
  · rw [hq]
    exact List.subset_cons_self ..
  · rw [hq]
    exact List.Subset.refl _

omit [DecidableEq η] in
/-- No call is made under the context of a registration, and nobody withdraws a registration. -/
theorem Accounted.of_registration (h : s.Accounted) (hm : s.Meets e le t) {context : String}
    (hr : s.registrations.get? context ≠ none) :
    (∀ c, le = .commanded (.call c) → c.context ≠ context) ∧
      le ≠ .commanded (.cancel context) := by
  constructor
  · rintro c hle rfl
    obtain ⟨k, hk⟩ := Option.ne_none_iff_exists'.1 (h.calls c (hm.obeyed hle))
    exact hr (h.apart _ k hk)
  · intro hle
    obtain ⟨k, hk, -⟩ := h.cancels context (hm.obeyed hle)
    exact hr (h.apart context k hk)

omit [DecidableEq η] in
/-- Nothing is registered under the context of a call, and an open call is not withdrawn. -/
theorem Accounted.of_open (h : s.Accounted) (hm : s.Meets e le t) {context : String}
    {k : OutboundCall} (hk : s.calls.get? context = some k) (ho : k.Open) :
    (∀ name priority handler, le ≠ .commanded (.register context name priority handler)) ∧
      le ≠ .commanded (.cancel context) := by
  constructor
  · intro name priority handler hle
    exact h.registers context name priority handler (hm.obeyed hle) (h.apart context k hk)
  · intro hle
    obtain ⟨k', hk', ha⟩ := h.cancels context (hm.obeyed hle)
    obtain rfl := Option.some.inj (hk.symm.trans hk')
    exact Bool.noConfusion (ha.symm.trans (OutboundCall.accepts_of_open ho))

theorem Accounted.happen (h : s.Accounted) (hm : s.Meets e le t)
    (hup : (t.happen le).1.link.up = true) : (t.happen le).1.Accounted := by
  obtain ⟨hl, hc, -, hr⟩ := hm.same
  have hlink : (t.happen le).1.link = (s.link.step le).1 := by rw [happen_link, hl]
  rw [hlink] at hup
  have hu : s.link.up = true := Link.up_of_step hup
  have heffects : (t.happen le).2 = (s.link.step le).2 := by
    rw [effects_happen, hl, if_pos hup, List.append_nil]
  have hqueue : (t.happen le).1.queue = t.queue := by rw [happen_queue, hl, if_pos hup]
  have hcalls (context : String) : (t.happen le).1.calls.get? context =
      (s.calls.get? context).map ((s.link.step le).2.foldl (·.noted context)) := by
    rw [state_happen, calls_foldl_note, heffects, ← hc]
  have hregistrations (context : String) :
      ((t.happen le).1.registrations.get? context).isSome =
        (s.registrations.get? context).isSome := by
    rw [state_happen, isSome_registrations_foldl_note, ← hr]
  have known {context : String} (hs : s.registrations.get? context ≠ none) :
      (t.happen le).1.registrations.get? context ≠ none := by
    rw [← Option.isSome_iff_ne_none, hregistrations, Option.isSome_iff_ne_none]
    exact hs
  constructor
  case apart =>
    intro context k hk
    rw [hcalls] at hk
    obtain ⟨k₀, hk₀, -⟩ := Option.map_eq_some_iff.1 hk
    have hsome := hregistrations context
    rwa [h.apart context k₀ hk₀, Option.isSome_none, Option.isSome_eq_false_iff,
      Option.isNone_iff_eq_none] at hsome
  case registers =>
    intro context name priority handler hcmd
    rw [hqueue] at hcmd
    exact known (h.registers context name priority handler (hm.queue_subset hcmd))
  case calls =>
    intro c hcmd
    rw [hqueue] at hcmd
    obtain ⟨k, hk⟩ := Option.ne_none_iff_exists'.1 (h.calls c (hm.queue_subset hcmd))
    rw [hcalls, hk]
    nofun
  case cancels =>
    intro context hcmd
    rw [hqueue] at hcmd
    obtain ⟨k, hk, ha⟩ := h.cancels context (hm.queue_subset hcmd)
    refine ⟨_, (hcalls context).trans (congrArg _ hk), ?_⟩
    exact (OutboundCall.accepts_foldl_noted _).trans ha
  case registration =>
    intro context hnone
    rw [state_happen] at hnone
    obtain ⟨hnone, hunanswered⟩ := unanswered_foldl_note hnone
    rw [heffects] at hunanswered
    have hnone : s.registrations.get? context = some none := hr ▸ hnone
    rw [hqueue, hlink]
    rcases h.registration context hnone with ⟨name, priority, handler, hcmd⟩ | ⟨id, hp⟩
    · by_cases hle : le = .commanded (.register context name priority handler)
      · subst hle
        rcases Link.register_step hu hup with hp | ⟨a, ha⟩
        · exact .inr hp
        · exact (hunanswered a ha).elim
      · exact .inl ⟨name, priority, handler, hm.left hcmd hle⟩
    · obtain ⟨hcall, hcancel⟩ := h.of_registration hm (by rw [hnone]; nofun)
      rcases Link.registration_step hup hp hcall hcancel with hp | ⟨a, ha⟩
      · exact .inr hp
      · exact (hunanswered a ha).elim
  case call =>
    intro context k' hk' ho
    rw [hcalls] at hk'
    obtain ⟨k, hk, rfl⟩ := Option.map_eq_some_iff.1 hk'
    have hopen := ho.of_foldl_noted
    rw [hqueue, hlink]
    rcases h.call context k hk hopen with ⟨c, rfl, hcmd⟩ | hp
    · by_cases hle : le = .commanded (.call c)
      · subst hle
        exact .inr ((s.link.step_call c).2 hup)
      · exact .inl ⟨c, rfl, hm.left hcmd hle⟩
    · obtain ⟨hregister, hcancel⟩ := h.of_open hm hk hopen
      rcases Link.call_step hup hp hregister hcancel with hp | ⟨o, hd⟩
      · exact .inr hp
      · exact (OutboundCall.not_open_of_delivered hd ho).elim
  case running =>
    intro context job hr
    rw [hlink] at hr ⊢
    rcases Link.running_step hr with hr | ⟨rfl, hjobs⟩
    · rw [Link.jobs_step]
      exact Nat.lt_of_lt_of_le (h.running context job hr) (Nat.le_add_right ..)
    · rw [hjobs]
      exact Nat.lt_succ_self _
/-! ### Runs -/

/-- A context that has been used for a call or a registration. -/
def Knows (s : Station η) (context : String) : Prop :=
  s.calls.get? context ≠ none ∨ s.registrations.get? context ≠ none

omit [DecidableEq η] in
theorem not_knows {context : String} (h : ¬ s.Knows context) :
    s.calls.get? context = none ∧ s.registrations.get? context = none :=
  ⟨Classical.not_not.1 fun hc => h (.inl hc), Classical.not_not.1 fun hr => h (.inr hr)⟩

omit [DecidableEq η] in
theorem Does.knows {context : String} (hd : s.Does fresh o em s') (hk : s'.Knows context) :
    s.Knows context ∨ o.opens = true ∧ fresh = context := by
  have inserted {ν : Type} {m : Keyed String ν} {v : ν}
      (hi : (m.insert fresh v).get? context ≠ none) :
      m.get? context ≠ none ∨ fresh = context := by
    rw [Keyed.get?_insert] at hi
    split at hi
    · next he => exact .inr he.symm
    · exact .inl hi
  have modified {other : String} {f : OutboundCall → OutboundCall}
      (hi : (s.calls.modify other f).get? context ≠ none) : s.calls.get? context ≠ none := by
    intro hnone
    rw [Keyed.get?_modify, hnone, Option.map_none, ite_self] at hi
    exact hi rfl
  cases hd with
  | nothing | passes | ends | shutsDown => exact .inl hk
  | registers ho | refused ho =>
    subst ho
    rcases hk with hk | hk
    · exact .inl (.inl hk)
    · rcases inserted hk with hk | he
      · exact .inl (.inr hk)
      · exact .inr ⟨rfl, he⟩
  | calls ho =>
    have hopens : o.opens = true := by
      rcases ho with ⟨rfl, -⟩ | ⟨job, k, rfl, -⟩ <;> rfl
    rcases hk with hk | hk
    · rcases inserted hk with hk | he
      · exact .inl (.inl hk)
      · exact .inr ⟨hopens, he⟩
    · exact .inl (.inr hk)
  | reads | givesUp =>
    rcases hk with hk | hk
    · exact .inl (.inl (modified hk))
    · exact .inl (.inr hk)

/-- A context comes to be known only by an event that is given it. -/
theorem knows_step {context : String} (hk : (s.step e).1.Knows context) :
    s.Knows context ∨ e.opens? = some context := by
  rcases s.happens_step e with @⟨fresh, o, rfl, hr⟩ | ⟨-, -, hr⟩ | @⟨le, t, hm, hr⟩
  · rw [hr] at hk
    rcases (s.does_operate fresh o).knows hk with hk | ⟨ho, rfl⟩
    · exact .inl hk
    · exact .inr (if_pos ho)
  · rw [hr] at hk
    exact .inl hk
  · rw [hr] at hk
    obtain ⟨-, hc, -, hreg⟩ := hm.same
    refine .inl (hk.imp (fun hk => ?_) fun hk => ?_)
    · rw [state_happen, calls_foldl_note, ← hc] at *
      intro hnone
      rw [hnone] at hk
      exact hk rfl
    · rw [← Option.isSome_iff_ne_none, state_happen, isSome_registrations_foldl_note,
        Option.isSome_iff_ne_none] at hk
      exact hreg ▸ hk

theorem Accounted.step (h : s.Accounted) (hfresh : ∀ context, e.opens? = some context →
    ¬ s.Knows context) (hup : (s.step e).1.link.up = true) : (s.step e).1.Accounted := by
  rcases s.happens_step e with @⟨fresh, o, rfl, hr⟩ | ⟨-, -, hr⟩ | @⟨le, t, hm, hr⟩
  · have hu := up_of_step hup
    rw [hr]
    exact h.does hu (fun ho => not_knows (hfresh fresh (if_pos ho))) (s.does_operate fresh o)
  · rwa [hr]
  · rw [hr] at hup ⊢
    exact h.happen hm hup

theorem accounted_run {es : List (StationEvent η)} (hd : (es.filterMap (·.opens?)).Nodup) :
    (∀ context, (run ({} : Station η) es).1.Knows context → context ∈ es.filterMap (·.opens?)) ∧
      ((run ({} : Station η) es).1.link.up = true → (run ({} : Station η) es).1.Accounted) := by
  induction es using List.reverseRecOn with
  | nil => exact ⟨fun context hk => (hk.elim (fun h => h rfl) fun h => h rfl).elim,
      fun _ => accounted_start⟩
  | append_singleton es e ih =>
    rw [List.filterMap_append, List.nodup_append] at hd
    obtain ⟨hknows, haccounted⟩ := ih hd.1
    rw [run_snoc]
    constructor
    · intro context hk
      rw [List.filterMap_append]
      rcases knows_step hk with hk | ho
      · exact List.mem_append_left _ (hknows context hk)
      · exact List.mem_append_right _ (List.mem_filterMap.2 ⟨e, List.mem_singleton.2 rfl, ho⟩)
    · intro hup
      refine (haccounted (up_of_step hup)).step (fun context ho hk => ?_) hup
      have hmem : context ∈ [e].filterMap (·.opens?) :=
        List.mem_filterMap.2 ⟨e, List.mem_singleton.2 rfl, ho⟩
      exact hd.2.2 context (hknows context hk) context hmem rfl

end Happen

end Accounted

end Station
end Switchboard
