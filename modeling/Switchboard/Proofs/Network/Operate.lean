import Switchboard.Proofs.Network.Move

/-! # Operations move strands

What callers and handlers do at a port is, for one context, a row of moves of its strand, or it
opens the context (`operate_moves`). -/

namespace Switchboard

variable {η : Type}

/-! ### Callers -/

namespace OutboundCall

theorem Reads.refl (k : OutboundCall) : k.Reads k :=
  ⟨id, rfl, List.suffix_refl _, fun h => ⟨h, rfl, [], rfl, nofun⟩⟩

theorem Reads.detach {k k' : OutboundCall} (h : k.Reads k') : k.detach.Reads k'.detach :=
  ⟨h.concluded, h.accepts, h.events, h.pending⟩

theorem Reads.of_updates {k : OutboundCall} {us es : List CallEvent} (h : k.events = us ++ es)
    (hu : ∀ e ∈ us, ∃ v, e = .update v) : k.Reads { k with events := es } :=
  ⟨id, rfl, ⟨us, h.symm⟩, fun hp => ⟨hp, rfl, us, h, hu⟩⟩

theorem concluded_complete (k : OutboundCall) (o : Outcome) : (k.complete o).Concluded :=
  iff_of_true rfl nofun

theorem concluded_withdraw (k : OutboundCall) : k.withdraw.Concluded := iff_of_true rfl nofun

theorem Reads.of_completed {k : OutboundCall} (hp : k.state = .pending) (o : Outcome)
    {es : List CallEvent} (he : es <:+ k.events) :
    k.Reads { k.complete o with events := es } :=
  ⟨fun _ => k.concluded_complete o, by simp [OutboundCall.accepts, complete, hp], he, nofun⟩

theorem state_of_isDone {k : OutboundCall} (h : ¬ k.isDone = true) : k.state = .pending := by
  simpa [isDone] using h

theorem reads_recv (k : OutboundCall) : k.Reads k.recv.2 := by
  unfold recv
  split
  · exact .refl k
  · next h =>
    split
    · next e es he =>
      cases e with
      | update v => exact .of_updates (show k.events = [.update v] ++ es from he) (by simp)
      | finished o => exact .of_completed (state_of_isDone h) o (he ▸ List.suffix_cons ..)
    · exact .refl k

theorem reads_tryRecv (k : OutboundCall) : k.Reads k.tryRecv.2 := by
  have hr := k.reads_recv
  unfold tryRecv
  split
  · exact .refl k
  · split
    · next h => rw [h] at hr; exact hr
    · next h => rw [h] at hr; exact hr

theorem eq_append_skipUpdates (es : List CallEvent) :
    ∃ us, es = us ++ skipUpdates es ∧ ∀ e ∈ us, ∃ v, e = .update v := by
  induction es with
  | nil => exact ⟨[], rfl, nofun⟩
  | cons e es ih =>
    cases e with
    | update v =>
      obtain ⟨us, h, hu⟩ := ih
      exact ⟨.update v :: us, congrArg _ h, List.forall_mem_cons.2 ⟨⟨v, rfl⟩, hu⟩⟩
    | finished o => exact ⟨[], rfl, nofun⟩

theorem reads_wait (k : OutboundCall) : k.Reads k.wait.2 := by
  obtain ⟨us, h, hu⟩ := eq_append_skipUpdates k.events
  unfold wait
  split
  · exact .refl k
  · split
    · exact .refl k
    · next hd =>
      split
      · next o es he =>
        refine .of_completed (state_of_isDone hd) o ((List.suffix_cons (.finished o) es).trans ?_)
        exact ⟨us, by rw [← he, ← h]⟩
      · exact .of_updates h hu

theorem reads_waitFor {α : Type} (k : OutboundCall) (decode : Json → Except String α) :
    k.Reads (k.waitFor decode).2 := by
  have hw := k.reads_wait
  unfold waitFor
  split
  · next h => rw [h] at hw; exact hw
  · next h => rw [h] at hw; exact hw

end OutboundCall

/-! ### Commands left for the link -/

namespace Message

theorem within_one_eq {context : String} {m : Message} (h : m.context = context) :
    within context [m] = [m] := by
  rw [within_cons, if_pos h]
  rfl

theorem within_one_ne {context : String} {m : Message} (h : m.context ≠ context) :
    within context [m] = [] := by
  rw [within_cons, if_neg h]
  rfl

end Message

/-- A port with another state of its station. -/
def Port.restate (p : Port η) (s : Station η) : Port η := { p with station := s }

namespace Station

variable {s s' : Station η} {cmd : Command η} {context : String}

/-- The commands of a station about a context, as messages. -/
def asked (context : String) (s : Station η) : List Message :=
  Message.within context (s.queue.filterMap Command.message?)

theorem submit_eq (h : s.submit cmd = .ok s') :
    s.link.up = true ∧ s' = { s with queue := s.queue ++ [cmd] } := by
  unfold submit at h
  split at h
  · next hu => exact ⟨hu, (Except.ok.inj h).symm⟩
  · cases h

theorem offer_eq (s : Station η) (cmd : Command η) :
    s.offer cmd = { s with queue := if s.link.up then s.queue ++ [cmd] else s.queue } := by
  unfold offer submit
  by_cases hu : s.link.up = true
  · rw [if_pos hu, if_pos hu]
  · rw [if_neg hu, if_neg hu]

theorem asked_append (hq : s'.queue = s.queue ++ [cmd]) (context : String) :
    s'.asked context = s.asked context ++ Message.within context cmd.message?.toList := by
  rw [asked, asked, hq, List.filterMap_append, Message.within_append]
  cases h : cmd.message? <;> simp [h]

theorem asked_in (hq : s'.queue = s.queue ++ [cmd]) {m : Message} (h : cmd.message? = some m)
    (hm : m.context = context) : s'.asked context = s.asked context ++ [m] := by
  rw [asked_append hq, h, Option.toList, Message.within_one_eq hm]

theorem asked_out (hq : s'.queue = s.queue ++ [cmd])
    (h : ∀ m, cmd.message? = some m → m.context ≠ context) :
    s'.asked context = s.asked context := by
  rw [asked_append hq]
  cases hm : cmd.message? with
  | none => exact List.append_nil _
  | some m => rw [Option.toList, Message.within_one_ne (h m hm), List.append_nil]

variable {p : Port η} {fresh : String}

/-- How a strand looks after its station's calls, jobs and commands have changed. -/
theorem strand_eq {queue : List Message} {call : Option OutboundCall}
    {handlers : JobId → Option Bool} (hl : s.link = p.station.link)
    (hq : s.asked context = queue) (hc : s.held context = call)
    (hh : s.handlers context = handlers) :
    (p.restate s).strand context = { p.strand context with queue, call, handlers } := by
  subst hq hc hh
  simp only [Port.strand, Port.restate, hl]
  rfl

theorem handlers_congr (h : s'.jobs = s.jobs) : s'.handlers context = s.handlers context := by
  funext job
  simp only [handlers, h]

theorem held_insert (context : String) {c : OutboundCall} (h : s'.calls = s.calls.insert fresh c) :
    s'.held context = if context = fresh then some c.detach else s.held context := by
  rw [held, h, Keyed.get?_insert]
  split <;> rfl

theorem held_modify (context : String) {other : String} {f : OutboundCall → OutboundCall}
    (h : s'.calls = s.calls.modify other f) : s'.held context =
      if context = other then (s.calls.get? context).map fun k => (f k).detach
      else s.held context := by
  rw [held, h, Keyed.get?_modify]
  split
  · cases s.calls.get? context <;> rfl
  · rfl

theorem callAt_eq {function : String} {args : Json} {depth : UInt32}
    (h : s.callAt fresh function args depth = .ok s') :
    s.link.up = true ∧ s'.link = s.link ∧ s'.jobs = s.jobs ∧
      s'.queue = s.queue ++ [.call { context := fresh, function, args, depth }] ∧
      s'.calls = s.calls.insert fresh { context := fresh, function, args } := by
  unfold callAt at h
  cases hs : s.submit (.call { context := fresh, function, args, depth }) with
  | error e => rw [hs] at h; cases h
  | ok t =>
    rw [hs] at h
    obtain ⟨hu, rfl⟩ := submit_eq hs
    obtain rfl := Except.ok.inj h
    exact ⟨hu, rfl, rfl, rfl, rfl⟩

/-- A call that is made is seen under its own context only. -/
theorem callAt_opens {function : String} {args : Json} {depth : UInt32}
    (h : p.station.callAt fresh function args depth = .ok s') (context : String) :
    (p.restate s').strand context = p.strand context ∨
      fresh = context ∧ (p.strand context).Opens ((p.restate s').strand context) := by
  obtain ⟨hu, hl, hj, hq, hc⟩ := callAt_eq h
  have hheld := held_insert context hc
  by_cases he : fresh = context
  · subst he
    have ha : s'.asked fresh = p.station.asked fresh ++ [_] := asked_in hq rfl rfl
    rw [if_pos rfl] at hheld
    rw [strand_eq hl ha hheld (handlers_congr hj)]
    exact .inr ⟨rfl, .issues hu rfl rfl rfl⟩
  · rw [if_neg (Ne.symm he)] at hheld
    rw [strand_eq hl (asked_out hq (by rintro m ⟨⟩; exact he)) hheld (handlers_congr hj)]
    exact .inl rfl

/-- A registration that is asked for is seen under its own context only. -/
theorem register_opens (p : Port η) (fresh name : String) (priority : UInt16) (handler : η)
    (context : String) :
    (p.restate (p.station.register fresh name priority handler)).strand context =
        p.strand context ∨
      fresh = context ∧ (p.strand context).Opens
        ((p.restate (p.station.register fresh name priority handler)).strand context) := by
  generalize hs' : p.station.register fresh name priority handler = s'
  unfold register at hs'
  split at hs'
  · next t ht =>
    obtain ⟨hu, rfl⟩ := submit_eq ht
    have hl : s'.link = p.station.link := by rw [← hs']
    have hq : s'.queue = p.station.queue ++ [.register fresh name priority handler] := by
      rw [← hs']
    have hc : s'.held context = p.station.held context := by rw [← hs']; rfl
    have hj : s'.jobs = p.station.jobs := by rw [← hs']
    by_cases he : fresh = context
    · subst he
      have ha : s'.asked fresh = p.station.asked fresh ++ [_] := asked_in hq rfl rfl
      rw [strand_eq hl ha hc (handlers_congr hj)]
      exact .inr ⟨rfl, .requests hu rfl⟩
    · rw [strand_eq hl (asked_out hq (by rintro m ⟨⟩; exact he)) hc (handlers_congr hj)]
      exact .inl rfl
  · exact .inl (hs' ▸ rfl)

theorem read_moves {α : Type} (p : Port η) (other : String)
    (f : OutboundCall → Answer α × OutboundCall) (hf : ∀ k : OutboundCall, k.Reads (f k).2)
    (context : String) :
    (p.strand context).Moves context []
      ((p.restate (p.station.read other f).1).strand context) := by
  unfold read onCall
  cases hk : p.station.calls.get? other with
  | none => exact .refl
  | some k =>
    generalize hs' : ({ p.station with calls := p.station.calls.modify other fun _ => (f k).2 } :
      Station η) = s'
    have hl : s'.link = p.station.link := by rw [← hs']
    have hq : s'.asked context = p.station.asked context := by rw [← hs']; rfl
    have hc : s'.calls = p.station.calls.modify other fun _ => (f k).2 := by rw [← hs']
    have hj : s'.jobs = p.station.jobs := by rw [← hs']
    have hheld := held_modify context hc
    simp only [Option.bind_eq_bind, Option.bind_some, hs']
    by_cases he : context = other
    · subst he
      rw [if_pos rfl, hk] at hheld
      rw [strand_eq hl hq hheld (handlers_congr hj)]
      have hk' : (p.strand context).call = some k.detach := congrArg (Option.map _) hk
      exact .one (.reads hk' (hf k).detach)
    · rw [if_neg he] at hheld
      rw [strand_eq hl hq hheld (handlers_congr hj)]
      exact .refl

theorem givesUp_moves {other : String} {k : OutboundCall} {f : OutboundCall → OutboundCall}
    (hk : p.station.calls.get? other = some k) (hf : k.detach.GivenUp (f k).detach)
    (hl : s'.link = p.station.link) (hj : s'.jobs = p.station.jobs)
    (hc : s'.calls = p.station.calls.modify other f)
    (hq : s'.queue = p.station.queue ∨
      p.station.link.up = true ∧ s'.queue = p.station.queue ++ [.cancel other])
    (context : String) :
    (p.strand context).Moves context [] ((p.restate s').strand context) := by
  have hheld := held_modify context hc
  by_cases he : context = other
  · subst he
    rw [if_pos rfl, hk] at hheld
    have hk' : (p.strand context).call = some k.detach := congrArg (Option.map _) hk
    rcases hq with hq | ⟨hu, hq⟩
    · have ha : s'.asked context = p.station.asked context ++ [] := by
        rw [asked, hq, List.append_nil, asked]
      rw [strand_eq hl ha hheld (handlers_congr hj)]
      exact .one (.givesUp hk' hf (.inl rfl))
    · have ha : s'.asked context = p.station.asked context ++ [.cancel context] :=
        asked_in hq rfl rfl
      rw [strand_eq hl ha hheld (handlers_congr hj)]
      exact .one (.givesUp hk' hf (.inr ⟨hu, rfl⟩))
  · rw [if_neg he] at hheld
    have ha : s'.asked context = p.station.asked context := by
      rcases hq with hq | ⟨_, hq⟩
      · rw [asked, hq, asked]
      · exact asked_out hq (by rintro m ⟨⟩; exact Ne.symm he)
    rw [strand_eq hl ha hheld (handlers_congr hj)]
    exact .refl

theorem cancel_moves {other : String} (h : p.station.cancel other = .ok s') (context : String) :
    (p.strand context).Moves context [] ((p.restate s').strand context) := by
  unfold cancel at h
  split at h
  · cases h
  · next k hk =>
    unfold OutboundCall.cancel at h
    split at h
    · cases h
    · have hs : offer { p.station with
          calls := p.station.calls.modify other fun _ => k.withdraw } (.cancel other) = s' :=
        Except.ok.inj h
      rw [offer_eq] at hs
      have hg : k.detach.GivenUp k.withdraw.detach :=
        ⟨fun _ => k.concluded_withdraw,
          by simp [OutboundCall.accepts, OutboundCall.detach, OutboundCall.withdraw], rfl, nofun⟩
      refine givesUp_moves hk (f := fun _ => k.withdraw) hg ?_ ?_ ?_ ?_ context
      · rw [← hs]
      · rw [← hs]
      · rw [← hs]
      · rw [← hs]
        dsimp only
        split
        · next hu => exact .inr ⟨hu, rfl⟩
        · exact .inl rfl

theorem dropCall_moves (p : Port η) (other context : String) :
    (p.strand context).Moves context []
      ((p.restate (p.station.dropCall other)).strand context) := by
  unfold dropCall
  split
  · exact .refl
  · next k hk =>
    have hg : k.detach.GivenUp k.drop.detach :=
      ⟨id, by simp [OutboundCall.accepts, OutboundCall.drop, OutboundCall.detach], rfl,
        fun _ => rfl⟩
    dsimp only
    split
    · refine givesUp_moves hk hg ?_ ?_ ?_ ?_ context
      · rfl
      · rfl
      · rfl
      · exact .inl rfl
    · rw [offer_eq]
      refine givesUp_moves hk hg ?_ ?_ ?_ ?_ context
      · rfl
      · rfl
      · rfl
      · dsimp only
        split
        · next hu => exact .inr ⟨hu, rfl⟩
        · exact .inl rfl

/-! ### Handlers -/

theorem handlers_of_job {c : InboundCall} {job : JobId} (hj : s.jobs[job]? = some c) :
    s.handlers c.context job = some c.finished := by
  simp [handlers, hj, Option.filter]

theorem handlers_set (context : String) {c c' : InboundCall} {job : JobId} (hj : s.jobs[job]? = some c)
    (hs : s'.jobs = s.jobs.set job c') (hc : c'.context = c.context) :
    s'.handlers context = if c.context = context
      then fun i => if i = job then some c'.finished else s.handlers context i
      else s.handlers context := by
  have hlt : job < s.jobs.length := (List.getElem?_eq_some_iff.1 hj).1
  have hi (i : Nat) : s'.jobs[i]? = if i = job then some c' else s.jobs[i]? := by
    rw [hs, List.getElem?_set]
    by_cases h : job = i
    · subst h
      simp [hlt]
    · simp [h, Ne.symm h]
  funext i
  simp only [handlers, hi]
  by_cases h : i = job
  · subst h
    by_cases he : c.context = context <;> simp [hj, hc, he, Option.filter, handlers]
  · by_cases he : c.context = context <;> simp [he, h, handlers]

theorem update_moves {job : JobId} {v : Json} (h : p.station.update job v = .ok s')
    (context : String) :
    (p.strand context).Moves context
      (if (p.station.job? job).any (·.context = context) = true then [.passed job v] else [])
      ((p.restate s').strand context) := by
  unfold update at h
  split at h
  · cases h
  · next c hc =>
    rw [hc]
    cases hf : c.finished with
    | true => simp [InboundCall.update, hf, bind, Except.bind] at h
    | false =>
      simp only [InboundCall.update, hf] at h
      obtain ⟨hu, hs⟩ := submit_eq h
      have hl : s'.link = p.station.link := by rw [hs]
      have hq : s'.queue = p.station.queue ++ [.update c.context v] := by rw [hs]
      have hheld : s'.held context = p.station.held context := by rw [hs]; rfl
      have hh : s'.handlers context = p.station.handlers context := handlers_congr (by rw [hs])
      by_cases he : c.context = context
      · subst he
        have ha : s'.asked c.context = p.station.asked c.context ++ [_] := asked_in hq rfl rfl
        have hj := handlers_of_job hc
        rw [hf] at hj
        rw [strand_eq hl ha hheld hh, if_pos (by simp)]
        exact .one (.passes hj hu)
      · have ha : s'.asked context = p.station.asked context :=
          asked_out hq (by rintro m ⟨⟩; exact he)
        rw [strand_eq hl ha hheld hh, if_neg (by simpa)]
        exact .refl

theorem finish_moves {job : JobId} {o : Outcome} (h : p.station.finish job o = .ok s')
    (context : String) :
    (p.strand context).Moves context
      (if (p.station.job? job).any (·.context = context) = true then [.ended job o] else [])
      ((p.restate s').strand context) := by
  unfold finish at h
  split at h
  · cases h
  · next c hc =>
    rw [hc]
    cases hf : c.finished with
    | true => simp [InboundCall.finish, hf, bind, Except.bind] at h
    | false =>
      simp only [InboundCall.finish, hf] at h
      have hs : offer { p.station with jobs := p.station.jobs.set job { c with finished := true } }
          (.finish c.context o) = s' := Except.ok.inj h
      rw [offer_eq] at hs
      have hl : s'.link = p.station.link := by rw [← hs]
      have hset : s'.jobs = p.station.jobs.set job { c with finished := true } := by rw [← hs]
      have hh := handlers_set context hc hset rfl
      have hheld : s'.held context = p.station.held context := by rw [← hs]; rfl
      have hq : s'.queue = if p.station.link.up then p.station.queue ++ [.finish c.context o]
          else p.station.queue := by rw [← hs]
      by_cases he : c.context = context
      · subst he
        have hj := handlers_of_job hc
        have ha : s'.asked c.context = if p.station.link.up
            then p.station.asked c.context ++ [.result c.context o]
            else p.station.asked c.context := by
          split at hq
          · rw [if_pos ‹_›]
            exact asked_in hq rfl rfl
          · rw [if_neg ‹_›, asked, hq, asked]
        rw [hf] at hj
        rw [if_pos rfl] at hh
        rw [strand_eq hl ha hheld hh, if_pos (by simp)]
        exact .one (.ends hj)
      · have ha : s'.asked context = p.station.asked context := by
          split at hq
          · exact asked_out hq (by rintro m ⟨⟩; exact he)
          · rw [asked, hq, asked]
        rw [if_neg he] at hh
        rw [strand_eq hl ha hheld hh, if_neg (by simpa)]
        exact .refl

/-! ### Operations -/

/-- Commands that are no messages are not seen. -/
theorem disconnect_moves (p : Port η) (context : String) :
    (p.restate p.station.disconnect).strand context = p.strand context := by
  generalize hs' : p.station.disconnect = s'
  rw [disconnect, offer_eq] at hs'
  have hl : s'.link = p.station.link := by rw [← hs']
  have hheld : s'.held context = p.station.held context := by rw [← hs']; rfl
  have hh : s'.handlers context = p.station.handlers context := handlers_congr (by rw [← hs'])
  have ha : s'.asked context = p.station.asked context := by
    by_cases hu : p.station.link.up = true
    · rw [if_pos hu] at hs'
      have hq : s'.queue = p.station.queue ++ [.shutdown] := by rw [← hs']
      exact asked_out hq (by rintro m ⟨⟩)
    · rw [if_neg hu] at hs'
      rw [← hs']
  rw [strand_eq hl ha hheld hh]
  rfl

/-- What is attempted and fails leaves everything as it is. -/
theorem attempt_opens {fresh : String} {r : Except Failure (Station η)}
    (h : ∀ s', r = .ok s' → (p.restate s').strand context = p.strand context ∨
      fresh = context ∧ (p.strand context).Opens ((p.restate s').strand context)) :
    (p.restate (p.station.attempt r).1).strand context = p.strand context ∨
      fresh = context ∧
        (p.strand context).Opens ((p.restate (p.station.attempt r).1).strand context) := by
  cases r with
  | ok s' => exact h s' rfl
  | error e => exact .inl rfl

theorem attempt_moves {r : Except Failure (Station η)} {acts : List Act}
    (h : ∀ s', r = .ok s' → (p.strand context).Moves context acts ((p.restate s').strand context)) :
    (p.strand context).Moves context (if r.isOk = true then acts else [])
      ((p.restate (p.station.attempt r).1).strand context) := by
  cases r with
  | ok s' => exact h s' rfl
  | error e => exact .refl

theorem nested_opens {job : JobId} {function : String} {args : Json}
    (h : p.station.nested job fresh function args = .ok s') (context : String) :
    (p.restate s').strand context = p.strand context ∨
      fresh = context ∧ (p.strand context).Opens ((p.restate s').strand context) := by
  unfold nested at h
  split at h
  · cases h
  · next c _ =>
    cases hd : c.nestedDepth with
    | error e => rw [hd] at h; cases h
    | ok depth =>
      rw [hd] at h
      exact callAt_opens h context

/-- What a caller or a handler does moves the strand of a context, or opens the context. -/
theorem operate_moves (p : Port η) (fresh : String) (o : Operation η) (context : String) :
    (p.strand context).Moves context (o.acts context p.station)
        ((p.restate (p.station.operate fresh o).1).strand context) ∨
      fresh = context ∧ o.acts context p.station = [] ∧
        (p.strand context).Opens ((p.restate (p.station.operate fresh o).1).strand context) := by
  have opens {s' : Station η} (h : (p.restate s').strand context = p.strand context ∨
      fresh = context ∧ (p.strand context).Opens ((p.restate s').strand context)) :
      (p.strand context).Moves context [] ((p.restate s').strand context) ∨
        fresh = context ∧ ([] : List Act) = [] ∧
          (p.strand context).Opens ((p.restate s').strand context) := by
    rcases h with h | ⟨h, ho⟩
    · exact .inl (.of_eq .refl h)
    · exact .inr ⟨h, rfl, ho⟩
  -- what is told of an operation that may fail, and of the call that it is about
  have told (b b' : Bool) (acts : List Act) :
      (if (b && b') = true then acts else []) =
        if b' = true then (if b = true then acts else []) else [] := by
    cases b <;> cases b' <;> rfl
  cases o with
  | register name priority handler =>
    exact opens (register_opens p fresh name priority handler context)
  | call function args => exact opens (attempt_opens fun s' h => callAt_opens h context)
  | recv other => exact .inl (read_moves p other _ OutboundCall.reads_recv context)
  | tryRecv other => exact .inl (read_moves p other _ OutboundCall.reads_tryRecv context)
  | wait other => exact .inl (read_moves p other _ OutboundCall.reads_wait context)
  | waitFor other decode =>
    exact .inl (read_moves p other _ (fun k => k.reads_waitFor decode) context)
  | cancel other =>
    have h := attempt_moves (r := p.station.cancel other) fun s' h => cancel_moves h context
    rw [ite_self] at h
    exact .inl h
  | dropCall other => exact .inl (dropCall_moves p other context)
  | update job v =>
    rw [Operation.acts, told]
    exact .inl (attempt_moves fun s' h => update_moves h context)
  | finish job o =>
    rw [Operation.acts, told]
    exact .inl (attempt_moves fun s' h => finish_moves h context)
  | nested job function args => exact opens (attempt_opens fun s' h => nested_opens h context)
  | dropJob job =>
    have hd : p.station.dropJob job = (p.station.attempt (p.station.finish job .declined)).1 := by
      rw [dropJob]
      cases p.station.finish job .declined <;> rfl
    rw [Operation.acts, told]
    exact .inl (.of_eq (attempt_moves fun s' h => finish_moves h context)
      (congrArg (fun s => (p.restate s).strand context) hd))
  | disconnect => exact .inl (.of_eq .refl (disconnect_moves p context))

end Station

end Switchboard
