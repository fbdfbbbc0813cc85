import Switchboard.Network.Basic
import Switchboard.Proofs.Exchange.VisitOrder

/-! # What always holds in a network

Some facts about networks do not depend on any one call, and all that is said of calls rests on
them.

* **Stations.** A station whose link is lost has no commands left, and a link has begun as many jobs
  as its station keeps (`Station.Sound`).  What an operation leaves alone and what it may command is
  said once for all operations (`Station.Kept`).
* **Ports.** A client that has left is not heard and is sent nothing (`Port.Sound`).
* **Lines.** The exchange has a line to every client that is there, and it is live as long as what
  is sent on it gets to the station (`Network.Sound`). -/

namespace Switchboard

/-! ### Stations -/

/-- Whether a command asks for a registration. -/
def Command.registers {η : Type} : Command η → Bool
  | .register .. => true
  | _ => false

/-- What always holds of a station. -/
structure Station.Sound {η : Type} (s : Station η) : Prop where
  queue : s.link.up = false → s.queue = []
  jobs : s.link.jobs = s.jobs.length

namespace Link

variable {η : Type}

/-- Whether an effect is the start of a handler. -/
def starts : Effect η → Bool
  | .started .. => true
  | _ => false

theorem starts_teardown (l : Link η) : l.teardown.2.countP starts = 0 := by
  refine List.countP_eq_zero.2 fun e he => ?_
  rcases List.mem_append.1 he with he | he
  · obtain ⟨⟨context, _ | id⟩, _, rfl⟩ := List.mem_map.1 he <;> simp [abandoned, starts]
  · obtain ⟨job, _, rfl⟩ := List.mem_map.1 he
    simp [starts]

theorem write_cases (l : Link η) (m : Message) :
    l.write m = (l, [.wrote m]) ∨ l.write m = l.teardown := by
  rw [write]
  exact (Decidable.em _).imp (fun h => if_pos h) (fun h => if_neg h)

theorem jobs_write (l : Link η) (m : Message) :
    (l.write m).1.jobs = l.jobs + (l.write m).2.countP starts := by
  rcases l.write_cases m with h | h
  · rw [h]; rfl
  · rw [h, starts_teardown]; rfl

/-- A link counts the jobs that it begins. -/
theorem jobs_step [DecidableEq η] (l : Link η) (e : LinkEvent η) :
    (l.step e).1.jobs = l.jobs + (l.step e).2.countP starts := by
  unfold step
  split
  · cases e with
    | commanded c =>
      cases c with
      | register context name priority handler =>
        simp only [obey]
        split
        · rfl
        · rw [jobs_write]
      | call => simp only [obey, jobs_write]
      | shutdown => simp only [obey, starts_teardown]; rfl
      | cancel | update | finish =>
        simp only [obey]
        split
        · rw [jobs_write]
        · rfl
    | heard m =>
      cases m with
      | call c =>
        simp only [hear, dispatch]
        split
        · rw [jobs_write]
        · split <;> rfl
      | update => simp only [hear]; split <;> rfl
      | result => simp only [hear, answer]; repeat' split
                  all_goals rfl
      | cancel => simp only [hear]; split <;> rfl
      | register => rfl
    | deafened => rfl
    | ended => simp only [starts_teardown]; rfl
  · rfl

/-- A link that is lost stays lost. -/
theorem up_of_step [DecidableEq η] {l : Link η} {e : LinkEvent η} (h : (l.step e).1.up = true) :
    l.up = true := by
  unfold step at h
  split at h
  · assumption
  · exact h

end Link

namespace Station

variable {η : Type}

theorem note_link (s : Station η) (e : Effect η) : (s.note e).link = s.link := by
  cases e <;> rfl

theorem note_queue (s : Station η) (e : Effect η) : (s.note e).queue = s.queue := by
  cases e <;> rfl

theorem length_jobs_note (s : Station η) (e : Effect η) :
    (s.note e).jobs.length = s.jobs.length + if Link.starts e then 1 else 0 := by
  cases e <;> simp [note, Link.starts]

theorem foldl_note_link (es : List (Effect η)) (s : Station η) :
    (es.foldl note s).link = s.link := by
  induction es generalizing s with
  | nil => rfl
  | cons e es ih => rw [List.foldl_cons, ih, note_link]

theorem foldl_note_queue (es : List (Effect η)) (s : Station η) :
    (es.foldl note s).queue = s.queue := by
  induction es generalizing s with
  | nil => rfl
  | cons e es ih => rw [List.foldl_cons, ih, note_queue]

theorem length_jobs_foldl_note (es : List (Effect η)) (s : Station η) :
    (es.foldl note s).jobs.length = s.jobs.length + es.countP Link.starts := by
  induction es generalizing s with
  | nil => rfl
  | cons e es ih =>
    rw [List.foldl_cons, ih, length_jobs_note, List.countP_cons]
    omega

/-- No handler is started for a command that is forgotten. -/
theorem starts_forgotten (q : List (Command η)) : (q.flatMap forgotten).countP Link.starts = 0 := by
  refine List.countP_eq_zero.2 fun e he => ?_
  obtain ⟨c, _, hc⟩ := List.mem_flatMap.1 he
  cases c <;> simp_all [forgotten, Link.starts]

variable [DecidableEq η]

theorem happen_link (s : Station η) (e : LinkEvent η) : (s.happen e).1.link = (s.link.step e).1 :=
  foldl_note_link ..

theorem sound_happen {s : Station η} (hs : s.link.jobs = s.jobs.length) (e : LinkEvent η) :
    (s.happen e).1.Sound where
  queue h := by
    rw [happen_link] at h
    simp only [happen, foldl_note_queue, h, Bool.false_eq_true, if_false]
  jobs := by
    rw [happen_link, Link.jobs_step, hs]
    simp only [happen, length_jobs_foldl_note]
    split
    · rfl
    · rw [List.countP_append, starts_forgotten, Nat.add_zero]

theorem sound_obey {s : Station η} (hs : s.Sound) : s.obey.1.Sound := by
  unfold obey
  split
  · exact hs
  · next c cs _ => exact sound_happen (s := { s with queue := cs }) hs.jobs _

omit [DecidableEq η]

/-- What an operation leaves alone, and what it commands: nothing that asks for a registration, unless
it is one.  It confirms no registration. -/
structure Kept (fresh : String) (o : Operation η) (s s' : Station η) : Prop where
  link : s'.link = s.link
  jobs : s'.jobs.length = s.jobs.length
  queue : s'.queue = s.queue ∨ s.link.up = true ∧ ∃ c, s'.queue = s.queue ++ [c] ∧
    ∀ context name priority handler, c = .register context name priority handler →
      context = fresh ∧ o = .register name priority handler
  registrations : ∀ context, s'.registrations.get? context = some (some (.ok ())) →
    s.registrations.get? context = some (some (.ok ()))

section Kept

variable {s s' s₀ : Station η} {fresh : String} {o : Operation η}

theorem Kept.sound (h : s.Kept fresh o s') (hs : s.Sound) : s'.Sound where
  queue hu := by
    rw [h.link] at hu
    rcases h.queue with hq | ⟨hu', _⟩
    · rw [hq, hs.queue hu]
    · exact Bool.noConfusion (hu.symm.trans hu')
  jobs := by rw [h.link, h.jobs, hs.jobs]

theorem Kept.refl (s : Station η) : s.Kept fresh o s := ⟨rfl, rfl, .inl rfl, fun _ h => h⟩

/-- What happens to calls and jobs before does not count. -/
theorem Kept.after (h : s₀.Kept fresh o s') (hl : s₀.link = s.link)
    (hj : s₀.jobs.length = s.jobs.length) (hq : s₀.queue = s.queue)
    (hr : s₀.registrations = s.registrations) : s.Kept fresh o s' := by
  obtain ⟨h1, h2, h3, h4⟩ := h
  rw [hl] at h1 h3
  rw [hq] at h3
  rw [hr] at h4
  exact ⟨h1, h2.trans hj, h3, h4⟩

theorem Kept.submit {c : Command η} (hc : c.registers = false) (h : s.submit c = .ok s') :
    s.Kept fresh o s' := by
  unfold Station.submit at h
  split at h
  · next hu =>
    obtain rfl := Except.ok.inj h
    refine ⟨rfl, rfl, .inr ⟨hu, c, rfl, ?_⟩, fun _ h => h⟩
    rintro context name priority handler rfl
    cases hc
  · cases h

theorem Kept.offer (s : Station η) {c : Command η} (hc : c.registers = false) :
    s.Kept fresh o (s.offer c) := by
  unfold Station.offer
  split
  · next h => exact .submit hc h
  · exact .refl s

theorem Kept.attempt {r : Except Failure (Station η)}
    (h : ∀ s', r = .ok s' → s.Kept fresh o s') : s.Kept fresh o (s.attempt r).1 := by
  cases r with
  | ok s' => exact h s' rfl
  | error e => exact .refl s

theorem Kept.read {α : Type} (s : Station η) (context : String)
    (f : OutboundCall → Answer α × OutboundCall) : s.Kept fresh o (s.read context f).1 := by
  unfold Station.read onCall
  cases s.calls.get? context with
  | none => exact .refl s
  | some k => exact .after (.refl _) rfl rfl rfl rfl

theorem Kept.callAt {context function : String} {args : Json} {depth : UInt32}
    (h : s.callAt context function args depth = .ok s') : s.Kept fresh o s' := by
  unfold Station.callAt at h
  cases hs : s.submit (.call { context, function, args, depth }) with
  | error e => rw [hs] at h; cases h
  | ok t =>
    rw [hs] at h
    obtain rfl := Except.ok.inj h
    have ht : s.Kept fresh o t := .submit rfl hs
    exact ⟨ht.link, ht.jobs, ht.queue, ht.registrations⟩

theorem Kept.cancel {context : String} (h : s.cancel context = .ok s') : s.Kept fresh o s' := by
  unfold Station.cancel at h
  split at h
  · cases h
  · next c _ =>
    cases hc : c.cancel with
    | error e => rw [hc] at h; cases h
    | ok c' =>
      rw [hc] at h
      obtain rfl := Except.ok.inj h
      exact .after (.offer _ rfl) rfl rfl rfl rfl

theorem Kept.update {job : JobId} {v : Json} (h : s.update job v = .ok s') :
    s.Kept fresh o s' := by
  unfold Station.update at h
  split at h
  · cases h
  · next c _ =>
    cases hc : c.update with
    | error e => rw [hc] at h; cases h
    | ok =>
      rw [hc] at h
      exact .submit rfl h

theorem Kept.finish {job : JobId} {out : Outcome} (h : s.finish job out = .ok s') :
    s.Kept fresh o s' := by
  unfold Station.finish at h
  split at h
  · cases h
  · next c _ =>
    cases hc : c.finish with
    | error e => rw [hc] at h; cases h
    | ok c' =>
      rw [hc] at h
      obtain rfl := Except.ok.inj h
      exact .after (.offer _ rfl) rfl List.length_set rfl rfl

theorem Kept.nested {job : JobId} {context function : String} {args : Json}
    (h : s.nested job context function args = .ok s') : s.Kept fresh o s' := by
  unfold Station.nested at h
  split at h
  · cases h
  · next c _ =>
    cases hc : c.nestedDepth with
    | error e => rw [hc] at h; cases h
    | ok depth =>
      rw [hc] at h
      exact .callAt h

theorem Kept.dropCall (s : Station η) (context : String) :
    s.Kept fresh o (s.dropCall context) := by
  unfold Station.dropCall
  split
  · exact .refl s
  · dsimp only
    split
    · exact .after (.refl _) rfl rfl rfl rfl
    · exact .after (.offer _ rfl) rfl rfl rfl rfl

theorem Kept.dropJob (s : Station η) (job : JobId) : s.Kept fresh o (s.dropJob job) := by
  unfold Station.dropJob
  split
  · next h => exact .finish h
  · exact .refl s

/-- A registration is commanded under the new context, and not answered yet. -/
theorem kept_register (s : Station η) (fresh name : String) (priority : UInt16) (handler : η) :
    s.Kept fresh (.register name priority handler) (s.register fresh name priority handler) := by
  have unanswered (a : Option (Except Failure Unit)) (ha : a ≠ some (.ok ())) (context : String)
      (h : (s.registrations.insert fresh a).get? context = some (some (.ok ()))) :
      s.registrations.get? context = some (some (.ok ())) := by
    rw [Keyed.get?_insert] at h
    split at h
    · exact absurd (Option.some.inj h) ha
    · exact h
  unfold Station.register Station.submit
  by_cases hu : s.link.up = true
  · rw [if_pos hu]
    refine ⟨rfl, rfl, .inr ⟨hu, _, rfl, ?_⟩, unanswered none ?_⟩
    · rintro _ _ _ _ ⟨⟩
      exact ⟨rfl, rfl⟩
    · intro ha
      cases ha
  · rw [if_neg hu]
    refine ⟨rfl, rfl, .inl rfl, unanswered (some (.error .disconnected)) ?_⟩
    intro ha
    cases ha

end Kept

theorem operate_kept (s : Station η) (fresh : String) (o : Operation η) :
    s.Kept fresh o (s.operate fresh o).1 := by
  cases o with
  | register name priority handler => exact kept_register ..
  | call => exact .attempt fun _ h => .callAt h
  | recv | tryRecv | wait | waitFor => exact .read ..
  | cancel => exact .attempt fun _ h => .cancel h
  | dropCall => exact .dropCall ..
  | update => exact .attempt fun _ h => .update h
  | finish => exact .attempt fun _ h => .finish h
  | nested => exact .attempt fun _ h => .nested h
  | dropJob => exact .dropJob ..
  | disconnect => exact .offer _ rfl

end Station

/-! ### Ports -/

/-- What always holds of a port. -/
structure Port.Sound {η : Type} (p : Port η) : Prop where
  left : p.left = true → p.reads = false ∧ p.writes = false
  station : p.station.Sound

namespace Port

variable {η : Type}

/-- A port that does not get better: what is closed or lost stays so. -/
structure Fades (p p' : Port η) : Prop where
  left : p'.left = p.left
  reads : p'.reads = true → p.reads = true
  writes : p'.writes = true → p.writes = true
  up : p'.station.link.up = true → p.station.link.up = true

theorem Fades.refl (p : Port η) : p.Fades p := ⟨rfl, id, id, id⟩

theorem Fades.trans {p p' p'' : Port η} (h : p.Fades p') (h' : p'.Fades p'') : p.Fades p'' where
  left := h'.left.trans h.left
  reads := h.reads ∘ h'.reads
  writes := h.writes ∘ h'.writes
  up := h.up ∘ h'.up

theorem Fades.sound {p p' : Port η} (h : p.Fades p') (hp : p.Sound) (hs : p'.station.Sound) :
    p'.Sound where
  left hl := by
    obtain ⟨hr, hw⟩ := hp.left (h.left ▸ hl)
    exact ⟨Bool.eq_false_iff.2 fun hr' => by simp [h.reads hr'] at hr,
      Bool.eq_false_iff.2 fun hw' => by simp [h.writes hw'] at hw⟩
  station := hs

theorem fades_send (p : Port η) (m : Message) :
    p.Fades (p.send m) ∧ (p.send m).station = p.station := by
  unfold send
  by_cases hw : p.writes = true
  · rw [if_pos hw]
    split
    · exact ⟨⟨rfl, id, id, id⟩, rfl⟩
    · exact ⟨⟨rfl, id, by simp, id⟩, rfl⟩
  · rw [if_neg hw]
    exact ⟨.refl p, rfl⟩

theorem fades_foldl_send (sents : List Sent) (p : Port η) :
    p.Fades (sents.foldl (fun p s => p.send s.notice.message) p) ∧
      (sents.foldl (fun p s => p.send s.notice.message) p).station = p.station := by
  induction sents generalizing p with
  | nil => exact ⟨.refl p, rfl⟩
  | cons s sents ih =>
    obtain ⟨hf, hs⟩ := p.fades_send s.notice.message
    obtain ⟨hf', hs'⟩ := ih (p.send s.notice.message)
    exact ⟨hf.trans hf', hs'.trans hs⟩

variable [DecidableEq η]

theorem up_of_happen {s : Station η} {e : LinkEvent η} (h : (s.happen e).1.link.up = true) :
    s.link.up = true := by
  rw [Station.happen_link] at h
  exact Link.up_of_step h

theorem fades_close (p : Port η) (up down : Nat) : p.Fades (p.close up down) :=
  ⟨rfl, nofun, nofun, up_of_happen (e := .deafened)⟩

theorem up_of_obey {s : Station η} (h : s.obey.1.link.up = true) : s.link.up = true := by
  unfold Station.obey at h
  split at h
  · exact h
  · next c cs _ => exact up_of_happen (s := { s with queue := cs }) h

theorem sound_close {p : Port η} (hp : p.Sound) (up down : Nat) : (p.close up down).Sound :=
  (p.fades_close up down).sound hp (Station.sound_happen hp.station.jobs .deafened)

/-- Something happens to the link of a port. -/
def happen (p : Port η) (e : LinkEvent η) : Port η :=
  p.settle (p.station.happen e).1 (p.station.happen e).2

/-- A port whose oldest message on the way to it has been taken. -/
def taken (p : Port η) (ms : List Message) : Port η := { p with downlink := ms }

theorem hear_ok {p : Port η} {m m' : Message} {ms : List Message} (hd : p.downlink = m :: ms)
    (hm : m.transmitted = .ok m') :
    p.hear = ((p.taken ms).happen (.heard m'), ((p.taken ms).station.happen (.heard m')).2) := by
  rw [hear, hd]
  simp only [hm]
  rfl

theorem hear_error {p : Port η} {m : Message} {f : Failure} {ms : List Message}
    (hd : p.downlink = m :: ms) (hm : m.transmitted = .error f) :
    p.hear = ((p.taken ms).happen .ended, ((p.taken ms).station.happen .ended).2) := by
  rw [hear, hd]
  simp only [hm]
  rfl

theorem hear_nil {p : Port η} (hd : p.downlink = []) :
    p.hear = if p.writes then (p, []) else (happen p .ended, (p.station.happen .ended).2) := by
  rw [hear, hd]
  rfl

theorem fades_happen (p : Port η) (e : LinkEvent η) : p.Fades (p.happen e) :=
  ⟨rfl, id, id, up_of_happen⟩

theorem sound_happen {p : Port η} (hp : p.Sound) (e : LinkEvent η) : (p.happen e).Sound :=
  (p.fades_happen e).sound hp (Station.sound_happen hp.station.jobs e)

theorem sound_hear {p : Port η} (hp : p.Sound) : p.Fades p.hear.1 ∧ p.hear.1.Sound := by
  have heard (ms : List Message) (e : LinkEvent η) :
      p.Fades ((p.taken ms).happen e) ∧ ((p.taken ms).happen e).Sound :=
    ⟨⟨rfl, id, id, up_of_happen (e := e)⟩,
      sound_happen (p := p.taken ms) ⟨hp.left, hp.station⟩ e⟩
  cases hd : p.downlink with
  | nil =>
    rw [hear_nil hd]
    split
    · exact ⟨.refl p, hp⟩
    · exact ⟨p.fades_happen _, sound_happen hp _⟩
  | cons m ms =>
    cases hm : m.transmitted with
    | ok m' => rw [hear_ok hd hm]; exact heard ms _
    | error f => rw [hear_error hd hm]; exact heard ms _

end Port

/-! ### Lines -/

namespace Network

variable {η : Type}

/-- The exchange's lines fit the ports, before what is sent is put on its way. -/
structure Lined (x : Exchange) (ports : Keyed ClientId (Port η)) : Prop where
  there : ∀ client, x.Reachable client → ∃ p, ports.get? client = some p ∧ p.left = false
  live : ∀ client p, ports.get? client = some p → p.left = false → p.writes = true →
    p.station.link.up = true → x.Reachable client

theorem Lined.congr {x y : Exchange} {ports : Keyed ClientId (Port η)} (h : Lined x ports)
    (hl : y.lines = x.lines) : Lined y ports := by
  refine ⟨fun client hr => h.there client ?_, fun client p hp h1 h2 h3 => ?_⟩
  · rwa [Exchange.Reachable, ← hl]
  · rw [Exchange.Reachable, hl]
    exact h.live client p hp h1 h2 h3

/-- Lines fit when a port fades. -/
theorem Lined.modify {x : Exchange} {ports : Keyed ClientId (Port η)} (h : Lined x ports)
    {client : ClientId} {p p' : Port η} (hp : ports.get? client = some p) (hf : p.Fades p') :
    Lined x (ports.modify client fun _ => p') := by
  refine ⟨fun other hr => ?_, fun other q hq h1 h2 h3 => ?_⟩
  · obtain ⟨q, hq, hl⟩ := h.there other hr
    rw [Keyed.get?_modify]
    split
    · next e =>
      subst e
      obtain rfl := Option.some.inj (hp.symm.trans hq)
      exact ⟨p', by rw [hq]; rfl, hf.left.trans hl⟩
    · exact ⟨q, hq, hl⟩
  · rw [Keyed.get?_modify] at hq
    split at hq
    · next e =>
      subst e
      rw [hp] at hq
      obtain rfl := Option.some.inj hq
      exact h.live other p hp (hf.left ▸ h1) (hf.writes h2) (hf.up h3)
    · exact h.live other q hq h1 h2 h3

/-- Lines fit when a client leaves. -/
theorem Lined.leave {x : Exchange} {ports : Keyed ClientId (Port η)} (h : Lined x ports)
    {client : ClientId} {p p' : Port η} (hp : ports.get? client = some p) (hl : p'.left = true) :
    Lined (x.leave client).1 (ports.modify client fun _ => p') := by
  refine ⟨fun other hr => ?_, fun other q hq h1 h2 h3 => ?_⟩
  · rw [Exchange.Reachable, Exchange.leave_lines, Keyed.get?_erase] at hr
    split at hr
    · cases hr
    · next hne =>
      obtain ⟨q, hq, hql⟩ := h.there other hr
      exact ⟨q, by rw [Keyed.get?_modify, if_neg hne, hq], hql⟩
  · rw [Keyed.get?_modify] at hq
    split at hq
    · rw [‹other = client›, hp] at hq
      obtain rfl := Option.some.inj hq
      rw [hl] at h1
      cases h1
    · next hne =>
      rw [Exchange.Reachable, Exchange.leave_lines, Keyed.get?_erase_of_ne _ hne]
      exact h.live other q hq h1 h2 h3

/-- Lines fit when one dies that nothing gets through any more. -/
theorem Lined.mute {x : Exchange} {ports : Keyed ClientId (Port η)} (h : Lined x ports)
    {client : ClientId} {p : Port η} (hp : ports.get? client = some p) (hu : p.unheard = true) :
    Lined (x.step (.muted client)).1 ports := by
  have hlines (other : ClientId) : (x.step (.muted client)).1.lines.get? other =
      if other = client then (x.lines.get? other).map fun _ => .dead else x.lines.get? other :=
    Keyed.get?_modify ..
  refine ⟨fun other hr => ?_, fun other q hq h1 h2 h3 => ?_⟩
  · rw [Exchange.Reachable, hlines] at hr
    split at hr
    · cases hx : x.lines.get? other <;> simp [hx] at hr
    · exact h.there other hr
  · have hne : other ≠ client := by
      rintro rfl
      obtain rfl := Option.some.inj (hp.symm.trans hq)
      simp [Port.unheard, h2, h3] at hu
    rw [Exchange.Reachable, hlines, if_neg hne]
    exact h.live other q hq h1 h2 h3

theorem Lined.post {x : Exchange} {ports : Keyed ClientId (Port η)} (h : Lined x ports)
    (sents : List Sent) : Lined x (ports.map fun client p => p.post client sents) := by
  refine ⟨fun client hr => ?_, fun client q hq h1 h2 h3 => ?_⟩
  · obtain ⟨p, hp, hl⟩ := h.there client hr
    have hf : p.Fades (p.post client sents) := (Port.fades_foldl_send _ p).1
    exact ⟨_, by rw [Keyed.get?_map, hp]; rfl, hf.left.trans hl⟩
  · rw [Keyed.get?_map] at hq
    obtain ⟨p, hp, rfl⟩ := Option.map_eq_some_iff.1 hq
    have hf : p.Fades (p.post client sents) := (Port.fades_foldl_send _ p).1
    exact h.live client p hp (hf.left ▸ h1) (hf.writes h2) (hf.up h3)

/-! ### Networks -/

/-- What always holds of a network. -/
structure Sound (net : Network η) : Prop where
  lined : Lined net.exchange net.ports
  client_le : ∀ (client : Nat) p, net.ports.get? client = some p → client ≤ net.ports.size
  port : ∀ client p, net.ports.get? client = some p → p.Sound
  coherent : net.exchange.Coherent

theorem size_map {κ ν : Type} (m : Keyed κ ν) (f : κ → ν → ν) : (m.map f).size = m.size :=
  List.length_map ..

theorem sound_start : Sound ({} : Network η) where
  lined := ⟨nofun, nofun⟩
  client_le := nofun
  port := nofun
  coherent := Exchange.coherent_empty

theorem sound_post {net : Network η} (h : net.Sound) (sents : List Sent) : (net.post sents).Sound where
  lined := h.lined.post sents
  client_le client q hq := by
    rw [post, Keyed.get?_map] at hq
    obtain ⟨p, hp, rfl⟩ := Option.map_eq_some_iff.1 hq
    rw [post, size_map]
    exact h.client_le client p hp
  port client q hq := by
    rw [post, Keyed.get?_map] at hq
    obtain ⟨p, hp, rfl⟩ := Option.map_eq_some_iff.1 hq
    obtain ⟨hf, hs⟩ := Port.fades_foldl_send
      (sents.filter fun s => s.delivered && s.client = client) p
    have hp := h.port client p hp
    exact hf.sound hp (hs ▸ hp.station)
  coherent := h.coherent

/-- A network stays sound when a port is changed to a sound one, as long as the lines fit. -/
theorem sound_change {net : Network η} (h : net.Sound) {client : ClientId} {p p' : Port η}
    (hp : net.ports.get? client = some p) (hp' : p'.Sound) (x : Exchange) (hx : x.Coherent)
    (hl : Lined x (net.ports.modify client fun _ => p')) (serial : Nat) :
    Sound { net.change client p' with exchange := x, serial } where
  lined := hl
  client_le other q hq := by
    simp only [change, Keyed.get?_modify] at hq
    simp only [change, Keyed.modify, size_map]
    split at hq
    · next e => exact h.client_le other p (e ▸ hp)
    · exact h.client_le other q hq
  port other q hq := by
    simp only [change, Keyed.get?_modify] at hq
    split at hq
    · next e =>
      rw [e, hp] at hq
      obtain rfl := Option.some.inj hq
      exact hp'
    · exact h.port other q hq
  coherent := hx

theorem port?_eq_some {net : Network η} {e : NetworkEvent η} {client : ClientId} {p : Port η}
    (h : net.port? e = some (client, p)) : net.ports.get? client = some p := by
  cases e with
  | join => cases h
  | _ =>
    obtain ⟨q, hq, e⟩ := Option.map_eq_some_iff.1 h
    obtain ⟨rfl, rfl⟩ := Prod.mk.inj e
    exact hq

/-- The client that joins next is a new one. -/
theorem Sound.fresh {net : Network η} (h : net.Sound) :
    net.ports.get? (net.ports.size + 1) = none := by
  cases hp : net.ports.get? (net.ports.size + 1) with
  | none => rfl
  | some p =>
    have := h.client_le _ p hp
    omega

theorem sound_join {net : Network η} (h : net.Sound) : net.join.1.Sound := by
  have hfresh := h.fresh
  have hget (other : ClientId) : (net.ports.insert (net.ports.size + 1) {}).get? other =
      if other = net.ports.size + 1 then some {} else net.ports.get? other :=
    Keyed.get?_insert ..
  have hsize : (net.ports.insert (net.ports.size + 1) {}).size = net.ports.size + 1 := by
    rw [Keyed.insert, dif_neg (Keyed.get?_eq_none_iff.1 hfresh)]
    simp [Keyed.size]
  suffices hs : ({ net with
      exchange := { net.exchange with
        lines := net.exchange.lines.insert (net.ports.size + 1) .live }
      ports := net.ports.insert (net.ports.size + 1) {} } : Network η).Sound from sound_post hs []
  refine ⟨⟨?_, ?_⟩, ?_, ?_, h.coherent⟩
  · intro other hr
    simp only [Exchange.Reachable, Keyed.get?_insert] at hr
    rw [hget]
    split
    · exact ⟨_, rfl, rfl⟩
    · next hne =>
      rw [if_neg hne] at hr
      exact h.lined.there other hr
  · intro other q hq h1 h2 h3
    simp only [Exchange.Reachable, Keyed.get?_insert]
    split
    · rfl
    · next hne =>
      rw [hget, if_neg hne] at hq
      exact h.lined.live other q hq h1 h2 h3
  · intro other q hq
    rw [hsize]
    rw [hget] at hq
    split at hq
    · next e => exact Nat.le_of_eq e
    · exact Nat.le_succ_of_le (h.client_le other q hq)
  · intro other q hq
    rw [hget] at hq
    split at hq
    · obtain rfl := Option.some.inj hq
      exact ⟨by rintro ⟨⟩, by rintro ⟨⟩, rfl⟩
    · exact h.port other q hq

variable [DecidableEq η]

theorem step_of_port? {net : Network η} {e : NetworkEvent η} {client : ClientId} {p : Port η}
    (h : net.port? e = some (client, p)) : net.step e = net.stepPort client p e := by
  cases e with
  | join => cases h
  | _ => simp only [step, h]

theorem step_of_port?_none {net : Network η} {e : NetworkEvent η} (h : net.port? e = none)
    (he : e ≠ .join) : net.step e = (net, {}) := by
  cases e with
  | join => exact (he rfl).elim
  | _ => simp only [step, h]

/-- Every event leaves a network sound. -/
theorem sound_step {net : Network η} (h : net.Sound) (e : NetworkEvent η) :
    (net.step e).1.Sound := by
  cases hport : net.port? e with
  | none =>
    by_cases he : e = .join
    · subst he; exact sound_join h
    · rw [step_of_port?_none hport he]; exact h
  | some cp =>
    obtain ⟨client, p⟩ := cp
    have hp := port?_eq_some hport
    have hs := h.port client p hp
    have changed {p' : Port η} (hf : p.Fades p') (hp' : p'.Sound) (serial : Nat) :
        Sound { net.change client p' with serial } :=
      sound_change h hp hp' net.exchange h.coherent (h.lined.modify hp hf) serial
    rw [step_of_port? hport]
    cases e with
    | join => exact h
    | act _ o =>
      have hk := p.station.operate_kept (ContextId.ofNat net.serial) o
      have hf : p.Fades { p with station := (p.station.operate (ContextId.ofNat net.serial) o).1 } :=
        ⟨rfl, id, id, fun hu => by rwa [hk.link] at hu⟩
      exact changed hf (hf.sound hs (hk.sound hs.station)) _
    | obey =>
      have hf : p.Fades (p.settle p.station.obey.1 p.station.obey.2) :=
        ⟨rfl, id, id, Port.up_of_obey⟩
      exact changed hf (hf.sound hs (Station.sound_obey hs.station)) _
    | hear =>
      obtain ⟨hf, hs'⟩ := Port.sound_hear hs
      exact changed hf hs' _
    | route _ v =>
      simp only [stepPort]
      split
      · next m ms _ =>
        split
        · next m' _ =>
          have hf : p.Fades { p with uplink := ms } := ⟨rfl, id, id, id⟩
          refine sound_post (sound_change h hp (hf.sound hs hs.station) _ ?_ ?_ _) _
          · exact Exchange.coherent_step h.coherent (.received client m')
          · exact (h.lined.modify hp hf).congr (Exchange.receive_lines ..)
        · have hf : p.Fades (Port.close { p with uplink := ms } 0 p.downlink.length) :=
            ⟨rfl, nofun, nofun, Port.up_of_happen (e := .deafened)⟩
          exact changed hf (Port.sound_close (p := { p with uplink := ms })
            ⟨hs.left, hs.station⟩ _ _) _
      · split
        · have hc := Port.sound_close hs 0 p.downlink.length
          have hc' : Port.Sound { p.close 0 p.downlink.length with left := true } :=
            ⟨fun _ => ⟨rfl, rfl⟩, hc.station⟩
          have hx := Exchange.stepIn_fst h.coherent v (.left client)
          refine sound_post (sound_change h hp hc' (net.exchange.stepIn v (.left client)).1 ?_ ?_ _) _
          · rw [hx]
            exact Exchange.coherent_step h.coherent (.left client)
          · rw [hx]
            exact h.lined.leave hp rfl
        · exact h
    | mute =>
      simp only [stepPort]
      split
      · next hu =>
        rw [Bool.and_eq_true] at hu
        have hmuted : ({ net with exchange := (net.exchange.step (.muted client)).1 } :
            Network η).Sound := ⟨h.lined.mute hp hu.1, h.client_le, h.port, h.coherent⟩
        exact sound_post hmuted _
      · exact h
    | close _ up down => exact changed (p.fades_close up down) (Port.sound_close hs up down) _

end Network

end Switchboard
