import Switchboard.Proofs.Participant.Arrivals
import Switchboard.Proofs.Participant.Course

/-! # What a call is answered with

A handler passes on partial results and then the outcome, and the link writes what it finds in the
queue as long as it serves the call.

* **Replies.** What commands ask to be written for a context, and what has been written for it, are
  both seen as the events that the caller would get (`Command.reply?`, `Effect.reply?`).
* **Links.** An event does one of five things to the service of a context (`Link.Treats`).
* **Handlers.** What a handler has told is partial results, and then the outcome if it has ended the
  call (`Told`).
* **Stages.** The link serves a call, has written its outcome, or has broken it off, and how much of
  what the handler told has been written depends on that alone (`Stage`).  `Service` is what holds
  of a call from the moment its handler is started (`Service.step`, `Service.run`).
* **Main statement.** `replies_of_call`. -/

namespace Switchboard

variable {η : Type}

/-! ### Replies -/

/-- What a message brings to the caller of a context. -/
def Message.reply? (context : String) : Message → Option CallEvent
  | .update other v => if other = context then some (.update v) else none
  | .result other o => if other = context then some (.finished o) else none
  | _ => none

/-- The reply that a command asks for. -/
def Command.reply? (context : String) (c : Command η) : Option CallEvent :=
  c.message?.bind (·.reply? context)

/-- The reply that has been written. -/
def Effect.reply? (context : String) : Effect η → Option CallEvent
  | .wrote m => m.reply? context
  | _ => none

/-- The context of a call that is offered. -/
def StationEvent.offered? : StationEvent η → Option String
  | .hear (.call c) => some c.context
  | _ => none

theorem Effect.Quiet.reply? {other : String} {f : Effect η} (h : f.Quiet other)
    (context : String) : f.reply? context = none := by
  cases f with
  | wrote => exact h.elim
  | delivered | detached | registered | started | interrupted => rfl

/-! ### Links -/

namespace Link

/-- What an event does to the service of a context by a link. -/
inductive Treats (context : String) (l : Link η) (e : LinkEvent η) (r : Link η × List (Effect η)) :
    Prop
  /-- The event is not about the context, or the context is not served. -/
  | passesBy (hu : r.1.up = l.up) (hr : r.1.running.get? context = l.running.get? context)
      (hs : ∀ f ∈ r.2, f.reply? context = none)
      (he : l.up = false ∨ l.running.get? context = none ∨
        ∀ c, e = .commanded c → c.reply? context = none)
  | loses (hu : r.1.up = false) (hr : r.1.running = ∅) (hs : ∀ f ∈ r.2, f.reply? context = none)
  | relays {v : Json} {job : JobId} (he : e = .commanded (.update context v))
      (hr : l.running.get? context = some job) (h : r = (l, [.wrote (.update context v)]))
  | answers {o : Outcome} {job : JobId} (he : e = .commanded (.finish context o))
      (hr : l.running.get? context = some job)
      (h : r = ({ l with running := l.running.erase context }, [.wrote (.result context o)]))
  | stops {job : JobId} (he : e = .heard (.cancel context))
      (hr : l.running.get? context = some job)
      (h : r = ({ l with running := l.running.erase context }, [.interrupted job]))

section Treats

variable {context : String} {l l' : Link η} {e : LinkEvent η}

theorem treats_teardown : l.Treats context e l'.teardown :=
  .loses rfl rfl fun f hf => (Port.quiet_teardown context l' f hf).reply? context

theorem treats_other {fs : List (Effect η)} (hu : l'.up = l.up)
    (hr : l'.running.get? context = l.running.get? context) (hf : ∀ f ∈ fs, f.reply? context = none)
    (he : ∀ c, e = .commanded c → c.reply? context = none) : l.Treats context e (l', fs) :=
  .passesBy hu hr hf (.inr (.inr he))

theorem unasked {cmd : Command η} (hc : cmd.reply? context = none) :
    ∀ c, LinkEvent.commanded cmd = .commanded c → c.reply? context = none :=
  fun _ h => LinkEvent.commanded.inj h ▸ hc

variable [DecidableEq η] {fs : List (Effect η)} {m : Message}

omit [DecidableEq η] in
theorem Skips.treats (h : l.Skips e) : l.Treats context e (l, []) := by
  refine .passesBy rfl rfl nofun ?_
  cases h with
  | lost hu => exact .inl hu
  | @update k _ hr | @finish k _ hr =>
    by_cases hk : k = context
    · exact .inr (.inl (hk ▸ hr))
    · exact .inr (.inr (unasked (if_neg hk)))
  | withdrawal => exact .inr (.inr (unasked rfl))
  | served | updated | answered | withdrawn | registered => exact .inr (.inr nofun)

theorem Notes.treats (h : l.Notes e l' fs)
    (hcall : ∀ c, e = .heard (.call c) → c.context ≠ context) : l.Treats context e (l', fs) := by
  have silent {f : Effect η} (hf : f.reply? context = none) :
      ∀ g ∈ [f], g.reply? context = none := List.forall_mem_singleton.2 hf
  cases h with
  | refuses => exact treats_other rfl rfl (silent rfl) (unasked rfl)
  | starts =>
    refine treats_other ?_ (Keyed.get?_insert_of_ne _ _ (hcall _ rfl).symm) (silent rfl)
      nofun
    rfl
  | passes | ends | confirms | rejects => exact treats_other rfl rfl (silent rfl) nofun
  | @stops k job hr =>
    by_cases hk : k = context
    · subst hk
      exact .stops rfl hr rfl
    · refine treats_other ?_ (Keyed.get?_erase_of_ne _ (Ne.symm hk)) (silent rfl) nofun
      rfl
  | deafens => exact treats_other rfl rfl nofun nofun

theorem Writes.treats (h : l.Writes e l' m)
    (hcall : ∀ c, e = .heard (.call c) → c.context ≠ context) :
    l.Treats context e (l', [.wrote m]) := by
  have silent (hm : m.reply? context = none) :
      ∀ g ∈ [(Effect.wrote m : Effect η)], g.reply? context = none :=
    List.forall_mem_singleton.2 hm
  cases h with
  | registers | calls | cancels => exact treats_other rfl rfl (silent rfl) (unasked rfl)
  | @updates k v job hr =>
    by_cases hk : k = context
    · subst hk
      exact .relays rfl hr rfl
    · exact treats_other rfl rfl (silent (if_neg hk)) (unasked (if_neg hk))
  | @finishes k o job hr =>
    by_cases hk : k = context
    · subst hk
      exact .answers rfl hr rfl
    · refine treats_other ?_ (Keyed.get?_erase_of_ne _ (Ne.symm hk))
        (silent (if_neg hk)) (unasked (if_neg hk))
      rfl
  | declines => exact treats_other rfl rfl (silent (if_neg (hcall _ rfl))) nofun

/-- What an event does to the service of a context, if no call is offered under it. -/
theorem treats_step (l : Link η) {e : LinkEvent η}
    (hcall : ∀ c, e = .heard (.call c) → c.context ≠ context) :
    l.Treats context e (l.step e) := by
  have hreacts := l.reacts_step e
  generalize l.step e = r at hreacts
  cases hreacts with
  | skips h => exact h.treats
  | notes _ h => exact h.treats hcall
  | wrote _ h => exact h.treats hcall
  | breaks | falls => exact treats_teardown

theorem step_withdrawn (l : Link η) (context : String) :
    (l.step (.heard (.cancel context))).1.up = l.up ∧
      (∀ f ∈ (l.step (.heard (.cancel context))).2, f.reply? context = none) ∧
      (l.up = true → (l.step (.heard (.cancel context))).1.running.get? context = none) := by
  cases hu : l.up with
  | false =>
    rw [step_of_lost hu]
    exact ⟨hu, nofun, nofun⟩
  | true =>
    rw [step_heard hu, hear]
    split
    · exact ⟨hu, fun f hf => List.mem_singleton.1 hf ▸ rfl,
        fun _ => Keyed.get?_erase_self ..⟩
    · next hr => exact ⟨hu, nofun, fun _ => hr⟩

end Treats

end Link

/-! ### Handlers -/

/-- What a handler has told: partial results, and then the outcome if it has ended the call. -/
def Told (finished : Bool) (told : List CallEvent) : Prop :=
  ∃ (us : List Json) (fin : Option Outcome),
    told = us.map .update ++ (fin.map CallEvent.finished).toList ∧ finished = fin.isSome

section Told

variable {finished : Bool} {told : List CallEvent}

theorem told_nil : Told false [] := ⟨[], none, rfl, rfl⟩

theorem Told.update (h : Told false told) (v : Json) : Told false (told ++ [.update v]) := by
  obtain ⟨us, fin, rfl, hf⟩ := h
  obtain rfl : fin = none := by simpa using hf.symm
  exact ⟨us ++ [v], none, by simp, rfl⟩

theorem Told.finish (h : Told false told) (o : Outcome) : Told true (told ++ [.finished o]) := by
  obtain ⟨us, fin, rfl, hf⟩ := h
  obtain rfl : fin = none := by simpa using hf.symm
  exact ⟨us, some o, by simp, rfl⟩

theorem Told.open (h : Told false told) (o : Outcome) : .finished o ∉ told := by
  obtain ⟨us, fin, rfl, hf⟩ := h
  obtain rfl : fin = none := by simpa using hf.symm
  simp

/-- Nothing is told after the outcome. -/
theorem Told.last {o : Outcome} {before after : List CallEvent}
    (h : Told finished (before ++ .finished o :: after)) : after = [] := by
  obtain ⟨us, fin, he, -⟩ := h
  induction us generalizing before with
  | nil =>
    cases fin with
    | none => simp at he
    | some o' =>
      cases before with
      | nil => exact (List.cons.inj he).2
      | cons b bs => simp at he
  | cons u us ih =>
    cases before with
    | nil => cases (List.cons.inj he).1
    | cons b bs => exact ih (List.cons.inj he).2

theorem prefix_updates {us : List Json} {fin : Option Outcome} {ws : List CallEvent}
    (ht : told = us.map .update ++ (fin.map CallEvent.finished).toList) (hw : ws <+: told)
    (ho : ∀ o, .finished o ∉ ws) : ws <+: us.map .update := by
  subst ht
  cases fin with
  | none => rwa [Option.map_none, Option.toList_none, List.append_nil] at hw
  | some o =>
    rcases List.prefix_concat_iff.1 hw with rfl | hw
    · exact (ho o (by simp)).elim
    · exact hw

end Told

namespace Station

/-- The replies to a context that are still in the queue. -/
def queued (context : String) (s : Station η) : List CallEvent :=
  s.queue.filterMap (·.reply? context)

/-- What the handler of a job passes on by an event. -/
def emits (job : JobId) (s : Station η) : StationEvent η → List CallEvent
  | .act _ o => (s.emission o).toList.filterMap fun (i, e) => if i = job then some e else none
  | _ => []

/-- What the handler of a job passes on by events in a row. -/
def emitted [DecidableEq η] (job : JobId) (s : Station η) : List (StationEvent η) → List CallEvent
  | [] => []
  | e :: es => s.emits job e ++ (s.step e).1.emitted job es

theorem emitted_snoc [DecidableEq η] (job : JobId) (s : Station η) (es : List (StationEvent η))
    (e : StationEvent η) :
    s.emitted job (es ++ [e]) = s.emitted job es ++ (s.run es).1.emits job e := by
  induction es generalizing s with
  | nil => simp only [List.nil_append, emitted, List.append_nil]; rfl
  | cons f es ih => simp only [List.cons_append, emitted, ih, run, List.append_assoc]

/-! ### Stages -/

/-- How far the service of a call has come, given what its handler has told and what has been
written of that, and whether the handler has been interrupted and the call withdrawn. -/
inductive Stage (context : String) (job : JobId) (interrupted : Bool) (told written : List CallEvent)
    (withdrawn : Prop) (s : Station η) : Prop
  /-- The link serves the call: what has not been written is in the queue. -/
  | serving (hu : s.link.up = true) (hr : s.link.running.get? context = some job)
      (hw : written ++ s.queued context = told) (ho : ∀ o, .finished o ∉ written)
  /-- The outcome has been written, and all that the handler told before. -/
  | answered (hr : s.link.running.get? context = none) (hq : s.queued context = [])
      (hw : written = told) (ho : ∃ o, .finished o ∈ written)
  /-- The link is lost, or the call has been withdrawn and the handler knows it. -/
  | broken (hr : s.link.running.get? context = none) (hw : written <+: told)
      (ho : ∀ o, .finished o ∉ written)
      (hx : s.link.up = true → withdrawn ∧ interrupted = true)

/-- What holds of a call from the moment its handler is started. -/
structure Service (context : String) (job : JobId) (c : InboundCall) (told written : List CallEvent)
    (withdrawn : Prop) (s : Station η) : Prop where
  sound : s.Sound
  held : s.jobs[job]? = some c
  named : c.context = context
  sole : ∀ (i : JobId) (k : InboundCall), s.jobs[i]? = some k → k.context = context → i = job
  tells : Told c.finished told
  stage : s.Stage context job c.cancelled told written withdrawn

section Service

variable {context : String} {job : JobId} {c : InboundCall} {interrupted : Bool}
  {told written : List CallEvent} {withdrawn : Prop} {s s' : Station η}

theorem Stage.imp {withdrawn' : Prop} {interrupted' : Bool}
    (h : s.Stage context job interrupted told written withdrawn) (hw : withdrawn → withdrawn')
    (hi : interrupted = true → interrupted' = true) :
    s.Stage context job interrupted' told written withdrawn' := by
  cases h with
  | serving hu hr hw' ho => exact .serving hu hr hw' ho
  | answered hr hq hw' ho => exact .answered hr hq hw' ho
  | broken hr hw' ho hx => exact .broken hr hw' ho fun hu => (hx hu).imp hw hi

theorem Service.imp {withdrawn' : Prop} (h : s.Service context job c told written withdrawn)
    (hw : withdrawn → withdrawn') : s.Service context job c told written withdrawn' :=
  { h with stage := h.stage.imp hw id }

/-- Nothing that the stage depends on has changed. -/
theorem Stage.kept (h : s.Stage context job interrupted told written withdrawn)
    (hl : s'.link = s.link) (hq : s'.queued context = s.queued context) :
    s'.Stage context job interrupted told written withdrawn := by
  cases h with
  | serving hu hr hw ho => exact .serving (hl ▸ hu) (hl ▸ hr) (hq ▸ hw) ho
  | answered hr hq' hw ho => exact .answered (hl ▸ hr) (hq ▸ hq') hw ho
  | broken hr hw ho hx => exact .broken (hl ▸ hr) hw ho (hl ▸ hx)

theorem queued_append (s : Station η) {cs : List (Command η)} (hq : s'.queue = s.queue ++ cs) :
    s'.queued context = s.queued context ++ cs.filterMap (·.reply? context) := by
  rw [queued, hq, List.filterMap_append]
  rfl

theorem Stage.tells (h : s.Stage context job interrupted told written withdrawn) {e : CallEvent}
    (hopen : ∀ o, .finished o ∉ told) (hl : s'.link = s.link)
    (hq : s.link.up = true → s'.queued context = s.queued context ++ [e]) :
    s'.Stage context job interrupted (told ++ [e]) written withdrawn := by
  cases h with
  | serving hu hr hw ho =>
    refine .serving (hl ▸ hu) (hl ▸ hr) ?_ ho
    rw [hq hu, ← List.append_assoc, hw]
  | answered hr hq' hw ho =>
    obtain ⟨o, ho⟩ := ho
    exact (hopen o (hw ▸ ho)).elim
  | broken hr hw ho hx => exact .broken (hl ▸ hr) (hw.trans (List.prefix_append ..)) ho (hl ▸ hx)

theorem Service.operate (h : s.Service context job c told written withdrawn) (fresh : String)
    (o : Operation η) : ∃ c',
      (s.operate fresh o).1.Service context job c' (told ++ s.emits job (.act fresh o)) written
        withdrawn := by
  have hs := (s.operate_kept fresh o).sound h.sound
  have hd := s.does_operate fresh o
  rw [emits]
  generalize s.emission o = em, (s.operate fresh o).1 = s' at hs hd
  have silent {cs : List (Command η)} (hl : s'.link = s.link) (hj : s'.jobs = s.jobs)
      (hq : s'.queue = s.queue ++ cs) (hc : ∀ cmd ∈ cs, cmd.reply? context = none) :
      ∃ c', s'.Service context job c' (told ++ []) written withdrawn := by
    refine ⟨c, ?_⟩
    rw [List.append_nil]
    refine ⟨hs, hj ▸ h.held, h.named, hj ▸ h.sole, h.tells, h.stage.kept hl ?_⟩
    rw [queued_append s hq, List.filterMap_eq_nil_iff.2 hc, List.append_nil]
  cases hd with
  | nothing | refused | reads => exact silent rfl rfl (List.append_nil _).symm nofun
  | registers | calls | shutsDown =>
    refine silent rfl rfl rfl fun cmd hcmd => ?_
    obtain rfl := List.mem_singleton.1 hcmd
    rfl
  | givesUp hk hg hc =>
    refine silent rfl rfl rfl fun cmd hcmd => ?_
    rcases hc with rfl | ⟨_, rfl⟩
    · cases hcmd
    · obtain rfl := List.mem_singleton.1 hcmd
      rfl
  | @passes j k v hk hf hu =>
    by_cases hj : j = job
    · subst hj
      obtain rfl := Option.some.inj (h.held.symm.trans hk)
      have htold : Told false told := hf ▸ h.tells
      simp only [Option.toList_some, List.filterMap_cons, if_true, List.filterMap_nil]
      refine ⟨c, ⟨hs, hk, h.named, h.sole, hf ▸ htold.update v, ?_⟩⟩
      refine h.stage.tells htold.open rfl fun _ => ?_
      rw [queued_append s rfl]
      exact congrArg _ (congrArg Option.toList (if_pos h.named))
    · have hother : (Command.update k.context v : Command η).reply? context = none :=
        if_neg fun hc => hj (h.sole j k hk hc)
      simp only [Option.toList_some, List.filterMap_cons, if_neg hj, List.filterMap_nil]
      exact silent rfl rfl rfl fun cmd hcmd => List.mem_singleton.1 hcmd ▸ hother
  | @ends j k out hk hf =>
    have hsole (i : JobId) (k' : InboundCall)
        (hk' : (s.jobs.set j { k with finished := true })[i]? = some k')
        (hc' : k'.context = context) : i = job := by
      obtain ⟨k₀, hk₀, hc₀, -⟩ := job_of_set hk hk'
      exact h.sole i k₀ hk₀ (hc₀ ▸ hc')
    by_cases hj : j = job
    · subst hj
      obtain rfl := Option.some.inj (h.held.symm.trans hk)
      have htold : Told false told := hf ▸ h.tells
      simp only [Option.toList_some, List.filterMap_cons, if_true, List.filterMap_nil]
      refine ⟨{ c with finished := true }, ⟨hs, ?_, h.named, hsole, htold.finish out, ?_⟩⟩
      · exact List.getElem?_set_self (List.getElem?_eq_some_iff.1 hk).1
      · refine h.stage.tells htold.open rfl fun hu => ?_
        rw [queued_append s (if_pos hu)]
        exact congrArg _ (congrArg Option.toList (if_pos h.named))
    · have hother : (Command.finish k.context out : Command η).reply? context = none :=
        if_neg fun hc => hj (h.sole j k hk hc)
      simp only [Option.toList_some, List.filterMap_cons, if_neg hj, List.filterMap_nil,
        List.append_nil]
      refine ⟨c, ⟨hs, ?_, h.named, hsole, h.tells, ?_⟩⟩
      · exact (List.getElem?_set_ne hj).trans h.held
      · refine h.stage.kept rfl ?_
        by_cases hu : s.link.up = true
        · refine (queued_append s (if_pos hu)).trans ?_
          rw [List.filterMap_cons_none hother, List.filterMap_nil, List.append_nil]
        · exact congrArg (List.filterMap _) (if_neg hu)

/-- The replies that come of an event are those that the link has written. -/
theorem replies_happen [DecidableEq η] (context : String) (s : Station η) (e : LinkEvent η) :
    (s.happen e).2.filterMap (·.reply? context) =
      (s.link.step e).2.filterMap (·.reply? context) := by
  rw [effects_happen, List.filterMap_append]
  split
  · exact List.append_nil _
  · have hforgotten : (s.queue.flatMap forgotten).filterMap (·.reply? context) = [] :=
      List.filterMap_eq_nil_iff.2 fun f hf =>
        (Port.quiet_forgotten context s.queue f hf).reply? context
    rw [hforgotten, List.append_nil]

section Happen

variable [DecidableEq η] {e : StationEvent η} {le : LinkEvent η} {t : Station η}

theorem Meets.link_happen (hm : s.Meets e le t) :
    (t.happen le).1.link = (s.link.step le).1 := by
  rw [happen_link, hm.same.1]

theorem Meets.replies_happen (hm : s.Meets e le t) (context : String) :
    (t.happen le).2.filterMap (·.reply? context) =
      (s.link.step le).2.filterMap (·.reply? context) := by
  rw [Station.replies_happen, hm.same.1]

theorem Meets.queued_happen (hm : s.Meets e le t) (context : String) :
    (t.happen le).1.queued context =
      if (s.link.step le).1.up then t.queued context else [] := by
  rw [Station.queued, happen_queue, hm.same.1]
  split <;> rfl

omit [DecidableEq η] in
theorem Meets.queued_eq (hm : s.Meets e le t) (context : String) :
    (∃ cmd, le = .commanded cmd ∧
      s.queued context = (cmd.reply? context).toList ++ t.queued context) ∨
    (∀ cmd, le ≠ .commanded cmd) ∧ t.queued context = s.queued context := by
  rcases hm.queue_eq with ⟨cmd, hle, hq⟩ | ⟨hle, hq⟩
  · refine .inl ⟨cmd, hle, ?_⟩
    rw [queued, hq, List.filterMap_cons]
    cases cmd.reply? context <;> rfl
  · exact .inr ⟨hle, congrArg (List.filterMap _) hq⟩

omit [DecidableEq η] in
theorem Meets.queued_of_reply (hm : s.Meets e le t) {cmd : Command η} {r : CallEvent}
    (hle : le = .commanded cmd) (hr : cmd.reply? context = some r) :
    s.queued context = r :: t.queued context := by
  rcases hm.queued_eq context with ⟨cmd', hle', hq⟩ | ⟨hle', -⟩
  · obtain rfl := LinkEvent.commanded.inj (hle.symm.trans hle')
    rw [hq, hr]
    rfl
  · exact (hle' cmd hle).elim

theorem Meets.queued_of_nil (hm : s.Meets e le t) (hq : s.queued context = []) :
    (t.happen le).1.queued context = [] := by
  rw [hm.queued_happen]
  split
  · rcases hm.queued_eq context with ⟨cmd, -, hq'⟩ | ⟨-, hq'⟩
    · exact (List.append_eq_nil_iff.1 (hq'.symm.trans hq)).2
    · exact hq'.trans hq
  · rfl

/-- An event that the service of a call does not depend on. -/
theorem Stage.passed (h : s.Stage context job interrupted told written withdrawn)
    (hm : s.Meets e le t) (hu : (s.link.step le).1.up = s.link.up)
    (hr : (s.link.step le).1.running.get? context = s.link.running.get? context)
    (he : s.link.up = false ∨ s.link.running.get? context = none ∨
      ∀ c, le = .commanded c → c.reply? context = none) :
    (t.happen le).1.Stage context job interrupted told written withdrawn := by
  have hlink := hm.link_happen
  cases h with
  | serving hu' hr' hw ho =>
    have hq : t.queued context = s.queued context := by
      rcases hm.queued_eq context with ⟨cmd, rfl, hq⟩ | ⟨-, hq⟩
      · rcases he with he | he | he
        · exact Bool.noConfusion (he.symm.trans hu')
        · cases he.symm.trans hr'
        · rw [hq, he cmd rfl]
          rfl
      · exact hq
    have hup := hu.trans hu'
    exact .serving (hlink ▸ hup) (hlink ▸ hr.trans hr')
      (by rw [hm.queued_happen, if_pos hup, hq, hw]) ho
  | answered hr' hq hw ho =>
    exact .answered (hlink ▸ hr.trans hr') (hm.queued_of_nil hq) hw ho
  | broken hr' hw ho hx =>
    refine .broken (hlink ▸ hr.trans hr') hw ho fun hup => hx ?_
    rw [hlink, hu] at hup
    exact hup

/-- The link is lost, and what has not been written will not be. -/
theorem Stage.lost (h : s.Stage context job interrupted told written withdrawn)
    (hm : s.Meets e le t) (hu : (s.link.step le).1.up = false)
    (hr : (s.link.step le).1.running = ∅) :
    (t.happen le).1.Stage context job interrupted told written withdrawn := by
  have hlink := hm.link_happen
  have hgone : (t.happen le).1.link.running.get? context = none := by rw [hlink, hr]; rfl
  have hdown (hup : (t.happen le).1.link.up = true) : False := by
    rw [hlink, hu] at hup
    cases hup
  cases h with
  | serving _ _ hw ho => exact .broken hgone ⟨_, hw⟩ ho fun hup => (hdown hup).elim
  | answered _ hq hw ho => exact .answered hgone (hm.queued_of_nil hq) hw ho
  | broken _ hw ho hx => exact .broken hgone hw ho fun hup => (hdown hup).elim

theorem Stage.relays (h : s.Stage context job interrupted told written withdrawn)
    (hm : s.Meets e le t) {v : Json} {job' : JobId}
    (he : le = .commanded (.update context v))
    (hr : s.link.running.get? context = some job')
    (heq : s.link.step le = (s.link, [.wrote (.update context v)])) :
    (t.happen le).1.Stage context job interrupted told (written ++ [.update v]) withdrawn := by
  have hlink := hm.link_happen
  cases h with
  | serving hu' hr' hw ho =>
    have hup : (s.link.step le).1.up = true := by rw [heq]; exact hu'
    refine .serving ?_ ?_ ?_ fun o hmem => ?_
    · rw [hlink, hup]
    · rw [hlink, heq]
      exact hr'
    · rw [hm.queued_happen, if_pos hup, List.append_assoc, ← hw,
        hm.queued_of_reply he (if_pos rfl)]
      rfl
    · rcases List.mem_append.1 hmem with hmem | hmem
      · exact ho o hmem
      · cases List.mem_singleton.1 hmem
  | answered hr' | broken hr' => cases hr'.symm.trans hr

/-- The outcome is written, and it is the last that the handler has told. -/
theorem Stage.answers (h : s.Stage context job interrupted told written withdrawn)
    {finished : Bool} (ht : Told finished told) (hm : s.Meets e le t) {o : Outcome} {job' : JobId}
    (he : le = .commanded (.finish context o))
    (hr : s.link.running.get? context = some job')
    (heq : s.link.step le = ({ s.link with running := s.link.running.erase context },
      [.wrote (.result context o)])) :
    (t.happen le).1.Stage context job interrupted told (written ++ [.finished o]) withdrawn := by
  have hlink := hm.link_happen
  cases h with
  | serving hu' hr' hw ho =>
    have hq := hm.queued_of_reply he (if_pos rfl)
    have hlast : t.queued context = [] := by
      rw [← hw, hq] at ht
      exact ht.last
    have hup : (s.link.step le).1.up = true := by rw [heq]; exact hu'
    refine .answered ?_ ?_ ?_ ⟨o, by simp⟩
    · rw [hlink, heq]
      exact Keyed.get?_erase_self ..
    · rw [hm.queued_happen, if_pos hup, hlast]
    · rw [← hw, hq, hlast]
  | answered hr' | broken hr' => cases hr'.symm.trans hr

/-- The withdrawal of a call that is being served interrupts its handler. -/
theorem Stage.stops (h : s.Stage context job interrupted told written withdrawn)
    (hm : s.Meets e le t) {job' : JobId} (he : le = .heard (.cancel context))
    (hr : s.link.running.get? context = some job')
    (heq : s.link.step le = ({ s.link with running := s.link.running.erase context },
      [.interrupted job'])) :
    (t.happen le).1.Stage context job (interrupted || (t.happen le).2.any (·.interrupts job)) told
      written (withdrawn ∨ le = .heard (.cancel context)) := by
  have hlink := hm.link_happen
  cases h with
  | serving hu' hr' hw ho =>
    obtain rfl : job = job' := Option.some.inj (hr'.symm.trans hr)
    have hmem : .interrupted job ∈ (t.happen le).2 := by
      rw [effects_happen, hm.same.1, heq]
      exact List.mem_append_left _ (List.mem_singleton.2 rfl)
    have hany : (t.happen le).2.any (·.interrupts job) = true :=
      List.any_eq_true.2 ⟨_, hmem, decide_eq_true rfl⟩
    refine .broken ?_ ⟨_, hw⟩ ho fun _ => ⟨.inr he, ?_⟩
    · rw [hlink, heq]
      exact Keyed.get?_erase_self ..
    · rw [hany, Bool.or_true]
  | answered hr' | broken hr' => cases hr'.symm.trans hr

theorem Stage.happen (h : s.Stage context job interrupted told written withdrawn)
    {finished : Bool} (ht : Told finished told) (hm : s.Meets e le t)
    (hcall : ∀ c, le = .heard (.call c) → c.context ≠ context) :
    (t.happen le).1.Stage context job
      (interrupted || (t.happen le).2.any (·.interrupts job)) told
      (written ++ (t.happen le).2.filterMap (·.reply? context))
      (withdrawn ∨ le = .heard (.cancel context)) := by
  have hmore : s.Stage context job (interrupted || (t.happen le).2.any (·.interrupts job)) told
      written (withdrawn ∨ le = .heard (.cancel context)) :=
    h.imp .inl fun hi => by rw [hi, Bool.true_or]
  rw [hm.replies_happen]
  cases s.link.treats_step hcall with
  | passesBy hu hr hs he =>
    rw [List.filterMap_eq_nil_iff.2 hs, List.append_nil]
    exact hmore.passed hm hu hr he
  | loses hu hr hs =>
    rw [List.filterMap_eq_nil_iff.2 hs, List.append_nil]
    exact hmore.lost hm hu hr
  | @relays v _ he hr heq =>
    have hw : (s.link.step le).2.filterMap (·.reply? context) = [.update v] := by
      rw [heq]
      exact congrArg Option.toList (if_pos rfl)
    rw [hw]
    exact hmore.relays hm he hr heq
  | @answers o _ he hr heq =>
    have hw : (s.link.step le).2.filterMap (·.reply? context) = [.finished o] := by
      rw [heq]
      exact congrArg Option.toList (if_pos rfl)
    rw [hw]
    exact hmore.answers ht hm he hr heq
  | stops he hr heq =>
    have hw : (s.link.step le).2.filterMap (·.reply? context) = [] := by rw [heq]; rfl
    rw [hw, List.append_nil]
    exact h.stops hm he hr heq

theorem Service.happen (h : s.Service context job c told written withdrawn) (hm : s.Meets e le t)
    (hcall : ∀ k, le = .heard (.call k) → k.context ≠ context) : ∃ c',
      (t.happen le).1.Service context job c' told
        (written ++ (t.happen le).2.filterMap (·.reply? context))
        (withdrawn ∨ le = .heard (.cancel context)) := by
  obtain ⟨hl, -, hj, -⟩ := hm.same
  refine ⟨_, ⟨sound_happen (by rw [hl, hj]; exact h.sound.jobs) le,
    getElem?_jobs_happen (hj ▸ h.held) le, h.named, ?_, h.tells, h.stage.happen h.tells hm hcall⟩⟩
  intro i k hk hc
  rcases old_or_new_job hk with ⟨k₀, hk₀, hc₀, -⟩ | ⟨k', hle, -, hc', -⟩
  · exact h.sole i k₀ (hj ▸ hk₀) (hc₀ ▸ hc)
  · exact (hcall k' hle (hc' ▸ hc)).elim

omit [DecidableEq η] in
theorem Meets.not_offered (hm : s.Meets e le t) (he : e.offered? ≠ some context) :
    ∀ k, le = .heard (.call k) → k.context ≠ context := by
  cases hm with
  | hears m =>
    intro k hk hc
    obtain rfl := LinkEvent.heard.inj hk
    exact he (congrArg some hc)
  | obeys | deafens | hangsUp => nofun

omit [DecidableEq η] in
theorem Meets.heard_iff (hm : s.Meets e le t) (m : Message) : le = .heard m ↔ e = .hear m := by
  cases hm with
  | hears m' => simp
  | obeys | deafens | hangsUp => simp

/-- Whatever happens, a call is served on, or its service has come to an end. -/
theorem Service.step (h : s.Service context job c told written withdrawn)
    (he : e.offered? ≠ some context) : ∃ c',
      (s.step e).1.Service context job c' (told ++ s.emits job e)
        (written ++ (s.step e).2.filterMap (·.reply? context))
        (withdrawn ∨ e = .hear (.cancel context)) := by
  rcases s.happens_step e with @⟨fresh, o, rfl, hr⟩ | ⟨rfl, -, hr⟩ | ⟨hm, hr⟩
  · obtain ⟨c', h'⟩ := h.operate fresh o
    rw [hr, List.filterMap_nil, List.append_nil]
    exact ⟨c', h'.imp .inl⟩
  · rw [hr, List.filterMap_nil, List.append_nil]
    have hemits : s.emits job .obey = [] := rfl
    rw [hemits, List.append_nil]
    exact ⟨c, h.imp .inl⟩
  · obtain ⟨c', h'⟩ := h.happen hm (hm.not_offered he)
    have hemits : s.emits job e = [] := by cases hm <;> rfl
    rw [hr, hemits, List.append_nil]
    exact ⟨c', h'.imp fun hw => hw.imp_right (hm.heard_iff _).1⟩

theorem Service.run (h : s.Service context job c [] [] False) {es : List (StationEvent η)}
    (hes : ∀ e ∈ es, e.offered? ≠ some context) : ∃ c',
      (s.run es).1.Service context job c' (s.emitted job es)
        ((s.run es).2.filterMap (·.reply? context)) (.hear (.cancel context) ∈ es) := by
  induction es using List.reverseRecOn with
  | nil => exact ⟨c, h.imp False.elim⟩
  | append_singleton es e ih =>
    obtain ⟨c₁, h₁⟩ := ih fun e he => hes e (List.mem_append_left _ he)
    obtain ⟨c₂, h₂⟩ := h₁.step (hes e (List.mem_append_right _ (List.mem_singleton.2 rfl)))
    refine ⟨c₂, ?_⟩
    rw [run_snoc, emitted_snoc, List.filterMap_append]
    exact h₂.imp fun hw => List.mem_append.2 (hw.imp_right fun he => List.mem_singleton.2 he.symm)

/-- When the link hears that a call has been withdrawn it stops serving the call, and the handler is
interrupted unless the outcome has been written. -/
theorem Service.recalled (h : s.Service context job c told written withdrawn) :
    (s.step (.hear (.cancel context))).1.link.running.get? context = none ∧
      (s.link.up = true → (∀ o, .finished o ∉ written) →
        ∃ c', (s.step (.hear (.cancel context))).1.jobs[job]? = some c' ∧ c'.cancelled = true) := by
  have hlink : (s.step (.hear (.cancel context))).1.link =
      (s.link.step (.heard (.cancel context))).1 := happen_link ..
  obtain ⟨hup, hs, hr⟩ := s.link.step_withdrawn context
  have hgone : (s.step (.hear (.cancel context))).1.link.running.get? context = none := by
    cases hu : s.link.up with
    | true =>
      rw [hlink]
      exact hr hu
    | false =>
      rw [hlink, Link.step_of_lost hu]
      cases h.stage with
      | serving hu' => exact Bool.noConfusion (hu.symm.trans hu')
      | answered hr | broken hr => exact hr
  refine ⟨hgone, fun hu ho => ?_⟩
  obtain ⟨c', h'⟩ := h.step (e := .hear (.cancel context)) nofun
  refine ⟨c', h'.held, ?_⟩
  have hreplies : (s.step (.hear (.cancel context))).2.filterMap (·.reply? context) = [] :=
    (replies_happen ..).trans (List.filterMap_eq_nil_iff.2 hs)
  cases h'.stage with
  | serving _ hr' => cases hgone.symm.trans hr'
  | answered _ _ _ ho' =>
    rw [hreplies, List.append_nil] at ho'
    obtain ⟨o, ho'⟩ := ho'
    exact (ho o ho').elim
  | broken _ _ _ hx => exact (hx (by rw [hlink, hup, hu])).2

/-! ### Without service -/

theorem silent_step (hr : s.link.running.get? context = none) (he : e.offered? ≠ some context) :
    (s.step e).1.link.running.get? context = none ∧
      (s.step e).2.filterMap (·.reply? context) = [] := by
  rcases s.happens_step e with @⟨fresh, o, -, hstep⟩ | ⟨-, -, hstep⟩ | @⟨le, t, hm, hstep⟩
  · rw [hstep, (s.operate_kept fresh o).link]
    exact ⟨hr, rfl⟩
  · rw [hstep]
    exact ⟨hr, rfl⟩
  · rw [hstep, happen_link, replies_happen, hm.same.1]
    cases s.link.treats_step (hm.not_offered he) with
    | passesBy _ hr' hs => exact ⟨hr'.trans hr, List.filterMap_eq_nil_iff.2 hs⟩
    | loses _ hr' hs => exact ⟨by rw [hr']; rfl, List.filterMap_eq_nil_iff.2 hs⟩
    | relays _ hr' | answers _ hr' | stops _ hr' => cases hr.symm.trans hr'

theorem silent_run (hr : s.link.running.get? context = none) {es : List (StationEvent η)}
    (hes : ∀ e ∈ es, e.offered? ≠ some context) :
    (s.run es).1.link.running.get? context = none ∧
      (s.run es).2.filterMap (·.reply? context) = [] := by
  induction es generalizing s with
  | nil => exact ⟨hr, rfl⟩
  | cons e es ih =>
    obtain ⟨he, hes⟩ := List.forall_mem_cons.1 hes
    obtain ⟨hr', hs⟩ := silent_step hr he
    obtain ⟨hr'', hs'⟩ := ih hr' hes
    refine ⟨hr'', ?_⟩
    rw [run, List.filterMap_append, hs, hs']
    rfl

/-- A station at which no call has been offered under a context. -/
structure Unserved (context : String) (s : Station η) : Prop where
  sound : s.Sound
  jobs : ∀ (i : JobId) (k : InboundCall), s.jobs[i]? = some k → k.context ≠ context
  queued : s.queued context = []

omit [DecidableEq η] in
theorem Unserved.does (h : s.Unserved context) {fresh : String} {o : Operation η}
    {em : Option (JobId × CallEvent)} (hs : s'.Sound) (hd : s.Does fresh o em s') :
    s'.Unserved context := by
  have keeps {cs : List (Command η)} (hj : s'.jobs = s.jobs) (hq : s'.queue = s.queue ++ cs)
      (hc : ∀ cmd ∈ cs, cmd.reply? context = none) : s'.Unserved context := by
    refine ⟨hs, hj ▸ h.jobs, ?_⟩
    rw [queued_append s hq, h.queued, List.filterMap_eq_nil_iff.2 hc]
    rfl
  cases hd with
  | nothing | refused | reads => exact keeps rfl (List.append_nil _).symm nofun
  | registers | calls | shutsDown =>
    exact keeps rfl rfl fun cmd hcmd => List.mem_singleton.1 hcmd ▸ rfl
  | givesUp hk hg hc =>
    refine keeps rfl rfl fun cmd hcmd => ?_
    rcases hc with rfl | ⟨_, rfl⟩
    · cases hcmd
    · exact List.mem_singleton.1 hcmd ▸ rfl
  | passes hk =>
    exact keeps rfl rfl fun cmd hcmd => List.mem_singleton.1 hcmd ▸ if_neg (h.jobs _ _ hk)
  | @ends j k out hk hf =>
    have hother : (Command.finish k.context out : Command η).reply? context = none :=
      if_neg (h.jobs j k hk)
    refine ⟨hs, fun i k' hk' => ?_, ?_⟩
    · obtain ⟨k₀, hk₀, hc₀, -⟩ := job_of_set hk hk'
      exact hc₀ ▸ h.jobs i k₀ hk₀
    · by_cases hu : s.link.up = true
      · refine (queued_append s (if_pos hu)).trans ?_
        rw [h.queued, List.filterMap_cons_none hother]
        rfl
      · exact (congrArg (List.filterMap _) (if_neg hu)).trans h.queued

theorem Unserved.step (h : s.Unserved context) (he : e.offered? ≠ some context) :
    (s.step e).1.Unserved context := by
  have hs := h.sound.step e
  rcases s.happens_step e with @⟨fresh, o, -, hstep⟩ | ⟨-, -, hstep⟩ | @⟨le, t, hm, hstep⟩
  · rw [hstep] at hs ⊢
    exact h.does hs (s.does_operate fresh o)
  · rwa [hstep]
  · rw [hstep] at hs ⊢
    refine ⟨hs, fun i k hk => ?_, ?_⟩
    · rcases old_or_new_job hk with ⟨k₀, hk₀, hc₀, -⟩ | ⟨k', hle, -, hc', -⟩
      · exact hc₀ ▸ h.jobs i k₀ (hm.same.2.2.1 ▸ hk₀)
      · exact hc' ▸ hm.not_offered he k' hle
    · rw [Station.queued, happen_queue]
      split
      · rcases hm.queued_eq context with ⟨cmd, -, hq⟩ | ⟨-, hq⟩
        · exact (List.append_eq_nil_iff.1 (hq.symm.trans h.queued)).2
        · exact hq.trans h.queued
      · rfl

theorem Unserved.run (h : s.Unserved context) {es : List (StationEvent η)}
    (hes : ∀ e ∈ es, e.offered? ≠ some context) : (s.run es).1.Unserved context := by
  induction es generalizing s with
  | nil => exact h
  | cons e es ih =>
    obtain ⟨he, hes⟩ := List.forall_mem_cons.1 hes
    exact ih (h.step he) hes

/-! ### Main statement -/

theorem service_of_started {k : Call} {handler : η} (h : s.Unserved k.context)
    (hstart : .started job handler k ∈ (s.step (.hear (.call k))).2) :
    s.link.running.get? k.context = none ∧
      (s.step (.hear (.call k))).2.filterMap (·.reply? k.context) = [] ∧
      (s.step (.hear (.call k))).1.Service k.context job (.ofCall k) [] [] False := by
  have hsound := h.sound.step (.hear (.call k))
  have hstep : s.step (.hear (.call k)) = s.happen (.heard (.call k)) := rfl
  rw [hstep] at hstart hsound ⊢
  have hmem : .started job handler k ∈ (s.link.step (.heard (.call k))).2 := by
    rw [effects_happen] at hstart
    rcases List.mem_append.1 hstart with hm | hm
    · exact hm
    · split at hm
      · cases hm
      · exact (List.countP_eq_zero.1 (starts_forgotten s.queue) _ hm rfl).elim
  obtain ⟨hu, -, hr, rfl, hlink⟩ := Link.started_of_step hmem
  have hup : (s.link.step (.heard (.call k))).1.up = true := by rw [hlink]; exact hu
  have heffects : (s.happen (.heard (.call k))).2 = [.started s.link.jobs handler k] := by
    rw [effects_happen, if_pos hup, List.append_nil, hlink]
  have hstate : (s.happen (.heard (.call k))).1.jobs = s.jobs ++ [.ofCall k] := by
    rw [state_happen, heffects]
    rfl
  have hjobs : s.link.jobs = s.jobs.length := h.sound.jobs
  refine ⟨hr, by rw [heffects]; rfl, hsound, ?_, rfl, fun i k' hk' hc' => ?_, told_nil, ?_⟩
  · rw [hstate, hjobs]
    simp
  · rw [hstate] at hk'
    by_cases hi : i < s.jobs.length
    · rw [List.getElem?_append_left hi] at hk'
      exact (h.jobs i k' hk' hc').elim
    · have hlt : i < s.jobs.length + 1 := by simpa using (List.getElem?_eq_some_iff.1 hk').1
      exact (Nat.le_antisymm (Nat.le_of_lt_succ hlt) (Nat.le_of_not_lt hi)).trans hjobs.symm
  · refine .serving ?_ ?_ ?_ nofun
    · rw [happen_link]
      exact hup
    · rw [happen_link, hlink]
      exact Keyed.get?_insert_self ..
    · rw [Station.queued, happen_queue, if_pos hup]
      exact h.queued

omit [DecidableEq η] in
/-- A handler that has ended its call can do nothing more with it. -/
theorem operate_of_finished (hk : s.jobs[job]? = some c) (hf : c.finished = true) (fresh : String) :
    (∀ v, s.operate fresh (.update job v) = (s, .done (.error .done))) ∧
      (∀ o, s.operate fresh (.finish job o) = (s, .done (.error .done))) ∧
      s.operate fresh (.dropJob job) = (s, .done (.ok ())) := by
  have hdone : ∀ k, s.jobs[job]? = some k → k.finished = true := fun k h =>
    Option.some.inj (hk.symm.trans h) ▸ hf
  refine ⟨fun v => ?_, fun o => ?_, ?_⟩
  · simp only [Station.operate, update_of_done hdone]
    rfl
  · simp only [Station.operate, finish_of_done hdone]
    rfl
  · simp only [Station.operate, dropJob, finish_of_done hdone]

omit [DecidableEq η] in
/-- A handler that has not ended its call can end it, and it ends the call by letting go of it.  It
can stream partial results as long as there is a link. -/
theorem operate_of_open (hk : s.jobs[job]? = some c) (hf : c.finished = false) (fresh : String) :
    (∀ v, (s.operate fresh (.update job v)).2 =
        .done (if s.link.up then .ok () else .error .disconnected) ∧
      s.emits job (.act fresh (.update job v)) = if s.link.up then [.update v] else []) ∧
    (∀ o, (s.operate fresh (.finish job o)).2 = .done (.ok ()) ∧
      s.emits job (.act fresh (.finish job o)) = [.finished o]) ∧
    s.emits job (.act fresh (.dropJob job)) = [.finished .declined] := by
  refine ⟨fun v => ?_, fun o => ?_, ?_⟩
  · simp only [Station.operate, emits, emission, update_of_open hk hf]
    cases hu : s.link.up with
    | true =>
      rw [submit_of_up hu]
      exact ⟨rfl, by simp [Except.isOk, Except.toBool]⟩
    | false =>
      rw [submit_of_lost hu]
      exact ⟨rfl, rfl⟩
  · simp only [Station.operate, emits, emission, finish_eq hk hf]
    exact ⟨rfl, by simp [Except.isOk, Except.toBool]⟩
  · simp only [emits, emission, finish_eq hk hf]
    simp [Except.isOk, Except.toBool]

/-- A job is ended by its handler's first end of the call, and by letting go of the call. -/
theorem finished_of_ends (hk : s.jobs[job]? = some c) (fresh : String) {o : Operation η}
    (ho : o = .dropJob job ∨ ∃ out, o = .finish job out) :
    ∃ c', (s.step (.act fresh o)).1.jobs[job]? = some c' ∧ c'.finished = true := by
  have hlt := (List.getElem?_eq_some_iff.1 hk).1
  cases hf : c.finished with
  | true =>
    obtain ⟨-, hfinish, hdrop⟩ := operate_of_finished hk hf fresh
    rcases ho with rfl | ⟨out, rfl⟩
    · refine ⟨c, ?_, hf⟩
      rw [Station.step, hdrop]
      exact hk
    · refine ⟨c, ?_, hf⟩
      rw [Station.step, hfinish]
      exact hk
  | false =>
    refine ⟨{ c with finished := true }, ?_, rfl⟩
    rcases ho with rfl | ⟨out, rfl⟩
    · simp only [Station.step, Station.operate, dropJob, finish_eq hk hf]
      exact List.getElem?_set_self hlt
    · simp only [Station.step, Station.operate, attempt, finish_eq hk hf]
      exact List.getElem?_set_self hlt

/-- **A call is answered by one well-formed stream of replies.**  Let anything happen at a station, let
a single call be offered under a context, and let a handler be started for it.  Then:

* what the handler has told are the partial results that were accepted, in their order, and then the
  outcome if the handler has ended the call or let go of it, which declines a call that is open;
* nothing is accepted of a handler that has ended its call; one that has not can end it, and can
  stream partial results as long as there is a link;
* what has ever been written for the context is all that the handler has told, with the outcome, or
  else it begins the partial results;
* as long as the link is up and has not heard that the call is withdrawn, what has not been written
  is in the queue;
* after the link has heard that nothing is written any more, and the handler is interrupted unless
  the outcome had been written. -/
theorem replies_of_call {pre post : List (StationEvent η)} {k : Call} {job : JobId} {handler : η}
    (hsole : ∀ e ∈ pre ++ post, e.offered? ≠ some k.context)
    (hstart : .started job handler k ∈ ((run {} pre).1.step (.hear (.call k))).2) :
    let s₁ := (run ({} : Station η) (pre ++ [.hear (.call k)])).1
    let s := (s₁.run post).1
    let told := s₁.emitted job post
    let written := (run ({} : Station η) (pre ++ .hear (.call k) :: post)).2.filterMap
      (·.reply? k.context)
    ∃ (us : List Json) (fin : Option Outcome) (c : InboundCall),
      told = us.map .update ++ (fin.map CallEvent.finished).toList ∧
      s.jobs[job]? = some c ∧ c.context = k.context ∧ c.finished = fin.isSome ∧
      (∀ fresh o, .act fresh o ∈ post → (o = .dropJob job ∨ ∃ out, o = .finish job out) →
        fin.isSome = true) ∧
      (c.finished = true → ∀ fresh,
        (∀ v, s.operate fresh (.update job v) = (s, .done (.error .done))) ∧
        (∀ o, s.operate fresh (.finish job o) = (s, .done (.error .done))) ∧
        s.operate fresh (.dropJob job) = (s, .done (.ok ()))) ∧
      (c.finished = false → ∀ fresh,
        (∀ v, (s.operate fresh (.update job v)).2 =
            .done (if s.link.up then .ok () else .error .disconnected) ∧
          s.emits job (.act fresh (.update job v)) = if s.link.up then [.update v] else []) ∧
        (∀ o, (s.operate fresh (.finish job o)).2 = .done (.ok ()) ∧
          s.emits job (.act fresh (.finish job o)) = [.finished o]) ∧
        s.emits job (.act fresh (.dropJob job)) = [.finished .declined]) ∧
      (written = told ∧ fin.isSome = true ∨ written <+: us.map .update) ∧
      (s.link.up = true → .hear (.cancel k.context) ∉ post →
        written ++ s.queued k.context = told) ∧
      ∀ p₁ p₂, post = p₁ ++ .hear (.cancel k.context) :: p₂ →
        let served := s₁.run p₁
        ((served.1.step (.hear (.cancel k.context))).1.run p₂).2.filterMap
          (·.reply? k.context) = [] ∧
        (served.1.link.up = true →
          (∀ o, .finished o ∉ served.2.filterMap (·.reply? k.context)) →
            c.cancelled = true) := by
  intro s₁ s told written
  have hpre : ∀ e ∈ pre, e.offered? ≠ some k.context := fun e he =>
    hsole e (List.mem_append_left _ he)
  have hpost : ∀ e ∈ post, e.offered? ≠ some k.context := fun e he =>
    hsole e (List.mem_append_right _ he)
  have hstart₀ : ({} : Station η).Unserved k.context := ⟨⟨nofun, rfl⟩, nofun, rfl⟩
  obtain ⟨hr, hsilent, h₁⟩ := service_of_started (hstart₀.run hpre) hstart
  have hs₁ : s₁ = ((run {} pre).1.step (.hear (.call k))).1 := by simp only [s₁, run_snoc]
  rw [← hs₁] at h₁
  obtain ⟨c, h⟩ := h₁.run hpost
  have hwritten : written = (s₁.run post).2.filterMap (·.reply? k.context) := by
    simp only [written, run_append, run, List.filterMap_append]
    rw [(silent_run rfl hpre).2, hsilent, ← hs₁]
    rfl
  rw [← hwritten] at h
  obtain ⟨us, fin, htold, hfin⟩ := h.tells
  refine ⟨us, fin, c, htold, h.held, h.named, hfin, ?_,
    fun hf fresh => operate_of_finished h.held hf fresh, fun hf fresh => operate_of_open h.held hf fresh, ?_, ?_, ?_⟩
  · intro fresh o hmem ho
    obtain ⟨p₁, p₂, rfl⟩ := List.append_of_mem hmem
    obtain ⟨c₁, hs⟩ := h₁.run fun e he => hpost e (List.mem_append_left _ he)
    obtain ⟨c₂, hc₂, hf⟩ := finished_of_ends hs.held fresh ho
    obtain ⟨c₃, hc₃, hages⟩ := ages_run hc₂ p₂
    have hheld := h.held
    rw [run_append] at hheld
    obtain rfl := Option.some.inj (hc₃.symm.trans hheld)
    exact hfin.symm.trans (hages.finished hf)
  · cases h.stage with
    | serving _ _ hw ho => exact .inr (prefix_updates htold ⟨_, hw⟩ ho)
    | answered _ _ hw ho =>
      refine .inl ⟨hw, hfin.symm.trans (Bool.of_not_eq_false fun hf => ?_)⟩
      obtain ⟨o, ho⟩ := ho
      exact (hf ▸ h.tells).open o (hw ▸ ho)
    | broken _ hw ho => exact .inr (prefix_updates htold hw ho)
  · intro hu hc
    cases h.stage with
    | serving _ _ hw => exact hw
    | answered _ hq hw => rw [hq, List.append_nil, hw]
    | broken _ _ _ hx => exact (hc (hx hu).1).elim
  · rintro p₁ p₂ rfl
    intro served
    obtain ⟨c₁, hserved⟩ := h₁.run fun e he => hpost e (List.mem_append_left _ he)
    have hp₂ : ∀ e ∈ p₂, e.offered? ≠ some k.context := fun e he =>
      hpost e (List.mem_append_right _ (List.mem_cons_of_mem _ he))
    obtain ⟨hgone, hcancelled⟩ := hserved.recalled
    refine ⟨(silent_run hgone hp₂).2, fun hu ho => ?_⟩
    obtain ⟨c₂, hc₂, hc⟩ := hcancelled hu ho
    obtain ⟨c₃, hc₃, hages⟩ := ages_run hc₂ p₂
    have hheld := h.held
    rw [run_append] at hheld
    obtain rfl := Option.some.inj (hc₃.symm.trans hheld)
    exact hages.cancelled hc

end Happen

end Service

/-- A station whose link has asked for a handler to be registered. -/
def enrolled : Station Unit where
  link := {
    pending := (∅ : Keyed String Pending).insert "r" (.registration 1)
    roster := {
      directory := ({} : Directory HandlerId).insert "f" 0 1
      handlers := (∅ : Keyed HandlerId Unit).insert 1 ()
      issued := 1 } }
  registrations := (∅ : Keyed String (Option (Except Failure Unit))).insert "r" none

theorem run_enrolled :
    (run ({} : Station Unit) [.act "r" (.register "f" 0 ()), .obey]).1 = enrolled := by
  have hs : (Message.register "r" "f" 0 1).size = 73 := by cbv
  have he : ∃ f, (Message.register "r" "f" 0 1).encode = .ok f :=
    (Message.encode_eq _).1 (by rw [hs]; decide)
  have hwrite : enrolled.link.write (.register "r" "f" 0 1) =
      (enrolled.link, [.wrote (.register "r" "f" 0 1)]) := by
    rcases Link.write_of_fits enrolled.link (.register "r" "f" 0 1) with ⟨_, h⟩ | ⟨h, _⟩
    · exact h
    · exact (h ⟨rfl, he⟩).elim
  have hstep : ({} : Link Unit).step (.commanded (.register "r" "f" 0 ())) =
      (enrolled.link, [.wrote (.register "r" "f" 0 1)]) := hwrite
  have hasked : (run ({} : Station Unit) [.act "r" (.register "f" 0 ()), .obey]).1 =
      (happen { enrolled with link := {} } (.commanded (.register "r" "f" 0 ()))).1 := rfl
  rw [hasked, happen, hstep]
  rfl

/-- A handler streams a partial result and lets go of its call. -/
theorem replies_of_dropped_call :
    let pre : List (StationEvent Unit) := [.act "r" (.register "f" 0 ()), .obey]
    let k : Call := { context := "c", function := "f", handler := some 1 }
    let post : List (StationEvent Unit) :=
      [.act "x" (.update 0 .null), .act "x" (.dropJob 0), .hear (.cancel "d")]
    let s₁ := (run {} (pre ++ [.hear (.call k)])).1
    (∀ e ∈ pre ++ post, e.offered? ≠ some k.context) ∧
      .started 0 () k ∈ ((run {} pre).1.step (.hear (.call k))).2 ∧
      s₁.emitted 0 post = [.update .null, .finished .declined] ∧
      (run {} (pre ++ .hear (.call k) :: post)).2.filterMap (·.reply? "c") ++
        (s₁.run post).1.queued "c" = s₁.emitted 0 post ∧
      ((s₁.run post).1.operate "x" (.finish 0 .declined)).2 = .done (.error .done) := by
  intro pre k post s₁
  have hsole : ∀ e ∈ pre ++ post, e.offered? ≠ some k.context := by decide
  have hstart : .started 0 () k ∈ ((run {} pre).1.step (.hear (.call k))).2 := by
    rw [run_enrolled]
    exact List.mem_singleton.2 rfl
  have hs₁ : s₁ = (enrolled.step (.hear (.call k))).1 := by
    simp only [s₁, run_snoc, pre, run_enrolled]
  have htold : s₁.emitted 0 post = [.update .null, .finished .declined] := by
    rw [hs₁]
    rfl
  have hup : (s₁.run post).1.link.up = true := by
    rw [hs₁]
    rfl
  obtain ⟨us, fin, c, -, -, -, hfin, hends, hdone, -, -, hleft, -⟩ := replies_of_call hsole hstart
  have hended : fin.isSome = true := hends "x" (.dropJob 0) (by simp [post]) (.inl rfl)
  refine ⟨hsole, hstart, htold, hleft hup (by simp [post, k]), ?_⟩
  exact congrArg Prod.snd ((hdone (hfin.trans hended) "x").2.1 .declined)

end Station
end Switchboard
