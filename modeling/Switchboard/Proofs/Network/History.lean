import Switchboard.Proofs.Network.Run

/-! # What callers and handlers would tell

The deeds of a run, sorted by who would tell of them: the offers of the exchange, what each handler
has passed on and how it has ended the call, and what has arrived at the caller.

* **Records.** A handler that has not been started has told nothing, one that has not ended the call
  has no end to tell of, and one that has ended it has told of one end (`Thread.Records`).  After
  that it tells nothing more (`Records.settled`). -/

namespace Switchboard

/-- Updates, followed by ends. -/
def events (vs : List Json) (os : List Outcome) : List CallEvent :=
  vs.map .update ++ os.map .finished

namespace Deeds

/-- The handlers that the call was offered to, in order. -/
def offered (ds : List Deed) : List (ClientId × Option HandlerId) :=
  ds.filterMap fun
    | (client, .offered handler) => some (client, handler)
    | _ => none

/-- The partial results that a handler has passed, in order. -/
def passed (client : ClientId) (job : JobId) (ds : List Deed) : List Json :=
  ds.filterMap fun
    | (c, .passed j v) => if c = client ∧ j = job then some v else none
    | _ => none

/-- How a handler has ended the call. -/
def ended (client : ClientId) (job : JobId) (ds : List Deed) : List Outcome :=
  ds.filterMap fun
    | (c, .ended j o) => if c = client ∧ j = job then some o else none
    | _ => none

/-- What has been put into the queue of the caller, in order. -/
def arrived (ds : List Deed) : List CallEvent :=
  ds.filterMap fun
    | (_, .arrived e) => some e
    | _ => none

/-- All that a handler has given, in order. -/
def given (client : ClientId) (job : JobId) (ds : List Deed) : List CallEvent :=
  events (passed client job ds) (ended client job ds)

section Append

variable (client : ClientId) (job : JobId) (ds ds' : List Deed)

@[simp] theorem offered_append : offered (ds ++ ds') = offered ds ++ offered ds' :=
  List.filterMap_append

@[simp] theorem passed_append :
    passed client job (ds ++ ds') = passed client job ds ++ passed client job ds' :=
  List.filterMap_append

@[simp] theorem ended_append :
    ended client job (ds ++ ds') = ended client job ds ++ ended client job ds' :=
  List.filterMap_append

@[simp] theorem arrived_append : arrived (ds ++ ds') = arrived ds ++ arrived ds' :=
  List.filterMap_append

end Append

/-- What the exchange tells. -/
theorem of_offers (sents : List Sent) (client : ClientId) (job : JobId) :
    passed client job (Thread.offers sents) = [] ∧ ended client job (Thread.offers sents) = [] ∧
      arrived (Thread.offers sents) = [] ∧ ∀ h, (client, .started job h) ∉ Thread.offers sents := by
  have shape : ∀ d ∈ Thread.offers sents, ∃ a h, d = (a, .offered h) := by
    intro d hd
    obtain ⟨s, _, hs⟩ := List.mem_filterMap.1 hd
    split at hs
    · exact ⟨_, _, (Option.some.inj hs).symm⟩
    · cases hs
  have silent {β : Type} {f : Deed → Option β} (hf : ∀ a h, f (a, .offered h) = none) :
      (Thread.offers sents).filterMap f = [] := by
    refine List.filterMap_eq_nil_iff.2 fun d hd => ?_
    obtain ⟨a, h, rfl⟩ := shape d hd
    exact hf a h
  refine ⟨silent fun _ _ => rfl, silent fun _ _ => rfl, silent fun _ _ => rfl, fun h hd => ?_⟩
  obtain ⟨_, _, he⟩ := shape _ hd
  cases he

end Deeds

namespace Strand

/-- What a move tells of handlers, and what becomes of them. -/
inductive Tells (s s' : Strand) : List Act → Prop
  | nothing (h : s'.handlers = s.handlers) : Tells s s' []
  | arrived (e : CallEvent) (h : s'.handlers = s.handlers) : Tells s s' [.arrived e]
  | passed (job : JobId) (v : Json) (hj : s.handlers job = some false)
      (h : s'.handlers = s.handlers) : Tells s s' [.passed job v]
  | ended (job : JobId) (o : Outcome) (hj : s.handlers job = some false)
      (h : s'.handlers = fun i => if i = job then some true else s.handlers i) :
    Tells s s' [.ended job o]
  | started (job : JobId) (handler : Option HandlerId) (hj : s.handlers job = none)
      (h : s'.handlers = fun i => if i = job then some false else s.handlers i) :
    Tells s s' [.started job handler]

theorem tells_move {context : String} {s s' : Strand} {acts : List Act}
    (h : s.Move context acts s') : s.Tells s' acts := by
  cases h with
  | passes hj => exact .passed _ _ hj rfl
  | ends hj => exact .ended _ _ hj rfl
  | starts _ _ _ hj => exact .started _ _ hj rfl
  | hearsUpdate | hearsResult =>
    split
    · exact .arrived _ rfl
    · exact .nothing rfl
  | _ => exact .nothing rfl

end Strand

namespace Thread

open Deeds

/-- Whether a handler has been started, and whether it has ended the call. -/
def handler (t : Thread) (client : ClientId) (job : JobId) : Option Bool :=
  (t.strand client).bind fun s => s.handlers job

/-- What handlers have told fits what they are. -/
structure Records (done : List Deed) (t : Thread) : Prop where
  unheard : ∀ a job, t.handler a job = none →
    passed a job done = [] ∧ ended a job done = [] ∧ ∀ h, (a, .started job h) ∉ done
  working : ∀ a job, t.handler a job = some false → ended a job done = []
  finished : ∀ a job, t.handler a job = some true → ∃ o, ended a job done = [o]

/-- Nothing is told of handlers. -/
def Quiet (ds : List Deed) : Prop :=
  ∀ a job, passed a job ds = [] ∧ ended a job ds = [] ∧ ∀ h, (a, .started job h) ∉ ds

theorem quiet_nil : Quiet [] := fun _ _ => ⟨rfl, rfl, fun _ => nofun⟩

theorem quiet_offers (sents : List Sent) : Quiet (offers sents) := fun a job =>
  ⟨(of_offers sents a job).1, (of_offers sents a job).2.1, (of_offers sents a job).2.2.2⟩

variable {t t' : Thread} {done ds : List Deed} {client : ClientId} {s s' : Strand}

theorem handler_of_strand {job : JobId} (hs : t.strand client = some s) :
    t.handler client job = s.handlers job := by
  rw [handler, hs]
  rfl

theorem handler_set (t : Thread) (client : ClientId) (s : Strand) (a : ClientId) (job : JobId) :
    (t.set client s).handler a job = if a = client then s.handlers job else t.handler a job := by
  rw [handler, Thread.set]
  dsimp only
  split <;> rfl

theorem handler_posts {sents : List Sent} (hp : Posts sents t t') (a : ClientId) (job : JobId) :
    t'.handler a job = t.handler a job := by
  cases hs : t.strand a with
  | none =>
    cases hu : t'.strand a with
    | none => rw [handler, handler, hs, hu]
    | some u =>
      obtain ⟨v, hv, _⟩ := hp.before a u hu
      rw [hs] at hv
      cases hv
  | some v =>
    obtain ⟨u, hu, kept, writes, rfl, _⟩ := hp.after a v hs
    rw [handler_of_strand hs, handler_of_strand hu]

theorem Records.blank (h : t.Blank) : t.Records [] := by
  have hnone (a : ClientId) (job : JobId) : t.handler a job = none := by
    cases hs : t.strand a with
    | none => rw [handler, hs]; rfl
    | some s => rw [handler_of_strand hs, (h.strand a s hs).handlers]
  refine ⟨fun _ _ _ => ⟨rfl, rfl, fun _ => nofun⟩, fun a job hj => ?_, fun a job hj => ?_⟩
  · rw [hnone] at hj
    cases hj
  · rw [hnone] at hj
    cases hj

/-- Nothing is told and nothing becomes of handlers. -/
theorem Records.quiet (h : t.Records done) (hds : Quiet ds)
    (hs : ∀ a job, t'.handler a job = t.handler a job) : t'.Records (done ++ ds) where
  unheard a job hnone := by
    obtain ⟨h1, h2, h3⟩ := h.unheard a job ((hs a job).symm.trans hnone)
    obtain ⟨q1, q2, q3⟩ := hds a job
    rw [passed_append, ended_append, h1, h2, q1, q2]
    refine ⟨rfl, rfl, fun handler hm => ?_⟩
    rcases List.mem_append.1 hm with hm | hm
    · exact h3 handler hm
    · exact q3 handler hm
  working a job hj := by
    rw [ended_append, (hds a job).2.1, List.append_nil]
    exact h.working a job ((hs a job).symm.trans hj)
  finished a job hj := by
    rw [ended_append, (hds a job).2.1, List.append_nil]
    exact h.finished a job ((hs a job).symm.trans hj)

/-- One handler tells something, and something becomes of it. -/
theorem Records.told (h : t.Records done) {act : Act} {client : ClientId} (job : JobId)
    (hother : ∀ a i, ¬ (a = client ∧ i = job) → t'.handler a i = t.handler a i ∧
      passed a i [(client, act)] = [] ∧ ended a i [(client, act)] = [] ∧
        ∀ handler, act = .started i handler → a ≠ client)
    (hnone : t'.handler client job ≠ none)
    (hfalse : t'.handler client job = some false → ended client job (done ++ [(client, act)]) = [])
    (htrue : t'.handler client job = some true →
      ∃ o, ended client job (done ++ [(client, act)]) = [o]) :
    t'.Records (done ++ [(client, act)]) where
  unheard a i hn := by
    have hne : ¬ (a = client ∧ i = job) := by
      rintro ⟨rfl, rfl⟩
      exact hnone hn
    obtain ⟨h1, h2, h3, h4⟩ := hother a i hne
    obtain ⟨g1, g2, g3⟩ := h.unheard a i (h1.symm.trans hn)
    rw [passed_append, ended_append, g1, g2, h2, h3]
    refine ⟨rfl, rfl, fun handler hm => ?_⟩
    rcases List.mem_append.1 hm with hm | hm
    · exact g3 handler hm
    · obtain ⟨ha, hact⟩ := Prod.mk.inj (List.mem_singleton.1 hm)
      exact h4 handler hact.symm ha
  working a i hj := by
    by_cases hne : a = client ∧ i = job
    · obtain ⟨rfl, rfl⟩ := hne
      exact hfalse hj
    · obtain ⟨h1, _, h3, _⟩ := hother a i hne
      rw [ended_append, h3, List.append_nil]
      exact h.working a i (h1.symm.trans hj)
  finished a i hj := by
    by_cases hne : a = client ∧ i = job
    · obtain ⟨rfl, rfl⟩ := hne
      exact htrue hj
    · obtain ⟨h1, _, h3, _⟩ := hother a i hne
      rw [ended_append, h3, List.append_nil]
      exact h.finished a i (h1.symm.trans hj)

theorem Records.moves {acts : List Act} (h : t.Records done) (hs : t.strand client = some s)
    (hm : s.Tells s' acts) : (t.set client s').Records (done ++ acts.map (client, ·)) := by
  have same (he : s'.handlers = s.handlers) (a : ClientId) (job : JobId) :
      (t.set client s').handler a job = t.handler a job := by
    rw [handler_set]
    split
    · next e => rw [e, handler_of_strand hs, he]
    · rfl
  have changed {j : JobId} {b : Bool} (he : s'.handlers = fun i => if i = j then some b
      else s.handlers i) (a : ClientId) (i : JobId) : (t.set client s').handler a i =
        if a = client ∧ i = j then some b else t.handler a i := by
    rw [handler_set, he]
    by_cases ha : a = client
    · subst ha
      by_cases hi : i = j <;> simp [hi, handler_of_strand hs]
    · simp [ha]
  cases hm with
  | nothing he => exact h.quiet quiet_nil (same he)
  | arrived e he => exact h.quiet (fun a job => ⟨rfl, rfl, fun _ hd => by simp at hd⟩) (same he)
  | passed j v hj he =>
    have hfalse : t.handler client j = some false := (handler_of_strand hs).trans hj
    refine h.told j (fun a i hne => ⟨same he a i, ?_, rfl, nofun⟩) ?_ (fun _ => ?_) ?_
    · have : ¬ (client = a ∧ j = i) := fun ⟨h1, h2⟩ => hne ⟨h1.symm, h2.symm⟩
      simp [Deeds.passed, this]
    · rw [same he, hfalse]
      nofun
    · rw [ended_append, h.working client j hfalse]
      rfl
    · rw [same he, hfalse]
      nofun
  | ended j o hj he =>
    have hfalse : t.handler client j = some false := (handler_of_strand hs).trans hj
    refine h.told j (fun a i hne => ⟨?_, rfl, ?_, nofun⟩) ?_ ?_ fun _ => ⟨o, ?_⟩
    · rw [changed he, if_neg hne]
    · have : ¬ (client = a ∧ j = i) := fun ⟨h1, h2⟩ => hne ⟨h1.symm, h2.symm⟩
      simp [Deeds.ended, this]
    · rw [changed he, if_pos ⟨rfl, rfl⟩]
      nofun
    · rw [changed he, if_pos ⟨rfl, rfl⟩]
      nofun
    · rw [ended_append, h.working client j hfalse]
      simp [Deeds.ended]
  | started j handler hj he =>
    have hnone : t.handler client j = none := (handler_of_strand hs).trans hj
    refine h.told j (fun a i hne => ⟨?_, rfl, rfl, ?_⟩) ?_ (fun _ => ?_) ?_
    · rw [changed he, if_neg hne]
    · rintro _ ⟨⟩ rfl
      exact hne ⟨rfl, rfl⟩
    · rw [changed he, if_pos ⟨rfl, rfl⟩]
      nofun
    · rw [ended_append, (h.unheard client j hnone).2.1]
      rfl
    · rw [changed he, if_pos ⟨rfl, rfl⟩]
      nofun

theorem Records.step {context : String} (h : t.Records done) (hstep : Step context t ds t') :
    t'.Records (done ++ ds) := by
  have same {s s' : Strand} {client : ClientId} (hs : t.strand client = some s)
      {sents : List Sent} (hp : Posts sents (t.set client s') t') (he : s'.handlers = s.handlers)
      (a : ClientId) (job : JobId) : t'.handler a job = t.handler a job := by
    rw [handler_posts hp, handler_set]
    split
    · next e => rw [e, handler_of_strand hs, he]
    · rfl
  cases hstep with
  | moves hs hm => exact h.moves hs (Strand.tells_move hm)
  | @joins client hnone =>
    refine h.quiet quiet_nil fun a job => ?_
    rw [handler_set]
    split
    · next e => rw [e, handler, hnone]; rfl
    · rfl
  | passesBy hr hp => exact h.quiet quiet_nil (handler_posts hp)
  | routes hs _ _ _ _ _ hp => exact h.quiet (quiet_offers _) (same hs hp rfl)
  | leaves hs _ _ _ _ _ _ hp => exact h.quiet (quiet_offers _) (same hs hp rfl)

/-- A handler that has ended the call tells nothing more. -/
theorem Records.settled {context : String} (h : t.Records done) (hstep : Step context t ds t')
    {a : ClientId} {job : JobId} (he : ended a job done ≠ []) :
    passed a job ds = [] ∧ ended a job ds = [] := by
  cases hstep with
  | moves hs hm =>
    have other {client : ClientId} {s : Strand} {j : JobId} (hs : t.strand client = some s)
        (hj : s.handlers j = some false) : ¬ (client = a ∧ j = job) := by
      rintro ⟨rfl, rfl⟩
      exact he (h.working client j ((handler_of_strand hs).trans hj))
    cases Strand.tells_move hm with
    | nothing | arrived | started => exact ⟨rfl, rfl⟩
    | passed j v hj => exact ⟨by simp [Deeds.passed, other hs hj], rfl⟩
    | ended j o hj => exact ⟨rfl, by simp [Deeds.ended, other hs hj]⟩
  | routes | leaves => exact ⟨(of_offers _ a job).1, (of_offers _ a job).2.1⟩
  | joins | passesBy => exact ⟨rfl, rfl⟩

end Thread
end Switchboard
