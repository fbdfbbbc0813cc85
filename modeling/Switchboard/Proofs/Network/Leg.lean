import Switchboard.Proofs.Network.Report
import Switchboard.Proofs.Network.Order

/-! # Legs of a call

The way of a handler's partial results and of its result, from the handler to the exchange.

* **Legs.** A call goes to one handler after the other; what the exchange has passed on for one of
  them is a `Leg`.
* **Invariant.** What a leg has got, what is on the uplink and what is in the queue is in this order
  all that the handler has given (`Strand.Works`).  Nobody else has anything on the way
  (`Strand.Clean`), and before a call is asked for nobody has (`Strand.Fresh`). -/

namespace Switchboard

open Message

/-! ### Legs -/

/-- A call at one of the handlers that it was offered to. -/
structure Leg where
  client : ClientId
  handler : Option HandlerId
  /-- The work of the handler on the call, once it has been started. -/
  job : Option JobId := none
  /-- The partial results that have been passed on. -/
  got : List Json := []

namespace Leg

/-- All that comes of a leg at its client: what the handler has given, or that the client declines
the call without starting a handler. -/
def Gives (ds : List Deed) (l : Leg) (es : List CallEvent) : Prop :=
  match l.job with
  | some job => es = Deeds.given l.client job ds
  | none => l.got = [] ∧ (es = [] ∨ es = [.finished .declined])

/-- What has been passed on, as events. -/
def passed (l : Leg) : List CallEvent := l.got.map .update

/-- What acts at its client add to a leg. -/
def news (l : Leg) (acts : List Act) : List CallEvent :=
  match l.job with
  | some job => acts.filterMap (Act.given? job)
  | none => []

theorem Gives.grow {ds : List Deed} {l : Leg} {es : List CallEvent} (h : l.Gives ds es)
    {s s' : Strand} {acts : List Act} (ht : s.Tells s' acts) (hr : s.Recorded l.client ds) :
    l.Gives (ds ++ acts.map (l.client, ·)) (es ++ l.news acts) := by
  unfold Gives at h ⊢
  unfold news
  split
  · next job hj =>
    rw [hj] at h
    rw [Strand.given_tells ht hr, ← show es = _ from h]
  · next hj =>
    rw [hj] at h
    rwa [List.append_nil]

end Leg

namespace Strand

/-- What the station writes gets to the exchange. -/
def Open (s : Strand) : Prop := s.up = true ∧ s.reads = true

/-- The station works for a leg of the call. -/
structure Works (ds : List Deed) (s : Strand) (l : Leg) : Prop where
  /-- What has been passed on, what is on the uplink and what is in the queue is all that there is
  of the leg, and without its start nothing comes after it. -/
  given : ∃ es, l.Gives ds es ∧ l.passed ++ reports s.uplink <+: es ∧
    (s.Open → l.passed ++ (reports s.uplink ++ reports s.queue) = es)
  /-- The call is served for the leg, -/
  serving : s.Open → ∀ job, s.serving = some job → l.job = some job
  /-- nobody else is at work, -/
  handler : s.Open → ∀ job, s.handlers job = some false → s.serving = some job
  /-- and when nothing is served there is nothing in the queue. -/
  queue : s.Open → s.serving = none → reports s.queue = []
  /-- A call on its way is the leg's, which has not begun. -/
  call : s.Open → ∀ c, .call c ∈ s.downlink → c.handler = l.handler ∧ l.job = none ∧
    reports s.uplink = [] ∧ reports s.queue = []

/-- The station has nothing more to do with the call. -/
structure Clean (s : Strand) : Prop where
  uplink : reports s.uplink = []
  queue : s.Open → reports s.queue = []
  handler : s.Open → ∀ job, s.handlers job ≠ some false

/-- Nothing has come of the call at the station yet. -/
structure Fresh (s : Strand) : Prop where
  queue : reports s.queue = []
  uplink : reports s.uplink = []
  downlink : reports s.downlink = []
  calls : count .call s.downlink = 0
  serving : s.serving = none
  handler : ∀ job, s.handlers job = none

theorem Fresh.clean {s : Strand} (h : s.Fresh) : s.Clean :=
  ⟨h.uplink, fun _ => h.queue, fun _ job => by rw [h.handler]; nofun⟩

theorem Blank.fresh {s : Strand} (h : s.Blank) : s.Fresh where
  queue := by rw [h.queue]; rfl
  uplink := by rw [h.uplink]; rfl
  downlink := by rw [h.downlink]; rfl
  calls := by rw [h.downlink]; rfl
  serving := h.serving
  handler := h.handlers

variable {context : String} {s s' : Strand} {acts : List Act}

theorem open_move (h : s.Move context acts s') (ho : s'.Open) : s.Open := by
  obtain ⟨hu, hr⟩ := ho
  cases h <;> first | exact ⟨hu, hr⟩ | cases hu | cases hr

/-- Nothing is added to an uplink that does not get to the exchange. -/
theorem uplink_move (h : s.Move context acts s') (ho : s.Orderly) (hn : ¬ s'.Open) :
    s'.uplink <+: s.uplink := by
  have written {m m' : Message} {q : List Message} (hq : s.queue = m :: q) (hn : ¬ s.Open) :
      s.written m' <+: s.uplink := by
    have hr : ¬ s.reads = true := fun hr => hn ⟨ho.up hq, hr⟩
    have hw : s.written m' = s.uplink := if_neg hr
    exact hw ▸ List.prefix_refl _
  cases h with
  | asks hq | enrolls hq | withdraws hq | relays hq | answers hq =>
    exact written hq fun ⟨hu, hr⟩ => hn ⟨hu, hr⟩
  | declines hd hu =>
    have hr : ¬ s.reads = true := fun hr => hn ⟨hu, hr⟩
    have hw : s.written (.result context .declined) = s.uplink := if_neg hr
    exact hw ▸ List.prefix_refl _
  | closes hu => exact hu
  | _ => exact List.prefix_refl _

theorem fresh_move (h : s.Move context acts s') (hs : s.Fresh) : s'.Fresh ∧ acts = [] := by
  obtain ⟨hq, hu, hd, hc, hv, hh⟩ := hs
  have written {m : Message} (h : m.event? = none) : reports (s.written m) = [] :=
    (s.reports_written h).trans hu
  cases h with
  | reads => exact ⟨⟨hq, hu, hd, hc, hv, hh⟩, rfl⟩
  | givesUp _ _ hm =>
    refine ⟨⟨?_, hu, hd, hc, hv, hh⟩, rfl⟩
    rcases hm with rfl | ⟨_, rfl⟩
    · simpa using hq
    · rw [reports_append, hq]
      rfl
  | passes hj | ends hj =>
    rw [hh] at hj
    cases hj
  | forgets hq' =>
    rw [hq'] at hq
    exact ⟨⟨(reports_cons_eq_nil hq).2, hu, hd, hc, hv, hh⟩, rfl⟩
  | asks hq' | withdraws hq' =>
    rw [hq'] at hq
    exact ⟨⟨(reports_cons_eq_nil hq).2, written rfl, hd, hc, hv, hh⟩, rfl⟩
  | enrolls hq' _ hm =>
    rw [hq'] at hq
    refine ⟨⟨(reports_cons_eq_nil hq).2, written ?_, hd, hc, hv, hh⟩, rfl⟩
    exact event?_eq_none_iff.2 (by simp [hm])
  | relays _ hs | answers _ hs => exact (hs hv).elim
  | starts hd' | declines hd' =>
    rw [hd', count_cons] at hc
    cases hc
  | hearsUpdate hd' hm =>
    rw [hd'] at hd
    exact ((event?_eq_none_iff.1 (reports_cons_eq_nil hd).1).1 (kind_of_transmitted hm)).elim
  | hearsResult hd' hm =>
    rw [hd'] at hd
    exact ((event?_eq_none_iff.1 (reports_cons_eq_nil hd).1).2 (kind_of_transmitted hm)).elim
  | enrolled hd' hm =>
    rw [hd'] at hd
    exact ((event?_eq_none_iff.1 (reports_cons_eq_nil hd).1).2 hm).elim
  | stops hd' | ignores hd' =>
    rw [hd'] at hd hc
    rw [count_cons] at hc
    exact ⟨⟨hq, hu, (reports_cons_eq_nil hd).2, by simp only; omega, by simp [hv], hh⟩, rfl⟩
  | lost => exact ⟨⟨rfl, hu, hd, hc, rfl, hh⟩, rfl⟩
  | closes hu' hd' =>
    refine ⟨⟨hq, ?_, ?_, ?_, hv, hh⟩, rfl⟩
    · exact List.prefix_nil.1 (hu ▸ reports_mono hu')
    · exact List.prefix_nil.1 (hd ▸ reports_mono hd')
    · exact Nat.le_zero.1 (hc ▸ count_mono .call hd')

theorem clean_move (h : s.Move context acts s') (hs : s.Clean) (ht : s.tokens = 0) : s'.Clean := by
  obtain ⟨hu, hq, hh⟩ := hs
  have hserving : s.serving = none := by
    cases hv : s.serving with
    | none => rfl
    | some job => simp [Strand.tokens, hv] at ht
  have hcall : count .call s.downlink = 0 := by simp only [Strand.tokens] at ht; omega
  have written {m : Message} (h : m.event? = none) : reports (s.written m) = [] :=
    (s.reports_written h).trans hu
  cases h with
  | givesUp _ _ hm =>
    refine ⟨hu, fun ho => ?_, hh⟩
    rcases hm with rfl | ⟨_, rfl⟩
    · simpa using hq ho
    · rw [reports_append, hq ho]
      rfl
  | passes hj => exact ⟨hu, fun ho => (hh ho _ hj).elim, hh⟩
  | ends hj => exact ⟨hu, fun ho => (hh ho _ hj).elim, fun ho => (hh ho _ hj).elim⟩
  | forgets hq' => exact ⟨hu, fun ho => (reports_cons_eq_nil (hq' ▸ hq ho)).2, hh⟩
  | asks hq' | withdraws hq' =>
    exact ⟨written rfl, fun ho => (reports_cons_eq_nil (hq' ▸ hq ho)).2, hh⟩
  | enrolls hq' _ hm =>
    refine ⟨written ?_, fun ho => (reports_cons_eq_nil (hq' ▸ hq ho)).2, hh⟩
    exact event?_eq_none_iff.2 (by simp [hm])
  | relays _ hs | answers _ hs => exact (hs hserving).elim
  | starts hd | declines hd =>
    rw [hd, count_cons] at hcall
    cases hcall
  | lost => exact ⟨hu, fun ho => Bool.noConfusion ho.1, fun ho => Bool.noConfusion ho.1⟩
  | closes hu' =>
    refine ⟨List.prefix_nil.1 (hu ▸ reports_mono hu'), fun ho => Bool.noConfusion ho.2, fun ho => ?_⟩
    exact Bool.noConfusion ho.2
  | _ => exact ⟨hu, hq, hh⟩

/-! ### Work that goes on -/

/-- The station works for a leg of which `es` has come, and what it writes gets to the exchange. -/
structure Total (ds : List Deed) (s : Strand) (l : Leg) (es : List CallEvent) : Prop where
  gives : l.Gives ds es
  total : l.passed ++ (reports s.uplink ++ reports s.queue) = es
  serving : ∀ job, s.serving = some job → l.job = some job
  handler : ∀ job, s.handlers job = some false → s.serving = some job
  queue : s.serving = none → reports s.queue = []
  call : ∀ c, .call c ∈ s.downlink → c.handler = l.handler ∧ l.job = none ∧
    reports s.uplink = [] ∧ reports s.queue = []

section Total

variable {ds ds' : List Deed} {l : Leg} {es : List CallEvent}

theorem Total.works (h : s.Total ds l es) : s.Works ds l where
  given := by
    refine ⟨es, h.gives, ?_, fun _ => h.total⟩
    rw [← h.total, ← List.append_assoc]
    exact List.prefix_append ..
  serving _ := h.serving
  handler _ := h.handler
  queue _ := h.queue
  call _ := h.call

theorem Works.total (h : s.Works ds l) (ho : s.Open) : ∃ es, s.Total ds l es := by
  obtain ⟨es, hes, _, htotal⟩ := h.given
  exact ⟨es, hes, htotal ho, h.serving ho, h.handler ho, h.queue ho, h.call ho⟩

theorem Total.got (h : s.Total ds l es) (hn : l.job = none) : l.got = [] := by
  have hes := h.gives
  unfold Leg.Gives at hes
  rw [hn] at hes
  exact hes.1

/-- Reports go from the queue to the uplink at most, and no call comes in. -/
theorem Total.shifts (h : s.Total ds l es) (hg : l.Gives ds' es) (hs : s'.serving = s.serving)
    (hh : s'.handlers = s.handlers)
    (hr : reports s'.uplink ++ reports s'.queue = reports s.uplink ++ reports s.queue)
    (hq : reports s.queue = [] → reports s'.queue = [])
    (hd : ∀ c, .call c ∈ s'.downlink → .call c ∈ s.downlink) : s'.Total ds' l es where
  gives := hg
  total := by rw [hr, h.total]
  serving := hs ▸ h.serving
  handler := by
    rw [hs, hh]
    exact h.handler
  queue hv := hq (h.queue (hs ▸ hv))
  call c hc := by
    obtain ⟨h1, h2, h3, h4⟩ := h.call c (hd c hc)
    rw [h3, h4] at hr
    obtain ⟨h5, h6⟩ := List.append_eq_nil_iff.1 hr
    exact ⟨h1, h2, h5, h6⟩

theorem Total.tells (h : s.Total ds l es) {job : JobId} (hj : s.handlers job = some false)
    {m : Message} {e : CallEvent} (hm : m.event? = some e) (hg : l.Gives ds' (es ++ [e]))
    {handlers : JobId → Option Bool}
    (hh : ∀ i, handlers i = some false → s.handlers i = some false) :
    Total ds' { s with queue := s.queue ++ [m], handlers } l (es ++ [e]) where
  gives := hg
  total := by simp [← h.total, reports_cons, hm]
  serving := h.serving
  handler i hi := h.handler i (hh i hi)
  queue hn := by cases (h.handler job hj).symm.trans hn
  call c hc := by cases (h.serving job (h.handler job hj)).symm.trans (h.call c hc).2.1

/-- The result is written.  The handler has ended the call by this, and nothing comes after it. -/
theorem Total.answers (h : s.Total ds l es) (hr : s.Recorded l.client ds) {o : Outcome}
    {q : List Message} (hq : s.queue = .result context o :: q) (hv : s.serving ≠ none) :
    Total ds { s with
      queue := q, serving := none, uplink := s.uplink ++ [.result context o] } l es := by
  have hqueue : reports s.queue = .finished o :: reports q := by simp [hq, reports_cons, event?]
  obtain ⟨job, hv⟩ := Option.ne_none_iff_exists'.1 hv
  have hgiven : es = Deeds.given l.client job ds := by
    have hes := h.gives
    unfold Leg.Gives at hes
    rwa [h.serving job hv] at hes
  have hall : (l.passed ++ reports s.uplink) ++ .finished o :: reports q <+:
      Deeds.given l.client job ds := by
    have heq : (l.passed ++ reports s.uplink) ++ .finished o :: reports q =
        Deeds.given l.client job ds := by
      rw [List.append_assoc, ← hqueue, h.total, hgiven]
    exact heq ▸ List.prefix_refl _
  obtain ⟨_, hended, hrest⟩ := finished_last hall (hr.once job)
  refine ⟨h.gives, ?_, by simp, fun i hi => ?_, fun _ => hrest, fun c hc => ?_⟩
  · rw [← h.total, hqueue]
    simp [reports_cons, event?]
  · have hi' := h.handler i hi
    rw [hv] at hi'
    obtain rfl := Option.some.inj hi'
    rw [hr.working job hi] at hended
    cases hended
  · cases hqueue.symm.trans (h.call c hc).2.2.2

theorem tokens_call {c : Call} {d : List Message} (hd : s.downlink = .call c :: d)
    (ht : s.tokens ≤ 1) : (∀ c', .call c' ∉ d) ∧ s.serving = none := by
  simp only [Strand.tokens, hd, count_cons, kind, if_true] at ht
  have hlast : count .call d = 0 := by omega
  refine ⟨fun c' hc' => ?_, ?_⟩
  · have : 0 < count .call d := List.countP_pos_iff.2 ⟨_, hc', rfl⟩
    omega
  · refine Option.not_isSome_iff_eq_none.1 fun hv => ?_
    rw [if_pos hv] at ht
    omega

theorem Total.starts (h : s.Total ds l es) (hr : s.Recorded l.client ds) (ht : s.tokens ≤ 1)
    {c : Call} {d : List Message} (hd : s.downlink = .call c :: d) {job : JobId}
    (hj : s.handlers job = none) :
    c.handler = l.handler ∧ l.job = none ∧
      Total (ds ++ [(l.client, .started job c.handler)]) { s with
        downlink := d, serving := some job
        handlers := fun i => if i = job then some false else s.handlers i }
        { l with job := some job } [] := by
  obtain ⟨hh, hnone, hu, hq⟩ := h.call c (hd ▸ List.mem_cons_self)
  obtain ⟨hlast, hv⟩ := tokens_call hd ht
  have htells : s.Tells { s with
      downlink := d, serving := some job
      handlers := fun i => if i = job then some false else s.handlers i }
      [.started job c.handler] := .started job c.handler hj rfl
  have hgives := (given_tells htells hr job).trans (by rw [hr.unheard job hj])
  refine ⟨hh, hnone, hgives.symm, ?_, fun _ => id, fun i hi => ?_, by simp,
    fun c' hc' => (hlast c' hc').elim⟩
  · simp [Leg.passed, h.got hnone, hu, hq]
  · dsimp only at hi
    split at hi
    · next e => rw [e]
    · cases hv.symm.trans (h.handler i hi)

theorem Total.declines (h : s.Total ds l es) (ht : s.tokens ≤ 1) {c : Call} {d : List Message}
    (hd : s.downlink = .call c :: d) :
    Total ds { s with downlink := d, uplink := s.uplink ++ [.result context .declined] } l
      [.finished .declined] := by
  obtain ⟨hh, hnone, hu, hq⟩ := h.call c (hd ▸ List.mem_cons_self)
  obtain ⟨hlast, _⟩ := tokens_call hd ht
  refine ⟨?_, ?_, h.serving, h.handler, h.queue, fun c' hc' => (hlast c' hc').elim⟩
  · unfold Leg.Gives
    rw [hnone]
    exact ⟨h.got hnone, .inr rfl⟩
  · simp [Leg.passed, h.got hnone, hu, hq, reports_cons, event?]

/-- Where nothing more gets to the exchange, what the handler gives is of no use. -/
theorem Works.shut (hw : s.Works ds l) (h : s.Move context acts s') (hr : s.Recorded l.client ds)
    (ho : s.Orderly) (hn : ¬ s'.Open) : s'.Works (ds ++ acts.map (l.client, ·)) l := by
  obtain ⟨es, hes, hfirst, _⟩ := hw.given
  refine ⟨⟨_, hes.grow (tells_move h) hr, ?_, fun ho => (hn ho).elim⟩, fun ho => (hn ho).elim,
    fun ho => (hn ho).elim, fun ho => (hn ho).elim, fun ho => (hn ho).elim⟩
  have hup := reports_mono (uplink_move h ho hn)
  exact (((List.prefix_append_right_inj _).2 hup).trans hfirst).trans (List.prefix_append ..)

/-- A station goes on with a leg in every move, and it may start a handler for it. -/
theorem works_move (h : s.Move context acts s') (hw : s.Works ds l)
    (hr' : s.Recorded l.client ds) (ho : s.Orderly) (ht : s.tokens ≤ 1) (hc : s.cancels = 0) :
    ∃ job, s'.Works (ds ++ acts.map (l.client, ·)) { l with job } ∧ (job = l.job ∨
      l.job = none ∧ ∃ j, job = some j ∧ s.handlers j = none ∧ acts = [.started j l.handler]) := by
  by_cases hopen' : s'.Open
  case neg => exact ⟨l.job, hw.shut h hr' ho hopen', .inl rfl⟩
  have hopen := open_move h hopen'
  obtain ⟨es, hes⟩ := hw.total hopen
  have hgrow := hes.gives.grow (tells_move h) hr'
  have hwritten (m : Message) : s.written m = s.uplink ++ [m] := if_pos hopen.2
  have stays {es' : List CallEvent} (hes' : s'.Total (ds ++ acts.map (l.client, ·)) l es') :
      ∃ job, s'.Works (ds ++ acts.map (l.client, ·)) { l with job } ∧ (job = l.job ∨
        l.job = none ∧ ∃ j, job = some j ∧ s.handlers j = none ∧ acts = [.started j l.handler]) :=
    ⟨l.job, hes'.works, .inl rfl⟩
  -- most moves shift reports, if they do anything about them
  have shifts (hn : l.news acts = []) (hs : s'.serving = s.serving)
      (hh : s'.handlers = s.handlers)
      (hr : reports s'.uplink ++ reports s'.queue = reports s.uplink ++ reports s.queue)
      (hq : reports s.queue = [] → reports s'.queue = [])
      (hd : ∀ c, .call c ∈ s'.downlink → .call c ∈ s.downlink) := by
    rw [hn, List.append_nil] at hgrow
    exact stays (hes.shifts hgrow hs hh hr hq hd)
  have writes (hn : l.news acts = []) {m m' : Message} (hq : s.queue = m :: s'.queue)
      (he : m.event? = none) (hu : s'.uplink = s.written m') (he' : m'.event? = none)
      (hs : s'.serving = s.serving) (hh : s'.handlers = s.handlers)
      (hd : s'.downlink = s.downlink) := by
    have hr : reports s'.queue = reports s.queue := by simp [hq, reports_cons, he]
    refine shifts hn hs hh ?_ (hr ▸ id) fun c h => hd ▸ h
    rw [hu, s.reports_written he', hr]
  have silent : l.news [] = [] := by unfold Leg.news; split <;> rfl
  have silent_arrived (b : Bool) (e : CallEvent) :
      l.news (if b then [.arrived e] else []) = [] := by
    unfold Leg.news
    split <;> cases b <;> rfl
  cases h with
  | reads => exact shifts silent rfl rfl rfl id fun _ => id
  | givesUp _ _ hm =>
    rcases hm with rfl | ⟨_, rfl⟩
    · exact shifts silent rfl rfl (by simp) (by simp) fun _ => id
    · exact shifts silent rfl rfl (by simp [reports_cons, event?]) (by simp [reports_cons, event?])
        fun _ => id
  | @passes job v hj =>
    have hnews : l.news [.passed job v] = [.update v] := by
      simp [Leg.news, hes.serving job (hes.handler job hj), Act.given?]
    exact stays (hes.tells hj rfl (hnews ▸ hgrow) fun _ => id)
  | @ends job o hj =>
    have hnews : l.news [.ended job o] = [.finished o] := by
      simp [Leg.news, hes.serving job (hes.handler job hj), Act.given?]
    have hup : s.up = true := hopen.1
    have ended (i : JobId) (hi : (if i = job then some true else s.handlers i) = some false) :
        s.handlers i = some false := by
      split at hi
      · cases hi
      · exact hi
    have htold := hes.tells hj (m := .result context o) rfl (hnews ▸ hgrow) ended
    rw [if_pos hup]
    exact ⟨l.job, htold.works, .inl rfl⟩
  | @forgets m q hq hm =>
    have he : m.event? = none := by
      rcases hm with hm | ⟨hm, _⟩ | ⟨_, hv⟩
      · exact event?_eq_none_iff.2 (by simp [hm])
      · exact event?_eq_none_iff.2 (by simp [hm])
      · exact (reports_cons_eq_nil (hq ▸ hes.queue hv)).1
    have hr : reports q = reports s.queue := by simp [hq, reports_cons, he]
    exact shifts silent rfl rfl (by rw [hr]) (hr ▸ id) fun _ => id
  | asks hq | withdraws hq => exact writes silent hq rfl rfl rfl rfl rfl rfl
  | enrolls hq hm hm' =>
    exact writes silent hq (event?_eq_none_iff.2 (by simp [hm])) rfl
      (event?_eq_none_iff.2 (by simp [hm'])) rfl rfl rfl
  | @relays v q hq =>
    have hr : reports s.queue = .update v :: reports q := by simp [hq, reports_cons, event?]
    refine shifts silent rfl rfl ?_ (fun hn => ?_) fun _ => id
    · simp [hwritten, hr, reports_cons, event?]
    · cases hr.symm.trans hn
  | @answers o q hq hv =>
    rw [List.map_nil, List.append_nil, hwritten]
    exact ⟨l.job, (hes.answers hr' hq hv).works, .inl rfl⟩
  | @starts c d job hd _ _ hj =>
    obtain ⟨hh, hnone, hstarted⟩ := hes.starts hr' ht hd hj
    exact ⟨some job, hstarted.works, .inr ⟨hnone, job, rfl, hj, by rw [hh]⟩⟩
  | @declines c d hd =>
    rw [List.map_nil, List.append_nil, hwritten]
    exact ⟨l.job, (hes.declines ht hd).works, .inl rfl⟩
  | hearsUpdate hd | hearsResult hd =>
    exact shifts (silent_arrived ..) rfl rfl rfl id fun _ h => hd ▸ List.mem_cons_of_mem _ h
  | enrolled hd | ignores hd =>
    exact shifts silent rfl rfl rfl id fun _ h => hd ▸ List.mem_cons_of_mem _ h
  | stops hd hm =>
    simp [cancels, hd, hm] at hc
  | lost => exact Bool.noConfusion hopen'.1
  | closes => exact Bool.noConfusion hopen'.2

end Total

/-! ### What the exchange takes and sends -/

section Exchange

variable {ds : List Deed} {l : Leg} {ms us : List Message} {m : Message}

theorem Fresh.posted (h : Posted ms s s') (hs : s.Fresh) (hr : reports ms = [])
    (hc : count .call ms = 0) : s'.Fresh := by
  obtain ⟨kept, writes, rfl, hk, _⟩ := h
  refine ⟨hs.queue, hs.uplink, ?_, ?_, hs.serving, hs.handler⟩
  · have hn : reports kept = [] := List.prefix_nil.1 (hr ▸ reports_mono hk)
    simp [hs.downlink, hn]
  · have := count_mono .call hk
    have := hs.calls
    simp only [count_append]
    omega

theorem Clean.posted (h : Posted ms s s') (hs : s.Clean) : s'.Clean := by
  obtain ⟨kept, writes, rfl, _⟩ := h
  exact ⟨hs.uplink, hs.queue, hs.handler⟩

theorem Works.posted (h : Posted ms s s') (hs : s.Works ds l) (hc : count .call ms = 0) :
    s'.Works ds l := by
  obtain ⟨kept, writes, rfl, hk, _⟩ := h
  refine ⟨hs.given, hs.serving, hs.handler, hs.queue, fun ho c hm => ?_⟩
  rcases List.mem_append.1 hm with hm | hm
  · exact hs.call ho c hm
  · have : 0 < count .call kept := List.countP_pos_iff.2 ⟨_, hm, rfl⟩
    have := count_mono .call hk
    omega

theorem Clean.begins {c : Call} (h : Posted [.call c] s s') (hs : s.Clean) (ht : s.tokens = 0)
    (hl : l.job = none) (hgot : l.got = []) (hh : l.handler = c.handler) : s'.Works ds l := by
  have hgives : l.Gives ds [] := by
    unfold Leg.Gives
    rw [hl]
    exact ⟨hgot, .inl rfl⟩
  have hserving : s.serving = none := by
    cases hv : s.serving with
    | none => rfl
    | some job => simp [Strand.tokens, hv] at ht
  obtain ⟨kept, writes, rfl, hk, _⟩ := h
  refine ⟨⟨[], hgives, ?_, fun ho => ?_⟩, fun _ job hj => ?_, fun ho job hj => ?_,
    fun ho _ => hs.queue ho, fun ho c' hm => ?_⟩
  · simp [Leg.passed, hgot, hs.uplink]
  · have hq : reports s.queue = [] := hs.queue ho
    simp [Leg.passed, hgot, hs.uplink, hq]
  · cases hserving.symm.trans hj
  · exact (hs.handler ho job hj).elim
  · refine ⟨?_, hl, hs.uplink, hs.queue ho⟩
    rcases List.mem_append.1 hm with hm | hm
    · have : 0 < count .call s.downlink := List.countP_pos_iff.2 ⟨_, hm, rfl⟩
      unfold Strand.tokens at ht
      omega
    · obtain ⟨rfl⟩ := Message.call.inj (List.mem_singleton.1 (hk.subset hm))
      exact hh.symm

theorem Clean.pops (hs : s.Clean) (hu : s.uplink = m :: us) :
    m.event? = none ∧ Clean { s with uplink := us } := by
  obtain ⟨h1, h2⟩ := reports_cons_eq_nil (hu ▸ hs.uplink)
  exact ⟨h1, h2, hs.queue, hs.handler⟩

/-- What others tell does not matter for a leg. -/
theorem Works.of_given {ds' : List Deed} (hs : s.Works ds l)
    (h : ∀ job, Deeds.given l.client job ds' = Deeds.given l.client job ds) : s.Works ds' l := by
  obtain ⟨es, hes, hfirst, htotal⟩ := hs.given
  have hes' : l.Gives ds' es := by
    unfold Leg.Gives at hes ⊢
    split
    · next job hj =>
      rw [hj] at hes
      exact hes.trans (h job).symm
    · next hj =>
      rw [hj] at hes
      exact hes
  exact ⟨⟨es, hes', hfirst, htotal⟩, hs.serving, hs.handler, hs.queue, hs.call⟩

theorem Works.plain (hs : s.Works ds l) (hd : ∀ d ∈ ds, d.2.Plain) :
    ∀ e ∈ reports s.uplink, e.Plain := by
  obtain ⟨es, hes, hfirst, _⟩ := hs.given
  have hplain : ∀ e ∈ es, e.Plain := by
    unfold Leg.Gives at hes
    split at hes
    · rw [hes]
      exact Deeds.given_plain hd _ _
    · rcases hes.2 with rfl | rfl
      · nofun
      · intro e he
        rw [List.mem_singleton.1 he]
        trivial
  exact fun e he => hplain e (hfirst.subset (List.mem_append_right _ he))

theorem Works.event?_eq {m' : Message} (h : s.Works ds l) (hd : ∀ d ∈ ds, d.2.Plain)
    (hu : s.uplink = m :: us) (hm : m.transmitted = .ok m') : m.event? = m'.event? := by
  refine (event?_transmitted hm fun e he => h.plain hd e ?_).symm
  rw [hu, reports_cons, he]
  exact List.mem_append_left _ (List.mem_singleton_self e)

theorem Works.pops (hs : s.Works ds l) (hu : s.uplink = m :: us) (hm : m.event? = none) :
    Works ds { s with uplink := us } l := by
  have hr : reports us = reports s.uplink := by simp [hu, reports_cons, hm]
  obtain ⟨es, hes, hfirst, htotal⟩ := hs.given
  refine ⟨⟨es, hes, hr ▸ hfirst, fun ho => hr ▸ htotal ho⟩, hs.serving, hs.handler, hs.queue,
    fun ho c hc => ?_⟩
  obtain ⟨h1, h2, h3, h4⟩ := hs.call ho c hc
  exact ⟨h1, h2, hr.trans h3, h4⟩

theorem Works.passes (hs : s.Works ds l) (hu : s.uplink = m :: us) {v : Json}
    (hm : m.event? = some (.update v)) :
    Works ds { s with uplink := us } { l with got := l.got ++ [v] } ∧
      ∃ job, l.job = some job ∧ l.got ++ [v] <+: Deeds.passed l.client job ds := by
  have hr : reports s.uplink = .update v :: reports us := by simp [hu, reports_cons, hm]
  obtain ⟨es, hes, hfirst, htotal⟩ := hs.given
  have hpassed : ({ l with got := l.got ++ [v] } : Leg).passed = l.passed ++ [.update v] := by
    simp [Leg.passed]
  rw [hr, List.append_cons, ← hpassed] at hfirst
  have hjob : ∃ job, l.job = some job := by
    refine Option.ne_none_iff_exists'.1 fun hn => ?_
    unfold Leg.Gives at hes
    rw [hn] at hes
    rcases hes.2 with rfl | rfl
    · simp [Leg.passed, hes.1] at hfirst
    · simp [Leg.passed, hes.1, List.cons_prefix_cons] at hfirst
  obtain ⟨job, hjob⟩ := hjob
  unfold Leg.Gives at hes
  rw [hjob] at hes
  refine ⟨⟨⟨es, ?_, hfirst, fun ho => ?_⟩, hs.serving, hs.handler, hs.queue, fun ho c hc => ?_⟩,
    job, hjob, ?_⟩
  · unfold Leg.Gives
    rw [show ({ l with got := l.got ++ [v] } : Leg).job = some job from hjob]
    exact hes
  · rw [hpassed, ← htotal ho, hr]
    simp
  · cases hr.symm.trans (hs.call ho c hc).2.2.1
  · have := (List.prefix_append _ _).trans hfirst
    rw [hes] at this
    exact updates_first this

/-- The exchange takes a result, which is the end of the leg. -/
theorem Works.ends (hs : s.Works ds l) (hr : s.Recorded l.client ds) (ht : s.tokens ≤ 1)
    (hu : s.uplink = m :: us) {o : Outcome} (hm : m.event? = some (.finished o)) :
    Clean { s with uplink := us } ∧ (o ≠ .declined → ∃ job, l.job = some job ∧
      Deeds.ended l.client job ds = [o] ∧ l.got = Deeds.passed l.client job ds) := by
  have hreports : reports s.uplink = .finished o :: reports us := by simp [hu, reports_cons, hm]
  obtain ⟨es, hes, hfirst, htotal⟩ := hs.given
  have hend : (∀ rest, l.passed ++ .finished o :: rest <+: es → rest = []) ∧
      (o ≠ .declined → ∃ job, l.job = some job ∧
        Deeds.ended l.client job ds = [o] ∧ l.got = Deeds.passed l.client job ds) := by
    rw [hreports] at hfirst
    unfold Leg.Gives at hes
    split at hes
    · next job hjob =>
      rw [hes, Deeds.given] at hfirst ⊢
      obtain ⟨hgot, hended, _⟩ := finished_last hfirst (hr.once job)
      refine ⟨fun rest h => (finished_last h (hr.once job)).2.2, fun _ => ⟨job, hjob, hended, ?_⟩⟩
      exact List.map_inj_right (fun _ _ => CallEvent.update.inj) |>.1 hgot
    · obtain ⟨hgot, rfl | rfl⟩ := hes
      · simp [Leg.passed, hgot] at hfirst
      · simp only [Leg.passed, hgot, List.map_nil, List.nil_append, List.cons_prefix_cons,
          List.prefix_nil] at hfirst ⊢
        exact ⟨fun _ h => h.2, fun hne => (hne (CallEvent.finished.inj hfirst.1)).elim⟩
  refine ⟨⟨?_, fun ho => ?_, fun ho job hj => ?_⟩, hend.2⟩
  · exact hend.1 _ (hreports ▸ hfirst)
  · have h := htotal ho
    rw [hreports, List.cons_append] at h
    have hall : l.passed ++ .finished o :: (reports us ++ reports s.queue) <+: es :=
      h ▸ List.prefix_refl _
    exact (List.append_eq_nil_iff.1 (hend.1 _ hall)).2
  · -- the token is the result, so nothing is served any more
    have hv := hs.handler ho job hj
    have hkind : m.kind = .result := by
      cases m <;> first | rfl | cases hm
    simp only [Strand.tokens, hu, count_cons, if_pos hkind, hv] at ht
    simp at ht
    omega

end Exchange

end Strand
end Switchboard
