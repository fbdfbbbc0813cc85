import Switchboard.Proofs.Exchange.Visit

/-! # What an event means for one context

`Turn` lists all that an event can do about one context: how the entry of the context among the
running calls changes, and what is sent about it.  What is said of calls one at a time follows from
the turns, and needs neither the other calls nor the order in which a departure visits them.

* **Main statement.** `step_turn`: what an event does about a context is a turn. -/

namespace Switchboard

/-! ### Turns -/

/-- An event concerns a context, given what is running under it. -/
def ExchangeEvent.Concerns (context : String) (running : Option Running) : ExchangeEvent → Prop
  | connected _ | muted _ => False
  | received client m =>
    m.context = context ∧
      match m with
      | .update .. | .result .. => ∃ r, running = some r ∧ r.callee.value.client = client
      | .cancel _ => ∃ r, running = some r ∧ r.caller = client
      | .call _ | .register .. => True
  | left client => ∃ r, running = some r ∧ (r.caller = client ∨ r.callee.value.client = client)

/-- An event after which a call goes on to other handlers: its callee declines it or leaves. -/
def ExchangeEvent.Frees (context : String) (r : Running) (e : ExchangeEvent) : Prop :=
  e = .received r.callee.value.client (.result context .declined) ∨
    e = .left r.callee.value.client ∧ r.caller ≠ r.callee.value.client

/-- An event that ends a call without an answer: its caller withdraws it or leaves. -/
def ExchangeEvent.Abandons (context : String) (r : Running) (e : ExchangeEvent) : Prop :=
  e = .received r.caller (.cancel context) ∨ e = .left r.caller

namespace Exchange

/-- What an event does about a context: what runs under it before and after, and what is sent about
it.  The lines and the directory are those at the time of sending. -/
inductive Turn (context : String) (x : Exchange) :
    Option Running → ExchangeEvent → Option Running → List Sent → Prop
  | elsewhere {r : Option Running} {e : ExchangeEvent} (h : ¬ e.Concerns context r) :
    Turn context x r e r []
  | registered {r : Option Running} (client : ClientId) (f : String) (p : UInt16) (h : HandlerId) :
    Turn context x r (.received client (.register context f p h)) r
      [x.send client (.registered context)]
  | refused (r : Running) (client : ClientId) (c : Call) (h : c.context = context) :
    Turn context x (some r) (.received client (.call c)) (some r)
      [x.send client (.answered context (.fault ⟨.invalidArgs, .obj [("context", .str context)]⟩))]
  | unknown (client : ClientId) (c : Call) (h : c.context = context)
      (hd : x.directory.entries c.function = []) :
    Turn context x none (.received client (.call c)) none
      [x.send client
        (.answered context (.fault ⟨.unknownRpc, .obj [("function", .str c.function)]⟩))]
  | accepted (client : ClientId) (c : Call) (h : c.context = context) (missed rest)
      (e : Entry Route) (hd : x.directory.entries c.function = missed ++ e :: rest)
      (hm : x.Unreachable missed) (he : x.Reachable e.value.client) :
    Turn context x none (.received client (.call c))
      (some ⟨client, e, { c with handler := e.value.handler }⟩)
      ((missed ++ [e]).map (x.offering c))
  | untaken (client : ClientId) (c : Call) (h : c.context = context) (missed)
      (hd : x.directory.entries c.function = missed) (hm : x.Unreachable missed) :
    Turn context x none (.received client (.call c)) none
      (missed.map (x.offering c) ++ [x.send client (.answered context .declined)])
  | relayed (r : Running) (v : Json) :
    Turn context x (some r) (.received r.callee.value.client (.update context v)) (some r)
      [x.send r.caller (.updated context v)]
  | answered (r : Running) (o : Outcome) (h : o ≠ .declined) :
    Turn context x (some r) (.received r.callee.value.client (.result context o)) none
      [x.send r.caller (.answered context o)]
  | rerouted (r : Running) (cause : ExchangeEvent) (h : cause.Frees context r) (missed rest)
      (e : Entry Route)
      (hd : x.directory.after r.call.function r.callee.rank = missed ++ e :: rest)
      (hm : x.Unreachable missed) (he : x.Reachable e.value.client) :
    Turn context x (some r) cause
      (some { r with callee := e, call := { r.call with handler := e.value.handler } })
      ((missed ++ [e]).map (x.offering r.call))
  | exhausted (r : Running) (cause : ExchangeEvent) (h : cause.Frees context r) (missed)
      (hd : x.directory.after r.call.function r.callee.rank = missed) (hm : x.Unreachable missed) :
    Turn context x (some r) cause none
      (missed.map (x.offering r.call) ++ [x.send r.caller (.answered context .declined)])
  | withdrawn (r : Running) (cause : ExchangeEvent) (h : cause.Abandons context r) :
    Turn context x (some r) cause none [x.send r.callee.value.client (.withdrawn context)]

/-! ### Events -/

/-- What comes of an event is a turn for a context. -/
def TurnsInto (x : Exchange) (context : String) (e : ExchangeEvent) (p : Exchange × List Sent) :
    Prop :=
  Turn context p.1 (x.running.get? context) e (p.1.running.get? context) (about context p.2)

theorem turnsInto_elsewhere {x : Exchange} {context : String} {e : ExchangeEvent}
    {p : Exchange × List Sent} (h : ¬ e.Concerns context (x.running.get? context))
    (hr : p.1.running.get? context = x.running.get? context) (ha : about context p.2 = []) :
    x.TurnsInto context e p := by
  rw [TurnsInto, hr, ha]
  exact .elsewhere h

theorem about_send (x : Exchange) (client : ClientId) (n : Notice) :
    about n.context [x.send client n] = [x.send client n] :=
  about_eq_self (by simp)

/-- A message changes nothing that runs under another context. -/
theorem receive_get? (x : Exchange) (client : ClientId) (m : Message) {context : String}
    (h : context ≠ m.context) :
    (x.receive client m).1.running.get? context = x.running.get? context := by
  cases m with
  | register => rfl
  | call c =>
    simp only [receive, call]
    repeat' split
    all_goals simp [Keyed.get?_insert, show context ≠ c.context from h]
  | update =>
    simp only [receive, update]
    repeat' split
    all_goals rfl
  | result d o =>
    simp only [receive, result]
    repeat' split
    · exact local_reroute.elsewhere x d context h
    · simp [Keyed.get?_erase, show context ≠ d from h]
    all_goals rfl
  | cancel d =>
    simp only [receive, cancel]
    repeat' split
    · exact local_withdraw.elsewhere x d context h
    all_goals rfl

/-- All that is sent on a message is about the message's context. -/
theorem receive_context {x : Exchange} (hx : x.Coherent) (client : ClientId) (m : Message) :
    ∀ s ∈ (x.receive client m).2, s.notice.context = m.context := by
  intro s hs
  cases m with
  | register => rw [List.mem_singleton.1 hs]; rfl
  | call c =>
    simp only [receive, call] at hs
    split at hs
    · rw [List.mem_singleton.1 hs]; rfl
    · split at hs
      · rw [List.mem_singleton.1 hs]; rfl
      · rcases x.offer_cases c (x.directory.entries c.function) with
          ⟨ho, _⟩ | ⟨_, _, _, _, _, _, ho⟩
        · simp only [ho] at hs
          rcases List.mem_append.1 hs with hs | hs
          · exact context_of_mem_offers hs
          · rw [List.mem_singleton.1 hs]; rfl
        · simp only [ho] at hs
          exact context_of_mem_offers hs
  | update =>
    simp only [receive, update] at hs
    repeat' split at hs
    · rw [List.mem_singleton.1 hs]; rfl
    all_goals cases hs
  | result d o =>
    simp only [receive, result] at hs
    repeat' split at hs
    · exact local_reroute.context x d hx s hs
    · rw [List.mem_singleton.1 hs]; rfl
    all_goals cases hs
  | cancel d =>
    simp only [receive, cancel] at hs
    repeat' split at hs
    · exact local_withdraw.context x d hx s hs
    all_goals cases hs

theorem register_turn (x : Exchange) (client : ClientId) (d f : String) (p : UInt16)
    (h : HandlerId) :
    x.TurnsInto d (.received client (.register d f p h)) (x.register client d f p h) := by
  rw [TurnsInto, register, show about d _ = _ from x.about_send client (.registered d)]
  exact .registered client f p h

theorem call_turn (x : Exchange) (client : ClientId) (c : Call) :
    x.TurnsInto c.context (.received client (.call c)) (x.call client c) := by
  have one : ∀ o, about c.context [x.send client (.answered c.context o)] =
      [x.send client (.answered c.context o)] := fun o => x.about_send client (.answered c.context o)
  cases hr : x.running.get? c.context with
  | some r =>
    have hc : x.call client c = (x, [x.send client (.answered c.context
        (.fault ⟨.invalidArgs, .obj [("context", .str c.context)]⟩))]) := by
      rw [call, if_pos (by rw [Keyed.contains, hr]; rfl)]
    rw [TurnsInto, hc, one, hr]
    exact .refused r client c rfl
  | none =>
    rw [TurnsInto, call, if_neg (by rw [Keyed.contains, hr]; simp), hr]
    split
    · next he =>
      rw [one]
      dsimp only
      rw [hr]
      exact .unknown client c rfl he
    · rcases x.offer_cases c (x.directory.entries c.function) with
        ⟨ho, hu⟩ | ⟨missed, e, rest, he, hm, hl, ho⟩
      · simp only [ho]
        rw [about_append, one, about_eq_self fun s hs => context_of_mem_offers hs, hr]
        exact .untaken client c rfl _ rfl hu
      · simp only [ho]
        rw [about_eq_self fun s hs => context_of_mem_offers hs, Keyed.get?_insert_self]
        exact .accepted client c rfl missed rest e he hm hl

theorem update_turn (x : Exchange) (client : ClientId) (d : String) (v : Json) :
    x.TurnsInto d (.received client (.update d v)) (x.update client d v) := by
  have stays (h : ∀ r, x.running.get? d = some r → r.callee.value.client ≠ client) :
      x.TurnsInto d (.received client (.update d v)) (x, []) :=
    turnsInto_elsewhere (fun ⟨_, r, hr, hc⟩ => h r hr hc) rfl rfl
  cases hr : x.running.get? d with
  | none =>
    rw [update, hr]
    exact stays (by simp [hr])
  | some r =>
    rw [update, hr]
    by_cases hc : r.callee.value.client = client
    · subst hc
      simp only [if_true]
      rw [TurnsInto, show about d _ = _ from x.about_send r.caller (.updated d v), hr]
      exact .relayed r v
    · simp only [if_neg hc]
      exact stays (by simpa [hr] using hc)

theorem reroute_turn {x : Exchange} {context : String} {r : Running}
    (hr : x.running.get? context = some r) {cause : ExchangeEvent} (hc : cause.Frees context r) :
    Turn context (x.reroute context).1 (some r) cause
      ((x.reroute context).1.running.get? context) (x.reroute context).2 := by
  rcases reroute_cases hr with ⟨hu, e⟩ | ⟨missed, e, rest, hd, hm, he, h⟩
  · rw [e]
    dsimp only
    rw [Keyed.get?_erase_self]
    exact .exhausted r cause hc _ rfl hu
  · rw [h]
    dsimp only
    rw [Keyed.get?_modify, if_pos rfl, hr]
    exact .rerouted r cause hc missed rest e hd hm he

theorem withdraw_turn {x : Exchange} {context : String} {r : Running}
    (hr : x.running.get? context = some r) {cause : ExchangeEvent}
    (hc : cause.Abandons context r) :
    Turn context (x.withdraw context).1 (some r) cause
      ((x.withdraw context).1.running.get? context) (x.withdraw context).2 := by
  rw [withdraw_some hr]
  dsimp only
  rw [Keyed.get?_erase_self]
  exact .withdrawn r cause hc

theorem result_turn {x : Exchange} (hx : x.Coherent) (client : ClientId) (d : String)
    (o : Outcome) : x.TurnsInto d (.received client (.result d o)) (x.result client d o) := by
  have stays (h : ∀ r, x.running.get? d = some r → r.callee.value.client ≠ client) :
      x.TurnsInto d (.received client (.result d o)) (x, []) :=
    turnsInto_elsewhere (fun ⟨_, r, hr, hc⟩ => h r hr hc) rfl rfl
  cases hr : x.running.get? d with
  | none =>
    rw [result, hr]
    exact stays (by simp [hr])
  | some r =>
    rw [result, hr]
    by_cases hc : r.callee.value.client = client
    · subst hc
      simp only [if_true]
      by_cases ho : o = .declined
      · subst ho
        rw [if_pos (show Outcome.declined.isDeclined = true from rfl), TurnsInto,
          about_eq_self (local_reroute.context x d hx), hr]
        exact reroute_turn hr (.inl rfl)
      · rw [if_neg (by cases o <;> simp_all [Outcome.isDeclined]), TurnsInto,
          show about d _ = _ from x.about_send r.caller (.answered d o), hr]
        dsimp only
        rw [Keyed.get?_erase_self]
        exact .answered r o ho
    · simp only [if_neg hc]
      exact stays (by simpa [hr] using hc)

theorem cancel_turn {x : Exchange} (hx : x.Coherent) (client : ClientId) (d : String) :
    x.TurnsInto d (.received client (.cancel d)) (x.cancel client d) := by
  have stays (h : ∀ r, x.running.get? d = some r → r.caller ≠ client) :
      x.TurnsInto d (.received client (.cancel d)) (x, []) :=
    turnsInto_elsewhere (fun ⟨_, r, hr, hc⟩ => h r hr hc) rfl rfl
  cases hr : x.running.get? d with
  | none =>
    rw [cancel, hr]
    exact stays (by simp [hr])
  | some r =>
    rw [cancel, hr]
    by_cases hc : r.caller = client
    · subst hc
      simp only [if_true]
      rw [TurnsInto, about_eq_self (local_withdraw.context x d hx), hr]
      exact withdraw_turn hr (.inl rfl)
    · simp only [if_neg hc]
      exact stays (by simpa [hr] using hc)

theorem receive_turn {x : Exchange} (hx : x.Coherent) (client : ClientId) (m : Message)
    (context : String) : x.TurnsInto context (.received client m) (x.receive client m) := by
  by_cases hm : m.context = context
  · subst hm
    cases m with
    | register d f p h => exact x.register_turn client d f p h
    | call c => exact x.call_turn client c
    | update d v => exact x.update_turn client d v
    | result d o => exact result_turn hx client d o
    | cancel d => exact cancel_turn hx client d
  · exact turnsInto_elsewhere (fun hc => hm hc.1) (x.receive_get? client m (Ne.symm hm))
      (about_eq_nil (receive_context hx client m) hm)

/-! ### Departures -/

/-- Turns look at the lines and the directory only. -/
theorem Turn.congr {context : String} {x y : Exchange} {r r' : Option Running} {e : ExchangeEvent}
    {s : List Sent} (hl : x.lines = y.lines) (hd : x.directory = y.directory)
    (h : Turn context x r e r' s) : Turn context y r e r' s := by
  obtain ⟨lines, directory, _⟩ := x
  obtain ⟨lines', directory', _⟩ := y
  obtain rfl : lines = lines' := hl
  obtain rfl : directory = directory' := hd
  cases h with
  | elsewhere h => exact .elsewhere h
  | registered client f p h => exact .registered client f p h
  | refused r client c h => exact .refused r client c h
  | unknown client c h hd => exact .unknown client c h hd
  | accepted client c h missed rest e hd hm he => exact .accepted client c h missed rest e hd hm he
  | untaken client c h missed hd hm => exact .untaken client c h missed hd hm
  | relayed r v => exact .relayed r v
  | answered r o h => exact .answered r o h
  | rerouted r _ h missed rest f hd hm hf => exact .rerouted r e h missed rest f hd hm hf
  | exhausted r _ h missed hd hm => exact .exhausted r e h missed hd hm
  | withdrawn r _ h => exact .withdrawn r e h

theorem mem_contexts {x : Exchange} {p : Running → Bool} {context : String} :
    context ∈ x.contexts p ↔ ∃ r, x.running.get? context = some r ∧ p r = true := by
  rw [contexts, ← Keyed.contains_iff, Keyed.contains, Keyed.get?_filter]
  cases x.running.get? context with
  | none => simp
  | some r => by_cases h : p r <;> simp [h, Option.filter]

theorem contexts_nodup (x : Exchange) (p : Running → Bool) : (x.contexts p).Nodup :=
  (x.running.filter fun _ r => p r).nodup

/-- What the departure of a client means for one call: it is withdrawn if the client made it, and
goes on if the client served it for another one. -/
def depart (client : ClientId) (x : Exchange) (context : String) : Exchange × List Sent :=
  match x.running.get? context with
  | none => (x, [])
  | some r =>
    if r.caller = client then x.withdraw context
    else if r.callee.value.client = client then x.reroute context
    else (x, [])

/-- For one context a departure is one visit or none, in whatever order the calls are visited. -/
theorem leaveInOrder_depart {x : Exchange} (hx : x.Coherent) (client : ClientId)
    {made served : List String} (hm : made.Perm (x.contexts (·.caller = client)))
    (hs : served.Perm
      (x.contexts fun r => r.caller ≠ client && r.callee.value.client = client))
    (context : String) :
    (x.leaveInOrder client made served).1.running.get? context =
        (depart client (x.forget client) context).1.running.get? context ∧
      about context (x.leaveInOrder client made served).2 =
        (depart client (x.forget client) context).2 := by
  have hf : (x.forget client).Coherent := hx
  have hy := local_withdraw.forEach_coherent hf made
  have hmade : context ∈ made ↔ ∃ r, x.running.get? context = some r ∧ r.caller = client := by
    rw [hm.mem_iff, mem_contexts]
    simp
  have hserved : context ∈ served ↔
      ∃ r, x.running.get? context = some r ∧ r.caller ≠ client ∧ r.callee.value.client = client := by
    rw [hs.mem_iff, mem_contexts]
    simp
  -- The running calls are the same before and after the client is forgotten.
  have hsame : (x.forget client).running.get? context = x.running.get? context := rfl
  rw [leaveInOrder, about_append]
  by_cases hin : context ∈ made
  · obtain ⟨r, hr, hc⟩ := hmade.1 hin
    have hout : context ∉ served := by
      intro h
      obtain ⟨t, ht, hne, _⟩ := hserved.1 h
      obtain rfl := Option.some.inj (hr.symm.trans ht)
      exact hne hc
    obtain ⟨yr, ya⟩ := local_withdraw.forEach_of_mem hf
      (hm.nodup_iff.2 (x.contexts_nodup _)) hin
    obtain ⟨zr, za⟩ := local_reroute.forEach_of_not_mem hy hout
    rw [depart, hsame, hr]
    simp only [if_pos hc]
    exact ⟨zr.trans yr, by rw [ya, za, List.append_nil]⟩
  · obtain ⟨yr, ya⟩ := local_withdraw.forEach_of_not_mem hf hin
    by_cases hout : context ∈ served
    · obtain ⟨r, hr, hne, hc⟩ := hserved.1 hout
      obtain ⟨zr, za⟩ := local_reroute.forEach_of_mem hy
        (hs.nodup_iff.2 (x.contexts_nodup _)) hout
      obtain ⟨cr, ca⟩ := local_reroute.congr _ (x.forget client) context
        (local_withdraw.forEach_lines _ made) (local_withdraw.forEach_directory _ made) yr
      rw [depart, hsame, hr]
      simp only [if_neg hne, if_pos hc]
      exact ⟨zr.trans cr, by rw [ya, za, ca, List.nil_append]⟩
    · obtain ⟨zr, za⟩ := local_reroute.forEach_of_not_mem hy hout
      have hstay : depart client (x.forget client) context = (x.forget client, []) := by
        rw [depart, hsame]
        split
        · rfl
        · next r hr =>
          have hne : r.caller ≠ client := fun h => hin (hmade.2 ⟨r, hr, h⟩)
          rw [if_neg hne, if_neg fun h => hout (hserved.2 ⟨r, hr, hne, h⟩)]
      rw [hstay]
      exact ⟨zr.trans yr, by rw [ya, za, List.append_nil]⟩

theorem leave_turn {x : Exchange} (hx : x.Coherent) (client : ClientId) (context : String) :
    x.TurnsInto context (.left client) (x.leave client) := by
  obtain ⟨hr', ha⟩ := leaveInOrder_depart hx client (.refl _) (.refl _) context
  have hl := x.leave_lines client
  have hd := x.leave_directory client
  rw [TurnsInto, show about context (x.leave client).2 = _ from ha,
    show (x.leave client).1.running.get? context = _ from hr', depart]
  cases hr : x.running.get? context with
  | none =>
    rw [show (x.forget client).running.get? context = none from hr]
    dsimp only
    rw [show (x.forget client).running.get? context = none from hr]
    exact .elsewhere fun ⟨_, h, _⟩ => nomatch h
  | some r =>
    have hfr : (x.forget client).running.get? context = some r := hr
    rw [hfr]
    dsimp only
    split
    · next hc =>
      refine (withdraw_turn hfr (.inr (congrArg _ hc.symm))).congr ?_ ?_
      · rw [local_withdraw.lines, hl]
        rfl
      · rw [local_withdraw.directory, hd]
        rfl
    · next hne =>
      split
      · next hc =>
        refine (reroute_turn hfr (.inr ⟨congrArg _ hc.symm, hc ▸ hne⟩)).congr ?_ ?_
        · rw [local_reroute.lines, hl]
          rfl
        · rw [local_reroute.directory, hd]
          rfl
      · next hc =>
        rw [hfr]
        refine .elsewhere ?_
        rintro ⟨t, ht, h⟩
        obtain rfl := Option.some.inj ht
        exact h.elim hne hc

/-- What an event does about a context is a turn. -/
theorem step_turn {x : Exchange} (hx : x.Coherent) (e : ExchangeEvent) (context : String) :
    x.TurnsInto context e (x.step e) := by
  cases e with
  | connected client => exact turnsInto_elsewhere id rfl rfl
  | received client m => exact receive_turn hx client m context
  | muted client => exact turnsInto_elsewhere id rfl rfl
  | left client => exact leave_turn hx client context

theorem Turn.context_eq {context : String} {x : Exchange} {r r' : Option Running}
    {e : ExchangeEvent} {s : List Sent} (h : Turn context x r e r' s)
    (hr : ∀ t, r = some t → t.call.context = context) :
    ∀ t, r' = some t → t.call.context = context := by
  cases h with
  | elsewhere | registered | refused | relayed => exact hr
  | accepted client c h => rintro t ⟨⟩; exact h
  | rerouted r => rintro t ⟨⟩; exact hr r rfl
  | unknown | untaken | answered | exhausted | withdrawn => simp

theorem coherent_step {x : Exchange} (hx : x.Coherent) (e : ExchangeEvent) :
    (x.step e).1.Coherent := fun context =>
  (step_turn hx e context).context_eq (hx context)

theorem coherent_empty : Coherent {} := by
  intro context r h
  cases h

end Exchange
end Switchboard
