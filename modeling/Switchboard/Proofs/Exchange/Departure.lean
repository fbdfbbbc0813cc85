import Switchboard.Proofs.Exchange.Interference

/-! # What a client leaves behind

The departure of a client edits the lines, the directory and the running calls, and visits the calls
that the client made and those that it served, in an order that nobody promises.

* **Settling.** For one context a departure is a turn like any other (`StepsTo.turn`).  A call that
  the client made is withdrawn from its handler, one that it served for somebody else goes on
  (`GoesOn`), and every other call is left alone (`Turn.of_left`).
* **Absence.** After that the client has no line and no entry, and it is neither caller nor callee
  (`absent_of_left`).  Nothing that other clients do brings it back, and nothing that comes of it is
  addressed to the client (`Absent.step`, `Absent.runs`).
* **Main statement.** `departure_settles`. -/

namespace Switchboard

/-- The client to whose session an event belongs. -/
def ExchangeEvent.client : ExchangeEvent → ClientId
  | connected client | received client _ | muted client | left client => client

namespace Exchange

variable {x : Exchange} {context : String} {client : ClientId} {e : ExchangeEvent}
  {p : Exchange × List Sent}

/-- A client has no line and no handlers, and takes no part in any running call. -/
structure Absent (x : Exchange) (client : ClientId) : Prop where
  line : client ∉ x.lines.keys
  unlisted : ∀ name, ∀ f ∈ x.directory.entries name, f.value.client ≠ client
  uninvolved : ∀ context r, x.running.get? context = some r →
    r.caller ≠ client ∧ r.callee.value.client ≠ client

/-- A call goes on from its handler to the ones after it.  Those are offered the call in turn, and
the first of them that can be reached takes it; if there is none, the caller is told so. -/
inductive GoesOn (x : Exchange) (context : String) (r : Running) :
    Option Running → List Sent → Prop
  | taken (missed rest : List (Entry Route)) (f : Entry Route)
      (hd : x.directory.after r.call.function r.callee.rank = missed ++ f :: rest)
      (hm : x.Unreachable missed) (hf : x.Reachable f.value.client) :
    GoesOn x context r
      (some { r with callee := f, call := { r.call with handler := f.value.handler } })
      ((missed ++ [f]).map (x.offering r.call))
  | declined (missed : List (Entry Route))
      (hd : x.directory.after r.call.function r.callee.rank = missed)
      (hm : x.Unreachable missed) :
    GoesOn x context r none
      (missed.map (x.offering r.call) ++ [x.send r.caller (.answered context .declined)])

/-! ### Departures in any order of visits -/

/-- In whatever order the calls are visited, the outcome is the same for every context. -/
theorem StepsTo.like (hx : x.Coherent) (h : x.StepsTo e p) (context : String) :
    Like context p.1 (x.step e).1 ∧ about context p.2 = about context (x.step e).2 := by
  cases h with
  | left client made served hm hs =>
    have hlike : Like context x x := ⟨rfl, rfl, rfl⟩
    have hkeeps : ExchangeEvent.Keeps context (.left client) := trivial
    exact hlike.step hx hx hkeeps (.left client made served hm hs) (x.stepsTo_step _)
  | stays => exact ⟨⟨rfl, rfl, rfl⟩, rfl⟩

theorem StepsTo.turn (hx : x.Coherent) (h : x.StepsTo e p) (context : String) :
    x.TurnsInto context e p := by
  obtain ⟨hlike, ha⟩ := h.like hx context
  rw [TurnsInto, ha, hlike.running]
  exact (step_turn hx e context).congr hlike.lines.symm hlike.directory.symm

theorem StepsTo.lines (hx : x.Coherent) (h : x.StepsTo e p) : p.1.lines = (x.step e).1.lines :=
  (h.like hx "").1.lines

theorem StepsTo.directory (hx : x.Coherent) (h : x.StepsTo e p) :
    p.1.directory = (x.step e).1.directory :=
  (h.like hx "").1.directory

theorem Runs.coherent {es : List ExchangeEvent} (h : x.Runs es p) (hx : x.Coherent) :
    p.1.Coherent := by
  induction h with
  | nil => exact hx
  | cons hstep _ ih => exact ih (hstep.coherent hx)

theorem Runs.ordered {es : List ExchangeEvent} (h : x.Runs es p) (hx : x.Coherent)
    (hd : x.directory.Ordered) : p.1.directory.Ordered := by
  induction h with
  | nil => exact hd
  | cons hstep _ ih =>
    refine ih (hstep.coherent hx) ?_
    rw [hstep.directory hx]
    exact ordered_step hd _

/-! ### Settling -/

/-- What a departure does about a context depends on the part that the client had in its call. -/
theorem Turn.of_left {r r' : Option Running} {sents : List Sent}
    (h : Turn context x r (.left client) r' sents) :
    (∀ t, r = some t → t.caller = client →
      r' = none ∧ sents = [x.send t.callee.value.client (.withdrawn context)]) ∧
    (∀ t, r = some t → t.caller ≠ client → t.callee.value.client = client →
      x.GoesOn context t r' sents) ∧
    ((∀ t, r = some t → t.caller ≠ client ∧ t.callee.value.client ≠ client) →
      r' = r ∧ sents = []) := by
  have goesOn {s : Running} (hfrees : (ExchangeEvent.left client).Frees context s)
      (hg : x.GoesOn context s r' sents) :
      (∀ t, some s = some t → t.caller = client →
        r' = none ∧ sents = [x.send t.callee.value.client (.withdrawn context)]) ∧
      (∀ t, some s = some t → t.caller ≠ client → t.callee.value.client = client →
        x.GoesOn context t r' sents) ∧
      ((∀ t, some s = some t → t.caller ≠ client ∧ t.callee.value.client ≠ client) →
        r' = some s ∧ sents = []) := by
    obtain ⟨hclient, hne⟩ := hfrees.resolve_left nofun
    obtain rfl := ExchangeEvent.left.inj hclient
    refine ⟨?_, ?_, ?_⟩
    · rintro t ⟨⟩ hcaller
      exact absurd hcaller hne
    · rintro t ⟨⟩ _ _
      exact hg
    · intro hout
      exact absurd rfl (hout s rfl).2
  cases h with
  | elsewhere hc =>
    refine ⟨?_, ?_, fun _ => ⟨rfl, rfl⟩⟩
    · intro t ht hcaller
      exact absurd ⟨t, ht, .inl hcaller⟩ hc
    · intro t ht _ hcallee
      exact absurd ⟨t, ht, .inr hcallee⟩ hc
  | rerouted s _ hfrees missed rest f hd hm hf =>
    exact goesOn hfrees (.taken missed rest f hd hm hf)
  | exhausted s _ hfrees missed hd hm => exact goesOn hfrees (.declined missed hd hm)
  | withdrawn s _ habandons =>
    obtain rfl := ExchangeEvent.left.inj (habandons.resolve_left nofun)
    refine ⟨?_, ?_, ?_⟩
    · rintro t ⟨⟩ _
      exact ⟨rfl, rfl⟩
    · rintro t ⟨⟩ hcaller
      exact absurd rfl hcaller
    · intro hout
      exact absurd rfl (hout s rfl).1

/-! ### Absence -/

theorem not_reachable_of_not_mem (h : client ∉ x.lines.keys) : ¬ x.Reachable client := by
  rw [Reachable, Keyed.get?_eq_none_iff.2 h]
  nofun

theorem Turn.delivered_iff {r r' : Option Running} {sents : List Sent}
    (h : Turn context x r e r' sents) {s : Sent} (hs : s ∈ sents) :
    s.delivered = true ↔ x.Reachable s.client := by
  have one {b : ClientId} {n : Notice} (hs : s ∈ [x.send b n]) :
      s.delivered = true ↔ x.Reachable s.client := by
    rw [List.mem_singleton.1 hs]
    exact x.send_delivered b n
  have offered {c : Call} {fs : List (Entry Route)} (hs : s ∈ fs.map (x.offering c)) :
      s.delivered = true ↔ x.Reachable s.client := by
    obtain ⟨f, _, rfl⟩ := List.mem_map.1 hs
    exact x.send_delivered f.value.client _
  cases h with
  | elsewhere => cases hs
  | registered | refused | unknown | relayed | answered | withdrawn => exact one hs
  | accepted | rerouted => exact offered hs
  | untaken | exhausted => exact (List.mem_append.1 hs).elim offered one

theorem client_of_mem_offers {c : Call} {fs : List (Entry Route)} {s : Sent}
    (hs : s ∈ fs.map (x.offering c)) (h : ∀ f ∈ fs, f.value.client ≠ client) :
    s.client ≠ client := by
  obtain ⟨f, hf, rfl⟩ := List.mem_map.1 hs
  exact h f hf

/-- A call of somebody else never goes on to a client without entries. -/
theorem GoesOn.uninvolved {r : Running} {r' : Option Running} {sents : List Sent}
    (h : x.GoesOn context r r' sents) (hr : r.caller ≠ client)
    (hu : ∀ name, ∀ f ∈ x.directory.entries name, f.value.client ≠ client) :
    (∀ t, r' = some t → t.caller ≠ client ∧ t.callee.value.client ≠ client) ∧
      ∀ s ∈ sents, s.client ≠ client := by
  have listed : ∀ f ∈ x.directory.after r.call.function r.callee.rank, f.value.client ≠ client :=
    fun f hf => hu _ f (Directory.mem_after.1 hf).1
  cases h with
  | taken missed rest f hd _ _ =>
    have tried : ∀ g ∈ missed ++ [f], g.value.client ≠ client := by
      intro g hg
      apply listed
      rw [hd, List.append_cons]
      exact List.mem_append_left _ hg
    constructor
    · rintro t ⟨⟩
      exact ⟨hr, tried f (List.mem_append_right _ (List.mem_singleton.2 rfl))⟩
    · intro s hs
      exact client_of_mem_offers hs tried
  | declined missed hd _ =>
    subst hd
    refine ⟨nofun, ?_⟩
    intro s hs
    rcases List.mem_append.1 hs with hs | hs
    · exact client_of_mem_offers hs listed
    · rw [List.mem_singleton.1 hs]
      exact hr

/-- What another client does involves an absent client in nothing. -/
theorem Turn.uninvolved {r r' : Option Running} {sents : List Sent}
    (h : Turn context x r e r' sents) (he : e.client ≠ client)
    (hr : ∀ t, r = some t → t.caller ≠ client ∧ t.callee.value.client ≠ client)
    (hu : ∀ name, ∀ f ∈ x.directory.entries name, f.value.client ≠ client) :
    (∀ t, r' = some t → t.caller ≠ client ∧ t.callee.value.client ≠ client) ∧
      ∀ s ∈ sents, s.client ≠ client := by
  have one {b : ClientId} {n : Notice} (hb : b ≠ client) : ∀ s ∈ [x.send b n], s.client ≠ client := by
    intro s hs
    rw [List.mem_singleton.1 hs]
    exact hb
  cases h with
  | elsewhere => exact ⟨hr, nofun⟩
  | registered | refused => exact ⟨hr, one he⟩
  | unknown => exact ⟨nofun, one he⟩
  | accepted b c _ missed rest f hd _ _ =>
    have tried : ∀ g ∈ missed ++ [f], g.value.client ≠ client := by
      intro g hg
      apply hu c.function
      rw [hd, List.append_cons]
      exact List.mem_append_left _ hg
    constructor
    · rintro t ⟨⟩
      exact ⟨he, tried f (List.mem_append_right _ (List.mem_singleton.2 rfl))⟩
    · intro s hs
      exact client_of_mem_offers hs tried
  | untaken b c _ missed hd _ =>
    subst hd
    refine ⟨nofun, ?_⟩
    intro s hs
    rcases List.mem_append.1 hs with hs | hs
    · exact client_of_mem_offers hs (hu c.function)
    · exact one he s hs
  | relayed t => exact ⟨hr, one (hr t rfl).1⟩
  | answered t => exact ⟨nofun, one (hr t rfl).1⟩
  | rerouted t _ _ missed rest f hd hm hf =>
    exact (GoesOn.taken missed rest f hd hm hf : x.GoesOn context t _ _).uninvolved (hr t rfl).1 hu
  | exhausted t _ _ missed hd hm =>
    exact (GoesOn.declined missed hd hm : x.GoesOn context t _ _).uninvolved (hr t rfl).1 hu
  | withdrawn t => exact ⟨nofun, one (hr t rfl).2⟩

theorem Absent.registers_not (h : x.Absent client) (he : e.client ≠ client) :
    client ∉ (x.step e).1.lines.keys ∧
      ∀ name, ∀ f ∈ (x.step e).1.directory.entries name, f.value.client ≠ client := by
  have hline : x.lines.get? client = none := Keyed.get?_eq_none_iff.2 h.line
  constructor
  · rw [← Keyed.get?_eq_none_iff]
    cases e with
    | connected other =>
      have hne : client ≠ other := Ne.symm he
      simp [step, Keyed.get?_insert, hline, hne]
    | received other m => rw [step, receive_lines]; exact hline
    | muted other => simp [step, Keyed.get?_modify, hline]
    | left other => simp [step, leave_lines, Keyed.get?_erase, hline]
  · intro name f hf
    rw [step_directory] at hf
    split at hf
    · rcases Directory.mem_entries_insert.1 hf with ⟨_, rfl⟩ | hf
      · exact he
      · exact h.unlisted name f hf
    · exact h.unlisted name f (Directory.mem_entries_retain.1 hf).1
    · exact h.unlisted name f hf

/-- An absent client stays so whatever another client does, and nothing is addressed to it. -/
theorem Absent.step (h : x.Absent client) (hx : x.Coherent) (he : e.client ≠ client)
    (hp : x.StepsTo e p) : p.1.Absent client ∧ ∀ s ∈ p.2, s.client ≠ client := by
  obtain ⟨hline, hlisted⟩ := h.registers_not he
  rw [← hp.lines hx] at hline
  rw [← hp.directory hx] at hlisted
  have settled (context : String) :=
    Turn.uninvolved (hp.turn hx context) he (h.uninvolved context) hlisted
  refine ⟨⟨hline, hlisted, fun context => (settled context).1⟩, ?_⟩
  intro s hs
  exact (settled s.notice.context).2 s (List.mem_filter.2 ⟨hs, decide_eq_true rfl⟩)

theorem Absent.runs (h : x.Absent client) (hx : x.Coherent) {es : List ExchangeEvent}
    (hes : ∀ e ∈ es, e.client ≠ client) (hp : x.Runs es p) :
    p.1.Absent client ∧ ∀ s ∈ p.2, s.client ≠ client := by
  induction hp with
  | nil => exact ⟨h, nofun⟩
  | cons hstep _ ih =>
    obtain ⟨he, hes⟩ := List.forall_mem_cons.1 hes
    obtain ⟨habsent, hsent⟩ := h.step hx he hstep
    obtain ⟨habsent', hsent'⟩ := ih habsent (hstep.coherent hx) hes
    refine ⟨habsent', ?_⟩
    intro s hs
    exact (List.mem_append.1 hs).elim (hsent s) (hsent' s)

theorem absent_of_left (hx : x.Coherent) (hp : x.StepsTo (.left client) p) :
    p.1.Absent client := by
  have hlisted : ∀ name, ∀ f ∈ p.1.directory.entries name, f.value.client ≠ client := by
    intro name f hf
    rw [hp.directory hx, step_directory] at hf
    simpa using (Directory.mem_entries_retain.1 hf).2
  refine ⟨?_, hlisted, ?_⟩
  · rw [← Keyed.get?_eq_none_iff, hp.lines hx]
    simp [Exchange.step, leave_lines]
  · intro context t ht
    obtain ⟨hmade, hserved, hother⟩ := (hp.turn hx context).of_left
    by_cases hout : ∀ s, x.running.get? context = some s →
        s.caller ≠ client ∧ s.callee.value.client ≠ client
    · exact hout t ((hother hout).1 ▸ ht)
    · push Not at hout
      obtain ⟨s, hs, hcallee⟩ := hout
      by_cases hcaller : s.caller = client
      · rw [(hmade s hs hcaller).1] at ht
        cases ht
      · exact ((hserved s hs hcaller (hcallee hcaller)).uninvolved hcaller hlisted).1 t ht

/-! ### Main statement -/

/-- **A client that leaves is forgotten, and its calls are settled.**  Take any run from the
beginning, and then the departure of a client, with the calls visited in any order.

* For each running call that the client made, its callee is sent one withdrawal and nothing else,
  which is lost if the callee is the client itself, and the call is over.
* Each running call that the client served for somebody else goes on.
* What runs under every other context stays, and nothing is sent about it.
* The lines and the entries of the other clients stay, and the entries after any rank are in order.

Afterwards the client is absent, nothing of all that has reached it, and as long as only other
clients do anything, it stays absent and nothing is addressed to it. -/
theorem departure_settles {es : List ExchangeEvent} {client : ClientId}
    {p q : Exchange × List Sent} (hp : Runs {} es p) (hq : p.1.StepsTo (.left client) q) :
    (∀ context r, p.1.running.get? context = some r → r.caller = client →
      q.1.running.get? context = none ∧
        about context q.2 = [⟨r.callee.value.client, .withdrawn context,
          r.callee.value.client ≠ client ∧ p.1.Reachable r.callee.value.client⟩]) ∧
    (∀ context r, p.1.running.get? context = some r → r.caller ≠ client →
      r.callee.value.client = client →
        q.1.GoesOn context r (q.1.running.get? context) (about context q.2)) ∧
    (∀ context, (∀ r, p.1.running.get? context = some r →
        r.caller ≠ client ∧ r.callee.value.client ≠ client) →
      q.1.running.get? context = p.1.running.get? context ∧ about context q.2 = []) ∧
    (∀ other, other ≠ client → q.1.lines.get? other = p.1.lines.get? other) ∧
    (∀ name, q.1.directory.entries name =
      (p.1.directory.entries name).filter (·.value.client ≠ client)) ∧
    (∀ name rank, InOrder (q.1.directory.after name rank)) ∧
    q.1.Absent client ∧ (∀ s ∈ q.2, s.client = client → s.delivered = false) ∧
    ∀ later z, (∀ e ∈ later, e.client ≠ client) → q.1.Runs later z →
      z.1.Absent client ∧ ∀ s ∈ z.2, s.client ≠ client := by
  have hx : p.1.Coherent := hp.coherent coherent_empty
  have hlines : q.1.lines = p.1.lines.erase client := by
    rw [hq.lines hx]
    exact p.1.leave_lines client
  have hdirectory : q.1.directory = p.1.directory.retain fun _ r => r.client ≠ client := by
    rw [hq.directory hx]
    exact p.1.leave_directory client
  have habsent : q.1.Absent client := absent_of_left hx hq
  have hleft (context : String) := Turn.of_left (hq.turn hx context)
  refine ⟨?_, ?_, ?_, ?_, ?_, ?_, habsent, ?_, ?_⟩
  · intro context r hr hcaller
    obtain ⟨hover, hsent⟩ := (hleft context).1 r hr hcaller
    refine ⟨hover, ?_⟩
    rw [hsent]
    simp only [send, Reachable, hlines, Keyed.get?_erase]
    by_cases hself : r.callee.value.client = client <;> simp [hself]
  · intro context r hr hcaller hcallee
    exact (hleft context).2.1 r hr hcaller hcallee
  · intro context hout
    exact (hleft context).2.2 hout
  · intro other hne
    rw [hlines, Keyed.get?_erase_of_ne _ hne]
  · intro name
    rw [hdirectory, Directory.entries_retain]
  · intro name rank
    have hordered : q.1.directory.Ordered := by
      rw [hdirectory]
      exact (hp.ordered coherent_empty Directory.ordered_empty).retain _
    exact hordered.after name rank
  · intro s hs hclient
    have hmem : s ∈ about s.notice.context q.2 := List.mem_filter.2 ⟨hs, decide_eq_true rfl⟩
    have hiff := Turn.delivered_iff (hq.turn hx s.notice.context) hmem
    rw [hclient] at hiff
    exact Bool.eq_false_iff.2 fun h => not_reachable_of_not_mem habsent.line (hiff.1 h)
  · intro later z hlater hz
    exact habsent.runs (hq.coherent hx) hlater hz

/-- Client 2 serves a call of client 1 with the first of two handlers that it has under one name,
and has called itself.  The handler after it is that of client 3, whose line is dead. -/
def serving : List ExchangeEvent :=
  [.connected 1, .connected 2, .connected 3, .connected 4,
    .received 2 (.register "r" "f" 9 1), .received 3 (.register "r" "f" 7 1),
    .received 2 (.register "r" "f" 6 2), .received 4 (.register "r" "f" 5 1),
    .received 1 (.call { context := "c", function := "f" }),
    .received 2 (.call { context := "d", function := "f" }), .muted 3]

/-- When client 2 leaves, its call to itself is withdrawn in vain, and the call of client 1 goes on
past client 3 to client 4.  A new call finds client 4 as well. -/
theorem departure_settles_serving :
    let p := run {} serving
    let q := p.1.step (.left 2)
    let z := q.1.run [.received 1 (.call { context := "e", function := "f" })]
    about "d" q.2 = [⟨2, .withdrawn "d", false⟩] ∧
      q.1.GoesOn "c" ⟨1, ⟨⟨9, 0⟩, ⟨2, 1⟩⟩, { context := "c", function := "f", handler := some 1 }⟩
        (some ⟨1, ⟨⟨5, 3⟩, ⟨4, 1⟩⟩, { context := "c", function := "f", handler := some 1 }⟩)
        (about "c" q.2) ∧
      (about "c" q.2).map (fun s => (s.client, s.delivered)) = [(3, false), (4, true)] ∧
      z.1.Absent 2 ∧ ∀ s ∈ z.2, s.client ≠ 2 := by
  intro p q z
  obtain ⟨hmade, hserved, _, _, _, _, _, _, hlater⟩ :=
    departure_settles (runs_run {} serving) (p.1.stepsTo_step (.left 2))
  have hc : q.1.running.get? "c" =
      some ⟨1, ⟨⟨5, 3⟩, ⟨4, 1⟩⟩, { context := "c", function := "f", handler := some 1 }⟩ := by
    decide
  obtain ⟨_, hd⟩ := hmade "d"
    ⟨2, ⟨⟨9, 0⟩, ⟨2, 1⟩⟩, { context := "d", function := "f", handler := some 1 }⟩ (by decide) rfl
  have hgoes := hserved "c"
    ⟨1, ⟨⟨9, 0⟩, ⟨2, 1⟩⟩, { context := "c", function := "f", handler := some 1 }⟩ (by decide)
    (by decide) rfl
  rw [hc] at hgoes
  exact ⟨hd, hgoes, by decide, hlater _ z (by decide) (runs_run q.1 _)⟩

end Exchange
end Switchboard
