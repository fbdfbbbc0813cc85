import Switchboard.Proofs.Exchange.Consistency

/-! # Who may touch a running call

A message of any kind and content may name the context of a call that somebody else has made or is
serving.  What comes of it depends on the client that it comes from.

* **Strangers.** A message that does not concern a call leaves it as it is, and nothing is sent
  about it (`Ignored`).  Updates and results concern a call only if they come from its callee, and
  a withdrawal only if it comes from its caller.
* **Calls and registrations** never change what is running, whoever sends them.  Their sender is
  told that the context is taken or that the handler is registered, and nobody else is told
  anything (`Receipt`).
* **Former callees.** A client that is not the callee of a call does not become it before a handler
  of it is handed the call (`HandedTo`, `apart_run`); then it is the callee, also if it was once
  before (`former_callee_serves_again`).
* **Main statement.** `touched_by_parties_only`. -/

namespace Switchboard

/-- What the sender of a call or of a registration is told under the context of a running call. -/
inductive Notice.Receipt (context : String) : Notice → Prop
  | registered : Receipt context (.registered context)
  | refused : Receipt context
      (.answered context (.fault ⟨.invalidArgs, .obj [("context", .str context)]⟩))

/-- Among what was sent, a handler of a client is handed the call of a context. -/
def HandedTo (context : String) (client : ClientId) (sents : List Sent) : Prop :=
  ∃ s ∈ sents, s.client = client ∧ s.delivered = true ∧
    ∃ rank c, s.notice = .offered rank c ∧ c.context = context

namespace Exchange

variable {x : Exchange} {context : String} {client : ClientId} {m : Message}

/-- A message of a client does nothing about a context. -/
structure Ignored (x : Exchange) (context : String) (client : ClientId) (m : Message) : Prop where
  running : (x.receive client m).1.running.get? context = x.running.get? context
  about : about context (x.receive client m).2 = []
  sent : m.context = context → (x.receive client m).2 = []

/-! ### Strangers -/

theorem Turn.of_not_concerns {r r' : Option Running} {e : ExchangeEvent} {sents : List Sent}
    (h : Turn context x r e r' sents) (hc : ¬ e.Concerns context r) : r' = r ∧ sents = [] := by
  cases h with
  | elsewhere => exact ⟨rfl, rfl⟩
  | registered => exact absurd ⟨rfl, trivial⟩ hc
  | refused _ _ _ h | unknown _ _ h | accepted _ _ h | untaken _ _ h => exact absurd ⟨h, trivial⟩ hc
  | relayed r => exact absurd ⟨rfl, r, rfl, rfl⟩ hc
  | answered r => exact absurd ⟨rfl, r, rfl, rfl⟩ hc
  | rerouted r _ h | exhausted r _ h =>
    rcases h with rfl | ⟨rfl, _⟩
    · exact absurd ⟨rfl, r, rfl, rfl⟩ hc
    · exact absurd ⟨r, rfl, .inr rfl⟩ hc
  | withdrawn r _ h =>
    rcases h with rfl | rfl
    · exact absurd ⟨rfl, r, rfl, rfl⟩ hc
    · exact absurd ⟨r, rfl, .inl rfl⟩ hc

theorem ignored_of_not_concerns (hx : x.Coherent)
    (hc : ¬ (ExchangeEvent.received client m).Concerns context (x.running.get? context)) :
    x.Ignored context client m := by
  obtain ⟨hr, ha⟩ := (receive_turn hx client m context).of_not_concerns hc
  refine ⟨hr, ha, ?_⟩
  intro hm
  rwa [about_eq_self (hm ▸ receive_context hx client m)] at ha

theorem ignored_of_ne_callee (hx : x.Coherent) (hm : m.kind = .update ∨ m.kind = .result)
    (hne : ∀ r, x.running.get? context = some r → r.callee.value.client ≠ client) :
    x.Ignored context client m := by
  apply ignored_of_not_concerns hx
  cases m with
  | update | result =>
    rintro ⟨_, r, hr, hc⟩
    exact hne r hr hc
  | call | register | cancel => simp [Message.kind] at hm

theorem ignored_of_ne_caller (hx : x.Coherent) {d : String}
    (hne : ∀ r, x.running.get? context = some r → r.caller ≠ client) :
    x.Ignored context client (.cancel d) := by
  apply ignored_of_not_concerns hx
  rintro ⟨_, r, hr, hc⟩
  exact hne r hr hc

/-! ### Calls and registrations -/

/-- A call or a registration under the context of a running call leaves the call as it is, and only
its sender is told something. -/
theorem Turn.of_call_or_register {r : Running} {r' : Option Running} {sents : List Sent}
    (h : Turn context x (some r) (.received client m) r' sents)
    (hm : m.kind = .call ∨ m.kind = .register) :
    r' = some r ∧ (sents = [] ∨ ∃ n, n.Receipt context ∧ sents = [x.send client n]) := by
  have other {e : ExchangeEvent} {k : Message} {b : ClientId} (he : e = .received client m)
      (hk : e = .received b k) (hcall : k.kind ≠ .call) (hreg : k.kind ≠ .register) : False := by
    obtain ⟨_, rfl⟩ := ExchangeEvent.received.inj (he.symm.trans hk)
    exact hm.elim hcall hreg
  cases h with
  | elsewhere => exact ⟨rfl, .inl rfl⟩
  | registered => exact ⟨rfl, .inr ⟨_, .registered, rfl⟩⟩
  | refused => exact ⟨rfl, .inr ⟨_, .refused, rfl⟩⟩
  | relayed | answered => exact (other rfl rfl nofun nofun).elim
  | rerouted _ _ h | exhausted _ _ h =>
    rcases h with h | ⟨h, _⟩
    · exact (other rfl h nofun nofun).elim
    · cases h
  | withdrawn _ _ h =>
    rcases h with h | h
    · exact (other rfl h nofun nofun).elim
    · cases h

/-! ### Former callees -/

/-- A client is not the callee of what runs under a context. -/
def Apart (client : ClientId) (r : Option Running) : Prop :=
  ∀ t, r = some t → t.callee.value.client ≠ client

theorem handedTo_offered {c : Call} (hc : c.context = context) (missed : List (Entry Route))
    {e : Entry Route} (he : x.Reachable e.value.client) :
    HandedTo context e.value.client ((missed ++ [e]).map (x.offering c)) := by
  refine ⟨x.offering c e, List.mem_map_of_mem (by simp), rfl, ?_, _, _, rfl, hc⟩
  exact (x.send_delivered ..).2 he

/-- A client becomes the callee of a call only if a handler of it is handed the call. -/
theorem Turn.apart {r r' : Option Running} {e : ExchangeEvent} {sents : List Sent}
    (h : Turn context x r e r' sents) (hctx : ∀ t, r = some t → t.call.context = context)
    (hr : Apart client r) (hs : ¬ HandedTo context client sents) : Apart client r' := by
  cases h with
  | elsewhere | registered | refused | relayed => exact hr
  | accepted _ c hc missed _ f _ _ hf =>
    rintro t ⟨⟩ rfl
    exact hs (handedTo_offered hc missed hf)
  | rerouted r _ _ missed _ f _ _ hf =>
    rintro t ⟨⟩ rfl
    exact hs (handedTo_offered (hctx r rfl) missed hf)
  | unknown | untaken | answered | exhausted | withdrawn => nofun

theorem HandedTo.of_about {sents : List Sent} (h : HandedTo context client (about context sents)) :
    HandedTo context client sents := by
  obtain ⟨s, hs, h⟩ := h
  exact ⟨s, (List.mem_filter.1 hs).1, h⟩

theorem apart_step (hx : x.Coherent) {e : ExchangeEvent}
    (h : Apart client (x.running.get? context)) (hs : ¬ HandedTo context client (x.step e).2) :
    Apart client ((x.step e).1.running.get? context) :=
  (step_turn hx e context).apart (hx context) h (mt HandedTo.of_about hs)

theorem apart_run {es : List ExchangeEvent} {x : Exchange} (hx : x.Coherent)
    (h : Apart client (x.running.get? context)) (hs : ¬ HandedTo context client (x.run es).2) :
    Apart client ((x.run es).1.running.get? context) := by
  induction es generalizing x with
  | nil => exact h
  | cons e es ih =>
    have left : ¬ HandedTo context client (x.step e).2 := by
      rintro ⟨s, hmem, hs'⟩
      exact hs ⟨s, List.mem_append_left _ hmem, hs'⟩
    have right : ¬ HandedTo context client ((x.step e).1.run es).2 := by
      rintro ⟨s, hmem, hs'⟩
      exact hs ⟨s, List.mem_append_right _ hmem, hs'⟩
    exact ih (coherent_step hx e) (apart_step hx h left) right

theorem receive_of_apart (hm : m.kind = .update ∨ m.kind = .result)
    (h : Apart client (x.running.get? m.context)) : x.receive client m = (x, []) := by
  cases m with
  | update d v =>
    simp only [receive, update]
    split
    · next r hr => rw [if_neg (h r hr)]
    · rfl
  | result d o =>
    simp only [receive, result]
    split
    · next r hr => rw [if_neg (h r hr)]
    · rfl
  | call | register | cancel => simp [Message.kind] at hm

/-- **Only the caller and the callee touch a running call.**  After every run from the beginning,
whatever a client sends, a running call is changed and something is sent about it only if the
client is its callee, for updates and results, or its caller, for withdrawals; calls and
registrations change nothing about it, and only their sender is told something.  A client that is
not the callee, because the call went on from it to another one or for any other reason, is ignored
with all its later updates and results until a handler of it is handed the call of that context. -/
theorem touched_by_parties_only (es : List ExchangeEvent) {context : String} {r : Running}
    (hr : (run {} es).1.running.get? context = some r) (client : ClientId) :
    (client ≠ r.callee.value.client → ∀ m : Message, m.kind = .update ∨ m.kind = .result →
      (run {} es).1.Ignored context client m) ∧
    (client ≠ r.caller → ∀ d, (run {} es).1.Ignored context client (.cancel d)) ∧
    (∀ m : Message, m.kind = .call ∨ m.kind = .register →
      ((run {} es).1.receive client m).1.running.get? context = some r ∧
      (about context ((run {} es).1.receive client m).2 = [] ∨
        ∃ s : Sent, about context ((run {} es).1.receive client m).2 = [s] ∧ s.client = client ∧
          s.notice.Receipt context)) ∧
    (client ≠ r.callee.value.client → ∀ later,
      ¬ HandedTo context client ((run {} es).1.run later).2 →
      ∀ m : Message, m.kind = .update ∨ m.kind = .result → m.context = context →
        (run {} (es ++ later)).1.receive client m = ((run {} (es ++ later)).1, [])) := by
  have hx : (run {} es).1.Coherent := coherent_run es coherent_empty
  have apart (hne : client ≠ r.callee.value.client) :
      Apart client ((run {} es).1.running.get? context) := by
    intro t ht
    obtain rfl := Option.some.inj (hr.symm.trans ht)
    exact hne.symm
  refine ⟨?_, ?_, ?_, ?_⟩
  · intro hne m hm
    exact ignored_of_ne_callee hx hm (apart hne)
  · intro hne d
    apply ignored_of_ne_caller hx
    intro t ht
    obtain rfl := Option.some.inj (hr.symm.trans ht)
    exact hne.symm
  · intro m hm
    have hturn : Turn context _ _ _ _ _ := receive_turn hx client m context
    rw [hr] at hturn
    obtain ⟨hsame, hsents⟩ := hturn.of_call_or_register hm
    refine ⟨hsame, hsents.imp id ?_⟩
    rintro ⟨n, hn, hs⟩
    exact ⟨_, hs, rfl, hn⟩
  · intro hne later hs m hm hc
    apply receive_of_apart hm
    rw [hc, run_append]
    exact apart_run hx (apart hne) hs

/-- Two handlers of client 2 with one of client 3 between them, and a call of client 1 that the
first of them is handed. -/
def servedTwice : List ExchangeEvent :=
  [.connected 1, .connected 2, .connected 3, .received 2 (.register "r" "f" 9 1),
    .received 3 (.register "r" "f" 7 1), .received 2 (.register "r" "f" 5 2),
    .received 1 (.call { context := "c", function := "f" })]

/-- Client 2 has declined the call, client 3 serves it, and a late result of client 2 is ignored also
after an update of client 3. -/
theorem touched_by_callee_only :
    let es := servedTwice ++ [.received 2 (.result "c" .declined)]
    let later : List ExchangeEvent := [.received 3 (.update "c" .null)]
    let x := (run {} (es ++ later)).1
    (x.running.get? "c").map (·.callee.value.client) = some 3 ∧
      x.receive 2 (.result "c" (.value .null)) = (x, []) := by
  intro es later x
  have hr : (run {} es).1.running.get? "c" =
      some ⟨1, ⟨⟨7, 1⟩, ⟨3, 1⟩⟩, { context := "c", function := "f", handler := some 1 }⟩ := by
    decide
  have hs : ¬ HandedTo "c" 2 ((run {} es).1.run later).2 := by
    rintro ⟨s, hs, _, _, rank, c, hn, _⟩
    have hsent : ((run {} es).1.run later).2 = [⟨1, .updated "c" .null, true⟩] := by decide
    rw [hsent, List.mem_singleton] at hs
    rw [hs] at hn
    cases hn
  obtain ⟨_, _, _, hlate⟩ := touched_by_parties_only es hr 2
  exact ⟨by decide, hlate (by decide) later hs _ (.inr rfl) rfl⟩

/-- A call that has gone on from client 2 to client 3 goes on to the other handler of client 2, and
then an update of client 2 is passed on to the caller. -/
theorem former_callee_serves_again :
    let declined (client : ClientId) : ExchangeEvent := .received client (.result "c" .declined)
    let callee (es : List ExchangeEvent) : Option ClientId :=
      ((run {} es).1.running.get? "c").map (·.callee.value.client)
    callee servedTwice = some 2 ∧ callee (servedTwice ++ [declined 2]) = some 3 ∧
      callee (servedTwice ++ [declined 2, declined 3]) = some 2 ∧
      ((run {} (servedTwice ++ [declined 2, declined 3])).1.receive 2 (.update "c" .null)).2 =
        [⟨1, .updated "c" .null, true⟩] := by
  decide

end Exchange
end Switchboard
