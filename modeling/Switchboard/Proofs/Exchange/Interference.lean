import Switchboard.Proofs.Exchange.Consistency

/-! # Calls do not disturb each other

The exchange serves many calls at once, and a departure visits several of them in an order that
depends on all of them.  What happens to one call is the same as if the other calls had never been
made.

* **Runs.** `Runs` lets every departure visit its calls in an order of its own; the exchange's own
  order is one of them (`runs_run`).
* **Leaving out.** `Keeps` says which events stay when all other calls are left out: sessions and
  registrations, and the messages of one context.
* **Likeness.** Two states are alike for a context if they have the same lines and the same
  directory and the same runs under the context (`Like`).  An event that stays does the same to both
  of them (`Like.receive`, `Like.depart`), and an event that is left out does nothing
  (`like_receive`).
* **Main statement.** `undisturbed_of_runs`. -/

namespace Switchboard

/-- An event stays when all calls but those of one context are left out. -/
def ExchangeEvent.Keeps (context : String) : ExchangeEvent → Prop
  | received _ m => m.kind = .register ∨ m.context = context
  | connected _ | muted _ | left _ => True

instance (context : String) : DecidablePred (ExchangeEvent.Keeps context) := fun e => by
  cases e <;> unfold ExchangeEvent.Keeps <;> infer_instance

namespace Exchange

variable {x y : Exchange} {context : String}

/-! ### Runs in any order of visits -/

/-- What an event may do: a departure visits the calls that it concerns in some order. -/
inductive StepsTo (x : Exchange) : ExchangeEvent → Exchange × List Sent → Prop
  | left (client : ClientId) (made served : List String)
      (hm : made.Perm (x.contexts (·.caller = client)))
      (hs : served.Perm
        (x.contexts fun r => r.caller ≠ client && r.callee.value.client = client)) :
    StepsTo x (.left client) (x.leaveInOrder client made served)
  | stays (e : ExchangeEvent) (h : ∀ client, e ≠ .left client) : StepsTo x e (x.step e)

/-- What events in a row may do. -/
inductive Runs : Exchange → List ExchangeEvent → Exchange × List Sent → Prop
  | nil (x : Exchange) : Runs x [] (x, [])
  | cons {x : Exchange} {e : ExchangeEvent} {es : List ExchangeEvent} {p q : Exchange × List Sent}
      (h : x.StepsTo e p) (hs : Runs p.1 es q) : Runs x (e :: es) (q.1, p.2 ++ q.2)

theorem stepsTo_step (x : Exchange) (e : ExchangeEvent) : x.StepsTo e (x.step e) := by
  cases e with
  | left client => exact .left client _ _ (.refl _) (.refl _)
  | connected | received | muted => exact .stays _ nofun

theorem runs_run (x : Exchange) (es : List ExchangeEvent) : x.Runs es (x.run es) := by
  induction es generalizing x with
  | nil => exact .nil x
  | cons e es ih => exact .cons (x.stepsTo_step e) (ih _)

theorem Runs.snoc {es : List ExchangeEvent} {e : ExchangeEvent} {p q : Exchange × List Sent}
    (h : x.Runs es p) (h' : p.1.StepsTo e q) : x.Runs (es ++ [e]) (q.1, p.2 ++ q.2) := by
  induction h with
  | nil =>
    have hlast := Runs.cons h' (.nil q.1)
    rwa [List.append_nil] at hlast
  | cons h _ ih =>
    rw [List.append_assoc]
    exact .cons h (ih h')

theorem StepsTo.coherent (hx : x.Coherent) {e : ExchangeEvent} {p : Exchange × List Sent}
    (h : x.StepsTo e p) : p.1.Coherent := by
  cases h with
  | left client made served =>
    have hf : (x.forget client).Coherent := hx
    exact local_reroute.forEach_coherent (local_withdraw.forEach_coherent hf made) served
  | stays => exact coherent_step hx _

/-! ### Likeness -/

/-- Two states are the same for a context. -/
structure Like (context : String) (x y : Exchange) : Prop where
  lines : x.lines = y.lines
  directory : x.directory = y.directory
  running : x.running.get? context = y.running.get? context

theorem Like.trans {z : Exchange} (h : Like context x y) (h' : Like context y z) :
    Like context x z :=
  ⟨h.lines.trans h'.lines, h.directory.trans h'.directory, h.running.trans h'.running⟩

theorem Like.register (h : Like context x y) (client : ClientId) (d f : String) (p : UInt16)
    (handler : HandlerId) :
    Like context (x.register client d f p handler).1 (y.register client d f p handler).1 ∧
      (x.register client d f p handler).2 = (y.register client d f p handler).2 := by
  constructor
  · exact ⟨h.lines, congrArg (·.insert f p ⟨client, handler⟩) h.directory, h.running⟩
  · simp only [Exchange.register, send_congr h.lines]

/-- What a call comes to depends on the lines, the directory and what runs under its context. -/
theorem Like.call (h : Like context x y) (client : ClientId) {c : Call} (hc : c.context = context) :
    (x.call client c).1.running.get? context = (y.call client c).1.running.get? context ∧
      (x.call client c).2 = (y.call client c).2 := by
  subst hc
  have hr : x.running.contains c.context = y.running.contains c.context := by
    rw [Keyed.contains, Keyed.contains, h.running]
  simp only [Exchange.call, hr, h.directory, offer_congr h.lines, send_congr h.lines]
  split
  · exact ⟨h.running, rfl⟩
  · split
    · exact ⟨h.running, rfl⟩
    · split
      · exact ⟨by simp only [Keyed.get?_insert_self], rfl⟩
      · exact ⟨h.running, rfl⟩

theorem Like.update (h : Like context x y) (client : ClientId) (v : Json) :
    (x.update client context v).1.running.get? context =
        (y.update client context v).1.running.get? context ∧
      (x.update client context v).2 = (y.update client context v).2 := by
  simp only [Exchange.update, ← h.running, send_congr h.lines]
  split
  · split <;> exact ⟨h.running, rfl⟩
  · exact ⟨h.running, rfl⟩

theorem Like.result (h : Like context x y) (client : ClientId) (o : Outcome) :
    (x.result client context o).1.running.get? context =
        (y.result client context o).1.running.get? context ∧
      (x.result client context o).2 = (y.result client context o).2 := by
  simp only [Exchange.result, ← h.running, send_congr h.lines]
  split
  · split
    · split
      · exact local_reroute.congr x y context h.lines h.directory h.running
      · exact ⟨by simp only [Keyed.get?_erase_self], rfl⟩
    · exact ⟨h.running, rfl⟩
  · exact ⟨h.running, rfl⟩

theorem Like.cancel (h : Like context x y) (client : ClientId) :
    (x.cancel client context).1.running.get? context =
        (y.cancel client context).1.running.get? context ∧
      (x.cancel client context).2 = (y.cancel client context).2 := by
  simp only [Exchange.cancel, ← h.running]
  split
  · split
    · exact local_withdraw.congr x y context h.lines h.directory h.running
    · exact ⟨h.running, rfl⟩
  · exact ⟨h.running, rfl⟩

theorem Like.receive (h : Like context x y) (client : ClientId) {m : Message}
    (hm : m.kind = .register ∨ m.context = context) :
    Like context (x.receive client m).1 (y.receive client m).1 ∧
      (x.receive client m).2 = (y.receive client m).2 := by
  have same (hs : (x.receive client m).1.running.get? context =
        (y.receive client m).1.running.get? context ∧
      (x.receive client m).2 = (y.receive client m).2) :
      Like context (x.receive client m).1 (y.receive client m).1 ∧
        (x.receive client m).2 = (y.receive client m).2 := by
    refine ⟨⟨?_, ?_, hs.1⟩, hs.2⟩
    · rw [receive_lines, receive_lines, h.lines]
    · rw [receive_directory, receive_directory, h.directory]
  cases m with
  | register d f p handler => exact h.register client d f p handler
  | call c => exact same (h.call client (hm.resolve_left nofun))
  | update d v =>
    obtain rfl := hm.resolve_left nofun
    exact same (h.update client v)
  | result d o =>
    obtain rfl := hm.resolve_left nofun
    exact same (h.result client o)
  | cancel d =>
    obtain rfl := hm.resolve_left nofun
    exact same (h.cancel client)

/-- A message that is left out does nothing. -/
theorem like_receive (hx : x.Coherent) (client : ClientId) {m : Message}
    (hm : ¬ (m.kind = .register ∨ m.context = context)) :
    Like context (x.receive client m).1 x ∧ about context (x.receive client m).2 = [] := by
  obtain ⟨hkind, hcontext⟩ := not_or.1 hm
  refine ⟨⟨x.receive_lines client m, ?_, x.receive_get? client m (Ne.symm hcontext)⟩,
    about_eq_nil (receive_context hx client m) hcontext⟩
  rw [receive_directory]
  cases m with
  | register => exact absurd rfl hkind
  | call | update | result | cancel => rfl

theorem Like.depart (h : Like context x y) (client : ClientId) :
    (depart client x context).1.running.get? context =
        (depart client y context).1.running.get? context ∧
      (depart client x context).2 = (depart client y context).2 := by
  simp only [Exchange.depart, ← h.running]
  split
  · exact ⟨h.running, rfl⟩
  · split
    · exact local_withdraw.congr x y context h.lines h.directory h.running
    · split
      · exact local_reroute.congr x y context h.lines h.directory h.running
      · exact ⟨h.running, rfl⟩

theorem Like.forget (h : Like context x y) (client : ClientId) :
    Like context (x.forget client) (y.forget client) := by
  refine ⟨?_, ?_, h.running⟩
  · simp only [Exchange.forget, h.lines]
  · simp only [Exchange.forget, h.directory]

theorem leaveInOrder_lines (x : Exchange) (client : ClientId) (made served : List String) :
    (x.leaveInOrder client made served).1.lines = (x.forget client).lines :=
  (local_reroute.forEach_lines _ served).trans (local_withdraw.forEach_lines _ made)

theorem leaveInOrder_directory (x : Exchange) (client : ClientId) (made served : List String) :
    (x.leaveInOrder client made served).1.directory = (x.forget client).directory :=
  (local_reroute.forEach_directory _ served).trans (local_withdraw.forEach_directory _ made)

/-! ### Steps and runs -/

/-- An event that stays does the same to both, in whatever orders it visits the calls of the one
and of the other. -/
theorem Like.step (h : Like context x y) (hx : x.Coherent) (hy : y.Coherent) {e : ExchangeEvent}
    (he : e.Keeps context) {p q : Exchange × List Sent} (hp : x.StepsTo e p)
    (hq : y.StepsTo e q) : Like context p.1 q.1 ∧ about context p.2 = about context q.2 := by
  cases hp with
  | left client made served hm hs =>
    cases hq with
    | left _ made' served' hm' hs' =>
      have hf := h.forget client
      obtain ⟨xr, xa⟩ := leaveInOrder_depart hx client hm hs context
      obtain ⟨yr, ya⟩ := leaveInOrder_depart hy client hm' hs' context
      obtain ⟨hr, ha⟩ := hf.depart client
      refine ⟨⟨?_, ?_, ?_⟩, ?_⟩
      · rw [leaveInOrder_lines, leaveInOrder_lines, hf.lines]
      · rw [leaveInOrder_directory, leaveInOrder_directory, hf.directory]
      · rw [xr, yr, hr]
      · rw [xa, ya, ha]
    | stays _ hne => exact absurd rfl (hne client)
  | stays _ hne =>
    cases hq with
    | left client => exact absurd rfl (hne client)
    | stays =>
      cases e with
      | connected client =>
        exact ⟨⟨congrArg (·.insert client .live) h.lines, h.directory, h.running⟩, rfl⟩
      | muted client =>
        exact ⟨⟨congrArg (·.modify client fun _ => .dead) h.lines, h.directory, h.running⟩, rfl⟩
      | received client m =>
        obtain ⟨hlike, hs⟩ := h.receive client he
        exact ⟨hlike, congrArg (about context) hs⟩
      | left client => exact absurd rfl (hne client)

theorem like_of_not_keeps (hx : x.Coherent) {e : ExchangeEvent} (he : ¬ e.Keeps context)
    {p : Exchange × List Sent} (hp : x.StepsTo e p) :
    Like context p.1 x ∧ about context p.2 = [] := by
  cases hp with
  | left => exact absurd trivial he
  | stays =>
    cases e with
    | connected | muted | left => exact absurd trivial he
    | received client m => exact like_receive hx client he

/-- Two states that are alike stay so, through all events in the one and those that stay in the
other. -/
theorem Like.runs (h : Like context x y) (hx : x.Coherent) (hy : y.Coherent)
    {es : List ExchangeEvent} {p q : Exchange × List Sent} (hp : x.Runs es p)
    (hq : y.Runs (es.filter (·.Keeps context)) q) :
    Like context p.1 q.1 ∧ about context p.2 = about context q.2 := by
  induction hp generalizing y q with
  | nil =>
    cases hq
    exact ⟨h, rfl⟩
  | @cons x e es p r hstep hruns ih =>
    by_cases he : e.Keeps context
    · rw [List.filter_cons_of_pos (by simpa using he)] at hq
      cases hq with
      | @cons _ _ _ p' r' hstep' hruns' =>
        obtain ⟨hlike, ha⟩ := h.step hx hy he hstep hstep'
        obtain ⟨hlike', ha'⟩ := ih hlike (hstep.coherent hx) (hstep'.coherent hy) hruns'
        refine ⟨hlike', ?_⟩
        rw [about_append, about_append, ha, ha']
    · rw [List.filter_cons_of_neg (by simpa using he)] at hq
      obtain ⟨hlike, ha⟩ := like_of_not_keeps hx he hstep
      obtain ⟨hlike', ha'⟩ := ih (hlike.trans h) (hstep.coherent hx) hy hq
      refine ⟨hlike', ?_⟩
      rw [about_append, ha, ha', List.nil_append]

/-- **Calls do not disturb each other.**  Take any events from the beginning, and the same events
without the calls, updates, results and withdrawals of all other contexts.  After both, the lines,
the directory and what runs under the context are the same, and the same has been sent about the
context, to each client and in the same order, whatever orders the departures visited the calls in. -/
theorem undisturbed_of_runs {es : List ExchangeEvent} {context : String}
    {p q : Exchange × List Sent} (hp : Runs {} es p)
    (hq : Runs {} (es.filter (·.Keeps context)) q) :
    p.1.lines = q.1.lines ∧ p.1.directory = q.1.directory ∧
      p.1.running.get? context = q.1.running.get? context ∧
      about context p.2 = about context q.2 ∧
      ∀ client, (about context p.2).filter (·.client = client) =
        (about context q.2).filter (·.client = client) := by
  have hlike : Like context {} {} := ⟨rfl, rfl, rfl⟩
  obtain ⟨h, ha⟩ := hlike.runs coherent_empty coherent_empty hp hq
  refine ⟨h.lines, h.directory, h.running, ha, ?_⟩
  intro client
  rw [ha]

/-- A client that serves two calls leaves, and the second of them is visited first: the first one is
declined as if it had been the only one. -/
theorem undisturbed_by_departure :
    let es : List ExchangeEvent :=
      [.connected 1, .connected 2, .received 2 (.register "r" "f" 5 0),
        .received 1 (.call { context := "c", function := "f" }),
        .received 1 (.call { context := "d", function := "f" })]
    let before := run {} es
    let after := before.1.leaveInOrder 2 [] ["d", "c"]
    let alone := run {} ((es ++ [ExchangeEvent.left 2]).filter (·.Keeps "c"))
    after.1.lines = alone.1.lines ∧
      about "c" (before.2 ++ after.2) = about "c" alone.2 ∧
      about "c" after.2 = [⟨1, .answered "c" .declined, true⟩] := by
  intro es before after alone
  have hleft : before.1.StepsTo (.left 2) after := by
    apply StepsTo.left
    · decide
    · decide
  have hruns : Runs {} (es ++ [.left 2]) (after.1, before.2 ++ after.2) := by
    apply Runs.snoc (runs_run {} es)
    exact hleft
  obtain ⟨hlines, _, _, hsent, _⟩ := undisturbed_of_runs hruns (runs_run {} _)
  exact ⟨hlines, hsent, by decide⟩

end Exchange
end Switchboard
