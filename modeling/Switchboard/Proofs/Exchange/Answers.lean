import Switchboard.Proofs.Exchange.Turn

/-! # Every call is answered once

A client's calls under one context are counted against what becomes of them.

* **Made.** `callsFrom` counts the calls that were received from the client.
* **Answered.** `answersTo` counts the answers that were addressed to the client, also those that
  did not reach it.  Acknowledgements of registrations are no answers.
* **Under way.** `awaits` says whether a call of the client is being served.
* **Given up.** `cancellations` and `departures` count the events by which the client's cancelling
  or leaving removed a running call.

Each turn keeps the balance (`Turn.balance`), and so does every run (`calls_eq_answers`). -/

namespace Switchboard
namespace Exchange

/-! ### Counting -/

/-- Whether an event is a call of a client under a context. -/
def isCall (client : ClientId) (context : String) : ExchangeEvent → Bool
  | .received other (.call c) => other = client && c.context = context
  | _ => false

/-- Whether something is the answer to a call of a client under a context. -/
def isAnswer (client : ClientId) (context : String) (s : Sent) : Bool :=
  s.client = client && match s.notice with
    | .answered other _ => other = context
    | _ => false

/-- The number of calls that were received from a client under a context. -/
def callsFrom (client : ClientId) (context : String) (es : List ExchangeEvent) : Nat :=
  es.countP (isCall client context)

/-- The number of answers to calls under a context that were addressed to a client. -/
def answersTo (client : ClientId) (context : String) (sents : List Sent) : Nat :=
  sents.countP (isAnswer client context)

/-- Whether a call of a client is being served under a context. -/
def awaits (x : Exchange) (client : ClientId) (context : String) : Bool :=
  (x.running.get? context).any (·.caller = client)

/-- The number of events that are of some kind at the time when they happen. -/
def countEvents (p : Exchange → ExchangeEvent → Bool) : Exchange → List ExchangeEvent → Nat
  | _, [] => 0
  | x, e :: es => (if p x e then 1 else 0) + countEvents p (x.step e).1 es

/-- Whether an event removes what runs under a context. -/
def removes (context : String) (x : Exchange) (e : ExchangeEvent) : Bool :=
  (x.running.get? context).isSome && ((x.step e).1.running.get? context).isNone

/-- Whether an event is the cancelling by a client that removes the call running under a context. -/
def isCancellation (client : ClientId) (context : String) (x : Exchange) (e : ExchangeEvent) :
    Bool :=
  e = .received client (.cancel context) && x.removes context e

/-- Whether an event is the leaving of a client that removes its call running under a context. -/
def isDeparture (client : ClientId) (context : String) (x : Exchange) (e : ExchangeEvent) : Bool :=
  e = .left client && x.awaits client context && x.removes context e

/-! ### The balance of one event -/

theorem answersTo_append (client : ClientId) (context : String) (s t : List Sent) :
    answersTo client context (s ++ t) = answersTo client context s + answersTo client context t :=
  List.countP_append

theorem answersTo_about (client : ClientId) (context : String) (sents : List Sent) :
    answersTo client context (about context sents) = answersTo client context sents := by
  rw [answersTo, about, List.countP_filter, answersTo]
  refine List.countP_congr fun s _ => ?_
  cases hn : s.notice <;> simp_all [isAnswer, Notice.context]

theorem answersTo_offers (client : ClientId) (context : String) (x : Exchange) (c : Call)
    (es : List (Entry Route)) : answersTo client context (es.map (x.offering c)) = 0 := by
  refine List.countP_eq_zero.2 fun s hs => ?_
  obtain ⟨e, _, rfl⟩ := List.mem_map.1 hs
  simp [isAnswer, offering]

theorem answersTo_answered (client : ClientId) (context : String) (x : Exchange)
    (other : ClientId) (o : Outcome) :
    answersTo client context [x.send other (.answered context o)] =
      if other = client then 1 else 0 := by
  by_cases h : other = client <;> simp [answersTo, isAnswer, h]

/-- A call made adds to what is answered, under way or given up. -/
theorem Turn.balance {context : String} {x : Exchange} {r r' : Option Running} {e : ExchangeEvent}
    {sents : List Sent} (h : Turn context x r e r' sents) (client : ClientId) :
    (if isCall client context e then 1 else 0) + (if r.any (·.caller = client) then 1 else 0) =
      answersTo client context sents + (if r'.any (·.caller = client) then 1 else 0) +
        (if e = .received client (.cancel context) && (r.isSome && r'.isNone) then 1 else 0) +
        (if e = .left client && r.any (·.caller = client) && (r.isSome && r'.isNone) then 1
          else 0) := by
  cases h with
  | @elsewhere r e h =>
    have hc : isCall client context e = false := by
      rw [Bool.eq_false_iff]
      intro hc
      unfold isCall at hc
      split at hc
      · exact h ⟨by simp_all [Message.context], trivial⟩
      · cases hc
    cases r <;> simp [hc, answersTo]
  | registered => simp [isCall, answersTo, isAnswer]
  | refused r other c h =>
    simp only [isCall, h, answersTo_answered]
    simp
  | unknown other c h => simp [isCall, answersTo_answered, h]
  | accepted other c h missed _ f => simp [isCall, -List.map_append, answersTo_offers, h]
  | untaken other c h => simp [isCall, answersTo_append, answersTo_offers, answersTo_answered, h]
  | relayed => simp [isCall, answersTo, isAnswer]
  | answered => simp [isCall, answersTo_answered]
  | rerouted r cause h =>
    rcases h with rfl | ⟨rfl, _⟩ <;> simp [isCall, -List.map_append, answersTo_offers]
  | exhausted r cause h =>
    rcases h with rfl | ⟨rfl, hne⟩
    · simp [isCall, answersTo_append, answersTo_offers, answersTo_answered]
    · have hc : ¬ (r.callee.value.client = client ∧ r.caller = client) := by
        rintro ⟨rfl, h⟩
        exact hne h
      simp [isCall, answersTo_append, answersTo_offers, answersTo_answered, hc]
  | withdrawn r cause h =>
    rcases h with rfl | rfl <;> simp [isCall, answersTo, isAnswer]

theorem step_balance {x : Exchange} (hx : x.Coherent) (e : ExchangeEvent) (client : ClientId)
    (context : String) :
    (if isCall client context e then 1 else 0) + (if x.awaits client context then 1 else 0) =
      answersTo client context (x.step e).2 +
        (if (x.step e).1.awaits client context then 1 else 0) +
        (if isCancellation client context x e then 1 else 0) +
        (if isDeparture client context x e then 1 else 0) := by
  have h := (step_turn hx e context).balance client
  rw [answersTo_about] at h
  exact h

theorem run_balance (client : ClientId) (context : String) (es : List ExchangeEvent)
    {x : Exchange} (hx : x.Coherent) :
    callsFrom client context es + (if x.awaits client context then 1 else 0) =
      answersTo client context (x.run es).2 +
        (if (x.run es).1.awaits client context then 1 else 0) +
        countEvents (isCancellation client context) x es +
        countEvents (isDeparture client context) x es := by
  induction es generalizing x with
  | nil =>
    show 0 + (if x.awaits client context then 1 else 0) =
      0 + (if x.awaits client context then 1 else 0) + 0 + 0
    omega
  | cons e es ih =>
    have hstep := step_balance hx e client context
    have hrun := ih (coherent_step hx e)
    have hcalls : callsFrom client context (e :: es) =
        callsFrom client context es + if isCall client context e then 1 else 0 := List.countP_cons
    have hsent : answersTo client context (x.run (e :: es)).2 =
        answersTo client context (x.step e).2 + answersTo client context ((x.step e).1.run es).2 :=
      answersTo_append ..
    have hend : (x.run (e :: es)).1 = ((x.step e).1.run es).1 := rfl
    rw [hcalls, hsent, hend, countEvents, countEvents]
    omega

/-- **Exactly one answer for each call.**  From the beginning, whatever the clients do, the calls
received from a client under a context are as many as the answers addressed to it under that
context, together with the call that is still being served, if there is one, and with those that
were removed because the client cancelled them or left. -/
theorem calls_eq_answers (es : List ExchangeEvent) (client : ClientId) (context : String) :
    callsFrom client context es =
      answersTo client context (run {} es).2 +
        (if (run {} es).1.awaits client context then 1 else 0) +
        countEvents (isCancellation client context) {} es +
        countEvents (isDeparture client context) {} es :=
  run_balance client context es coherent_empty

end Exchange
end Switchboard
