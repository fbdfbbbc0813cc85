import Mathlib.Data.List.Basic
import Switchboard.Proofs.Exchange.Consistency

/-! # Calls go on in dispatch order

A call is offered to one handler after the other while handlers come and go, and the exchange
remembers of the way it has gone no more than the rank of the present callee.

* **Tried.** `triedFor` reads off what was sent which handlers a call was offered to.
* **Pursuits.** Accepting a call and going on with it are the same thing done to different
  candidates: they are tried in turn up to the first that can be reached (`Pursued`), and every turn
  of a running call pursues it or leaves its offers alone (`Turn.pursues`).
* **Why nothing is skipped.** An entry that was there when the call was accepted and is there now
  has been there all the time, because ranks do not come back (`listed_before`).  So it was a
  candidate when the call went past it (`Standing.pursue`).
* **Main statement.** `fallback_in_order`: in which order the handlers of a call are tried, which of
  them have been tried at every moment, and that all have been when the call is given up. -/

namespace Switchboard

/-! ### Offers in what was sent -/

/-- The handler to which something that was sent offers the call of a context. -/
def Sent.offer? (context : String) (s : Sent) : Option (Entry Route) :=
  match s.notice with
  | .offered rank c =>
    if c.context = context then c.handler.map fun h => ⟨rank, ⟨s.client, h⟩⟩ else none
  | _ => none

/-- The handlers that the call of a context was offered to, in order. -/
def triedFor (context : String) (sents : List Sent) : List (Entry Route) :=
  sents.filterMap (Sent.offer? context)

/-- The caller is told that there is nobody left who could take the call of a context. -/
def GaveUp (context : String) (sents : List Sent) : Prop :=
  ∃ s ∈ sents, s.notice = .answered context .declined

/-- A handler was tried and could not be reached. -/
def Missed (context : String) (sents : List Sent) (f : Entry Route) : Prop :=
  ∃ s ∈ sents, s.offer? context = some f ∧ s.delivered = false

variable {context : String} {sents sents' : List Sent}

theorem triedFor_append :
    triedFor context (sents ++ sents') = triedFor context sents ++ triedFor context sents' :=
  List.filterMap_append

theorem gaveUp_append :
    GaveUp context (sents ++ sents') ↔ GaveUp context sents ∨ GaveUp context sents' := by
  unfold GaveUp
  simp only [List.mem_append, or_and_right, exists_or]

theorem Missed.append_left {f : Entry Route} (h : Missed context sents f) :
    Missed context (sents ++ sents') f := by
  obtain ⟨s, hs, h⟩ := h
  exact ⟨s, List.mem_append_left _ hs, h⟩

theorem Missed.append_right {f : Entry Route} (h : Missed context sents' f) :
    Missed context (sents ++ sents') f := by
  obtain ⟨s, hs, h⟩ := h
  exact ⟨s, List.mem_append_right _ hs, h⟩

theorem Sent.context_of_offer? {s : Sent} {f : Entry Route} (h : s.offer? context = some f) :
    s.notice.context = context := by
  unfold offer? at h
  split at h
  · next rank c hn =>
    split at h
    · next hc =>
      rw [hn]
      exact hc
    · cases h
  · cases h

theorem triedFor_about : triedFor context (about context sents) = triedFor context sents := by
  unfold triedFor about
  rw [List.filterMap_filter]
  refine List.filterMap_congr fun s _ => ?_
  split
  · rfl
  · next h =>
    cases ho : s.offer? context with
    | none => rfl
    | some f => exact (h (decide_eq_true (Sent.context_of_offer? ho))).elim

theorem gaveUp_about : GaveUp context (about context sents) ↔ GaveUp context sents := by
  constructor
  · rintro ⟨s, hs, h⟩
    exact ⟨s, (List.mem_filter.1 hs).1, h⟩
  · rintro ⟨s, hs, h⟩
    refine ⟨s, List.mem_filter.2 ⟨hs, ?_⟩, h⟩
    rw [h]
    exact decide_eq_true rfl

theorem Missed.of_about {f : Entry Route} (h : Missed context (about context sents) f) :
    Missed context sents f := by
  obtain ⟨s, hs, h⟩ := h
  exact ⟨s, (List.mem_filter.1 hs).1, h⟩

namespace Exchange

variable {x : Exchange} {c : Call}

/-- Nothing that was sent says that the call was offered or given up. -/
def Silent (context : String) (sents : List Sent) : Prop :=
  triedFor context sents = [] ∧ ¬ GaveUp context sents

theorem silent_nil : Silent context [] := ⟨rfl, by rintro ⟨s, hs, _⟩; cases hs⟩

theorem Silent.of_about (h : Silent context (about context sents)) : Silent context sents := by
  unfold Silent at h ⊢
  rwa [triedFor_about, gaveUp_about] at h

theorem silent_send {client : ClientId} {n : Notice} (ho : ∀ rank c, n ≠ .offered rank c)
    (ha : n ≠ .answered context .declined) : Silent context [x.send client n] := by
  constructor
  · unfold triedFor
    rw [List.filterMap_cons_none, List.filterMap_nil]
    unfold Sent.offer?
    split
    · next rank c hn => exact (ho rank c hn).elim
    · rfl
  · rintro ⟨s, hs, h⟩
    rw [List.mem_singleton.1 hs] at h
    exact ha h

theorem offer?_offering (hc : c.context = context) (f : Entry Route) :
    (x.offering c f).offer? context = some f := by
  unfold Sent.offer? offering send
  simp only [hc, if_true, Option.map_some]

theorem triedFor_offering (hc : c.context = context) (es : List (Entry Route)) :
    triedFor context (es.map (x.offering c)) = es := by
  have hsome : Sent.offer? context ∘ x.offering c = some := funext fun f => offer?_offering hc f
  unfold triedFor
  rw [List.filterMap_map, hsome, List.filterMap_some]

theorem not_gaveUp_offering (es : List (Entry Route)) :
    ¬ GaveUp context (es.map (x.offering c)) := by
  rintro ⟨s, hs, h⟩
  obtain ⟨f, _, rfl⟩ := List.mem_map.1 hs
  cases h

theorem missed_offering (hc : c.context = context) {es : List (Entry Route)} (h : x.Unreachable es)
    {f : Entry Route} (hf : f ∈ es) : Missed context (es.map (x.offering c)) f := by
  refine ⟨x.offering c f, List.mem_map_of_mem hf, offer?_offering hc f, ?_⟩
  rw [Bool.eq_false_iff]
  exact fun hd => h f hf ((x.send_delivered ..).1 hd)

/-! ### Pursuits -/

/-- Candidates were tried in turn: up to the one that has taken the call, or else all of them. -/
structure Pursued (context : String) (candidates : List (Entry Route)) (sents : List Sent)
    (taken : Option (Entry Route)) : Prop where
  start : triedFor context sents <+: candidates
  last : ∀ f, taken = some f → (triedFor context sents).getLast? = some f
  reached : ∀ f ∈ candidates, (∀ g, taken = some g → ¬ g.rank < f.rank) →
    f ∈ triedFor context sents
  missed : ∀ f ∈ triedFor context sents, taken ≠ some f → Missed context sents f
  gaveUp : GaveUp context sents → taken = none

theorem pursued_taken (hc : c.context = context) {missed rest : List (Entry Route)}
    {f : Entry Route} (hm : x.Unreachable missed) (ho : InOrder (missed ++ f :: rest)) :
    Pursued context (missed ++ f :: rest) ((missed ++ [f]).map (x.offering c)) (some f) := by
  constructor
  case start =>
    rw [triedFor_offering hc]
    exact ⟨rest, by simp⟩
  case last =>
    intro g hg
    rw [triedFor_offering hc, ← hg]
    exact List.getLast?_concat
  case reached =>
    intro g hg hle
    rw [triedFor_offering hc]
    exact ho.mem_of_split hg (hle f rfl)
  case missed =>
    intro g hg hne
    rw [triedFor_offering hc] at hg
    rw [List.map_append]
    rcases List.mem_append.1 hg with hg | hg
    · exact (missed_offering hc hm hg).append_left
    · rw [List.mem_singleton.1 hg] at hne
      exact (hne rfl).elim
  case gaveUp =>
    intro h
    exact (not_gaveUp_offering _ h).elim

theorem pursued_none (hc : c.context = context) {es : List (Entry Route)} (hm : x.Unreachable es)
    (caller : ClientId) :
    Pursued context es (es.map (x.offering c) ++ [x.send caller (.answered context .declined)])
      none := by
  have htried : triedFor context
      (es.map (x.offering c) ++ [x.send caller (.answered context .declined)]) = es := by
    rw [triedFor_append, triedFor_offering hc]
    exact List.append_nil es
  constructor
  case start => exact ⟨[], (List.append_nil _).trans htried⟩
  case last =>
    intro f hf
    cases hf
  case reached =>
    intro f hf _
    rwa [htried]
  case missed =>
    intro f hf _
    rw [htried] at hf
    exact (missed_offering hc hm hf).append_left
  case gaveUp =>
    intro _
    rfl

theorem Pursued.of_about {candidates : List (Entry Route)} {taken : Option (Entry Route)}
    (h : Pursued context candidates (about context sents) taken) :
    Pursued context candidates sents taken := by
  obtain ⟨hstart, hlast, hreached, hmissed, hgave⟩ := h
  rw [triedFor_about] at hstart hlast hreached hmissed
  rw [gaveUp_about] at hgave
  exact ⟨hstart, hlast, hreached, fun f hf hne => (hmissed f hf hne).of_about, hgave⟩

/-- The first candidate is tried in any case. -/
theorem Pursued.head? {candidates : List (Entry Route)} {taken : Option (Entry Route)}
    (h : Pursued context candidates sents taken) :
    (triedFor context sents).head? = candidates.head? := by
  cases htried : triedFor context sents with
  | cons f fs =>
    obtain ⟨rest, hrest⟩ := h.start
    rw [← hrest, htried]
    rfl
  | nil =>
    cases taken with
    | some g =>
      have hlast := h.last g rfl
      rw [htried] at hlast
      cases hlast
    | none =>
      cases candidates with
      | nil => rfl
      | cons f fs =>
        have hf := h.reached f List.mem_cons_self (by simp)
        rw [htried] at hf
        cases hf

/-- A turn of a running call says nothing of offers, or the call goes on to the candidates after its
callee. -/
theorem Turn.pursues {r : Running} {r' : Option Running} {e : ExchangeEvent}
    (h : Turn context x (some r) e r' sents) (hc : r.call.context = context)
    (hx : x.directory.Ordered) :
    (Silent context sents ∧ ∀ t, r' = some t → t = r) ∨
    (e.Frees context r ∧ ∃ taken,
      Pursued context (x.directory.after r.call.function r.callee.rank) sents taken ∧
      r' = taken.map fun f =>
        { r with callee := f, call := { r.call with handler := f.value.handler } }) := by
  cases h with
  | elsewhere => exact .inl ⟨silent_nil, fun t ht => (Option.some.inj ht).symm⟩
  | registered | refused | relayed =>
    exact .inl ⟨silent_send (by simp) (by simp), fun t ht => (Option.some.inj ht).symm⟩
  | answered _ o ho => exact .inl ⟨silent_send (by simp) (by simpa using ho), by simp⟩
  | withdrawn => exact .inl ⟨silent_send (by simp) (by simp), by simp⟩
  | rerouted _ _ hf missed rest f hd hm =>
    have ho := hx.after r.call.function r.callee.rank
    rw [hd] at ho ⊢
    exact .inr ⟨hf, some f, pursued_taken hc hm ho, rfl⟩
  | exhausted _ _ hf _ hd hm => exact .inr ⟨hf, none, hd ▸ pursued_none hc hm r.caller, rfl⟩

/-- An accepted call goes to the handlers of its function. -/
theorem Turn.accepts {r' : Option Running} {caller : ClientId}
    (h : Turn context x none (.received caller (.call c)) r' sents) (hc : c.context = context)
    (hx : x.directory.Ordered) (hk : x.directory.entries c.function ≠ []) :
    ∃ taken, Pursued context (x.directory.entries c.function) sents taken ∧
      r' = taken.map fun f => ⟨caller, f, { c with handler := f.value.handler }⟩ := by
  cases h with
  | elsewhere h => exact (h ⟨hc, trivial⟩).elim
  | unknown _ _ _ hd => exact (hk hd).elim
  | accepted _ _ _ missed rest f hd hm =>
    have ho := hx.sorted c.function
    rw [hd] at ho ⊢
    exact ⟨some f, pursued_taken hc hm ho, rfl⟩
  | untaken _ _ _ _ hd hm => exact ⟨none, hd ▸ pursued_none hc hm caller, rfl⟩

/-! ### Entries that stay -/

theorem next_le_run (es : List ExchangeEvent) (x : Exchange) :
    x.directory.next ≤ (x.run es).1.directory.next := by
  induction es generalizing x with
  | nil => exact Nat.le_refl _
  | cons e es ih => exact Nat.le_trans (next_le_step x e) (ih (x.step e).1)

/-- An entry that was there at first and is there after one more event was there before it. -/
theorem listed_before (hx : x.directory.Ordered) {es : List ExchangeEvent} {e : ExchangeEvent}
    {name : String} {f : Entry Route} (hf : f ∈ x.directory.entries name)
    (hf' : f ∈ ((x.run es).1.step e).1.directory.entries name) :
    f ∈ (x.run es).1.directory.entries name := by
  rcases mem_entries_step hf' with h | h
  · exact h
  · have hused := hx.used name f hf
    have hnext := next_le_run es x
    omega

/-! ### The way of a call -/

/-- What comes of a call that comes in, and of the events after it. -/
def serve (x : Exchange) (caller : ClientId) (c : Call) (es : List ExchangeEvent) :
    Exchange × List Sent :=
  x.run (.received caller (.call c) :: es)

/-- The handlers that a call has been offered to since it came in. -/
def tried (x : Exchange) (caller : ClientId) (c : Call) (es : List ExchangeEvent) :
    List (Entry Route) :=
  triedFor c.context (x.serve caller c es).2

/-- A handler was tried and does not have the call any more: it could not be reached, or it was
serving the call when it declined it or its client left. -/
def Spent (x : Exchange) (caller : ClientId) (c : Call) (es : List ExchangeEvent)
    (f : Entry Route) : Prop :=
  Missed c.context (x.serve caller c es).2 f ∨
    ∃ es₁ e es₂ r, es = es₁ ++ e :: es₂ ∧
      (x.serve caller c es₁).1.running.get? c.context = some r ∧ r.callee = f ∧
      e.Frees c.context r

/-- How far a call has gone that some handler has taken, or none. -/
structure Standing (x : Exchange) (caller : ClientId) (c : Call) (es : List ExchangeEvent)
    (taken : Option (Entry Route)) : Prop where
  last : ∀ f, taken = some f → (x.tried caller c es).getLast? = some f
  /-- Of the entries that have been there all the time, those are tried that do not come after the
  one that has taken the call. -/
  reached : ∀ f ∈ x.directory.entries c.function,
    f ∈ (x.serve caller c es).1.directory.entries c.function →
      (∀ g, taken = some g → ¬ g.rank < f.rank) → f ∈ x.tried caller c es
  spent : ∀ f ∈ x.tried caller c es, taken ≠ some f → x.Spent caller c es f

/-- The way that a call has gone. -/
structure Walk (x : Exchange) (caller : ClientId) (c : Call) (es : List ExchangeEvent) :
    Prop where
  first : (x.tried caller c es).head? = (x.directory.entries c.function).head?
  sorted : InOrder (x.tried caller c es)
  /-- Handlers are tried that are entries of the directory at that time. -/
  listed : ∀ es₁ e es₂, .received caller (.call c) :: es = es₁ ++ e :: es₂ →
    ∀ f ∈ triedFor c.context ((x.run es₁).1.step e).2,
      f ∈ ((x.run es₁).1.step e).1.directory.entries c.function
  underway : ∀ r, (x.serve caller c es).1.running.get? c.context = some r →
    r.call.function = c.function ∧ ¬ GaveUp c.context (x.serve caller c es).2 ∧
      x.Standing caller c es (some r.callee)
  exhausted : GaveUp c.context (x.serve caller c es).2 → x.Standing caller c es none

variable {caller : ClientId} {es : List ExchangeEvent} {e : ExchangeEvent}

theorem serve_nil : x.serve caller c [] = x.step (.received caller (.call c)) := by
  simp [serve, run]

theorem serve_snoc : x.serve caller c (es ++ [e]) =
    (((x.serve caller c es).1.step e).1,
      (x.serve caller c es).2 ++ ((x.serve caller c es).1.step e).2) :=
  run_snoc x (.received caller (.call c) :: es) e

theorem tried_snoc : x.tried caller c (es ++ [e]) =
    x.tried caller c es ++ triedFor c.context ((x.serve caller c es).1.step e).2 := by
  unfold tried
  rw [serve_snoc, triedFor_append]

theorem Spent.snoc {f : Entry Route} (h : x.Spent caller c es f) :
    x.Spent caller c (es ++ [e]) f := by
  rcases h with h | ⟨es₁, e', es₂, r, rfl, h⟩
  · left
    rw [serve_snoc]
    exact h.append_left
  · exact .inr ⟨es₁, e', es₂ ++ [e], r, by simp, h⟩

theorem listed_serve (hx : x.directory.Ordered) {name : String} {f : Entry Route}
    (hf : f ∈ x.directory.entries name)
    (hf' : f ∈ (x.serve caller c (es ++ [e])).1.directory.entries name) :
    f ∈ (x.serve caller c es).1.directory.entries name := by
  rw [serve_snoc] at hf'
  exact listed_before hx hf hf'

theorem Standing.nil {taken : Option (Entry Route)}
    (h : Pursued c.context (x.directory.entries c.function)
      (x.step (.received caller (.call c))).2 taken) : x.Standing caller c [] taken := by
  rw [← serve_nil] at h
  refine ⟨h.last, ?_, ?_⟩
  · intro f hf _ hle
    exact h.reached f hf hle
  · intro f hf hne
    exact .inl (h.missed f hf hne)

theorem Standing.silent {taken : Option (Entry Route)} (h : x.Standing caller c es taken)
    (hx : x.directory.Ordered)
    (hs : triedFor c.context ((x.serve caller c es).1.step e).2 = []) :
    x.Standing caller c (es ++ [e]) taken := by
  have htried : x.tried caller c (es ++ [e]) = x.tried caller c es := by
    rw [tried_snoc, hs, List.append_nil]
  constructor
  case last =>
    rw [htried]
    exact h.last
  case reached =>
    intro f hf hf' hle
    rw [htried]
    exact h.reached f hf (listed_serve hx hf hf') hle
  case spent =>
    intro f hf hne
    rw [htried] at hf
    exact (h.spent f hf hne).snoc

/-- A call that goes on leaves its callee behind and reaches the candidates after it. -/
theorem Standing.pursue {r : Running} {taken : Option (Entry Route)}
    (h : x.Standing caller c es (some r.callee)) (hx : x.directory.Ordered)
    (hr : (x.serve caller c es).1.running.get? c.context = some r) (he : e.Frees c.context r)
    (hp : Pursued c.context
      (((x.serve caller c es).1.step e).1.directory.after c.function r.callee.rank)
      ((x.serve caller c es).1.step e).2 taken) :
    x.Standing caller c (es ++ [e]) taken := by
  constructor
  case last =>
    intro f hf
    rw [tried_snoc, List.getLast?_append, hp.last f hf]
    rfl
  case reached =>
    intro f hf hf' hle
    rw [tried_snoc]
    -- An entry after the callee is a candidate now; any other had its turn before.
    by_cases hlt : r.callee.rank < f.rank
    · have hafter := hf'
      rw [serve_snoc] at hafter
      exact List.mem_append_right _ (hp.reached f (Directory.mem_after.2 ⟨hafter, hlt⟩) hle)
    · refine List.mem_append_left _ (h.reached f hf (listed_serve hx hf hf') ?_)
      rintro g ⟨⟩
      exact hlt
  case spent =>
    intro f hf hne
    rw [tried_snoc] at hf
    rcases List.mem_append.1 hf with hf | hf
    · -- The callee is left behind by this very event.
      by_cases hfr : r.callee = f
      · exact .inr ⟨es, e, [], r, rfl, hr, hfr, he⟩
      · exact (h.spent f hf (fun h => hfr (Option.some.inj h))).snoc
    · left
      rw [serve_snoc]
      exact (hp.missed f hf hne).append_right

/-- A call that is accepted has gone the first part of its way. -/
theorem walk_nil (hx : x.directory.Ordered) (hc : x.Coherent)
    (hfresh : x.running.get? c.context = none) (hk : x.directory.entries c.function ≠ []) :
    x.Walk caller c [] := by
  have hdir : (x.step (.received caller (.call c))).1.directory = x.directory := step_directory ..
  have hturn := step_turn hc (.received caller (.call c)) c.context
  rw [TurnsInto, hfresh] at hturn
  obtain ⟨taken, hp, hr'⟩ := hturn.accepts rfl (hdir.symm ▸ hx) (hdir.symm ▸ hk)
  rw [hdir] at hp
  have hp := hp.of_about
  have hstanding := Standing.nil hp
  have htried : x.tried caller c [] =
      triedFor c.context (x.step (.received caller (.call c))).2 := by
    rw [tried, serve_nil]
  constructor
  case first =>
    rw [htried]
    exact hp.head?
  case sorted =>
    rw [htried]
    exact (hx.sorted c.function).sublist hp.start.sublist
  case listed =>
    intro es₁ e es₂ hsplit f hf
    obtain ⟨rfl, ⟨⟩⟩ | ⟨_, _, h⟩ := List.cons_eq_append_iff.1 hsplit
    · show f ∈ (x.step _).1.directory.entries c.function
      rw [hdir]
      exact hp.start.subset hf
    · simp at h
  case underway =>
    intro r hr
    rw [serve_nil, hr'] at hr
    obtain ⟨f, rfl, rfl⟩ := Option.map_eq_some_iff.1 hr
    refine ⟨rfl, ?_, hstanding⟩
    rw [serve_nil]
    intro h
    cases hp.gaveUp h
  case exhausted =>
    intro h
    rw [serve_nil] at h
    rwa [← hp.gaveUp h]

theorem Walk.listed_snoc (h : x.Walk caller c es)
    (hlast : ∀ f ∈ triedFor c.context ((x.serve caller c es).1.step e).2,
      f ∈ ((x.serve caller c es).1.step e).1.directory.entries c.function)
    (es₁ : List ExchangeEvent) (e' : ExchangeEvent) (es₂ : List ExchangeEvent)
    (hsplit : .received caller (.call c) :: (es ++ [e]) = es₁ ++ e' :: es₂) :
    ∀ f ∈ triedFor c.context ((x.run es₁).1.step e').2,
      f ∈ ((x.run es₁).1.step e').1.directory.entries c.function := by
  rw [← List.cons_append] at hsplit
  rcases List.eq_nil_or_concat es₂ with rfl | ⟨init, last, rfl⟩
  · obtain ⟨rfl, he⟩ := List.append_inj' hsplit rfl
    obtain rfl := List.cons.inj he |>.1
    exact hlast
  · rw [List.concat_eq_append, ← List.cons_append, ← List.append_assoc] at hsplit
    exact h.listed es₁ e' init (List.append_inj' hsplit rfl).1

/-- An event that offers nothing leaves the way of a call as it is. -/
theorem Walk.silent {r : Running} (h : x.Walk caller c es) (hx : x.directory.Ordered)
    (hr : (x.serve caller c es).1.running.get? c.context = some r)
    (hs : Silent c.context ((x.serve caller c es).1.step e).2)
    (hsame : ∀ t, ((x.serve caller c es).1.step e).1.running.get? c.context = some t → t = r) :
    x.Walk caller c (es ++ [e]) := by
  obtain ⟨hfun, hpending, hstanding⟩ := h.underway r hr
  obtain ⟨hnone, hquiet⟩ := hs
  have htried : x.tried caller c (es ++ [e]) = x.tried caller c es := by
    rw [tried_snoc, hnone, List.append_nil]
  have hgave : ¬ GaveUp c.context (x.serve caller c (es ++ [e])).2 := by
    rw [serve_snoc, gaveUp_append]
    exact not_or.2 ⟨hpending, hquiet⟩
  constructor
  case first =>
    rw [htried]
    exact h.first
  case sorted =>
    rw [htried]
    exact h.sorted
  case listed =>
    refine h.listed_snoc ?_
    rw [hnone]
    intro f hf
    cases hf
  case underway =>
    intro t ht
    rw [serve_snoc] at ht
    obtain rfl := hsame t ht
    exact ⟨hfun, hgave, hstanding.silent hx hnone⟩
  case exhausted =>
    intro h
    exact (hgave h).elim

/-- A call that goes on goes on in order. -/
theorem Walk.pursue {r : Running} {taken : Option (Entry Route)} (h : x.Walk caller c es)
    (hx : x.directory.Ordered) (hr : (x.serve caller c es).1.running.get? c.context = some r)
    (he : e.Frees c.context r)
    (hp : Pursued c.context
      (((x.serve caller c es).1.step e).1.directory.after r.call.function r.callee.rank)
      ((x.serve caller c es).1.step e).2 taken)
    (hr' : ((x.serve caller c es).1.step e).1.running.get? c.context = taken.map fun f =>
      { r with callee := f, call := { r.call with handler := f.value.handler } }) :
    x.Walk caller c (es ++ [e]) := by
  obtain ⟨hfun, hpending, hstanding⟩ := h.underway r hr
  have hy : ((x.serve caller c es).1.step e).1.directory.Ordered :=
    ordered_step (ordered_run _ hx) e
  have hlast := hstanding.last r.callee rfl
  rw [hfun] at hp
  have hgoes := hstanding.pursue hx hr he hp
  have hgave (h : GaveUp c.context (x.serve caller c (es ++ [e])).2) : taken = none := by
    rw [serve_snoc, gaveUp_append] at h
    exact hp.gaveUp (h.resolve_left hpending)
  constructor
  case first =>
    rw [tried_snoc, List.head?_append, h.first]
    cases hk : (x.directory.entries c.function).head? with
    | some f => rfl
    | none =>
      rw [← h.first, List.head?_eq_none_iff] at hk
      rw [hk] at hlast
      cases hlast
  case sorted =>
    rw [tried_snoc]
    refine h.sorted.append hlast ((hy.after c.function r.callee.rank).sublist hp.start.sublist) ?_
    intro f hf
    exact (Directory.mem_after.1 (hp.start.subset hf)).2
  case listed =>
    refine h.listed_snoc ?_
    intro f hf
    exact (Directory.mem_after.1 (hp.start.subset hf)).1
  case underway =>
    intro t ht
    rw [serve_snoc, hr'] at ht
    obtain ⟨f, rfl, rfl⟩ := Option.map_eq_some_iff.1 ht
    refine ⟨hfun, ?_, hgoes⟩
    intro h
    cases hgave h
  case exhausted =>
    intro h
    rwa [← hgave h]

theorem walk_snoc (h : x.Walk caller c es) (hx : x.directory.Ordered) (hc : x.Coherent)
    (hrun : ((x.serve caller c es).1.running.get? c.context).isSome) (e : ExchangeEvent) :
    x.Walk caller c (es ++ [e]) := by
  obtain ⟨r, hr⟩ := Option.isSome_iff_exists.1 hrun
  have hyc : (x.serve caller c es).1.Coherent := coherent_run _ hc
  have hyo : ((x.serve caller c es).1.step e).1.directory.Ordered :=
    ordered_step (ordered_run _ hx) e
  have hturn := step_turn hyc e c.context
  rw [TurnsInto, hr] at hturn
  rcases hturn.pursues (hyc c.context r hr) hyo with ⟨hs, hsame⟩ | ⟨he, taken, hp, hr'⟩
  · exact h.silent hx hr hs.of_about hsame
  · exact h.pursue hx hr he hp.of_about hr'

theorem walk_of_service (hx : x.directory.Ordered) (hc : x.Coherent)
    (h : Service x caller c es) : x.Walk caller c es := by
  obtain ⟨hfresh, hknown, hthrough⟩ := h
  -- By induction on the last event, through which the call was still under way.
  induction es using List.reverseRecOn with
  | nil => exact walk_nil hx hc hfresh hknown
  | append_singleton es e ih =>
    obtain ⟨hthrough, hrun⟩ := servedThrough_snoc.1 hthrough
    exact walk_snoc (ih hthrough) hx hc hrun e

/-- **Calls go on in dispatch order.**  Take a call that is accepted after some past, at any moment
until it has ended.  Only entries that are listed under its function at that time are tried, in
the strict order of their ranks, and the first of them is the least at acceptance.  While the call
is running it is with the last one that was tried, and of the entries that have been there since it
was accepted all are tried that do not come after that one.  When the caller is told that there is
nobody left, all entries are tried that have been there since, and each one that was tried could not
be reached, or declined the call or left while it was serving it. -/
theorem fallback_in_order (past : List ExchangeEvent) {caller : ClientId} {c : Call}
    {es : List ExchangeEvent} (h : Service (run {} past).1 caller c es) :
    let x := (run {} past).1
    let y := (x.serve caller c es).1
    (∀ es₁ e es₂, .received caller (.call c) :: es = es₁ ++ e :: es₂ →
      ∀ f ∈ triedFor c.context ((x.run es₁).1.step e).2,
        f ∈ ((x.run es₁).1.step e).1.directory.entries c.function) ∧
    (x.tried caller c es).Pairwise (·.rank < ·.rank) ∧
    (∃ f ∈ x.directory.entries c.function, (x.tried caller c es).head? = some f ∧
      ∀ g ∈ x.directory.entries c.function, g ≠ f → f.rank < g.rank) ∧
    (∀ r, y.running.get? c.context = some r →
      (x.tried caller c es).getLast? = some r.callee ∧
      ∀ f ∈ x.directory.entries c.function, f ∈ y.directory.entries c.function →
        ¬ r.callee.rank < f.rank → f ∈ x.tried caller c es) ∧
    (GaveUp c.context (x.serve caller c es).2 →
      (∀ f ∈ x.directory.entries c.function, f ∈ y.directory.entries c.function →
        f ∈ x.tried caller c es) ∧
      ∀ f ∈ x.tried caller c es, x.Spent caller c es f) := by
  intro x y
  have hx : x.directory.Ordered := ordered_run past Directory.ordered_empty
  have hwalk : x.Walk caller c es := walk_of_service hx (coherent_run past coherent_empty) h
  refine ⟨hwalk.listed, hwalk.sorted, ?_, ?_, ?_⟩
  · have hsorted := hx.sorted c.function
    have hfirst := hwalk.first
    cases hk : x.directory.entries c.function with
    | nil => exact (h.known hk).elim
    | cons f fs =>
      rw [hk] at hsorted hfirst
      refine ⟨f, List.mem_cons_self, hfirst, ?_⟩
      intro g hg hne
      exact hsorted.rank_lt_of_head hg hne
  · intro r hr
    obtain ⟨_, _, hstanding⟩ := hwalk.underway r hr
    refine ⟨hstanding.last r.callee rfl, ?_⟩
    intro f hf hf' hle
    refine hstanding.reached f hf hf' ?_
    rintro g ⟨⟩
    exact hle
  · intro hgave
    have hstanding := hwalk.exhausted hgave
    refine ⟨?_, ?_⟩
    · intro f hf hf'
      exact hstanding.reached f hf hf' (by simp)
    · intro f hf
      exact hstanding.spent f hf (by simp)

/-- A call goes to client 3, which declines it, and on to 2, which leaves, past 4, whose line has
died, to 5, which declines it.  It is past the place of client 6 when that registers. -/
theorem fallback_exhausted :
    let past : List ExchangeEvent :=
      [.connected 1, .connected 2, .connected 3, .connected 4, .connected 5, .connected 6,
        .received 2 (.register "r2" "f" 5 0), .received 3 (.register "r3" "f" 7 0),
        .received 4 (.register "r4" "f" 5 0), .received 5 (.register "r5" "f" 1 0), .muted 4]
    let c : Call := { context := "c", function := "f" }
    let es : List ExchangeEvent :=
      [.received 6 (.register "r6" "f" 9 0), .received 3 (.result "c" .declined), .left 2,
        .received 5 (.result "c" .declined)]
    let x := (run {} past).1
    Service x 1 c es ∧ (x.tried 1 c es).map (·.value.client) = [3, 2, 4, 5] ∧
      GaveUp "c" (x.serve 1 c es).2 ∧ ∀ f ∈ x.tried 1 c es, x.Spent 1 c es f := by
  intro past c es x
  have hservice : Service x 1 c es :=
    ⟨by decide, by decide, by decide, by decide, by decide, by decide, trivial⟩
  have hgave : GaveUp "c" (x.serve 1 c es).2 :=
    ⟨⟨1, .answered "c" .declined, true⟩, by decide, rfl⟩
  obtain ⟨_, _, _, _, hover⟩ := fallback_in_order past hservice
  exact ⟨hservice, by decide, hgave, (hover hgave).2⟩

end Exchange
end Switchboard
