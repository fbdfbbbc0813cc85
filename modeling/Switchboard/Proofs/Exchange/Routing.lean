import Switchboard.Proofs.Directory.Registration
import Switchboard.Proofs.Exchange.Departure

/-! # Who takes a call

A call goes to the first of the handlers in question whose client can be reached.  For a new call
these are all handlers of its function, for one that goes on they are the handlers after its own.

* **The choice.** `First` says of ranks which entry that is, and `Hands` what is sent on the way to
  it: failed offers to entries before it, and one offer that is delivered.  `Routes` and `GoesFurther`
  list what can become of a new call and of one that goes on.
* **Going on in passes.** A running call can be handed on in passes that know nothing of what they
  passed over but the rank at which the call stands (`pass`, `Passes`).  The entries after that rank
  become fewer with every pass, so the passes come to an end, and what they come to is `reroute`
  (`passes_reroute`, `Passes.unique`).  A new call that its first handler misses goes on likewise
  (`call_of_missed`).
* **Main statement.** `first_reachable_serves`. -/

namespace Switchboard

namespace Keyed

variable {κ ν : Type} [DecidableEq κ] {m : Keyed κ ν} {k : κ}

theorem erase_modify (m : Keyed κ ν) (k : κ) (f : ν → ν) : (m.modify k f).erase k = m.erase k := by
  refine Keyed.ext ?_
  rw [entries_erase, entries_erase, modify, entries_map, List.filter_map]
  refine (List.map_congr_left fun e he => ?_).trans (List.map_id _)
  have hne : e.1 ≠ k := by simpa using (List.mem_filter.1 he).2
  simp [hne]

theorem erase_insert_of_new (h : m.get? k = none) (v : ν) : (m.insert k v).erase k = m := by
  have hkeep : m.erase k = m := erase_of_none h
  refine Keyed.ext ?_
  rw [entries_erase, entries_insert_of_new h, List.filter_append, ← entries_erase, hkeep]
  simp

theorem modify_insert_of_new (h : m.get? k = none) (v : ν) (f : ν → ν) :
    (m.insert k v).modify k f = m.insert k (f v) := by
  have hother : ∀ e ∈ m.entries, e.1 ≠ k := by
    rintro e he rfl
    exact get?_eq_none_iff.1 h (List.mem_map_of_mem he)
  refine Keyed.ext ?_
  rw [modify, entries_map, entries_insert_of_new h, entries_insert_of_new h, List.map_append]
  congr 1
  · refine (List.map_congr_left fun e he => ?_).trans (List.map_id _)
    simp [hother e he]
  · simp

end Keyed

/-- A running call as it stands when it has been moved to an entry. -/
def Running.movedTo (r : Running) (e : Entry Route) : Running :=
  { r with callee := e, call := { r.call with handler := e.value.handler } }

namespace Exchange

variable {x : Exchange} {context : String} {caller : ClientId} {c : Call} {r : Running}
  {e : Entry Route} {es rest missed : List (Entry Route)}

/-! ### The choice -/

/-- Of some entries, this is the first that can be reached. -/
structure First (x : Exchange) (es : List (Entry Route)) (e : Entry Route) : Prop where
  mem : e ∈ es
  reachable : x.Reachable e.value.client
  least : ∀ f ∈ es, x.Reachable f.value.client → f = e ∨ e.rank < f.rank

/-- A call is delivered once, to one of some entries and under the id of that handler.  All else that
is sent are offers to entries before it. -/
structure Hands (x : Exchange) (c : Call) (es : List (Entry Route)) (e : Entry Route)
    (sents : List Sent) : Prop where
  delivered : sents.filter (·.delivered) =
    [⟨e.value.client, .offered e.rank { c with handler := e.value.handler }, true⟩]
  offers : ∀ s ∈ sents, ∃ f ∈ es, s = x.offering c f ∧ (f = e ∨ f.rank < e.rank)

theorem first_of_split (ho : InOrder es) (hes : es = missed ++ e :: rest)
    (hm : x.Unreachable missed) (he : x.Reachable e.value.client) : x.First es e := by
  subst hes
  refine ⟨by simp, he, ?_⟩
  intro f hf hreach
  rcases List.mem_append.1 hf with hf | hf
  · exact absurd hreach (hm f hf)
  · by_cases hfe : f = e
    · exact .inl hfe
    · have hlate : InOrder (e :: rest) := (List.pairwise_append.1 ho).2.1
      exact .inr (hlate.rank_lt_of_head hf hfe)

theorem hands_of_split (ho : InOrder es) (hes : es = missed ++ e :: rest)
    (hm : x.Unreachable missed) (he : x.Reachable e.value.client) :
    x.Hands c es e ((missed ++ [e]).map (x.offering c)) := by
  subst hes
  constructor
  · have hlost : (missed.map (x.offering c)).filter (·.delivered) = [] := by
      refine List.filter_eq_nil_iff.2 fun s hs => ?_
      obtain ⟨f, hf, rfl⟩ := List.mem_map.1 hs
      exact mt (x.send_delivered _ _).1 (hm f hf)
    have htaken : x.offering c e =
        ⟨e.value.client, .offered e.rank { c with handler := e.value.handler }, true⟩ := by
      simp only [offering, send, show x.lines.get? e.value.client = some .live from he,
        decide_true]
    rw [List.map_append, List.filter_append, hlost, List.map_singleton, htaken]
    rfl
  · intro s hs
    obtain ⟨f, hf, rfl⟩ := List.mem_map.1 hs
    refine ⟨f, ?_, rfl, ?_⟩
    · rw [List.append_cons]
      exact List.mem_append_left _ hf
    · rcases List.mem_append.1 hf with hf | hf
      · exact .inr ((List.pairwise_append.1 ho).2.2 f hf e List.mem_cons_self)
      · exact .inl (List.mem_singleton.1 hf)

/-! ### What becomes of a call -/

/-- A new call is recorded as served by a handler. -/
def seat (x : Exchange) (caller : ClientId) (c : Call) (e : Entry Route) : Exchange :=
  { x with
    running := x.running.insert c.context ⟨caller, e, { c with handler := e.value.handler }⟩ }

/-- What can become of a new call. -/
inductive Routes (x : Exchange) (caller : ClientId) (c : Call) : Exchange × List Sent → Prop
  /-- The function has no handlers. -/
  | unknown (h : x.directory.entries c.function = []) :
    Routes x caller c (x, [x.send caller
      (.answered c.context (.fault ⟨.unknownRpc, .obj [("function", .str c.function)]⟩))])
  | taken (e : Entry Route) (sents : List Sent) (hf : x.First (x.directory.entries c.function) e)
      (hs : x.Hands c (x.directory.entries c.function) e sents) :
    Routes x caller c (x.seat caller c e, sents)
  /-- The function has handlers, but none of them can be reached. -/
  | untaken (h : x.directory.entries c.function ≠ [])
      (hu : x.Unreachable (x.directory.entries c.function)) :
    Routes x caller c (x, (x.directory.entries c.function).map (x.offering c) ++
      [x.send caller (.answered c.context .declined)])

/-- What can become of a running call that goes on to the entries after its own. -/
inductive GoesFurther (x : Exchange) (context : String) (r : Running) :
    Exchange × List Sent → Prop
  | taken (e : Entry Route) (sents : List Sent)
      (hf : x.First (x.directory.after r.call.function r.callee.rank) e)
      (hs : x.Hands r.call (x.directory.after r.call.function r.callee.rank) e sents) :
    GoesFurther x context r
      ({ x with running := x.running.modify context (·.movedTo e) }, sents)
  | exhausted (hu : x.Unreachable (x.directory.after r.call.function r.callee.rank)) :
    GoesFurther x context r ({ x with running := x.running.erase context },
      (x.directory.after r.call.function r.callee.rank).map (x.offering r.call) ++
        [x.send r.caller (.answered context .declined)])

theorem routes_call (hd : x.directory.Ordered) (hr : x.running.get? c.context = none)
    (caller : ClientId) : x.Routes caller c (x.call caller c) := by
  rw [call, if_neg (by rw [Keyed.contains, hr]; simp)]
  split
  · next h => exact .unknown h
  · next h =>
    rcases x.offer_cases c (x.directory.entries c.function) with
      ⟨ho, hu⟩ | ⟨missed, e, rest, hes, hm, he, ho⟩
    · simp only [ho]
      exact .untaken h hu
    · simp only [ho]
      have hsorted := hd.sorted c.function
      exact .taken e _ (first_of_split hsorted hes hm he) (hands_of_split hsorted hes hm he)

theorem goesFurther_reroute (hd : x.directory.Ordered) (hr : x.running.get? context = some r) :
    x.GoesFurther context r (x.reroute context) := by
  rcases reroute_cases hr with ⟨hu, h⟩ | ⟨missed, e, rest, hes, hm, he, h⟩
  · rw [h]
    exact .exhausted hu
  · rw [h]
    have hsorted := hd.after r.call.function r.callee.rank
    exact .taken e _ (first_of_split hsorted hes hm he) (hands_of_split hsorted hes hm he)

/-- A call that goes on is offered only to entries after the one at which it stands. -/
theorem GoesFurther.rank_lt {p : Exchange × List Sent} (h : x.GoesFurther context r p) :
    ∀ s ∈ p.2, ∀ rank d, s.notice = .offered rank d → r.callee.rank < rank := by
  have later {f : Entry Route} (hf : f ∈ x.directory.after r.call.function r.callee.rank)
      {rank : Rank} {d : Call} (hn : (x.offering r.call f).notice = .offered rank d) :
      r.callee.rank < rank := by
    obtain ⟨rfl, _⟩ := Notice.offered.inj hn
    exact (Directory.mem_after.1 hf).2
  intro s hs rank d hn
  cases h with
  | taken e sents hf hands =>
    obtain ⟨f, hf, rfl, _⟩ := hands.offers s hs
    exact later hf hn
  | exhausted =>
    rcases List.mem_append.1 hs with hs | hs
    · obtain ⟨f, hf, rfl⟩ := List.mem_map.1 hs
      exact later hf hn
    · rw [List.mem_singleton.1 hs] at hn
      cases hn

/-! ### Going on in passes -/

/-- A pass over a running call: it is moved to the entry after its own and offered there, or
answered as declined if there is none.  With that comes whether it was the last pass. -/
def pass (x : Exchange) (context : String) : (Exchange × List Sent) × Bool :=
  match x.running.get? context with
  | none => ((x, []), true)
  | some r =>
    match x.directory.after? r.call.function r.callee.rank with
    | none =>
      (({ x with running := x.running.erase context },
        [x.send r.caller (.answered context .declined)]), true)
    | some e =>
      (({ x with running := x.running.modify context (·.movedTo e) }, [x.offering r.call e]),
        (x.offering r.call e).delivered)

/-- A number of passes, of which only the last one is the last, and what comes of them. -/
inductive Passes (context : String) : Exchange → Nat → Exchange × List Sent → Prop
  | last {x : Exchange} {p : Exchange × List Sent} (h : x.pass context = (p, true)) :
    Passes context x 1 p
  | again {x : Exchange} {p q : Exchange × List Sent} {n : Nat} (h : x.pass context = (p, false))
      (hs : Passes context p.1 n q) : Passes context x (n + 1) (q.1, p.2 ++ q.2)

theorem Passes.unique {n m : Nat} {p q : Exchange × List Sent} (h : Passes context x n p)
    (h' : Passes context x m q) : n = m ∧ p = q := by
  induction h generalizing m q with
  | last h =>
    cases h' with
    | last h' => exact ⟨rfl, (Prod.mk.inj (h.symm.trans h')).1⟩
    | again h' => cases (Prod.mk.inj (h.symm.trans h')).2
  | again h _ ih =>
    cases h' with
    | last h' => cases (Prod.mk.inj (h.symm.trans h')).2
    | again h' hs' =>
      obtain ⟨rfl, _⟩ := Prod.mk.inj (h.symm.trans h')
      obtain ⟨rfl, rfl⟩ := ih hs'
      exact ⟨rfl, rfl⟩

/-- The entries after the first of those after a rank are the others of them. -/
theorem after_of_cons (hd : x.directory.Ordered) {function : String} {rank : Rank}
    (h : x.directory.after function rank = e :: rest) :
    x.directory.after function e.rank = rest := by
  have hsorted : InOrder ([] ++ e :: rest) := h ▸ hd.after function rank
  have hlater : rank < e.rank := by
    have hmem : e ∈ x.directory.after function rank := h ▸ List.mem_cons_self
    exact (Directory.mem_after.1 hmem).2
  have hnarrow : x.directory.after function e.rank =
      (x.directory.after function rank).filter (fun f => decide (e.rank < f.rank)) := by
    rw [Directory.after, Directory.after, List.filter_filter]
    refine List.filter_congr fun f _ => ?_
    by_cases hf : e.rank < f.rank
    · simp [hf, Rank.lt_trans hlater hf]
    · simp [hf]
  rw [hnarrow, h]
  exact hsorted.after_of_split

/-- The handler that a call names has no part in whom it is offered to. -/
theorem offer_handler (x : Exchange) (c : Call) (handler : Option HandlerId)
    (es : List (Entry Route)) : x.offer { c with handler } es = x.offer c es := by
  induction es with
  | nil => rfl
  | cons e es ih => simp only [offer, ih]

/-- Going on past an entry that cannot be reached is going on from there. -/
theorem reroute_of_missed (hr : x.running.get? context = some r)
    (h : x.directory.after r.call.function r.callee.rank = e :: rest)
    (hrest : x.directory.after r.call.function e.rank = rest)
    (he : ¬ x.Reachable e.value.client) :
    let y := { x with running := x.running.modify context (·.movedTo e) }
    x.reroute context = ((y.reroute context).1, x.offering r.call e :: (y.reroute context).2) := by
  intro y
  have hy : y.running.get? context = some (r.movedTo e) := by
    simp only [y, Keyed.get?_modify, if_true, hr, Option.map_some]
  have hafter : y.directory.after (r.movedTo e).call.function (r.movedTo e).callee.rank = rest :=
    hrest
  have hoffer : y.offer (r.movedTo e).call rest = x.offer r.call rest := by
    have hlines : y.lines = x.lines := rfl
    rw [offer_congr hlines]
    exact x.offer_handler r.call _ rest
  have hlost : (x.offering r.call e).delivered = false :=
    Bool.eq_false_iff.2 (mt (x.send_delivered _ _).1 he)
  have hmissed : x.offer r.call (e :: rest) =
      (x.offering r.call e :: (x.offer r.call rest).1, (x.offer r.call rest).2) := by
    rw [offer, show x.send e.value.client _ = x.offering r.call e from rfl, hlost]
    rfl
  rw [reroute, reroute, hr, hy]
  dsimp only
  rw [h, hafter, hmissed, hoffer]
  rcases x.offer r.call rest with ⟨sents, _ | f⟩
  · simp only [y, Keyed.erase_modify]
    rfl
  · simp only [y, Keyed.modify_modify]
    rfl

/-- The passes over a running call come to an end, after one more than there are entries after its
own, and to the same as going on at once. -/
theorem passes_reroute (hd : x.directory.Ordered) (hr : x.running.get? context = some r) :
    ∃ n ≤ (x.directory.after r.call.function r.callee.rank).length + 1,
      Passes context x n (x.reroute context) := by
  -- With every pass the first of the entries after the call's rank is used up.
  induction h : x.directory.after r.call.function r.callee.rank generalizing x r with
  | nil =>
    have hnone : x.directory.after? r.call.function r.callee.rank = none := by
      rw [Directory.after?_eq_head?, h]
      rfl
    refine ⟨1, Nat.le_refl 1, .last ?_⟩
    simp only [pass, hr, hnone, reroute, h, offer]
    rfl
  | cons e rest ih =>
    have hsome : x.directory.after? r.call.function r.callee.rank = some e := by
      rw [Directory.after?_eq_head?, h]
      rfl
    have hpass : x.pass context =
        (({ x with running := x.running.modify context (·.movedTo e) }, [x.offering r.call e]),
          (x.offering r.call e).delivered) := by
      simp only [pass, hr, hsome]
    by_cases he : x.Reachable e.value.client
    · have hdelivered : (x.offering r.call e).delivered = true := (x.send_delivered _ _).2 he
      refine ⟨1, Nat.le_add_left 1 _, .last ?_⟩
      rw [hpass, hdelivered, reroute, hr]
      dsimp only
      rw [h, offer, show x.send e.value.client _ = x.offering r.call e from rfl, hdelivered]
      rfl
    · have hlost : (x.offering r.call e).delivered = false :=
        Bool.eq_false_iff.2 (mt (x.send_delivered _ _).1 he)
      have hrest := after_of_cons hd h
      have hy : (x.running.modify context (·.movedTo e)).get? context = some (r.movedTo e) := by
        rw [Keyed.get?_modify, if_pos rfl, hr, Option.map_some]
      obtain ⟨n, hn, hpasses⟩ :=
        ih (x := { x with running := x.running.modify context (·.movedTo e) }) hd hy hrest
      refine ⟨n + 1, Nat.succ_le_succ hn, ?_⟩
      rw [reroute_of_missed hr h hrest he]
      exact .again (hpass.trans (by rw [hlost])) hpasses

/-- A new call that its first handler misses is recorded as served by that handler, and goes on from
there. -/
theorem call_of_missed (hd : x.directory.Ordered) (hr : x.running.get? c.context = none)
    (h : x.directory.entries c.function = e :: rest) (he : ¬ x.Reachable e.value.client)
    (caller : ClientId) :
    x.call caller c = (((x.seat caller c e).reroute c.context).1,
      x.offering c e :: ((x.seat caller c e).reroute c.context).2) := by
  have hy : (x.seat caller c e).running.get? c.context =
      some ⟨caller, e, { c with handler := e.value.handler }⟩ := by
    simp only [seat, Keyed.get?_insert_self]
  have hafter : (x.seat caller c e).directory.after c.function e.rank = rest := by
    have hsorted : InOrder ([] ++ e :: rest) := h ▸ hd.sorted c.function
    show x.directory.after c.function e.rank = rest
    rw [Directory.after, h]
    exact hsorted.after_of_split
  have hoffer : (x.seat caller c e).offer { c with handler := e.value.handler } rest =
      x.offer c rest := by
    have hlines : (x.seat caller c e).lines = x.lines := rfl
    rw [offer_congr hlines]
    exact x.offer_handler c _ rest
  have hlost : (x.offering c e).delivered = false :=
    Bool.eq_false_iff.2 (mt (x.send_delivered _ _).1 he)
  have hmissed : x.offer c (e :: rest) =
      (x.offering c e :: (x.offer c rest).1, (x.offer c rest).2) := by
    rw [offer, show x.send e.value.client _ = x.offering c e from rfl, hlost]
    rfl
  rw [call, if_neg (by rw [Keyed.contains, hr]; simp), h, reroute, hy]
  dsimp only
  rw [hafter, hmissed, hoffer]
  rcases x.offer c rest with ⟨sents, _ | f⟩
  · simp only [seat, Keyed.erase_insert_of_new hr]
    rfl
  · simp only [seat, Keyed.modify_insert_of_new hr]

/-! ### Main statement -/

/-- A state in which calls may go on: that between two events, or one within a departure, after some
calls of the client that leaves have been visited. -/
def Within (x y : Exchange) : Prop :=
  y = x ∨ ∃ client made served, y = (x.leaveInOrder client made served).1

theorem Within.ordered {y : Exchange} (h : x.Within y) (hd : x.directory.Ordered) :
    y.directory.Ordered := by
  rcases h with rfl | ⟨client, made, served, rfl⟩
  · exact hd
  · rw [leaveInOrder_directory]
    exact hd.retain fun _ r => r.client ≠ client

/-- **The first handler that can be reached serves a call.**  After every run from the beginning:

* A new call of an unknown function is answered as such, one that nobody can take is answered once
  as declined, and otherwise it is delivered once, to the first handler that can be reached, and
  recorded as served by it.
* If its first handler cannot be reached, a new call goes on from there in passes.
* A running call that goes on, also within a departure, is delivered once, to the first handler
  after its own that can be reached, or is over and answered once as declined.  Nobody at its own
  rank or before is offered it, and nothing else that is running changes.  It goes on in passes, of
  which there are at most one more than there are entries after its own.
* A call whose context is taken is refused, and nothing changes. -/
theorem first_reachable_serves {es : List ExchangeEvent} {p : Exchange × List Sent}
    (hp : Runs {} es p) :
    (∀ caller c, p.1.running.get? c.context = none → p.1.Routes caller c (p.1.call caller c)) ∧
    (∀ caller c e rest, p.1.running.get? c.context = none →
      p.1.directory.entries c.function = e :: rest → ¬ p.1.Reachable e.value.client →
        ∃ n ≤ rest.length + 1, ∃ sents,
          Passes c.context (p.1.seat caller c e) n ((p.1.call caller c).1, sents) ∧
            (p.1.call caller c).2 = p.1.offering c e :: sents) ∧
    (∀ y context r, p.1.Within y → y.running.get? context = some r →
      y.GoesFurther context r (y.reroute context) ∧
      (∀ s ∈ (y.reroute context).2, ∀ rank d, s.notice = .offered rank d → r.callee.rank < rank) ∧
      (∀ other, other ≠ context →
        (y.reroute context).1.running.get? other = y.running.get? other) ∧
      (∃ n, Passes context y n (y.reroute context)) ∧
      ∀ n q, Passes context y n q → q = y.reroute context ∧
        n ≤ (y.directory.after r.call.function r.callee.rank).length + 1) ∧
    (∀ caller c r, p.1.running.get? c.context = some r →
      p.1.call caller c = (p.1, [p.1.send caller
        (.answered c.context (.fault ⟨.invalidArgs, .obj [("context", .str c.context)]⟩))])) := by
  have hd : p.1.directory.Ordered := hp.ordered coherent_empty Directory.ordered_empty
  refine ⟨?_, ?_, ?_, ?_⟩
  · intro caller c hr
    exact routes_call hd hr caller
  · intro caller c e rest hr h he
    have hseat : (p.1.seat caller c e).running.get? c.context =
        some ⟨caller, e, { c with handler := e.value.handler }⟩ := by
      simp only [seat, Keyed.get?_insert_self]
    have hsorted : InOrder ([] ++ e :: rest) := h ▸ hd.sorted c.function
    have hafter : (p.1.seat caller c e).directory.after c.function e.rank = rest := by
      show p.1.directory.after c.function e.rank = rest
      rw [Directory.after, h]
      exact hsorted.after_of_split
    have hordered : (p.1.seat caller c e).directory.Ordered := hd
    obtain ⟨n, hn, hpasses⟩ := passes_reroute hordered hseat
    rw [hafter] at hn
    rw [call_of_missed hd hr h he caller]
    exact ⟨n, hn, _, hpasses, rfl⟩
  · intro y context r hy hr
    have hfurther := goesFurther_reroute (hy.ordered hd) hr
    obtain ⟨n, hn, hpasses⟩ := passes_reroute (hy.ordered hd) hr
    refine ⟨hfurther, hfurther.rank_lt, local_reroute.elsewhere y context, ⟨n, hpasses⟩, ?_⟩
    intro m q hq
    obtain ⟨rfl, rfl⟩ := hq.unique hpasses
    exact ⟨rfl, hn⟩
  · intro caller c r hr
    rw [call, if_pos (by rw [Keyed.contains, hr]; rfl)]

/-- Client 3 is dead, and then client 2 is as well: a new call passes over both of them.  The call
that client 2 served goes on when it leaves, past client 3, and finds client 4 in its second pass. -/
theorem first_reachable_serves_next :
    let p := run {} (serving ++ [.muted 2])
    let c : Call := { context := "e", function := "f" }
    let y := (p.1.leaveInOrder 2 ["d"] []).1
    p.1.Routes 1 c (p.1.call 1 c) ∧
      (p.1.call 1 c).2.map (fun s => (s.client, s.delivered)) =
        [(2, false), (3, false), (2, false), (4, true)] ∧
      (∃ r, y.running.get? "c" = some r ∧ y.GoesFurther "c" r (y.reroute "c")) ∧
      (y.reroute "c").2.map (fun s => (s.client, s.delivered)) = [(3, false), (4, true)] ∧
      Passes "c" y 2 (y.reroute "c") ∧
      ∀ n q, Passes "c" y n q → n ≤ 3 := by
  intro p c y
  obtain ⟨hnew, _, hfurther, _⟩ := first_reachable_serves (runs_run {} (serving ++ [.muted 2]))
  have hr : y.running.get? "c" = some ⟨1, ⟨⟨9, 0⟩, ⟨2, 1⟩⟩,
      { context := "c", function := "f", handler := some 1 }⟩ := by decide
  obtain ⟨hgoes, _, _, _, hpasses⟩ := hfurther y "c" _ (.inr ⟨2, ["d"], [], rfl⟩) hr
  refine ⟨hnew 1 c (by decide), by decide, ⟨_, hr, hgoes⟩, by decide, ?_, ?_⟩
  · have hfirst : y.pass "c" = (((y.pass "c").1.1, (y.pass "c").1.2), false) := by decide
    have hsecond : (y.pass "c").1.1.pass "c" = (((y.pass "c").1.1.pass "c").1, true) := by decide
    exact .again hfirst (.last hsecond)
  · intro n q hq
    exact (hpasses n q hq).2

end Exchange
end Switchboard
