import Switchboard.Proofs.Directory.Registration
import Switchboard.Proofs.Exchange.Departure

/-! # The order of visits does not matter

A client that leaves may have made calls and served calls, and both are visited in an order that
nobody promises.  Whatever these orders are, the exchange ends up in the same state, and the same has
been sent, up to the order of sending.

* **Departures.** The calls that the client served are looked for only after those that it made have
  been withdrawn (`Departs`).  They are the calls that it served for somebody else all along
  (`contexts_withdrawn`), so this is what `StepsTo` says (`departs_iff`).
* **Equal states.** For each context the outcome is the same (`StepsTo.like`), and visits keep the
  order of the running calls (`leaveInOrder_keys`), so the running calls are the same altogether
  (`Keyed.eq_of_get?`).
* **Equal notices.** What is sent about each context is the same, so the same is sent in all
  (`perm_of_about`).
* **Main statement.** `departure_unordered`, for one departure; `Runs.unordered`, for all those of a
  history. -/

namespace Switchboard

namespace Keyed

variable {κ ν : Type} [DecidableEq κ] {m n : Keyed κ ν} {ks : List κ}

theorem keys_erase_sublist (m : Keyed κ ν) (k : κ) : (m.erase k).keys.Sublist m.keys := by
  rw [keys, entries_erase]
  exact List.filter_sublist.map _

theorem keys_modify (m : Keyed κ ν) (k : κ) (f : ν → ν) : (m.modify k f).keys = m.keys := by
  rw [keys, modify, entries_map, List.map_map]
  rfl

/-- The entries are what is found under the keys of any list that has them in order. -/
theorem entries_eq_filterMap (hks : ks.Nodup) (hm : m.keys.Sublist ks) :
    m.entries = ks.filterMap fun k => (m.get? k).map (k, ·) := by
  have found : ∀ k ∈ ks, ∀ v, m.get? k = some v ↔ (k, v) ∈ m.entries :=
    fun k _ v => get?_eq_some_iff
  rw [keys] at hm
  generalize m.entries = es at hm found
  generalize m.get? = g at found
  induction ks generalizing es with
  | nil => simpa using hm
  | cons k ks ih =>
    obtain ⟨hk, hrest⟩ := List.nodup_cons.1 hks
    cases es with
    | nil =>
      have hnone : ∀ l ∈ k :: ks, (g l).map (l, ·) = none := by
        intro l hl
        cases hg : g l with
        | none => rfl
        | some v => cases (found l hl v).1 hg
      exact (List.filterMap_eq_nil_iff.2 hnone).symm
    | cons e es =>
      by_cases he : e.1 = k
      · subst he
        have hsome : g e.1 = some e.2 := (found e.1 List.mem_cons_self e.2).2 List.mem_cons_self
        rw [List.filterMap_cons, hsome]
        refine congrArg (e :: ·) (ih hrest es (List.cons_sublist_cons.1 hm) ?_)
        intro l hl v
        have hne : (l, v) ≠ e := by
          rintro rfl
          exact hk hl
        rw [found l (List.mem_cons_of_mem _ hl) v, List.mem_cons, or_iff_right hne]
      · have hlater : ((e :: es).map (·.1)).Sublist ks := by
          rcases List.sublist_cons_iff.1 hm with h | ⟨r, hr, _⟩
          · exact h
          · exact absurd (List.cons.inj hr).1 he
        have hnone : g k = none := by
          cases hg : g k with
          | none => rfl
          | some v =>
            have hmem := (found k List.mem_cons_self v).1 hg
            exact absurd (hlater.subset (List.mem_map_of_mem hmem)) hk
        rw [List.filterMap_cons, hnone]
        exact ih hrest _ hlater fun l hl => found l (List.mem_cons_of_mem _ hl)

theorem eq_of_get? (hks : ks.Nodup) (hm : m.keys.Sublist ks) (hn : n.keys.Sublist ks)
    (h : ∀ k, m.get? k = n.get? k) : m = n := by
  refine Keyed.ext ?_
  rw [entries_eq_filterMap hks hm, entries_eq_filterMap hks hn]
  exact congrArg (ks.filterMap ·) (funext fun k => congrArg _ (h k))

end Keyed

/-- The same has been sent if the same has been sent about every context. -/
theorem perm_of_about {s t : List Sent} (h : ∀ context, about context s = about context t) :
    s.Perm t := by
  refine List.perm_iff_count.2 fun a => ?_
  have hpick (l : List Sent) : (about a.notice.context l).count a = l.count a :=
    List.count_filter (by simp)
  rw [← hpick s, ← hpick t, h]

namespace Exchange

variable {x : Exchange} {client : ClientId} {made served : List String}

/-! ### What visits leave running -/

theorem withdraw_running (x : Exchange) (context : String) :
    (x.withdraw context).1.running = x.running.erase context := by
  cases h : x.running.get? context with
  | none => rw [withdraw_none h, Keyed.erase_of_none h]
  | some r => rw [withdraw_some h]

theorem reroute_keys (x : Exchange) (context : String) :
    (x.reroute context).1.running.keys.Sublist x.running.keys := by
  cases h : x.running.get? context with
  | none => rw [reroute_none h]
  | some r =>
    rcases reroute_cases h with ⟨_, e⟩ | ⟨_, _, _, _, _, _, e⟩ <;> rw [e]
    · exact x.running.keys_erase_sublist context
    · dsimp only
      rw [Keyed.keys_modify]

theorem forEach_keys {f : Exchange → String → Exchange × List Sent}
    (hf : ∀ x context, (f x context).1.running.keys.Sublist x.running.keys) (x : Exchange)
    (cs : List String) : (forEach f x cs).1.running.keys.Sublist x.running.keys := by
  induction cs generalizing x with
  | nil => exact .refl _
  | cons c cs ih => exact (ih (f x c).1).trans (hf x c)

/-- A departure keeps the order of the calls that go on running. -/
theorem leaveInOrder_keys (x : Exchange) (client : ClientId) (made served : List String) :
    (x.leaveInOrder client made served).1.running.keys.Sublist x.running.keys := by
  have hwithdraw (y : Exchange) (context : String) :
      (y.withdraw context).1.running.keys.Sublist y.running.keys := by
    rw [withdraw_running]
    exact y.running.keys_erase_sublist context
  exact (forEach_keys reroute_keys _ served).trans (forEach_keys hwithdraw _ made)

/-! ### Departures -/

/-- A departure: the calls that the client made are withdrawn, and then those that are found to be
served by it go on, both in some order. -/
inductive Departs (x : Exchange) (client : ClientId) : Exchange × List Sent → Prop
  | intro (made served : List String)
      (hm : made.Perm ((x.forget client).contexts (·.caller = client)))
      (hs : served.Perm ((forEach withdraw (x.forget client) made).1.contexts
        (·.callee.value.client = client))) :
    Departs x client (x.leaveInOrder client made served)

theorem forEach_withdraw_running (x : Exchange) (cs : List String) :
    (forEach withdraw x cs).1.running = x.running.filter fun context _ => context ∉ cs := by
  induction cs generalizing x with
  | nil =>
    refine Keyed.ext ?_
    simp [forEach, Keyed.filter]
  | cons c cs ih =>
    refine Keyed.ext ?_
    rw [forEach, ih, withdraw_running]
    simp only [Keyed.filter, Keyed.erase, List.filter_filter]
    refine List.filter_congr fun e _ => ?_
    simp [Bool.and_comm]

/-- The calls that a client is found to serve when its own have been withdrawn are those that it
served for somebody else. -/
theorem contexts_withdrawn (hm : made.Perm (x.contexts (·.caller = client))) :
    (forEach withdraw (x.forget client) made).1.contexts (·.callee.value.client = client) =
      x.contexts fun r => r.caller ≠ client && r.callee.value.client = client := by
  have hmade {e : String × Running} (he : e ∈ x.running.entries) :
      e.1 ∈ made ↔ e.2.caller = client := by
    rw [hm.mem_iff, mem_contexts, Keyed.get?_eq_some_iff.2 he]
    simp
  rw [contexts, contexts, forEach_withdraw_running]
  simp only [Keyed.keys, Keyed.filter, forget, List.filter_filter]
  refine congrArg _ (List.filter_congr fun e he => ?_)
  simp only [hmade he, decide_not, Bool.and_comm]

theorem departs_iff {q : Exchange × List Sent} : x.Departs client q ↔ x.StepsTo (.left client) q := by
  constructor
  · rintro ⟨made, served, hm, hs⟩
    have hmade : made.Perm (x.contexts (·.caller = client)) := hm
    rw [contexts_withdrawn hmade] at hs
    exact .left client made served hmade hs
  · intro h
    cases h with
    | left _ made served hm hs =>
      rw [← contexts_withdrawn hm] at hs
      exact .intro made served hm hs
    | stays _ hne => exact absurd rfl (hne client)

/-! ### Outcomes in any order -/

/-- Whatever an event may do, it comes to the same. -/
theorem StepsTo.unordered (hx : x.Coherent) {e : ExchangeEvent} {q q' : Exchange × List Sent}
    (hq : x.StepsTo e q) (hq' : x.StepsTo e q') : q.1 = q'.1 ∧ q.2.Perm q'.2 := by
  have hrunning (context : String) :
      q.1.running.get? context = q'.1.running.get? context := by
    rw [(hq.like hx context).1.running, (hq'.like hx context).1.running]
  have hsent : q.2.Perm q'.2 := by
    refine perm_of_about fun context => ?_
    rw [(hq.like hx context).2, (hq'.like hx context).2]
  refine ⟨?_, hsent⟩
  have hlines : q.1.lines = q'.1.lines := by rw [hq.lines hx, hq'.lines hx]
  have hdirectory : q.1.directory = q'.1.directory := by rw [hq.directory hx, hq'.directory hx]
  have hsame : q.1.running = q'.1.running := by
    cases hq with
    | left client made served =>
      cases hq' with
      | left _ made' served' =>
        exact Keyed.eq_of_get? x.running.nodup (x.leaveInOrder_keys client made served)
          (x.leaveInOrder_keys client made' served') hrunning
      | stays _ hne => exact absurd rfl (hne client)
    | stays _ hne =>
      cases hq' with
      | left client => exact absurd rfl (hne client)
      | stays => rfl
  obtain ⟨⟨_, _, _⟩, _⟩ := q
  obtain ⟨⟨_, _, _⟩, _⟩ := q'
  subst hlines hdirectory hsame
  rfl

theorem Runs.unordered (hx : x.Coherent) {es : List ExchangeEvent} {p p' : Exchange × List Sent}
    (hp : x.Runs es p) (hp' : x.Runs es p') : p.1 = p'.1 ∧ p.2.Perm p'.2 := by
  induction hp generalizing p' with
  | nil =>
    cases hp'
    exact ⟨rfl, .refl _⟩
  | cons hstep _ ih =>
    cases hp' with
    | cons hstep' hruns' =>
      obtain ⟨hstate, hsent⟩ := hstep.unordered hx hstep'
      rw [← hstate] at hruns'
      obtain ⟨hstate', hsent'⟩ := ih (hstep.coherent hx) hruns'
      exact ⟨hstate', hsent.append hsent'⟩

/-! ### Wanted orders -/

theorem arrange_perm (wanted cs : List String) : (arrange wanted cs).Perm cs := by
  unfold arrange
  split
  · assumption
  · exact .refl cs

theorem arrange_of_perm {wanted cs : List String} (h : wanted.Perm cs) :
    arrange wanted cs = wanted := if_pos h

/-- What an event may do is what it does in some wanted orders. -/
theorem stepsTo_iff {e : ExchangeEvent} {q : Exchange × List Sent} :
    x.StepsTo e q ↔ ∃ v, x.stepIn v e = q := by
  constructor
  · intro h
    cases h with
    | left client made served hm hs =>
      have hmade : arrange made (x.madeBy client) = made := arrange_of_perm hm
      have hserved : arrange served (x.servedBy client) = served := arrange_of_perm hs
      refine ⟨⟨made, served⟩, ?_⟩
      rw [stepIn, leaveIn, hmade, hserved]
    | stays e hne =>
      refine ⟨{}, ?_⟩
      cases e with
      | left client => exact absurd rfl (hne client)
      | connected | received | muted => rfl
  · rintro ⟨v, rfl⟩
    cases e with
    | left client => exact .left client _ _ (arrange_perm ..) (arrange_perm ..)
    | connected | received | muted => exact .stays _ nofun

theorem stepIn_fst (hx : x.Coherent) (v : Visits) (e : ExchangeEvent) :
    (x.stepIn v e).1 = (x.step e).1 :=
  ((stepsTo_iff.2 ⟨v, rfl⟩).unordered hx (x.stepsTo_step e)).1

theorem mem_stepIn (hx : x.Coherent) {v : Visits} {e : ExchangeEvent} {s : Sent} :
    s ∈ (x.stepIn v e).2 ↔ s ∈ (x.step e).2 :=
  ((stepsTo_iff.2 ⟨v, rfl⟩).unordered hx (x.stepsTo_step e)).2.mem_iff

theorem about_stepIn (hx : x.Coherent) (v : Visits) (e : ExchangeEvent) (context : String) :
    about context (x.stepIn v e).2 = about context (x.step e).2 :=
  ((stepsTo_iff.2 ⟨v, rfl⟩).like hx context).2

/-! ### Main statement -/

/-- **The order of visits does not matter.**  After every run from the beginning, and for any two
orders in which the departure of a client may visit the calls that the client made and those that it
served, the lines, the directory and the running calls are the same afterwards, and the same messages
are addressed to each client, and the same of them are delivered. -/
theorem departure_unordered {es : List ExchangeEvent} {client : ClientId}
    {p q q' : Exchange × List Sent} (hp : Runs {} es p) (hq : p.1.Departs client q)
    (hq' : p.1.Departs client q') :
    q.1.lines = q'.1.lines ∧ q.1.directory = q'.1.directory ∧ q.1.running = q'.1.running ∧
      (∀ other, (q.2.filter (·.client = other)).Perm (q'.2.filter (·.client = other))) ∧
      ∀ other, ((q.2.filter fun s => s.client = other && s.delivered).map (·.notice.message)).Perm
        ((q'.2.filter fun s => s.client = other && s.delivered).map (·.notice.message)) := by
  have hx : p.1.Coherent := hp.coherent coherent_empty
  obtain ⟨hstate, hsent⟩ := (departs_iff.1 hq).unordered hx (departs_iff.1 hq')
  rw [hstate]
  refine ⟨rfl, rfl, rfl, ?_, ?_⟩
  · intro other
    exact hsent.filter _
  · intro other
    exact (hsent.filter _).map _

/-- Client 2 leaves when it has made two calls and serves two others.  Both pairs are visited in both
orders: other calls are withdrawn first and others go on first, and it comes to the same. -/
theorem departure_unordered_pairs :
    let es : List ExchangeEvent :=
      [.connected 1, .connected 2, .connected 3, .received 2 (.register "r" "f" 9 1),
        .received 3 (.register "r" "f" 7 1), .received 3 (.register "r" "g" 5 2),
        .received 1 (.call { context := "a", function := "f" }),
        .received 3 (.call { context := "b", function := "f" }),
        .received 2 (.call { context := "c", function := "g" }),
        .received 2 (.call { context := "d", function := "g" })]
    let x := (run {} es).1
    let q := x.leaveInOrder 2 ["c", "d"] ["a", "b"]
    let q' := x.leaveInOrder 2 ["d", "c"] ["b", "a"]
    q.1.running = q'.1.running ∧ q.1.running.keys = ["a", "b"] ∧
      (q.2.filter (·.client = 3)).Perm (q'.2.filter (·.client = 3)) ∧
      q.2.map (·.notice.context) = ["c", "d", "a", "b"] ∧
      q'.2.map (·.notice.context) = ["d", "c", "b", "a"] := by
  intro es x q q'
  have hq : x.Departs 2 q := by
    apply Departs.intro
    · decide
    · decide
  have hq' : x.Departs 2 q' := by
    apply Departs.intro
    · decide
    · decide
  obtain ⟨_, _, hrunning, hsent, _⟩ := departure_unordered (runs_run {} es) hq hq'
  exact ⟨hrunning, by decide, hsent 3, by decide, by decide⟩

end Exchange
end Switchboard
