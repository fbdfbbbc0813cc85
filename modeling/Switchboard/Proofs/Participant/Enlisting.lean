import Switchboard.Proofs.Participant.Ledger

/-! # Registrations are atomic

A link that is asked to register a handler refuses at once, or asks the broker and waits for the
answer.  A registration that waits counts like one that is confirmed, and one that is rejected
leaves nothing behind.

* **Verdicts.** `Link.verdict?` says what a registration that waits is told in the end: the first
  result under its context, or that the link is lost.
* **Requests.** Only the command to register a handler makes the link ask for that
  (`requests_run`).
* **Runs.** A context that does not wait is told nothing (`verdicts_idle`), and a registration that
  waits is told its verdict (`verdicts_waiting`).
* **Main statement.** `registration_atomic`. -/

namespace Switchboard

theorem Keyed.filterMap_entries {κ ν β : Type} [DecidableEq κ] (m : Keyed κ ν) (k : κ)
    (f : ν → Option β) :
    (m.entries.filterMap fun e => if e.1 = k then f e.2 else none) =
      ((m.get? k).bind f).toList := by
  obtain ⟨es, hn⟩ := m
  unfold get?
  induction es with
  | nil => rfl
  | cons e es ih =>
    rw [List.map_cons, List.nodup_cons] at hn
    by_cases he : e.1 = k
    · have hrest : (es.filterMap fun e => if e.1 = k then f e.2 else none) = [] := by
        refine List.filterMap_eq_nil_iff.2 fun e' he' => if_neg fun hk => hn.1 ?_
        rw [he, ← hk]
        exact List.mem_map_of_mem he'
      rw [List.filterMap_cons, hrest, List.find?_cons_of_pos (by simpa using he), if_pos he]
      cases hf : f e.2 <;> simp [hf]
    · simp only [List.filterMap_cons, if_neg he]
      rw [List.find?_cons_of_neg (by simpa using he)]
      exact ih hn.2

variable {η : Type}

/-! ### Verdicts -/

/-- What a registration is told when it is answered. -/
def Outcome.verdict (o : Outcome) : Except Failure Unit :=
  if o.isValue then .ok () else .error (.io (.rejected o))

/-- What the loss of the link tells those who wait for a registration. -/
def Pending.loss? : Pending → Option (Except Failure Unit)
  | .call => none
  | .registration _ => some (.error .disconnected)

/-- The verdict that an event brings on a registration. -/
def LinkEvent.verdict? (context : String) : LinkEvent η → Option (Except Failure Unit)
  | .heard (.result other o) => if other = context then some o.verdict else none
  | _ => none

theorem LinkEvent.verdict_eq_some {context : String} {e : LinkEvent η} {a : Except Failure Unit}
    (h : e.verdict? context = some a) : ∃ o, e = .heard (.result context o) ∧ o.verdict = a := by
  unfold verdict? at h
  split at h
  · next other o =>
    split at h
    · next ho => exact ⟨o, by rw [ho], Option.some.inj h⟩
    · cases h
  · cases h

namespace Effect

/-- What an effect tells those who wait for a registration. -/
def verdict? (context : String) : Effect η → Option (Except Failure Unit)
  | .registered other a => if other = context then some a else none
  | _ => none

/-- What an effect asks of the broker, if that is a registration. -/
def request? (context : String) : Effect η → Option Message
  | .wrote (.register other name priority id) =>
    if other = context then some (.register other name priority id) else none
  | _ => none

end Effect

open Enlistment (standing)

namespace Link

variable [DecidableEq η] {l l' : Link η} {e : LinkEvent η} {es : List (LinkEvent η)}
  {context : String} {fs : List (Effect η)} {m : Message}

/-- What a registration that waits is told: the verdict of the first result under its context that
the link still hears, or that the link is lost before. -/
def verdict? (l : Link η) (context : String) (es : List (LinkEvent η)) :
    Option (Except Failure Unit) :=
  ((l.met es).findSome? (·.verdict? context)).or
    (if (l.run es).1.up then none else some (.error .disconnected))

omit [DecidableEq η] in
/-- When the link is lost, those who wait for a registration are told so once. -/
theorem verdicts_teardown (l : Link η) (context : String) :
    l.teardown.2.filterMap (·.verdict? context) =
      ((l.pending.get? context).bind Pending.loss?).toList := by
  have habandoned : (fun e => (abandoned e : Effect η).verdict? context) =
      fun e => if e.1 = context then e.2.loss? else none := by
    funext e
    match e with
    | (other, .call) => exact (ite_self none).symm
    | (other, .registration id) => rfl
  have hinterrupted : (l.running.values.map .interrupted).filterMap
      (fun f : Effect η => f.verdict? context) = [] := by
    refine List.filterMap_eq_nil_iff.2 fun f hf => ?_
    obtain ⟨job, -, rfl⟩ := List.mem_map.1 hf
    rfl
  rw [teardown, List.filterMap_append, hinterrupted, List.append_nil, List.filterMap_map,
    ← Keyed.filterMap_entries]
  exact congrArg (List.filterMap · l.pending.entries) habandoned

theorem Notes.verdicts (h : l.Notes e l' fs) (hc : e.concerns? ≠ some context) :
    fs.filterMap (·.verdict? context) = [] := by
  have elsewhere {k : String} {a : Except Failure Unit} (hk : some k ≠ some context) :
      (Effect.registered k a : Effect η).verdict? context = none :=
    if_neg fun h : k = context => hk (congrArg some h)
  refine List.filterMap_eq_nil_iff.2 ?_
  cases h with
  | refuses | confirms | rejects => exact List.forall_mem_singleton.2 (elsewhere hc)
  | starts | passes | ends | stops => exact List.forall_mem_singleton.2 rfl
  | deafens => exact List.forall_mem_nil _

/-- An event about something else tells a registration nothing, unless the link is lost. -/
theorem verdicts_elsewhere (hu : l.up = true) (hc : e.concerns? ≠ some context) :
    (l.step e).2.filterMap (·.verdict? context) = if (l.step e).1.up then [] else
      ((l.pending.get? context).bind Pending.loss?).toList := by
  have hreacts := l.reacts_step e
  generalize l.step e = r at hreacts
  cases hreacts with
  | skips => exact (if_pos hu).symm
  | notes _ h => rw [if_pos (h.up.trans hu), h.verdicts hc]
  | wrote _ h => exact (if_pos (h.up.trans hu)).symm
  | breaks _ h =>
    rw [verdicts_teardown, h.elsewhere hc]
    exact (if_neg Bool.false_ne_true).symm
  | falls =>
    rw [verdicts_teardown]
    exact (if_neg Bool.false_ne_true).symm

theorem verdicts_idle_step (hp : l.pending.get? context = none) (ho : e.opens? ≠ some context) :
    (l.step e).2.filterMap (·.verdict? context) = [] := by
  by_cases hc : e.concerns? = some context
  · rw [step_idle hp hc ho]
    rfl
  · cases hu : l.up with
    | false =>
      rw [step_of_lost hu]
      rfl
    | true =>
      rw [verdicts_elsewhere hu hc, hp]
      exact ite_self _

/-- A context that does not wait is told nothing until it is opened. -/
theorem verdicts_idle (hp : l.pending.get? context = none)
    (ho : ∀ e ∈ es, e.opens? ≠ some context) :
    (l.run es).2.filterMap (·.verdict? context) = [] := by
  induction es generalizing l with
  | nil => rfl
  | cons e es ih =>
    obtain ⟨ho, hos⟩ := List.forall_mem_cons.1 ho
    rw [run, List.filterMap_append, verdicts_idle_step hp ho, ih (idle_step hp ho).1 hos]
    rfl

theorem step_verdict (hu : l.up = true) {id : HandlerId}
    (hp : l.pending.get? context = some (.registration id)) (o : Outcome) :
    l.step (.heard (.result context o)) =
      ({ l with
          pending := l.pending.erase context
          roster := if o.isValue then l.roster else l.roster.remove id },
        [.registered context o.verdict]) := by
  simp only [step_heard hu, hear, answer, hp, Outcome.verdict]
  split <;> rfl

/-- An event that brings no verdict on a registration that waits leaves it waiting, unless the link
is lost. -/
theorem waiting_step (hu : l.up = true) {id : HandlerId}
    (hp : l.pending.get? context = some (.registration id)) (ho : e.opens? ≠ some context)
    (hcancel : e ≠ .commanded (.cancel context)) (hv : e.verdict? context = none) :
    ((l.step e).1.up = true → (l.step e).1.pending.get? context = some (.registration id)) ∧
      (l.step e).2.filterMap (·.verdict? context) =
        if (l.step e).1.up then [] else [.error .disconnected] := by
  by_cases hc : e.concerns? = some context
  · rcases LinkEvent.concerns_cases hc with h | h | ⟨v, rfl⟩ | ⟨o, rfl⟩
    · exact (ho h).elim
    · exact (hcancel h).elim
    · rw [step_heard hu]
      simp only [hear, hp]
      exact ⟨fun _ => trivial, (if_pos hu).symm⟩
    · rw [LinkEvent.verdict?, if_pos rfl] at hv
      cases hv
  · refine ⟨fun hup => ((l.spares_step hc).untouched hup).1.trans hp, ?_⟩
    rw [verdicts_elsewhere hu hc, hp]
    rfl

theorem verdicts_waiting (hu : l.up = true) {id : HandlerId}
    (hp : l.pending.get? context = some (.registration id))
    (ho : ∀ e ∈ es, e.opens? ≠ some context) (hcancel : .commanded (.cancel context) ∉ es) :
    (l.run es).2.filterMap (·.verdict? context) = (l.verdict? context es).toList := by
  induction es generalizing l with
  | nil =>
    rw [verdict?, run, if_pos hu]
    rfl
  | cons e es ih =>
    obtain ⟨ho, hos⟩ := List.forall_mem_cons.1 ho
    rw [List.mem_cons, not_or] at hcancel
    rw [verdict?, met, if_pos hu, run, List.filterMap_append, List.findSome?_cons]
    cases hv : e.verdict? context with
    | some a =>
      -- The verdict ends the waiting, so nothing is told afterwards.
      obtain ⟨o, rfl, rfl⟩ := LinkEvent.verdict_eq_some hv
      rw [step_verdict hu hp, verdicts_idle (Keyed.get?_erase_self ..) hos]
      simp [Effect.verdict?]
    | none =>
      obtain ⟨hwaits, htold⟩ := waiting_step hu hp ho (Ne.symm hcancel.1) hv
      rw [htold]
      cases hup : (l.step e).1.up with
      | true => exact ih hup (hwaits hup) hos hcancel.2
      | false =>
        simp [run_of_lost hup, met_of_lost hup, hup]

/-! ### Requests -/

omit [DecidableEq η] in
theorem requests_teardown (l : Link η) (context : String) :
    ∀ f ∈ l.teardown.2, f.request? context = none := by
  intro f hf
  rcases List.mem_append.1 hf with hf | hf
  · obtain ⟨⟨other, _ | id⟩, -, rfl⟩ := List.mem_map.1 hf <;> rfl
  · obtain ⟨job, -, rfl⟩ := List.mem_map.1 hf
    rfl

theorem requests_step (l : Link η) (he : e.enrols? ≠ some context) :
    ∀ f ∈ (l.step e).2, f.request? context = none := by
  have hreacts := l.reacts_step e
  generalize l.step e = r at hreacts
  cases hreacts with
  | skips => exact List.forall_mem_nil _
  | notes _ h =>
    cases h with
    | deafens => exact List.forall_mem_nil _
    | refuses | starts | passes | ends | confirms | rejects | stops =>
      exact List.forall_mem_singleton.2 rfl
  | wrote _ h =>
    refine List.forall_mem_singleton.2 ?_
    cases h with
    | registers => exact if_neg fun hk => he (congrArg some hk)
    | calls | cancels | updates | finishes | declines => rfl
  | breaks | falls => exact requests_teardown _ context

theorem requests_run (h : ∀ e ∈ es, e.enrols? ≠ some context) :
    (l.run es).2.filterMap (·.request? context) = [] := by
  refine List.filterMap_eq_nil_iff.2 fun f hmem => ?_
  obtain ⟨past, e, later, rfl, hf⟩ := mem_run.1 hmem
  exact requests_step _ (h e (List.mem_append_right _ List.mem_cons_self)) f hf

/-! ### What a registration comes to -/

section Commanded

variable {name : String} {priority : UInt16} {handler : η}

theorem refused_run (hu : l.up = true) (hp : l.pending.get? context = none)
    (hs : l.roster.serves name handler = true) (ho : ∀ e ∈ es, e.opens? ≠ some context) :
    let request : LinkEvent η := .commanded (.register context name priority handler)
    l.step request = (l, [.registered context (.error .done)]) ∧
      (l.run (request :: es)).2.filterMap (·.request? context) = [] ∧
      (l.run (request :: es)).2.filterMap (·.verdict? context) = [.error .done] := by
  intro request
  have hstep : l.step request = (l, [.registered context (.error .done)]) := by
    simp only [request, step_commanded hu, obey, Roster.register_eq_error_iff.2 ⟨hs, rfl⟩]
  refine ⟨hstep, ?_, ?_⟩
  · rw [run, hstep, List.filterMap_append,
      requests_run fun e he h => ho e he (LinkEvent.opens_of_enrols h)]
    rfl
  · rw [run, hstep, List.filterMap_append, verdicts_idle hp ho, List.append_nil]
    simp [Effect.verdict?]

theorem asked_run (hu : l.up = true) {id : HandlerId} {roster : Roster η}
    (hr : l.roster.register name priority handler = .ok (id, roster))
    (ho : ∀ e ∈ es, e.opens? ≠ some context) (hcancel : .commanded (.cancel context) ∉ es) :
    let request : LinkEvent η := .commanded (.register context name priority handler)
    l.step request =
        write { l with roster, pending := l.pending.insert context (.registration id) }
          (.register context name priority id) ∧
      (l.run (request :: es)).2.filterMap (·.request? context) =
        (if (l.step request).1.up then [.register context name priority id] else []) ∧
      (l.run (request :: es)).2.filterMap (·.verdict? context) =
        ((l.step request).1.verdict? context es).toList := by
  intro request
  have hstep : l.step request =
      write { l with roster, pending := l.pending.insert context (.registration id) }
        (.register context name priority id) := by
    simp only [request, step_commanded hu, obey, hr]
  have hrequests (l' : Link η) : (l'.run es).2.filterMap (·.request? context) = [] :=
    requests_run fun e he h => ho e he (LinkEvent.opens_of_enrols h)
  refine ⟨hstep, ?_⟩
  rw [run, hstep, List.filterMap_append, List.filterMap_append, hrequests, List.append_nil]
  generalize hl : ({ l with roster, pending := l.pending.insert context (.registration id) } :
    Link η) = l'
  have hp : l'.pending.get? context = some (.registration id) := by
    rw [← hl]
    exact Keyed.get?_insert_self ..
  have hup : l'.up = true := by
    rw [← hl]
    exact hu
  rcases l'.write_of_fits (.register context name priority id) with ⟨-, hw⟩ | ⟨-, hw⟩
  · rw [hw, if_pos hup, verdicts_waiting hup hp ho hcancel]
    exact ⟨by simp [Effect.request?], rfl⟩
  · have hlost : l'.teardown.1.up = false := rfl
    rw [hw, List.filterMap_eq_nil_iff.2 (requests_teardown l' context), verdicts_teardown, hp,
      run_of_lost hlost, verdict?, met_of_lost hlost, run_of_lost hlost]
    exact ⟨rfl, rfl⟩

end Commanded

/-- **Registrations are atomic.**  Let calls and registrations have different contexts, and let the
link meet any events.  As long as it is up:

* A handler that is there already under a name, confirmed or not, is refused.  Then nothing is asked
  and nothing is changed.
* For any other handler the broker is asked once, under an id that has not been given out before.
  The registration is told one thing: the verdict of the first result under its context, or else
  that the link is lost.  If the request cannot be written, the link is lost by that.
* A registration that is rejected waits no more.  Everything else that waits is left alone, and the
  roster is as it would be if only the other registrations had been made that stand.
* The roster shows the registrations that were accepted and have not been rejected since, and
  nothing else.

Ids have 64 bits, so what is said of ids and of the roster holds for fewer than `2 ^ 64`
registrations. -/
theorem registration_atomic {es : List (LinkEvent η)} (hf : LinkEvent.Fresh es) :
    (∀ before context name priority handler after,
      let request : LinkEvent η := .commanded (.register context name priority handler)
      let l := (run ({} : Link η) before).1
      let bs := ledger ({} : Link η) [] before
      let effects := (run ({} : Link η) es).2
      es = before ++ request :: after → l.up = true →
        (bs.length < 2 ^ 64 → (l.roster.serves name handler = true ↔
          ∃ g ∈ standing bs, g.name = name ∧ g.handler = handler)) ∧
        (l.roster.serves name handler = true →
          l.step request = (l, [.registered context (.error .done)]) ∧
          effects.filterMap (·.request? context) = [] ∧
          effects.filterMap (·.verdict? context) = [.error .done]) ∧
        (l.roster.serves name handler = false → ∃ id roster,
          l.roster.register name priority handler = .ok (id, roster) ∧
          (bs.length < 2 ^ 64 → ∀ b ∈ bs, b.entry.id ≠ id) ∧
          l.step request =
            write { l with roster, pending := l.pending.insert context (.registration id) }
              (.register context name priority id) ∧
          effects.filterMap (·.request? context) =
            (if (l.step request).1.up then [.register context name priority id] else []) ∧
          effects.filterMap (·.verdict? context) =
            ((l.step request).1.verdict? context after).toList)) ∧
    (∀ before context o after id,
      let l := (run ({} : Link η) before).1
      let bs := ledger ({} : Link η) [] before
      let l' := (l.step (.heard (.result context o))).1
      es = before ++ .heard (.result context o) :: after → l.up = true →
        l.pending.get? context = some (.registration id) → o.isValue = false →
          (∃ b ∈ bs, b.context = context ∧ b.answer = none ∧ b.entry.id = id) ∧
          l.step (.heard (.result context o)) =
            ({ l with pending := l.pending.erase context, roster := l.roster.remove id },
              [.registered context (.error (.io (.rejected o)))]) ∧
          (∀ other, other ≠ context → l'.pending.get? other = l.pending.get? other) ∧
          (bs.length < 2 ^ 64 →
            l'.roster.Alike (Roster.replay (standing (bs.filter (·.context ≠ context)))))) ∧
    ∀ before after,
      let l := (run ({} : Link η) before).1
      let bs := ledger ({} : Link η) [] before
      es = before ++ after → l.up = true → bs.length < 2 ^ 64 → l.roster.Books (standing bs) := by
  refine ⟨?_, ?_, ?_⟩
  · intro before context name priority handler after request l bs effects hes hu
    subst hes
    have hkeeps : l.Keeps bs := keeps_run hf.of_append hu
    obtain ⟨hbefore, hafter, hcancel⟩ := hf.sole
    have hidle : l.pending.get? context = none := (idle_run rfl hbefore).1
    have hearly : (run ({} : Link η) before).2.filterMap (·.verdict? context) = [] ∧
        (run ({} : Link η) before).2.filterMap (·.request? context) = [] :=
      ⟨verdicts_idle rfl hbefore,
        requests_run fun e he h => hbefore e he (LinkEvent.opens_of_enrols h)⟩
    have heffects : effects = (run ({} : Link η) before).2 ++ (l.run (request :: after)).2 := by
      simp only [effects, run_append, l]
    rw [heffects, List.filterMap_append, List.filterMap_append, hearly.1, hearly.2,
      List.nil_append, List.nil_append]
    refine ⟨fun hroom => (hkeeps.books hroom).serves_iff,
      fun hs => refused_run hu hidle hs hafter, fun hs => ?_⟩
    obtain ⟨id, roster, hr⟩ :=
      Roster.exists_register_of_not_serves (Bool.eq_false_iff.1 hs) priority
    refine ⟨id, roster, hr, fun hroom b hb => ?_, asked_run hu hr hafter hcancel⟩
    rw [(Roster.register_eq hr).1]
    exact hkeeps.next_ne hroom hb
  · intro before context o after id l bs l' hes hu hp ho
    subst hes
    have hkeeps : l.Keeps bs := keeps_run hf.of_append hu
    have hstep : l.step (.heard (.result context o)) =
        ({ l with pending := l.pending.erase context, roster := l.roster.remove id },
          [.registered context (.error (.io (.rejected o)))]) := by
      rw [step_verdict hu hp, Outcome.verdict, ho]
      rfl
    have hl' : l' = { l with pending := l.pending.erase context, roster := l.roster.remove id } :=
      congrArg Prod.fst hstep
    refine ⟨hkeeps.known context id hp, hstep, fun other hother => ?_, fun hroom => ?_⟩
    · rw [hl']
      exact Keyed.get?_erase_of_ne _ hother
    · rw [hl', Enlistment.standing_filter (hkeeps.context_iff hroom hp)]
      exact ((hkeeps.books hroom).remove id).alike_replay
  · intro before after l bs hes hu hroom
    subst hes
    exact (keeps_run hf.of_append hu).books hroom

/-- A link that has asked for a registration. -/
def applying : Link Unit where
  pending := (∅ : Keyed String Pending).insert "r" (.registration 1)
  roster := {
    directory := ({} : Directory HandlerId).insert "f" 0 1
    handlers := (∅ : Keyed HandlerId Unit).insert 1 ()
    issued := 1 }

theorem step_applying :
    ({} : Link Unit).step (.commanded (.register "r" "f" 0 ())) =
      (applying, [.wrote (.register "r" "f" 0 1)]) := by
  have hs : (Message.register "r" "f" 0 1).size = 73 := by cbv
  have he : ∃ f, (Message.register "r" "f" 0 1).encode = .ok f :=
    (Message.encode_eq _).1 (by rw [hs]; decide)
  rcases applying.write_of_fits (.register "r" "f" 0 1) with ⟨_, h⟩ | ⟨h, _⟩
  · exact h
  · exact (h ⟨rfl, he⟩).elim

/-- A handler is refused a second registration while the first one waits.  Then the first one is
rejected, and nothing is left of it. -/
theorem registration_atomic_rejected :
    let es : List (LinkEvent Unit) := [.commanded (.register "r" "f" 0 ()),
      .commanded (.register "s" "f" 0 ()), .heard (.result "r" .declined)]
    let l := (run ({} : Link Unit) es).1
    let effects := (run ({} : Link Unit) es).2
    LinkEvent.Fresh es ∧
      effects.filterMap (·.request? "r") = [.register "r" "f" 0 1] ∧
      effects.filterMap (·.verdict? "r") = [.error (.io (.rejected .declined))] ∧
      effects.filterMap (·.request? "s") = [] ∧
      effects.filterMap (·.verdict? "s") = [.error .done] ∧
      l.roster.Alike (Roster.replay []) ∧ l.roster.Books [] := by
  intro es l effects
  have hf : LinkEvent.Fresh es := ⟨by decide, by decide⟩
  obtain ⟨hcommanded, hrejected, hbooks⟩ := registration_atomic hf
  have hone : (run ({} : Link Unit) (es.take 1)).1 = applying := by
    show (run _ [_]).1 = _
    rw [run, step_applying]
    rfl
  have htwo : (run ({} : Link Unit) (es.take 2)).1 = applying := by
    show (run _ [_, _]).1 = _
    rw [run, step_applying]
    rfl
  have hledger : ledger ({} : Link Unit) [] (es.take 2) = [⟨"r", ⟨1, "f", 0, ()⟩, none⟩] := by
    show ledger _ _ [_, _] = _
    rw [ledger, step_applying]
    rfl
  obtain ⟨-, -, hasked⟩ := hcommanded [] "r" "f" 0 () es.tail rfl rfl
  obtain ⟨id, roster, hr, -, -, hrequests, hverdicts⟩ := hasked rfl
  obtain rfl : id = 1 := (Roster.register_eq hr).1
  simp only [run, step_applying] at hrequests hverdicts
  obtain ⟨-, hrefused, -⟩ := hcommanded (es.take 1) "s" "f" 0 () (es.drop 2) rfl (by rw [hone]; rfl)
  obtain ⟨-, hnone, hdone⟩ := hrefused (by rw [hone]; rfl)
  obtain ⟨-, -, -, halike⟩ := hrejected (es.take 2) "r" .declined [] 1 rfl (by rw [htwo]; rfl)
    (by rw [htwo]; rfl) rfl
  have hnobody : standing ((ledger ({} : Link Unit) [] (es.take 2)).filter (·.context ≠ "r")) =
      [] := by
    rw [hledger]
    rfl
  have hempty : standing (ledger ({} : Link Unit) [] es) = [] := by
    rw [ledger, step_applying]
    rfl
  have hlast : l = ((run ({} : Link Unit) (es.take 2)).1.step (.heard (.result "r" .declined))).1 :=
    congrArg (·.1) (run_append ({} : Link Unit) (es.take 2) [_])
  have hrolled := halike (by rw [hledger]; decide)
  rw [hnobody, ← hlast] at hrolled
  have hshown := hbooks es [] (List.append_nil es).symm (by rw [run, step_applying]; rfl)
    (by rw [ledger, step_applying]; decide)
  rw [hempty] at hshown
  exact ⟨hf, hrequests, hverdicts, hnone, hdone, hrolled, hshown⟩

end Link
end Switchboard
