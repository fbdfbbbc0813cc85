import Switchboard.Proofs.Message.Size
import Switchboard.Proofs.Participant.Reaction

/-! # What arrives for a call

A link that has written a call waits for the answer.  Commands and messages come in any order, and
nothing is assumed of the broker: it may send results twice, updates after results, and messages for
contexts that nobody has heard of.

* **Concerns.** An event concerns at most one of the contexts that wait.  To all others it does
  nothing, unless the link is lost by it (`Link.Spares`, `spares_step`).
* **Streams.** `LinkEvent.stream` says what a row of events brings for a call that waits.
* **Runs.** A context that does not wait stays so until it is opened (`idle_run`), and a call that
  waits gets the stream of the events that the link still meets (`waiting_run`).
* **Main statement.** `stream_of_call`. -/

namespace Switchboard

variable {η : Type}

/-! ### Events and effects -/

namespace LinkEvent

/-- The context that an event opens: something begins to wait for an answer under it. -/
def opens? : LinkEvent η → Option String
  | .commanded (.register context ..) => some context
  | .commanded (.call c) => some c.context
  | _ => none

/-- The context whose waiting an event is about. -/
def concerns? : LinkEvent η → Option String
  | .commanded (.register context ..) | .commanded (.cancel context)
  | .heard (.update context _) | .heard (.result context _) => some context
  | .commanded (.call c) => some c.context
  | _ => none

/-- Whether an event settles a call: it is the result, or the call is withdrawn. -/
def settles (context : String) : LinkEvent η → Bool
  | .heard (.result other _) | .commanded (.cancel other) => other = context
  | _ => false

/-- The partial result that an event brings for a call. -/
def update? (context : String) : LinkEvent η → Option CallEvent
  | .heard (.update other v) => if other = context then some (.update v) else none
  | _ => none

/-- The result that an event brings for a call. -/
def result? (context : String) : LinkEvent η → Option CallEvent
  | .heard (.result other o) => if other = context then some (.finished o) else none
  | _ => none

/-- What events bring for a call: the partial results that come before it is settled, and then the
result if that is what settles it. -/
def stream (context : String) (es : List (LinkEvent η)) : List CallEvent :=
  (es.takeWhile (!·.settles context)).filterMap (·.update? context) ++
    (es.find? (·.settles context)).toList.filterMap (·.result? context)

theorem stream_cons_settled {context : String} {e : LinkEvent η} (h : e.settles context = true)
    (es : List (LinkEvent η)) : stream context (e :: es) = (e.result? context).toList := by
  rw [stream, List.takeWhile_cons_of_neg (by simp [h]), List.find?_cons_of_pos h]
  cases hr : e.result? context <;> simp [hr]

theorem stream_cons_unsettled {context : String} {e : LinkEvent η} (h : e.settles context = false)
    (es : List (LinkEvent η)) :
    stream context (e :: es) = (e.update? context).toList ++ stream context es := by
  rw [stream, List.takeWhile_cons_of_pos (by simp [h]), List.find?_cons_of_neg (by simp [h])]
  cases hu : e.update? context <;> simp [hu, stream]

theorem opens_cases {context : String} {e : LinkEvent η} (h : e.opens? = some context) :
    (∃ name priority handler, e = .commanded (.register context name priority handler)) ∨
      ∃ c, e = .commanded (.call c) ∧ c.context = context := by
  cases e with
  | commanded c =>
    cases c with
    | register k name priority handler =>
      obtain rfl := Option.some.inj h
      exact .inl ⟨name, priority, handler, rfl⟩
    | call c => exact .inr ⟨c, rfl, Option.some.inj h⟩
    | cancel | update | finish | shutdown => cases h
  | heard | deafened | ended => cases h

/-- An event about a context opens it, withdraws it, or is something that is heard about it. -/
theorem concerns_cases {context : String} {e : LinkEvent η} (h : e.concerns? = some context) :
    e.opens? = some context ∨ e = .commanded (.cancel context) ∨
      (∃ v, e = .heard (.update context v)) ∨ ∃ o, e = .heard (.result context o) := by
  cases e with
  | commanded c =>
    cases c with
    | register | call => exact .inl h
    | cancel k =>
      obtain rfl := Option.some.inj h
      exact .inr (.inl rfl)
    | update | finish | shutdown => cases h
  | heard m =>
    cases m with
    | update k v =>
      obtain rfl := Option.some.inj h
      exact .inr (.inr (.inl ⟨v, rfl⟩))
    | result k o =>
      obtain rfl := Option.some.inj h
      exact .inr (.inr (.inr ⟨o, rfl⟩))
    | call | register | cancel => cases h
  | deafened | ended => cases h

/-- An event about something else neither settles a call nor brings anything for it. -/
theorem unconcerned {context : String} {e : LinkEvent η} (h : e.concerns? ≠ some context) :
    e.settles context = false ∧ e.update? context = none := by
  have other {k : String} (hk : some k ≠ some context) : k ≠ context := fun h => hk (h ▸ rfl)
  cases e with
  | commanded c =>
    cases c with
    | cancel k => exact ⟨decide_eq_false (other h), rfl⟩
    | register | call | update | finish | shutdown => exact ⟨rfl, rfl⟩
  | heard m =>
    cases m with
    | update k v => exact ⟨rfl, if_neg (other h)⟩
    | result k o => exact ⟨decide_eq_false (other h), rfl⟩
    | call | register | cancel => exact ⟨rfl, rfl⟩
  | deafened | ended => exact ⟨rfl, rfl⟩

end LinkEvent

namespace Effect

/-- What an effect puts into the queue of a call. -/
def arrival? (context : String) : Effect η → Option CallEvent
  | .delivered other e => if other = context then some e else none
  | _ => none

/-- Whether an effect is that a call's withdrawal has been written. -/
def withdraws (context : String) : Effect η → Bool
  | .wrote (.cancel other) => other = context
  | _ => false

/-- Whether an effect reaches the caller of a call: something arrives, or nothing will any more. -/
def reaches (context : String) : Effect η → Bool
  | .delivered other _ | .detached other => other = context
  | _ => false

end Effect

namespace Link

/-! ### What an event leaves alone -/

/-- A context that an event is not about: it waits as before, and nothing comes of the event for it.
Only if the link is lost, nothing waits any more. -/
structure Spares (context : String) (l : Link η) (r : Link η × List (Effect η)) : Prop where
  pending : r.1.up = l.up ∧ r.1.pending.get? context = l.pending.get? context ∨
    r.1.up = false ∧ r.1.pending = ∅
  unreached : ∀ f ∈ r.2, f.reaches context = true → f = .detached context ∧ r.1.up = false
  kept : ∀ f ∈ r.2, f.withdraws context = false

section Spares

variable {context : String} {l l' : Link η}

theorem spares_teardown (context : String) (l l' : Link η) : l.Spares context l'.teardown := by
  refine ⟨.inr ⟨rfl, rfl⟩, ?_, ?_⟩
  · intro f hf hr
    rcases List.mem_append.1 hf with hf | hf
    · obtain ⟨⟨other, _ | id⟩, _, rfl⟩ := List.mem_map.1 hf
      · obtain rfl : other = context := of_decide_eq_true hr
        exact ⟨rfl, rfl⟩
      · cases hr
    · obtain ⟨job, _, rfl⟩ := List.mem_map.1 hf
      cases hr
  · intro f hf
    rcases List.mem_append.1 hf with hf | hf
    · obtain ⟨⟨other, _ | id⟩, _, rfl⟩ := List.mem_map.1 hf <;> rfl
    · obtain ⟨job, _, rfl⟩ := List.mem_map.1 hf
      rfl

/-- As long as the link is up, nothing has happened to the context. -/
theorem Spares.untouched {r : Link η × List (Effect η)} (h : l.Spares context r)
    (hu : r.1.up = true) : r.1.pending.get? context = l.pending.get? context ∧
      ∀ f ∈ r.2, f.reaches context = false := by
  constructor
  · rcases h.pending with ⟨_, hp⟩ | ⟨hd, _⟩
    · exact hp
    · exact Bool.noConfusion (hd.symm.trans hu)
  · intro f hf
    cases hr : f.reaches context with
    | false => rfl
    | true => exact Bool.noConfusion ((h.unreached f hf hr).2.symm.trans hu)

theorem Spares.arrivals {r : Link η × List (Effect η)} (h : l.Spares context r) :
    r.2.filterMap (·.arrival? context) = [] := by
  refine List.filterMap_eq_nil_iff.2 fun f hf => ?_
  cases f with
  | delivered other e =>
    refine if_neg fun ho => ?_
    cases (h.unreached _ hf (decide_eq_true ho)).1
  | wrote | detached | registered | started | interrupted => rfl

theorem erased_elsewhere {k : String} (hk : some k ≠ some context) :
    (l.pending.erase k).get? context = l.pending.get? context :=
  Keyed.get?_erase_of_ne _ fun h : context = k => hk (h ▸ rfl)

theorem inserted_elsewhere {k : String} {p : Pending} (hk : some k ≠ some context) :
    (l.pending.insert k p).get? context = l.pending.get? context :=
  Keyed.get?_insert_of_ne _ _ fun h : context = k => hk (h ▸ rfl)

variable [DecidableEq η] {e : LinkEvent η} {m : Message} {fs : List (Effect η)}

theorem Notes.elsewhere (h : l.Notes e l' fs) (he : e.concerns? ≠ some context) :
    l'.pending.get? context = l.pending.get? context ∧ ∀ f ∈ fs, f.reaches context = false := by
  have unreached {k : String} (hk : some k ≠ some context) : decide (k = context) = false :=
    decide_eq_false fun h => hk (h ▸ rfl)
  cases h with
  | refuses | starts | stops => exact ⟨rfl, List.forall_mem_singleton.2 rfl⟩
  | passes => exact ⟨rfl, List.forall_mem_singleton.2 (unreached he)⟩
  | ends => exact ⟨erased_elsewhere he, List.forall_mem_singleton.2 (unreached he)⟩
  | confirms | rejects => exact ⟨erased_elsewhere he, List.forall_mem_singleton.2 rfl⟩
  | deafens => exact ⟨rfl, nofun⟩

theorem Writes.elsewhere (h : l.Writes e l' m) (he : e.concerns? ≠ some context) :
    l'.pending.get? context = l.pending.get? context := by
  cases h with
  | registers | calls => exact inserted_elsewhere he
  | cancels => exact erased_elsewhere he
  | updates | finishes | declines => rfl

theorem kept_step (l : Link η) (he : e ≠ .commanded (.cancel context)) :
    ∀ f ∈ (l.step e).2, f.withdraws context = false := by
  have hreacts := l.reacts_step e
  generalize l.step e = r at hreacts
  cases hreacts with
  | skips => nofun
  | notes _ h =>
    cases h with
    | deafens => nofun
    | refuses | starts | passes | ends | confirms | rejects | stops =>
      exact List.forall_mem_singleton.2 rfl
  | wrote _ h =>
    refine List.forall_mem_singleton.2 ?_
    cases h with
    | cancels => exact decide_eq_false fun hk => he (hk ▸ rfl)
    | registers | calls | updates | finishes | declines => rfl
  | breaks | falls => exact (spares_teardown context l _).kept

theorem spares_step (l : Link η) (he : e.concerns? ≠ some context) :
    l.Spares context (l.step e) := by
  have hkept : ∀ f ∈ (l.step e).2, f.withdraws context = false :=
    l.kept_step fun h => he (h ▸ rfl)
  have hreacts := l.reacts_step e
  generalize l.step e = r at hreacts hkept
  cases hreacts with
  | skips => exact ⟨.inl ⟨rfl, rfl⟩, nofun, nofun⟩
  | notes _ h =>
    obtain ⟨hp, hf⟩ := h.elsewhere he
    exact ⟨.inl ⟨h.up, hp⟩, fun f hmem hr => Bool.noConfusion ((hf f hmem).symm.trans hr), hkept⟩
  | wrote _ h =>
    refine ⟨.inl ⟨h.up, h.elsewhere he⟩, fun f hmem hr => ?_, hkept⟩
    rw [List.mem_singleton.1 hmem] at hr
    cases hr
  | breaks | falls => exact spares_teardown context l _

end Spares

/-! ### What waits -/

section Waiting

variable {context : String} {l : Link η}

/-- What waits can be withdrawn: the withdrawal is shorter than what was written to open the context.
Nothing waits when the link is lost. -/
structure Withdrawable (context : String) (l : Link η) : Prop where
  lost : l.up = false → l.pending.get? context = none
  fits : l.pending.contains context = true → ∃ f, (Message.cancel context).encode = .ok f

/-- As long as something waits, the link is up. -/
theorem Withdrawable.up (h : l.Withdrawable context) (hp : l.pending.contains context = true) :
    l.up = true := by
  cases hu : l.up with
  | true => rfl
  | false =>
    rw [Keyed.contains, h.lost hu] at hp
    cases hp

theorem fits_of_opened {m : Message} {f : Frame} (hm : m.encode = .ok f)
    (hs : (Message.cancel context).size ≤ m.size) :
    ∃ f, (Message.cancel context).encode = .ok f := by
  apply (Message.encode_eq _).1
  apply Nat.le_trans hs
  apply Nat.le_of_not_lt
  intro h
  rw [(Message.encode_eq m).2 h] at hm
  cases hm

theorem withdrawable_of_none (hp : l.pending.get? context = none) : l.Withdrawable context :=
  ⟨fun _ => hp, fun h => by rw [Keyed.contains, hp] at h; cases h⟩

theorem withdrawable_of_wrote (hu : l.up = true) {m : Message} (hm : ∃ f, m.encode = .ok f)
    (hs : (Message.cancel context).size ≤ m.size) : l.Withdrawable context := by
  obtain ⟨f, hf⟩ := hm
  exact ⟨fun h => Bool.noConfusion (hu.symm.trans h), fun _ => fits_of_opened hf hs⟩

theorem withdrawable_erase {l' : Link η} (hp : l'.pending = l.pending.erase context) :
    l'.Withdrawable context :=
  withdrawable_of_none (by rw [hp, Keyed.get?_erase_self])

variable [DecidableEq η] {e : LinkEvent η}

theorem step_update (hu : l.up = true) (hp : l.pending.get? context = some .call) (v : Json) :
    l.step (.heard (.update context v)) = (l, [.delivered context (.update v)]) := by
  simp only [step_heard hu, hear, hp]

theorem step_result (hu : l.up = true) (hp : l.pending.get? context = some .call) (o : Outcome) :
    l.step (.heard (.result context o)) =
      ({ l with pending := l.pending.erase context }, [.delivered context (.finished o)]) := by
  simp only [step_heard hu, hear, answer, hp]

theorem step_cancel (hu : l.up = true) (hp : l.pending.contains context = true) :
    l.step (.commanded (.cancel context)) =
      write { l with pending := l.pending.erase context } (.cancel context) := by
  simp only [step_commanded hu, obey, hp, if_true]

/-- An event about a context that does not wait does nothing, unless it opens the context. -/
theorem step_idle (hp : l.pending.get? context = none) (hc : e.concerns? = some context)
    (ho : e.opens? ≠ some context) : l.step e = (l, []) := by
  cases hu : l.up with
  | false => exact step_of_lost hu e
  | true =>
    rcases LinkEvent.concerns_cases hc with h | rfl | ⟨v, rfl⟩ | ⟨o, rfl⟩
    · exact (ho h).elim
    · simp [step_commanded hu, obey, Keyed.contains, hp]
    · simp only [step_heard hu, hear, hp]
    · simp only [step_heard hu, hear, answer, hp]

theorem Withdrawable.concerned (h : l.Withdrawable context) (hc : e.concerns? = some context) :
    (l.step e).1.Withdrawable context := by
  have hreacts := l.reacts_step e
  generalize l.step e = r at hreacts
  cases hreacts with
  | skips => exact h
  | notes _ hn =>
    cases hn with
    | refuses | passes => exact h
    | ends | confirms | rejects =>
      obtain rfl := Option.some.inj hc
      exact withdrawable_erase rfl
    | starts | stops | deafens => cases hc
  | wrote hu hw hf =>
    have hup := hw.up.trans hu
    cases hw with
    | registers =>
      obtain rfl := Option.some.inj hc
      refine withdrawable_of_wrote hup hf.2 ?_
      rw [Message.size_cancel, Message.size_register]
      omega
    | calls c =>
      obtain rfl := Option.some.inj hc
      refine withdrawable_of_wrote hup hf.2 ?_
      rw [Message.size_cancel, Message.size_call]
      omega
    | cancels =>
      obtain rfl := Option.some.inj hc
      exact withdrawable_erase rfl
    | updates | finishes | declines => cases hc
  | breaks | falls => exact withdrawable_of_none rfl

theorem Withdrawable.step (h : l.Withdrawable context) (e : LinkEvent η) :
    (l.step e).1.Withdrawable context := by
  by_cases hc : e.concerns? = some context
  · exact h.concerned hc
  · rcases (l.spares_step hc).pending with ⟨hu, hp⟩ | ⟨_, hp⟩
    · exact ⟨fun h' => hp.trans (h.lost (hu.symm.trans h')),
        fun h' => h.fits (by rwa [Keyed.contains, hp] at h')⟩
    · exact withdrawable_of_none (by rw [hp]; rfl)

/-- A withdrawal is written when something that waits is withdrawn, as long as the broker takes what
is written. -/
theorem Withdrawable.wrote_iff (h : l.Withdrawable context) (e : LinkEvent η) :
    .wrote (.cancel context) ∈ (l.step e).2 ↔
      e = .commanded (.cancel context) ∧ l.pending.contains context = true ∧
        l.writable = true := by
  constructor
  · intro hf
    have hwithdraws : (Effect.wrote (.cancel context) : Effect η).withdraws context = true :=
      decide_eq_true rfl
    by_cases he : e = .commanded (.cancel context)
    · subst he
      cases hp : l.pending.contains context with
      | false =>
        have hnone : l.pending.get? context = none := by
          rwa [Keyed.contains, Option.isSome_eq_false_iff, Option.isNone_iff_eq_none] at hp
        rw [step_idle (e := .commanded (.cancel context)) hnone rfl (by rintro ⟨⟩)] at hf
        cases hf
      | true =>
        have hu := h.up hp
        rw [step_cancel hu hp] at hf
        rcases write_of_fits { l with pending := l.pending.erase context } (.cancel context) with
          ⟨hw, _⟩ | ⟨_, ht⟩
        · exact ⟨rfl, rfl, hw.1⟩
        · rw [ht] at hf
          exact Bool.noConfusion (hwithdraws.symm.trans ((spares_teardown context l _).kept _ hf))
    · exact Bool.noConfusion (hwithdraws.symm.trans (l.kept_step he _ hf))
  · rintro ⟨rfl, hp, hw⟩
    rw [step_cancel (h.up hp) hp]
    rcases write_of_fits { l with pending := l.pending.erase context } (.cancel context) with
      ⟨_, he⟩ | ⟨hn, _⟩
    · rw [he]
      exact List.mem_singleton_self _
    · exact (hn ⟨hw, h.fits hp⟩).elim

end Waiting

/-! ### Runs -/

section Runs

variable [DecidableEq η] {context : String} {l : Link η} {es : List (LinkEvent η)}

/-- The events that a link meets before it is lost. -/
def met (l : Link η) : List (LinkEvent η) → List (LinkEvent η)
  | [] => []
  | e :: es => if l.up then e :: met (l.step e).1 es else []

theorem run_of_lost (h : l.up = false) (es : List (LinkEvent η)) : l.run es = (l, []) := by
  induction es with
  | nil => rfl
  | cons e es ih => simp only [run, step_of_lost h, ih, List.append_nil]

theorem met_of_lost (h : l.up = false) (es : List (LinkEvent η)) : l.met es = [] := by
  cases es with
  | nil => rfl
  | cons e es => simp only [met, h, Bool.false_eq_true, if_false]

theorem run_append (l : Link η) (es fs : List (LinkEvent η)) :
    l.run (es ++ fs) = (((l.run es).1.run fs).1, (l.run es).2 ++ ((l.run es).1.run fs).2) := by
  induction es generalizing l with
  | nil => rfl
  | cons e es ih => simp only [List.cons_append, run, ih, List.append_assoc]

theorem mem_run {f : Effect η} : f ∈ (l.run es).2 ↔
    ∃ past e later, es = past ++ e :: later ∧ f ∈ ((l.run past).1.step e).2 := by
  constructor
  · intro h
    induction es generalizing l with
    | nil => cases h
    | cons e es ih =>
      rcases List.mem_append.1 h with h | h
      · exact ⟨[], e, es, rfl, h⟩
      · obtain ⟨past, e', later, rfl, hf⟩ := ih h
        exact ⟨e :: past, e', later, rfl, hf⟩
  · rintro ⟨past, e, later, rfl, hf⟩
    rw [run_append]
    exact List.mem_append_right _ (List.mem_append_left _ hf)

theorem Withdrawable.run (h : l.Withdrawable context) (es : List (LinkEvent η)) :
    (l.run es).1.Withdrawable context := by
  induction es generalizing l with
  | nil => exact h
  | cons e es ih => exact ih (h.step e)

theorem idle_step (hp : l.pending.get? context = none) {e : LinkEvent η}
    (ho : e.opens? ≠ some context) : (l.step e).1.pending.get? context = none ∧
      (l.step e).2.filterMap (·.arrival? context) = [] ∧
      (l.step e).2.countP (·.withdraws context) = 0 := by
  by_cases hc : e.concerns? = some context
  · rw [step_idle hp hc ho]
    exact ⟨hp, rfl, rfl⟩
  · have hs := l.spares_step hc
    refine ⟨?_, hs.arrivals, List.countP_eq_zero.2 fun f hf => by rw [hs.kept f hf]; nofun⟩
    rcases hs.pending with ⟨_, h⟩ | ⟨_, h⟩
    · exact h.trans hp
    · rw [h]
      rfl

theorem idle_run (hp : l.pending.get? context = none) (ho : ∀ e ∈ es, e.opens? ≠ some context) :
    (l.run es).1.pending.get? context = none ∧
      (l.run es).2.filterMap (·.arrival? context) = [] ∧
      (l.run es).2.countP (·.withdraws context) = 0 := by
  induction es generalizing l with
  | nil => exact ⟨hp, rfl, rfl⟩
  | cons e es ih =>
    obtain ⟨ho, hos⟩ := List.forall_mem_cons.1 ho
    obtain ⟨hp', ha, hw⟩ := idle_step hp ho
    obtain ⟨hpr, har, hwr⟩ := ih hp' hos
    refine ⟨hpr, ?_, ?_⟩
    · rw [run, List.filterMap_append, ha, har]
      rfl
    · rw [run, List.countP_append, hw, hwr]

/-- An event that settles a call brings the result or nothing, and the call waits no more. -/
theorem settling_step (hu : l.up = true) (hp : l.pending.get? context = some .call)
    {e : LinkEvent η} (he : e.settles context = true) :
    (l.step e).1.pending.get? context = none ∧
      (l.step e).2.filterMap (·.arrival? context) = (e.result? context).toList ∧
      (l.step e).2.countP (·.withdraws context) ≤ 1 := by
  have hgone : (l.pending.erase context).get? context = none :=
    Keyed.get?_erase_self ..
  cases e with
  | commanded c =>
    cases c with
    | cancel k =>
      obtain rfl : k = context := of_decide_eq_true he
      rw [step_cancel hu (Option.isSome_iff_exists.2 ⟨_, hp⟩)]
      rcases write_cases { l with pending := l.pending.erase k } (.cancel k) with h | h
      · rw [h]
        exact ⟨hgone, rfl, List.countP_le_length⟩
      · rw [h]
        have hs := spares_teardown k l { l with pending := l.pending.erase k }
        refine ⟨rfl, hs.arrivals, ?_⟩
        rw [List.countP_eq_zero.2 fun f hf => by rw [hs.kept f hf]; nofun]
        exact Nat.zero_le 1
    | register | call | update | finish | shutdown => cases he
  | heard m =>
    cases m with
    | result k o =>
      obtain rfl : k = context := of_decide_eq_true he
      rw [step_result hu hp o]
      refine ⟨hgone, ?_, List.countP_le_length⟩
      simp [Effect.arrival?, LinkEvent.result?]
    | call | update | register | cancel => cases he
  | deafened | ended => cases he

theorem unsettling_step (hu : l.up = true) (hp : l.pending.get? context = some .call)
    {e : LinkEvent η} (he : e.settles context = false) (ho : e.opens? ≠ some context) :
    ((l.step e).1.up = true → (l.step e).1.pending.get? context = some .call) ∧
      (l.step e).2.filterMap (·.arrival? context) = (e.update? context).toList ∧
      (l.step e).2.countP (·.withdraws context) = 0 := by
  by_cases hc : e.concerns? = some context
  · rcases LinkEvent.concerns_cases hc with h | rfl | ⟨v, rfl⟩ | ⟨o, rfl⟩
    · exact (ho h).elim
    · exact (of_decide_eq_false he rfl).elim
    · rw [step_update hu hp v]
      refine ⟨fun _ => hp, ?_, rfl⟩
      simp [Effect.arrival?, LinkEvent.update?]
    · exact (of_decide_eq_false he rfl).elim
  · have hs := l.spares_step hc
    refine ⟨fun hu' => (hs.untouched hu').1.trans hp, ?_,
      List.countP_eq_zero.2 fun f hf => by rw [hs.kept f hf]; nofun⟩
    · rw [hs.arrivals, (LinkEvent.unconcerned hc).2]
      rfl

/-- A call that waits gets what the events bring that the link still meets, and it is withdrawn once
at most. -/
theorem waiting_run (hu : l.up = true) (hp : l.pending.get? context = some .call)
    (ho : ∀ e ∈ es, e.opens? ≠ some context) :
    (l.run es).2.filterMap (·.arrival? context) = LinkEvent.stream context (l.met es) ∧
      (l.run es).2.countP (·.withdraws context) ≤ 1 := by
  induction es generalizing l with
  | nil => exact ⟨rfl, Nat.zero_le _⟩
  | cons e es ih =>
    obtain ⟨ho, hos⟩ := List.forall_mem_cons.1 ho
    rw [met, if_pos hu, run, List.filterMap_append, List.countP_append]
    cases hs : e.settles context with
    | true =>
      obtain ⟨hp', ha, hw⟩ := settling_step hu hp hs
      obtain ⟨_, har, hwr⟩ := idle_run hp' hos
      rw [LinkEvent.stream_cons_settled hs, ha, har, hwr, List.append_nil]
      exact ⟨rfl, hw⟩
    | false =>
      obtain ⟨hp', ha, hw⟩ := unsettling_step hu hp hs ho
      rw [LinkEvent.stream_cons_unsettled hs, ha, hw, Nat.zero_add]
      cases hu' : (l.step e).1.up with
      | true =>
        obtain ⟨har, hwr⟩ := ih hu' (hp' hu') hos
        rw [har]
        exact ⟨rfl, hwr⟩
      | false =>
        rw [run_of_lost hu', met_of_lost hu']
        exact ⟨rfl, Nat.zero_le _⟩

theorem step_call (l : Link η) (c : Call) :
    (l.step (.commanded (.call c))).2.filterMap (·.arrival? c.context) = [] ∧
      ((l.step (.commanded (.call c))).1.up = true →
        (l.step (.commanded (.call c))).1.pending.get? c.context = some .call) := by
  cases hu : l.up with
  | false =>
    rw [step_of_lost hu]
    exact ⟨rfl, fun h => Bool.noConfusion (hu.symm.trans h)⟩
  | true =>
    rw [step_commanded hu, obey]
    rcases write_cases { l with pending := l.pending.insert c.context .call } (.call c) with h | h
    · rw [h]
      exact ⟨rfl, fun _ => Keyed.get?_insert_self ..⟩
    · rw [h]
      exact ⟨(spares_teardown c.context l _).arrivals, by rintro ⟨⟩⟩

/-- Updates, results and withdrawals that are heard leave alone what waits under another context, and
withdrawals all that waits. -/
theorem hear_spares (l : Link η) {m : Message} (hk : m.kind ≠ .call)
    (hc : m.context ≠ context ∨ m.kind = .cancel) :
    (l.step (.heard m)).1.pending.get? context = l.pending.get? context ∧
      ∀ f ∈ (l.step (.heard m)).2, f.reaches context = false := by
  have hconcerns : (LinkEvent.heard m : LinkEvent η).concerns? ≠ some context := by
    cases m with
    | update k v => exact fun h => hc.elim (fun hk => hk (Option.some.inj h)) nofun
    | result k o => exact fun h => hc.elim (fun hk => hk (Option.some.inj h)) nofun
    | call | register | cancel => nofun
  have hs := l.spares_step hconcerns
  cases hu : l.up with
  | false =>
    rw [step_of_lost hu]
    exact ⟨rfl, nofun⟩
  | true =>
    refine hs.untouched ?_
    have hreacts := l.reacts_step (.heard m)
    generalize l.step (.heard m) = r at hreacts
    cases hreacts with
    | skips => exact hu
    | notes _ h => exact h.up.trans hu
    | wrote _ h => exact h.up.trans hu
    | breaks _ h =>
      cases h with
      | declines => exact (hk rfl).elim
    | falls _ he => exact he.elim nofun nofun

/-- **What a call gets is what the broker sends for it while it waits.**  Let a link meet any events,
the contexts of all calls and registrations being different, and let one of the events be that it
obeys a call.  Then:

* what arrives for the call are the partial results of the messages that are heard under its context
  after that and before the first of its result, its withdrawal and the loss of the link, in their
  order, and then the result if that comes first;
* the call's withdrawal is written once at most, namely when it is commanded while the call waits
  (and the broker still takes what is written);
* updates, results and withdrawals of other contexts, and what the broker withdraws, neither change
  that the call waits nor reach its caller.  A withdrawal that cannot be written ends the session. -/
theorem stream_of_call {before after : List (LinkEvent η)} {c : Call}
    (hd : ((before ++ .commanded (.call c) :: after).filterMap (·.opens?)).Nodup) :
    let es := before ++ .commanded (.call c) :: after
    let l := (run {} (before ++ [.commanded (.call c)])).1
    let effects := (run ({} : Link η) es).2
    effects.filterMap (·.arrival? c.context) = LinkEvent.stream c.context (l.met after) ∧
      effects.countP (·.withdraws c.context) ≤ 1 ∧
      (.wrote (.cancel c.context) ∈ effects ↔
        ∃ past later, es = past ++ .commanded (.cancel c.context) :: later ∧
          (run ({} : Link η) past).1.pending.contains c.context = true ∧
          (run ({} : Link η) past).1.writable = true) ∧
      (∀ (l : Link η) (m : Message), m.kind ≠ .call →
        (m.context ≠ c.context ∨ m.kind = .cancel) →
          (l.step (.heard m)).1.pending.get? c.context = l.pending.get? c.context ∧
            ∀ f ∈ (l.step (.heard m)).2, f.reaches c.context = false) ∧
      (∀ (l : Link η) (other : String), other ≠ c.context →
        (l.step (.commanded (.cancel other))).1.up = true →
          (l.step (.commanded (.cancel other))).1.pending.get? c.context =
              l.pending.get? c.context ∧
            ∀ f ∈ (l.step (.commanded (.cancel other))).2, f.reaches c.context = false) := by
  intro es l effects
  have hopens : (LinkEvent.commanded (.call c) : LinkEvent η).opens? = some c.context := rfl
  rw [List.filterMap_append, List.filterMap_cons_some hopens, List.nodup_append,
    List.nodup_cons] at hd
  obtain ⟨_, ⟨hlater, _⟩, hbefore⟩ := hd
  have hbefore : ∀ e ∈ before, e.opens? ≠ some c.context := fun e he ho =>
    hbefore _ (List.mem_filterMap.2 ⟨e, he, ho⟩) _ List.mem_cons_self rfl
  have hafter : ∀ e ∈ after, e.opens? ≠ some c.context := fun e he ho =>
    hlater (List.mem_filterMap.2 ⟨e, he, ho⟩)
  obtain ⟨hp, ha, hw⟩ := idle_run (l := ({} : Link η)) rfl hbefore
  obtain ⟨hca, hcp⟩ := step_call (run ({} : Link η) before).1 c
  have hcw : ((run ({} : Link η) before).1.step (.commanded (.call c))).2.countP
      (·.withdraws c.context) = 0 :=
    List.countP_eq_zero.2 fun f hf => by rw [kept_step _ (by nofun) f hf]; nofun
  have hl : l = ((run ({} : Link η) before).1.step (.commanded (.call c))).1 := by
    simp only [l, run_append]
    rfl
  have hrun : effects = (run ({} : Link η) before).2 ++
      (((run ({} : Link η) before).1.step (.commanded (.call c))).2 ++ (l.run after).2) := by
    simp only [effects, es, run_append, run, hl]
  have hstream : (l.run after).2.filterMap (·.arrival? c.context) =
      LinkEvent.stream c.context (l.met after) ∧
        (l.run after).2.countP (·.withdraws c.context) ≤ 1 := by
    cases hu : l.up with
    | true => exact waiting_run hu (hl ▸ hcp (hl ▸ hu)) hafter
    | false =>
      rw [run_of_lost hu, met_of_lost hu]
      exact ⟨rfl, Nat.zero_le _⟩
  refine ⟨?_, ?_, ?_, fun l m hk hc => l.hear_spares hk hc, ?_⟩
  · rw [hrun, List.filterMap_append, List.filterMap_append, ha, hca, hstream.1]
    rfl
  · rw [hrun, List.countP_append, List.countP_append, hw, hcw, Nat.zero_add, Nat.zero_add]
    exact hstream.2
  · have hstart : ({} : Link η).Withdrawable c.context := withdrawable_of_none rfl
    rw [mem_run]
    constructor
    · rintro ⟨past, e, later, he, hf⟩
      obtain ⟨rfl, hcontains, hwritable⟩ := ((hstart.run past).wrote_iff e).1 hf
      exact ⟨past, later, he, hcontains, hwritable⟩
    · rintro ⟨past, later, he, hcontains, hwritable⟩
      exact ⟨past, _, later, he, ((hstart.run past).wrote_iff _).2 ⟨rfl, hcontains, hwritable⟩⟩
  · intro l other hother hup
    have hc : (LinkEvent.commanded (.cancel other) : LinkEvent η).concerns? ≠ some c.context :=
      fun h => hother (Option.some.inj h)
    exact (l.spares_step hc).untouched hup

end Runs

/-- A link that has written a call. -/
def asking : Link Unit := { pending := (∅ : Keyed String Pending).insert "c" .call }

theorem run_asking :
    (run ({} : Link Unit) [.commanded (.call { context := "c", function := "f" })]).1 = asking := by
  have hs : (Message.call { context := "c", function := "f" }).size = 66 := by cbv
  have he : ∃ f, (Message.call { context := "c", function := "f" }).encode = .ok f :=
    (Message.encode_eq _).1 (by rw [hs]; decide)
  rcases write_of_fits asking (.call { context := "c", function := "f" }) with ⟨_, h⟩ | ⟨h, _⟩
  · exact congrArg Prod.fst h
  · exact (h ⟨rfl, he⟩).elim

/-- The broker answers a call that it was not asked, then the call, and then goes on sending updates.
The call gets one partial result and the answer, and it is too late to withdraw it. -/
theorem stream_of_answered_call :
    let es : List (LinkEvent Unit) := [.commanded (.call { context := "c", function := "f" }),
      .heard (.result "d" .declined), .heard (.update "c" .null), .heard (.result "c" .declined),
      .heard (.update "c" .null), .commanded (.cancel "c")]
    (es.filterMap (·.opens?)).Nodup ∧
      (run ({} : Link Unit) es).2.filterMap (·.arrival? "c") = [.update .null, .finished .declined] ∧
      (run ({} : Link Unit) es).2.countP (·.withdraws "c") ≤ 1 := by
  intro es
  have hd : (es.filterMap (·.opens?)).Nodup := by decide
  obtain ⟨harrivals, hwithdraws, -⟩ := @stream_of_call Unit _ [] _ _ hd
  simp only [List.nil_append, run_asking] at harrivals
  exact ⟨hd, harrivals, hwithdraws⟩

end Link
end Switchboard
