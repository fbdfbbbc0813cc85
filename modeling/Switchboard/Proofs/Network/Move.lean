import Switchboard.Proofs.Network.Sound
import Switchboard.Proofs.Network.Thread

/-! # Ports move as strands do

What happens at a port without the exchange is, for one context, a row of moves of its strand: what
the link obeys (`obey_moves`) and hears (`hear_moves`), and the end of a session (`close_move`). -/

namespace Switchboard

variable {η : Type}

/-! ### Messages about a context -/

namespace Message

@[simp] theorem within_nil (context : String) : within context [] = [] := rfl

@[simp] theorem within_append (context : String) (ms ms' : List Message) :
    within context (ms ++ ms') = within context ms ++ within context ms' := List.filter_append ..

theorem within_cons (context : String) (m : Message) (ms : List Message) :
    within context (m :: ms) = if m.context = context then m :: within context ms
      else within context ms := by
  simp only [within, List.filter_cons, decide_eq_true_eq]

theorem within_take_mono (context : String) (ms : List Message) (n : Nat) :
    within context (ms.take n) <+: within context ms :=
  (List.take_prefix n ms).filter _

end Message

/-! ### What is noted -/

/-- An effect that tells nothing about a call. -/
def Effect.Quiet (context : String) : Effect η → Prop
  | .delivered other _ => other ≠ context
  | .started _ _ c => c.context ≠ context
  | .wrote _ => False
  | _ => True

namespace Station

theorem held_note {context : String} {e : Effect η} (he : e.Quiet context) (s : Station η) :
    (s.note e).held context = s.held context := by
  have hmodify (other : String) (f : OutboundCall → OutboundCall)
      (hf : other = context → ∀ k, (f k).detach = k.detach) :
      ((s.calls.modify other f).get? context).map OutboundCall.detach =
        (s.calls.get? context).map OutboundCall.detach := by
    rw [Keyed.get?_modify]
    split
    · next h => cases s.calls.get? context <;> simp [hf h.symm]
    · rfl
  cases e with
  | delivered other e => exact hmodify other _ fun h => (he h).elim
  | detached other => exact hmodify other _ fun _ _ => rfl
  | wrote | registered | started | interrupted => rfl

theorem handlers_note {context : String} {e : Effect η} (he : e.Quiet context) (s : Station η) :
    (s.note e).handlers context = s.handlers context := by
  funext i
  cases e with
  | started job handler c =>
    simp only [handlers, note, List.getElem?_append]
    split
    · rfl
    · next hi =>
      rw [List.getElem?_eq_none (Nat.le_of_not_lt hi)]
      cases h : [InboundCall.ofCall c][i - s.jobs.length]? with
      | none => rfl
      | some k =>
        obtain rfl := List.mem_singleton.1 (List.mem_of_getElem? h)
        rw [Option.filter_some_neg]
        · rfl
        · exact decide_eq_false he
  | interrupted job =>
    simp only [handlers, note, List.getElem?_modify]
    cases s.jobs[i]? with
    | none => rfl
    | some k =>
      by_cases h : job = i
      · by_cases hk : k.context = context <;> simp [h, hk, InboundCall.interrupt, Option.filter]
      · simp [h]
  | wrote | delivered | detached | registered => rfl

theorem held_foldl_note {context : String} {es : List (Effect η)}
    (he : ∀ e ∈ es, e.Quiet context) (s : Station η) :
    (es.foldl note s).held context = s.held context ∧
      (es.foldl note s).handlers context = s.handlers context := by
  induction es generalizing s with
  | nil => exact ⟨rfl, rfl⟩
  | cons e es ih =>
    obtain ⟨h, h'⟩ := ih (fun e h => he e (List.mem_cons_of_mem _ h)) (s.note e)
    have hq := he e List.mem_cons_self
    exact ⟨h.trans (held_note hq s), h'.trans (handlers_note hq s)⟩

end Station

/-! ### What happens to a link -/

namespace Port

theorem quiet_teardown (context : String) (l : Link η) :
    ∀ e ∈ l.teardown.2, e.Quiet context := by
  intro e he
  rcases List.mem_append.1 he with he | he
  · obtain ⟨⟨other, _ | id⟩, _, rfl⟩ := List.mem_map.1 he <;> trivial
  · obtain ⟨job, _, rfl⟩ := List.mem_map.1 he
    trivial

theorem quiet_forgotten (context : String) (q : List (Command η)) :
    ∀ e ∈ q.flatMap Station.forgotten, e.Quiet context := by
  intro e he
  obtain ⟨c, _, hc⟩ := List.mem_flatMap.1 he
  cases c <;> simp_all [Station.forgotten, Effect.Quiet]

/-- The message that an effect writes. -/
def wrote? : Effect η → Option Message
  | .wrote m => some m
  | _ => none

theorem wrote_quiet {context : String} {es : List (Effect η)} (he : ∀ e ∈ es, e.Quiet context) :
    es.filterMap wrote? = [] := by
  refine List.filterMap_eq_nil_iff.2 fun e h => ?_
  have := he e h
  cases e <;> first | rfl | exact this.elim

variable [DecidableEq η] {p : Port η} {e : LinkEvent η} {l : Link η}

theorem uplink_happen (p : Port η) (e : LinkEvent η) :
    (p.happen e).uplink =
      if p.reads then p.uplink ++ (p.station.happen e).2.filterMap wrote? else p.uplink := rfl

/-- If a link is lost, so is everything of the strand that the link held. -/
theorem strand_happen_gone (context : String) (h : p.station.link.step e = l.teardown) :
    (p.happen e).strand context = (p.strand context).gone := by
  have hq : ∀ f ∈ l.teardown.2 ++ p.station.queue.flatMap Station.forgotten, f.Quiet context := by
    intro f hf
    rcases List.mem_append.1 hf with hf | hf
    · exact quiet_teardown context l f hf
    · exact quiet_forgotten context _ f hf
  have hs : p.station.happen e = ((l.teardown.2 ++ p.station.queue.flatMap Station.forgotten).foldl
      Station.note { p.station with link := l.teardown.1, queue := [] },
      l.teardown.2 ++ p.station.queue.flatMap Station.forgotten) := by
    rw [Station.happen, h]
    rfl
  obtain ⟨hc, hh⟩ :=
    Station.held_foldl_note hq { p.station with link := l.teardown.1, queue := [] }
  have hu : (p.happen e).uplink = p.uplink := by
    rw [uplink_happen, hs, wrote_quiet hq, List.append_nil, ite_self]
  have hst : (p.happen e).station = (p.station.happen e).1 := rfl
  simp only [strand, hu, hst, hs, Station.foldl_note_link, Station.foldl_note_queue, hc, hh]
  rfl

/-- If a link goes on, the strand changes as the link and its one effect say. -/
theorem strand_happen_one (context : String) {f : Effect η}
    (h : p.station.link.step e = (l, [f])) (hu : l.up = true) :
    (p.happen e).strand context = { p.strand context with
      up := l.up
      uplink := if p.reads then (p.strand context).uplink ++ Message.within context (wrote? f).toList
        else (p.strand context).uplink
      pending := l.pending.get? context
      serving := l.running.get? context
      call := (p.station.note f).held context
      handlers := (p.station.note f).handlers context } := by
  have hs : p.station.happen e = (Station.note { p.station with link := l } f, [f]) := by
    rw [Station.happen, h]
    simp only [hu, if_true]
    rfl
  have hst : (p.happen e).station = (p.station.happen e).1 := rfl
  have hl : (p.happen e).uplink = if p.reads then p.uplink ++ (wrote? f).toList else p.uplink := by
    rw [uplink_happen, hs]
    cases f <;> rfl
  simp only [strand, hl, hst, hs, Station.note_link, Station.note_queue, hu]
  congr 1
  · split <;> simp
  all_goals cases f <;> rfl

theorem strand_happen_nil (context : String) (h : p.station.link.step e = (l, []))
    (hu : l.up = true) :
    (p.happen e).strand context = { p.strand context with
      up := l.up
      pending := l.pending.get? context
      serving := l.running.get? context } := by
  have hs : p.station.happen e = ({ p.station with link := l }, []) := by
    rw [Station.happen, h]
    simp only [hu, if_true]
    rfl
  have hst : (p.happen e).station = (p.station.happen e).1 := rfl
  have hl : (p.happen e).uplink = p.uplink := by
    rw [uplink_happen, hs, List.filterMap_nil, List.append_nil, ite_self]
  simp only [strand, hl, hst, hs, hu]
  rfl

theorem strand_happen_write (context : String) {m : Message}
    (h : p.station.link.step e = l.write m) (hu : l.up = true) :
    (p.happen e).strand context = (p.strand context).gone ∨
      (p.happen e).strand context = { p.strand context with
        up := l.up
        uplink := if m.context = context then (p.strand context).written m
          else (p.strand context).uplink
        pending := l.pending.get? context
        serving := l.running.get? context } := by
  rcases l.write_cases m with hw | hw
  · refine .inr ?_
    rw [strand_happen_one context (h.trans hw) hu]
    simp only [wrote?, Option.toList, Message.within_cons, Message.within_nil, Strand.written]
    by_cases hm : m.context = context <;> by_cases hr : p.reads = true <;>
      simp [hm, hr, strand, Station.note]
  · exact .inl (strand_happen_gone context (h.trans hw))

end Port

/-! ### Moves in a row -/

namespace Strand

/-- Moves in a row. -/
inductive Moves (context : String) : Strand → List Act → Strand → Prop
  | refl {s : Strand} : Moves context s [] s
  | step {s s' s'' : Strand} {acts acts' : List Act} (h : s.Move context acts s')
      (hs : Moves context s' acts' s'') : Moves context s (acts ++ acts') s''

theorem Moves.one {context : String} {s s' : Strand} {acts : List Act}
    (h : s.Move context acts s') : s.Moves context acts s' := by
  have hs := Moves.step h .refl
  rwa [List.append_nil] at hs

theorem Moves.of_eq {context : String} {s s' s'' : Strand} {acts : List Act}
    (h : s.Moves context acts s') (e : s'' = s') : s.Moves context acts s'' := e ▸ h

theorem Moves.gone {context : String} {s : Strand} : s.Moves context [] s.gone := .one .lost

end Strand

/-! ### Obeying -/

namespace Port

/-- A port whose oldest command has been taken. -/
def popped (p : Port η) (cs : List (Command η)) : Port η :=
  { p with station := { p.station with queue := cs } }

section Obey

variable {p : Port η} {cmd : Command η} {cs : List (Command η)} {context : String}

theorem queue_strand (hq : p.station.queue = cmd :: cs) :
    (p.strand context).queue =
      Message.within context cmd.message?.toList ++ ((p.popped cs).strand context).queue := by
  simp only [strand, popped, hq, List.filterMap_cons]
  cases cmd.message? with
  | none => rfl
  | some m => exact Message.within_append context [m] _

theorem strand_popped (hq : p.station.queue = cmd :: cs)
    (h : ∀ m, cmd.message? = some m → m.context ≠ context) :
    (p.popped cs).strand context = p.strand context := by
  have hqueue : ((p.popped cs).strand context).queue = (p.strand context).queue := by
    rw [queue_strand hq]
    cases hm : cmd.message? with
    | none => rfl
    | some m => simp [Message.within_cons, h m hm]
  exact congrArg (fun queue => { p.strand context with queue }) hqueue

theorem queue_eq_cons (hq : p.station.queue = cmd :: cs) {m : Message} (h : cmd.message? = some m)
    (hm : m.context = context) :
    (p.strand context).queue = m :: ((p.popped cs).strand context).queue := by
  rw [queue_strand hq, h]
  simp [Message.within_cons, hm]

theorem popped_moves (hq : p.station.queue = cmd :: cs)
    (hm : ∀ m, cmd.message? = some m → m.context = context → m.kind = .register ∨
      m.kind = .cancel ∧ (p.strand context).pending = none ∨
        (m.kind = .update ∨ m.kind = .result) ∧ (p.strand context).serving = none) :
    (p.strand context).Moves context [] ((p.popped cs).strand context) := by
  cases hmsg : cmd.message? with
  | none => exact .of_eq .refl (strand_popped hq (by simp [hmsg]))
  | some m =>
    by_cases hc : m.context = context
    · exact .one (.forgets (queue_eq_cons hq hmsg hc) (hm m hmsg hc))
    · exact .of_eq .refl (strand_popped hq (by simp [hmsg, hc]))

variable [DecidableEq η] (hq : p.station.queue = cmd :: cs) (hu : p.station.link.up = true)

include hu

theorem step_popped : (p.popped cs).station.link.step (.commanded cmd) = p.station.link.obey cmd := by
  rw [Link.step, popped, if_pos hu]

include hq

theorem obey_nil (h : p.station.link.obey cmd = (p.station.link, []))
    (hm : ∀ m, cmd.message? = some m → m.context = context →
      m.kind = .cancel ∧ (p.strand context).pending = none ∨
        (m.kind = .update ∨ m.kind = .result) ∧ (p.strand context).serving = none) :
    (p.strand context).Moves context []
      (((p.popped cs).happen (.commanded cmd)).strand context) := by
  have hs := strand_happen_nil (p := p.popped cs) context ((step_popped hu).trans h) hu
  exact .of_eq (popped_moves hq fun m hmsg hc => .inr (hm m hmsg hc)) hs

/-- A command that makes the link write. -/
theorem obey_write {l : Link η} {m : Message} (h : p.station.link.obey cmd = l.write m)
    (hl : l.up = true)
    (hout : m.context ≠ context → l.pending.get? context = p.station.link.pending.get? context ∧
      l.running.get? context = p.station.link.running.get? context)
    (hmsg : ∀ m', cmd.message? = some m' → m'.context = m.context)
    (hin : m.context = context → (p.strand context).Moves context []
      { p.strand context with
        queue := ((p.popped cs).strand context).queue
        uplink := (p.strand context).written m
        pending := l.pending.get? context
        serving := l.running.get? context }) :
    (p.strand context).Moves context []
      (((p.popped cs).happen (.commanded cmd)).strand context) := by
  rcases strand_happen_write (p := p.popped cs) context ((step_popped hu).trans h) hl with hs | hs
  · exact .of_eq .gone hs
  · by_cases hc : m.context = context
    · rw [if_pos hc, hl, ← hu] at hs
      exact .of_eq (hin hc) hs
    · rw [if_neg hc, (hout hc).1, (hout hc).2, hl, ← hu] at hs
      rw [← strand_popped (p := p) hq fun m' hm' => (hmsg m' hm').symm ▸ hc]
      exact .of_eq .refl hs

theorem obey_one {f : Effect η} (h : p.station.link.obey cmd = (p.station.link, [f]))
    (hf : f.Quiet context)
    (hm : ∀ m, cmd.message? = some m → m.kind = .register) :
    (p.strand context).Moves context []
      (((p.popped cs).happen (.commanded cmd)).strand context) := by
  have hs := strand_happen_one (p := p.popped cs) context ((step_popped hu).trans h) hu
  rw [Station.held_note hf, Station.handlers_note hf,
    show wrote? f = none by cases f <;> first | rfl | exact hf.elim] at hs
  simp only [Option.toList, Message.within_nil, List.append_nil, ite_self] at hs
  exact .of_eq (popped_moves hq fun m hmsg _ => .inl (hm m hmsg)) hs

end Obey

variable [DecidableEq η]

theorem settle_obey (p : Port η) : p.settle p.station.obey.1 p.station.obey.2 =
    match p.station.queue with
    | [] => p
    | cmd :: cs => (p.popped cs).happen (.commanded cmd) := by
  cases hq : p.station.queue with
  | nil => simp [Station.obey, hq, settle]
  | cons cmd cs =>
    simp only [Station.obey, hq]
    rfl

/-- What a link obeys moves the strand. -/
theorem obey_moves {p : Port η} (hp : p.Sound) (context : String) :
    (p.strand context).Moves context []
      ((p.settle p.station.obey.1 p.station.obey.2).strand context) := by
  rw [settle_obey]
  cases hq : p.station.queue with
  | nil => exact .refl
  | cons cmd cs =>
    have hu : p.station.link.up = true := by
      cases h : p.station.link.up with
      | true => rfl
      | false => rw [hp.station.queue h] at hq; cases hq
    have hcons {m : Message} (h : cmd.message? = some m) (hm : m.context = context) :=
      queue_eq_cons hq h hm
    have entry {ν : Type} {m : Keyed String ν} {other : String} (h : m.contains other = false)
        (hc : other = context) : m.get? context = none := by
      rw [← hc]
      simpa [Keyed.contains] using h
    cases cmd with
    | register other name priority handler =>
      cases hr : p.station.link.roster.register name priority handler with
      | error e =>
        exact obey_one (f := .registered other (.error e)) hq hu (by rw [Link.obey, hr]) trivial
          (by rintro _ ⟨⟩; rfl)
      | ok r =>
        have ho : p.station.link.obey (.register other name priority handler) = Link.write
            { p.station.link with
              roster := r.2, pending := p.station.link.pending.insert other (.registration r.1) }
            (.register other name priority r.1) := by
          rw [Link.obey, hr]
        refine obey_write hq hu ho hu ?_ (by rintro _ ⟨⟩; rfl) ?_
        · intro hc
          exact ⟨Keyed.get?_insert_of_ne _ _ (Ne.symm hc), rfl⟩
        · intro hc
          obtain rfl : other = context := hc
          rw [Keyed.get?_insert_self]
          exact .one (.enrolls (hcons rfl rfl) rfl rfl)
    | call c =>
      refine obey_write hq hu rfl hu ?_ (by rintro _ ⟨⟩; rfl) ?_
      · intro hc
        exact ⟨Keyed.get?_insert_of_ne _ _ (Ne.symm hc), rfl⟩
      · intro hc
        obtain rfl : c.context = context := hc
        rw [Keyed.get?_insert_self]
        exact .one (.asks (hcons rfl rfl))
    | cancel other =>
      cases hr : p.station.link.pending.contains other with
      | false =>
        refine obey_nil hq hu (by rw [Link.obey, hr]; rfl) ?_
        rintro _ ⟨⟩ hc
        exact .inl ⟨rfl, entry hr hc⟩
      | true =>
        have ho : p.station.link.obey (.cancel other) = Link.write
            { p.station.link with pending := p.station.link.pending.erase other }
            (.cancel other) := by
          rw [Link.obey, hr, if_pos rfl]
        refine obey_write hq hu ho hu ?_ (by rintro _ ⟨⟩; rfl) ?_
        · intro hc
          exact ⟨Keyed.get?_erase_of_ne _ (Ne.symm hc), rfl⟩
        · intro hc
          obtain rfl : other = context := hc
          rw [Keyed.get?_erase_self]
          exact .one (.withdraws (hcons rfl rfl) (Option.isSome_iff_ne_none.1 hr))
    | update other v =>
      cases hr : p.station.link.running.contains other with
      | false =>
        refine obey_nil hq hu (by rw [Link.obey, hr]; rfl) ?_
        rintro _ ⟨⟩ hc
        exact .inr ⟨.inl rfl, entry hr hc⟩
      | true =>
        have ho : p.station.link.obey (.update other v) =
            p.station.link.write (.update other v) := by
          rw [Link.obey, hr, if_pos rfl]
        refine obey_write hq hu ho hu (fun _ => ⟨rfl, rfl⟩) (by rintro _ ⟨⟩; rfl) fun hc => ?_
        obtain rfl : other = context := hc
        exact .one (.relays (hcons rfl rfl) (Option.isSome_iff_ne_none.1 hr))
    | finish other o =>
      cases hr : p.station.link.running.contains other with
      | false =>
        refine obey_nil hq hu (by rw [Link.obey, hr]; rfl) ?_
        rintro _ ⟨⟩ hc
        exact .inr ⟨.inr rfl, entry hr hc⟩
      | true =>
        have ho : p.station.link.obey (.finish other o) = Link.write
            { p.station.link with running := p.station.link.running.erase other }
            (.result other o) := by
          rw [Link.obey, hr, if_pos rfl]
        refine obey_write hq hu ho hu ?_ (by rintro _ ⟨⟩; rfl) ?_
        · intro hc
          exact ⟨rfl, Keyed.get?_erase_of_ne _ (Ne.symm hc)⟩
        · intro hc
          obtain rfl : other = context := hc
          rw [Keyed.get?_erase_self]
          exact .one (.answers (hcons rfl rfl) (Option.isSome_iff_ne_none.1 hr))
    | shutdown =>
      exact .of_eq .gone (strand_happen_gone (p := p.popped cs) context (step_popped hu))

/-! ### Hearing -/

omit [DecidableEq η] in
theorem acts_quiet {context : String} {es : List (Effect η)} (he : ∀ e ∈ es, e.Quiet context)
    (accepts : Bool) : es.flatMap (Effect.acts context accepts) = [] := by
  refine List.flatMap_eq_nil_iff.2 fun e h => ?_
  have hq := he e h
  cases e with
  | delivered other e => exact if_neg fun hc => hq hc.1
  | started job handler c => exact if_neg hq
  | wrote | detached | registered | interrupted => rfl

section Hear

variable {p : Port η} {e : LinkEvent η} {l : Link η} {context : String}

/-- Nothing happens to a link that is lost. -/
theorem happen_down (hp : p.Sound) (hu : p.station.link.up = false) (e : LinkEvent η) :
    p.happen e = p ∧ (p.station.happen e).2 = [] := by
  have hs : p.station.happen e = (p.station, []) := by
    simp [Station.happen, Link.step, hu, hp.station.queue hu]
    rw [← hp.station.queue hu]
  rw [happen, hs]
  simp [settle]

theorem effects_happen {es : List (Effect η)} (h : p.station.link.step e = (l, es))
    (hu : l.up = true) : (p.station.happen e).2 = es := by
  rw [Station.happen, h]
  simp only [hu, if_true]

theorem acts_happen_gone (h : p.station.link.step e = l.teardown) (accepts : Bool) :
    (p.station.happen e).2.flatMap (Effect.acts context accepts) = [] := by
  have hs : (p.station.happen e).2 = l.teardown.2 ++ p.station.queue.flatMap Station.forgotten := by
    rw [Station.happen, h]
    rfl
  rw [hs, List.flatMap_append, acts_quiet (quiet_teardown context l),
    acts_quiet (quiet_forgotten context _)]
  rfl

theorem acts_happen_write {m : Message} (h : p.station.link.step e = l.write m) (hu : l.up = true)
    (accepts : Bool) : (p.station.happen e).2.flatMap (Effect.acts context accepts) = [] := by
  rcases l.write_cases m with hw | hw
  · rw [effects_happen (h.trans hw) hu]
    rfl
  · exact acts_happen_gone (h.trans hw) accepts

/-- The end of the stream costs the link. -/
theorem ended_moves (hp : p.Sound) (accepts : Bool) :
    (p.strand context).Moves context
      ((p.station.happen .ended).2.flatMap (Effect.acts context accepts))
      ((p.happen .ended).strand context) := by
  cases hu : p.station.link.up with
  | true =>
    have hs : p.station.link.step .ended = p.station.link.teardown := by rw [Link.step, if_pos hu]
    rw [acts_happen_gone hs, strand_happen_gone context hs]
    exact .gone
  | false =>
    obtain ⟨hh, he⟩ := happen_down hp hu .ended
    rw [hh, he]
    exact .refl

/-- Two links are alike as far as a context is concerned. -/
structure SameEntries (context : String) (l l' : Link η) : Prop where
  up : l'.up = l.up
  pending : l'.pending.get? context = l.pending.get? context
  running : l'.running.get? context = l.running.get? context

omit [DecidableEq η] in
theorem SameEntries.refl (context : String) (l : Link η) : SameEntries context l l := ⟨rfl, rfl, rfl⟩

/-- What a link can make of a message about another context. -/
inductive Unconcerned (context : String) (l : Link η) : Link η × List (Effect η) → Prop
  | writes {l' : Link η} {m : Message} (h : SameEntries context l l') (hm : m.context ≠ context) :
    Unconcerned context l (l'.write m)
  | nothing {l' : Link η} (h : SameEntries context l l') : Unconcerned context l (l', [])
  | one {l' : Link η} {f : Effect η} (h : SameEntries context l l') (hf : f.Quiet context) :
    Unconcerned context l (l', [f])

omit [DecidableEq η] in
theorem unconcerned_hear (l : Link η) {m : Message} (hm : m.context ≠ context) :
    Unconcerned context l (l.hear m) := by
  have hm' : context ≠ m.context := Ne.symm hm
  cases m with
  | call c =>
    simp only [Link.hear, Link.dispatch]
    split
    · exact .writes (.refl context l) hm
    · split
      · exact .nothing (.refl context l)
      · exact .one ⟨rfl, rfl, Keyed.get?_insert_of_ne _ _ hm'⟩ hm
  | update other v =>
    simp only [Link.hear]
    split
    · exact .one (.refl context l) hm
    · exact .nothing (.refl context l)
  | result other o =>
    have herase : (l.pending.erase other).get? context = l.pending.get? context :=
      Keyed.get?_erase_of_ne _ hm'
    simp only [Link.hear, Link.answer]
    split
    · exact .one ⟨rfl, herase, rfl⟩ hm
    · split
      · exact .one ⟨rfl, herase, rfl⟩ trivial
      · exact .one ⟨rfl, herase, rfl⟩ trivial
    · exact .nothing (.refl context l)
  | register => exact .nothing (.refl context l)
  | cancel other =>
    simp only [Link.hear]
    split
    · exact .one ⟨rfl, rfl, Keyed.get?_erase_of_ne _ hm'⟩ trivial
    · exact .nothing (.refl context l)

theorem unconcerned_moves (hu : p.station.link.up = true)
    (h : Unconcerned context p.station.link (p.station.link.step e)) (accepts : Bool) :
    (p.strand context).Moves context
      ((p.station.happen e).2.flatMap (Effect.acts context accepts))
      ((p.happen e).strand context) := by
  generalize hr : p.station.link.step e = r at h
  cases h with
  | writes hs hm =>
    rw [acts_happen_write hr (hs.up.trans hu)]
    rcases strand_happen_write context hr (hs.up.trans hu) with h | h
    · exact .of_eq .gone h
    · rw [if_neg hm, hs.pending, hs.running, hs.up] at h
      exact .of_eq .refl h
  | nothing hs =>
    rw [effects_happen hr (hs.up.trans hu)]
    have h := strand_happen_nil context hr (hs.up.trans hu)
    rw [hs.pending, hs.running, hs.up] at h
    exact .of_eq .refl h
  | @one l' f hs hf =>
    rw [effects_happen hr (hs.up.trans hu),
      acts_quiet (show ∀ e ∈ [f], e.Quiet context by simpa using hf)]
    have h := strand_happen_one context hr (hs.up.trans hu)
    rw [Station.held_note hf, Station.handlers_note hf,
      show wrote? f = none by cases f <;> first | rfl | exact hf.elim] at h
    simp only [Option.toList, Message.within_nil, List.append_nil, ite_self] at h
    rw [hs.pending, hs.running, hs.up] at h
    exact .of_eq .refl h

omit [DecidableEq η] in
/-- A call that gets something keeps it unless its caller does not want it any more. -/
theorem held_delivered (s : Station η) (e : CallEvent) :
    (s.note (.delivered context e)).held context = (s.held context).map (·.push e) := by
  have hpush (k : OutboundCall) : (k.push e).detach = k.detach.push e := by
    unfold OutboundCall.push
    by_cases h : (k.dropped || decide (k.state = .cancelled)) = true
    · rw [if_pos h]
      exact (if_pos h).symm
    · rw [if_neg h]
      exact (if_neg h).symm
  simp only [Station.held, Station.note, Keyed.get?_modify, if_true]
  cases s.calls.get? context <;> simp [hpush]

omit [DecidableEq η] in
theorem handlers_started (s : Station η) (job : JobId) (handler : η) {c : Call}
    (hc : c.context = context) :
    (s.note (.started job handler c)).handlers context =
      fun i => if i = s.jobs.length then some false else s.handlers context i := by
  funext i
  simp only [Station.handlers, Station.note, List.getElem?_append]
  by_cases h : i < s.jobs.length
  · rw [if_pos h, if_neg (Nat.ne_of_lt h)]
  · rw [if_neg h]
    by_cases hi : i = s.jobs.length
    · rw [if_pos hi, hi, Nat.sub_self]
      simp [InboundCall.ofCall, hc, Option.filter]
    · have hlt : s.jobs.length < i := Nat.lt_of_le_of_ne (Nat.le_of_not_lt h) (Ne.symm hi)
      rw [if_neg hi, List.getElem?_eq_none (Nat.sub_pos_of_lt hlt),
        List.getElem?_eq_none (Nat.le_of_lt hlt)]

variable {m m' : Message} {ms : List Message}

omit [DecidableEq η] in
theorem downlink_strand (hd : p.downlink = m :: ms) (hc : m.context = context) :
    (p.strand context).downlink = m :: ((p.taken ms).strand context).downlink := by
  simp only [strand, taken, hd, Message.within_cons, if_pos hc]

omit [DecidableEq η] in
/-- If the link is lost with a message, the message was of no use. -/
theorem taken_gone (hd : p.downlink = m :: ms) (hc : m.context = context) :
    (p.strand context).Moves context [] ((p.taken ms).strand context).gone :=
  .step .lost (.one (.ignores (downlink_strand hd hc) (.inr (.inr (.inr (.inr rfl))))))

theorem hearsCall_moves (hp : p.Sound) (hu : p.station.link.up = true) {c : Call} (c' : Call)
    (hd : p.downlink = .call c :: ms) (hc : c.context = context) (hc' : c'.context = context)
    (hh : c'.handler = c.handler) (accepts : Bool) :
    (p.strand context).Moves context
      (((p.taken ms).station.happen (.heard (.call c'))).2.flatMap (Effect.acts context accepts))
      (((p.taken ms).happen (.heard (.call c'))).strand context) := by
  have hd' := downlink_strand hd hc
  have hstep : (p.taken ms).station.link.step (.heard (.call c')) = p.station.link.dispatch c' := by
    rw [Link.step, taken, if_pos hu]
    rfl
  unfold Link.dispatch at hstep
  split at hstep
  · rw [acts_happen_write hstep hu]
    rcases strand_happen_write context hstep hu with h | h
    · exact .of_eq (taken_gone hd hc) h
    · rw [if_pos (show (Message.result c'.context .declined).context = context from hc'), hc'] at h
      exact .of_eq (.one (.declines hd' hu)) h
  · split at hstep
    · next hr =>
      rw [effects_happen hstep hu]
      refine .of_eq (.one (.ignores hd' (.inr (.inl ⟨rfl, ?_⟩)))) (strand_happen_nil context hstep hu)
      rw [← hc']
      exact Option.isSome_iff_ne_none.1 hr
    · next hr =>
      have hs := hp.station.jobs
      have h := strand_happen_one context hstep hu
      rw [effects_happen hstep hu]
      simp only [List.flatMap_cons, List.flatMap_nil, List.append_nil, Effect.acts, if_pos hc', hh]
      rw [handlers_started _ _ _ hc', hc', Keyed.get?_insert_self] at h
      refine .of_eq (.one (.starts hd' hu ?_ ?_)) (h.trans ?_)
      · rw [Bool.not_eq_true, Keyed.contains, Option.isSome_eq_false_iff, hc'] at hr
        exact Option.isNone_iff_eq_none.1 hr
      · show Station.handlers context p.station p.station.link.jobs = none
        rw [Station.handlers, hs, List.getElem?_eq_none (Nat.le_refl _)]
        rfl
      · simp only [wrote?, Option.toList, Message.within_nil, List.append_nil, ite_self]
        rw [hs]
        rfl

theorem hearsUpdate_moves (hu : p.station.link.up = true) {v : Json} (hd : p.downlink = m :: ms)
    (hm : m.transmitted = .ok (.update context v)) :
    (p.strand context).Moves context
      (((p.taken ms).station.happen (.heard (.update context v))).2.flatMap
        (Effect.acts context (p.strand context).accepts))
      (((p.taken ms).happen (.heard (.update context v))).strand context) := by
  have hc : m.context = context := (Message.alike_of_transmitted hm).context.symm
  have hk : m.kind = .update := by
    cases m <;> first | rfl | cases Message.alike_of_transmitted hm
  have hd' := downlink_strand hd hc
  by_cases hp : p.station.link.pending.get? context = some .call
  · have hstep : (p.taken ms).station.link.step (.heard (.update context v)) =
        (p.station.link, [.delivered context (.update v)]) := by
      rw [Link.step, taken, if_pos hu]
      simp only [Link.hear, hp]
    have h := strand_happen_one context hstep hu
    rw [held_delivered] at h
    simp only [wrote?, Option.toList, Message.within_nil, List.append_nil, ite_self] at h
    rw [effects_happen hstep hu]
    simp only [List.flatMap_cons, List.flatMap_nil, List.append_nil, Effect.acts, true_and]
    exact .of_eq (.one (.hearsUpdate hd' hm hu hp)) h
  · have hstep : (p.taken ms).station.link.step (.heard (.update context v)) =
        (p.station.link, []) := by
      rw [Link.step, taken, if_pos hu]
      simp only [Link.hear]
    rw [effects_happen hstep hu]
    exact .of_eq (.one (.ignores hd' (.inr (.inr (.inl ⟨hk, hp⟩)))))
      (strand_happen_nil context hstep hu)

theorem hearsResult_moves (hu : p.station.link.up = true) {o : Outcome} (hd : p.downlink = m :: ms)
    (hm : m.transmitted = .ok (.result context o)) :
    (p.strand context).Moves context
      (((p.taken ms).station.happen (.heard (.result context o))).2.flatMap
        (Effect.acts context (p.strand context).accepts))
      (((p.taken ms).happen (.heard (.result context o))).strand context) := by
  have hc : m.context = context := (Message.alike_of_transmitted hm).context.symm
  have hk : m.kind = .result := by
    cases m <;> first | rfl | cases Message.alike_of_transmitted hm
  have hd' := downlink_strand hd hc
  have hstep : (p.taken ms).station.link.step (.heard (.result context o)) =
      p.station.link.answer context o := by
    rw [Link.step, taken, if_pos hu]
    rfl
  have herase : (p.station.link.pending.erase context).get? context = none := by
    rw [Keyed.get?_erase_self]
  -- the answer to a registration, whatever becomes of the handler
  have enrolled {l : Link η} {a : Except Failure Unit} {id : HandlerId}
      (hs : (p.taken ms).station.link.step (.heard (.result context o)) =
        (l, [.registered context a]))
      (hp : p.station.link.pending.get? context = some (.registration id))
      (hl : l.up = p.station.link.up) (hlp : l.pending = p.station.link.pending.erase context)
      (hlr : l.running = p.station.link.running) :
      (p.strand context).Moves context
        (((p.taken ms).station.happen (.heard (.result context o))).2.flatMap
          (Effect.acts context (p.strand context).accepts))
        (((p.taken ms).happen (.heard (.result context o))).strand context) := by
    have h := strand_happen_one context hs (hl.trans hu)
    rw [hl, hlp, hlr, herase] at h
    simp only [wrote?, Option.toList, Message.within_nil, List.append_nil, ite_self] at h
    rw [effects_happen hs (hl.trans hu)]
    exact .of_eq (.one (.enrolled hd' hk hp)) h
  unfold Link.answer at hstep
  dsimp only at hstep
  split at hstep
  · next hp =>
    have h := strand_happen_one context hstep hu
    rw [held_delivered, herase] at h
    simp only [wrote?, Option.toList, Message.within_nil, List.append_nil, ite_self] at h
    rw [effects_happen hstep hu]
    simp only [List.flatMap_cons, List.flatMap_nil, List.append_nil, Effect.acts, true_and]
    exact .of_eq (.one (.hearsResult hd' hm hu hp)) h
  · next id hp =>
    split at hstep
    · exact enrolled hstep hp rfl rfl rfl
    · exact enrolled hstep hp rfl rfl rfl
  · next hp =>
    rw [effects_happen hstep hu]
    exact .of_eq (.one (.ignores hd' (.inr (.inr (.inr (.inl ⟨hk, hp⟩))))))
      (strand_happen_nil context hstep hu)

theorem hearsCancel_moves (hu : p.station.link.up = true) (hd : p.downlink = .cancel context :: ms)
    (accepts : Bool) :
    (p.strand context).Moves context
      (((p.taken ms).station.happen (.heard (.cancel context))).2.flatMap
        (Effect.acts context accepts))
      (((p.taken ms).happen (.heard (.cancel context))).strand context) := by
  have hd' := downlink_strand hd (rfl : (Message.cancel context).context = context)
  cases hr : p.station.link.running.get? context with
  | some job =>
    have hstep : (p.taken ms).station.link.step (.heard (.cancel context)) =
        ({ p.station.link with running := p.station.link.running.erase context },
          [.interrupted job]) := by
      rw [Link.step, taken, if_pos hu]
      simp only [Link.hear, hr]
    have h := strand_happen_one context hstep hu
    have hquiet : Effect.Quiet context (.interrupted job : Effect η) := trivial
    rw [Station.handlers_note hquiet, Keyed.get?_erase_self] at h
    simp only [wrote?, Option.toList, Message.within_nil, List.append_nil, ite_self] at h
    rw [effects_happen hstep hu]
    exact .of_eq (.one (.stops hd' rfl hu)) h
  | none =>
    have hstep : (p.taken ms).station.link.step (.heard (.cancel context)) =
        (p.station.link, []) := by
      rw [Link.step, taken, if_pos hu]
      simp only [Link.hear, hr]
    have h := strand_happen_nil context hstep hu
    rw [hr] at h
    rw [effects_happen hstep hu]
    exact .of_eq (.one (.stops hd' rfl hu)) h

theorem hear_moves (hp : p.Sound) (context : String) :
    (p.strand context).Moves context
      (p.hear.2.flatMap (Effect.acts context (p.strand context).accepts))
      (p.hear.1.strand context) := by
  cases hd : p.downlink with
  | nil =>
    rw [hear_nil hd]
    split
    · exact .refl
    · exact ended_moves hp _
  | cons m ms =>
    have hq : (p.taken ms).Sound := ⟨hp.left, hp.station⟩
    have hout (hc : m.context ≠ context) : (p.taken ms).strand context = p.strand context := by
      simp only [strand, taken, hd, Message.within_cons, if_neg hc]
    have hgone : (p.strand context).Moves context [] ((p.taken ms).strand context).gone := by
      by_cases hc : m.context = context
      · exact taken_gone hd hc
      · rw [hout hc]
        exact .gone
    cases hu : p.station.link.up with
    | false =>
      have hpop : (p.strand context).Moves context [] ((p.taken ms).strand context) := by
        by_cases hc : m.context = context
        · exact .one (.ignores (downlink_strand hd hc) (.inr (.inr (.inr (.inr hu)))))
        · rw [hout hc]
          exact .refl
      have hdown (e : LinkEvent η) := happen_down hq hu e
      cases hm : m.transmitted with
      | ok m' =>
        rw [hear_ok hd hm]
        rw [(hdown _).1, (hdown _).2]
        exact hpop
      | error f =>
        rw [hear_error hd hm]
        rw [(hdown _).1, (hdown _).2]
        exact hpop
    | true =>
      cases hm : m.transmitted with
      | error f =>
        have hs : (p.taken ms).station.link.step .ended = p.station.link.teardown := by
          rw [Link.step, taken, if_pos hu]
        rw [hear_error hd hm]
        rw [acts_happen_gone hs, strand_happen_gone context hs]
        exact hgone
      | ok m' =>
        rw [hear_ok hd hm]
        have ha := Message.alike_of_transmitted hm
        by_cases hc : m.context = context
        · cases ha with
          | call c args => exact hearsCall_moves hp hu { c with args } hd hc hc rfl _
          | update other v v' =>
            obtain rfl : other = context := hc
            exact hearsUpdate_moves hu hd hm
          | result other h =>
            obtain rfl : other = context := hc
            exact hearsResult_moves hu hd hm
          | register other f pr h =>
            have hstep : (p.taken ms).station.link.step (.heard (.register other f pr h)) =
                (p.station.link, []) := by
              rw [Link.step, taken, if_pos hu]
              rfl
            dsimp only
            rw [effects_happen hstep hu]
            exact .of_eq (.one (.ignores (downlink_strand hd hc) (.inl rfl)))
              (strand_happen_nil context hstep hu)
          | cancel other =>
            obtain rfl : other = context := hc
            exact hearsCancel_moves hu hd _
        · have hstep : (p.taken ms).station.link.step (.heard m') = p.station.link.hear m' := by
            rw [Link.step, taken, if_pos hu]
          have hne : m'.context ≠ context := ha.context ▸ hc
          have hun := unconcerned_hear p.station.link hne
          rw [← hout hc]
          exact unconcerned_moves (p := p.taken ms) hu (hstep ▸ hun) _

/-- The end of a session at the broker, which may have taken some of the uplink before. -/
theorem close_move (hp : p.Sound) (us : List Message) (up down : Nat)
    (hu : us.take up <+: p.uplink) (context : String) :
    (p.strand context).Move context []
      ((Port.close { p with uplink := us } up down).strand context) := by
  have hd : p.strand context = ((p.happen .deafened).strand context) := by
    cases hup : p.station.link.up with
    | true =>
      have hs : p.station.link.step .deafened = ({ p.station.link with writable := false }, []) := by
        rw [Link.step, if_pos hup]
      exact (strand_happen_nil context hs hup).symm
    | false => rw [(happen_down hp hup _).1]
  have hc : (Port.close { p with uplink := us } up down).strand context =
      { p.strand context with
        uplink := Message.within context (us.take up)
        downlink := Message.within context (p.downlink.take down)
        reads := false
        writes := false } := by
    rw [hd]
    rfl
  rw [hc]
  exact .closes (hu.filter _) (Message.within_take_mono ..)

end Hear

end Port
end Switchboard
