import Switchboard.Proofs.ContextId
import Switchboard.Proofs.Network.Operate

/-! # Threads follow their network

Every event of a network is, for one context, a row of steps of its thread, or it opens the context
(`step_thread`).  What holds of blank and of opened threads and is preserved by every step holds
therefore of all threads of all networks (`thread_induction`).

* **Fresh contexts.** A context is opened once, as long as no two serial numbers give the same.
  Nothing is known of a context before that. -/

namespace Switchboard

variable {η : Type}

/-! ### Posting -/

namespace Strand

theorem Posted.refl (s : Strand) : Posted [] s s :=
  ⟨[], s.writes, by rw [List.append_nil], List.nil_prefix, fun h => ⟨h, rfl⟩, fun _ => rfl⟩

theorem Posted.left {ms : List Message} {s s' : Strand} (h : Posted ms s s') :
    s'.left = s.left := by
  obtain ⟨kept, writes, rfl, _⟩ := h
  rfl

theorem Posted.call {ms : List Message} {s s' : Strand} (h : Posted ms s s') :
    s'.call = s.call := by
  obtain ⟨kept, writes, rfl, _⟩ := h
  rfl

theorem Posted.trans {ms ms' : List Message} {s s' s'' : Strand} (h : Posted ms s s')
    (h' : Posted ms' s' s'') : Posted (ms ++ ms') s s'' := by
  obtain ⟨kept, writes, rfl, hk, hw, hd⟩ := h
  obtain ⟨kept', writes', rfl, hk', hw', hd'⟩ := h'
  refine ⟨kept ++ kept', writes', by rw [List.append_assoc], ?_, ?_, ?_⟩
  · cases hb : writes with
    | true =>
      rw [(hw hb).2]
      exact (List.prefix_append_right_inj ms).2 hk'
    | false =>
      rw [hd' hb, List.append_nil]
      exact hk.trans (List.prefix_append ms ms')
  · intro hb
    obtain ⟨hb', rfl⟩ := hw' hb
    obtain ⟨hs, rfl⟩ := hw hb'
    exact ⟨hs, rfl⟩
  · intro hs
    have hb : writes = false := by
      cases hb : writes with
      | false => rfl
      | true => rw [(hw hb).1] at hs; cases hs
    rw [hd hs, hd' hb]
    rfl

end Strand

namespace Port

theorem send_cases (p : Port η) (m : Message) :
    p.writes = false ∧ p.send m = p ∨
      p.writes = true ∧ p.send m = { p with downlink := p.downlink ++ [m] } ∨
      p.send m = { p with writes := false } := by
  rw [send]
  cases hw : p.writes with
  | false => exact .inl ⟨rfl, rfl⟩
  | true =>
    rw [if_pos rfl]
    exact .inr ((Decidable.em _).imp (fun he => ⟨rfl, if_pos he⟩) (fun he => if_neg he))

theorem send_posted (p : Port η) (m : Message) (context : String) :
    Strand.Posted (Message.within context [m]) (p.strand context)
      ((p.send m).strand context) := by
  rcases p.send_cases m with ⟨hw, h⟩ | ⟨hw, h⟩ | h
  · refine ⟨[], false, ?_, List.nil_prefix, nofun, fun _ => rfl⟩
    rw [h]
    simp only [strand, hw, List.append_nil]
  · refine ⟨Message.within context [m], true, ?_, List.prefix_refl _, fun _ => ⟨hw, rfl⟩, ?_⟩
    · rw [h]
      simp only [strand, hw, Message.within_append]
    · intro hf
      exact Bool.noConfusion (hw.symm.trans hf)
  · refine ⟨[], false, ?_, List.nil_prefix, nofun, fun _ => rfl⟩
    rw [h]
    simp only [strand, List.append_nil]

theorem post_posted (ms : List Message) (p : Port η) (context : String) :
    Strand.Posted (Message.within context ms) (p.strand context)
      ((ms.foldl send p).strand context) := by
  induction ms generalizing p with
  | nil => exact .refl _
  | cons m ms ih =>
    have h := (p.send_posted m context).trans (ih (p.send m))
    rwa [← Message.within_append] at h

theorem post_eq (p : Port η) (client : ClientId) (sents : List Sent) :
    p.post client sents = (Thread.reaching client sents).foldl send p := by
  rw [post, Thread.reaching, List.foldl_map]

end Port

namespace Thread

theorem reaching_about (context : String) (client : ClientId) (sents : List Sent) :
    reaching client (about context sents) =
      Message.within context (reaching client sents) := by
  simp only [reaching, about, Message.within, List.filter_map, List.filter_filter]
  congr 2
  funext s
  simp [Bool.and_comm]

theorem Steps.of_moves {context : String} {t : Thread} {client : ClientId} {s s' : Strand}
    {acts : List Act} (hs : t.strand client = some s) (h : s.Moves context acts s') :
    Steps context t (acts.map (client, ·)) (t.set client s') := by
  induction h generalizing t with
  | refl =>
    rw [set_self hs]
    exact .refl
  | @step s s₁ s₂ acts acts' h hm ih =>
    have hr := ih (t.strand_set client s₁)
    rw [set_set] at hr
    rw [List.map_append]
    exact .step (.moves hs h) hr

end Thread

namespace Network

open Thread

/-! ### Changes of the network -/

section Changes

variable {net : Network η} {client : ClientId} {p p' : Port η} {context : String}

theorem strand_thread (hp : net.ports.get? client = some p) :
    (net.thread context).strand client = some (p.strand context) :=
  congrArg (Option.map _) hp

theorem thread_change (hp : net.ports.get? client = some p) :
    (net.change client p').thread context = (net.thread context).set client (p'.strand context) := by
  simp only [thread, change, Thread.set, Thread.mk.injEq, true_and]
  funext other
  rw [Keyed.get?_modify]
  split
  · next e => rw [e, hp]; rfl
  · rfl

/-- What is sent is put on its way. -/
theorem posts_post (net : Network η) (sents : List Sent) (context : String) :
    Posts (about context sents) (net.thread context) ((net.post sents).thread context) := by
  have posted (client : ClientId) (p : Port η) : Strand.Posted (reaching client (about context sents))
      (p.strand context) ((p.post client sents).strand context) := by
    rw [reaching_about, Port.post_eq]
    exact Port.post_posted _ p context
  refine ⟨fun client s' hs' => ?_, fun client s hs => ?_⟩
  · simp only [thread, post, Keyed.get?_map, Option.map_map] at hs'
    obtain ⟨p, hp, rfl⟩ := Option.map_eq_some_iff.1 hs'
    exact ⟨_, strand_thread hp, posted client p⟩
  · obtain ⟨p, hp, rfl⟩ := Option.map_eq_some_iff.1 hs
    refine ⟨(p.post client sents).strand context, ?_, posted client p⟩
    simp only [thread, post, Keyed.get?_map, Option.map_map]
    rw [hp]
    rfl

theorem attends_of_lined {x : Exchange} (h : Lined x net.ports) (context : String) :
    Attends x (net.thread context) where
  there client hr := by
    obtain ⟨p, hp, hl⟩ := h.there client hr
    exact ⟨_, strand_thread hp, hl⟩
  live client s hs hl hw hu := by
    obtain ⟨p, hp, rfl⟩ := Option.map_eq_some_iff.1 hs
    exact h.live client p hp hl hw hu

end Changes

/-! ### Events -/

variable [DecidableEq η]

/-- What callers and handlers would tell of an event about a context. -/
def deeds (context : String) (net : Network η) (e : NetworkEvent η) : List Deed :=
  match net.port? e with
  | none => []
  | some (client, p) =>
    let acts := match e with
      | .act _ o => o.acts context p.station
      | _ => []
    let heard := (net.step e).2.effects.flatMap (Effect.acts context (p.strand context).accepts)
    (acts ++ heard).map (client, ·) ++ offers (about context (net.step e).2.sent)

variable {net : Network η} {client : ClientId} {p : Port η}

theorem deeds_act {o : Operation η} (hp : net.ports.get? client = some p) (context : String) :
    net.deeds context (.act client o) = (o.acts context p.station).map (client, ·) := by
  have hport : net.port? (.act client o) = some (client, p) := congrArg (Option.map _) hp
  simp [deeds, hport, step_of_port? hport, stepPort, offers]

theorem deeds_port {e : NetworkEvent η} (hport : net.port? e = some (client, p))
    (he : ∀ o, e ≠ .act client o) (context : String) :
    net.deeds context e =
      ((net.stepPort client p e).2.effects.flatMap
        (Effect.acts context (p.strand context).accepts)).map (client, ·) ++
      offers (about context (net.stepPort client p e).2.sent) := by
  rw [deeds, hport, step_of_port? hport]
  cases e with
  | act other o =>
    obtain ⟨q, _, hq⟩ := Option.map_eq_some_iff.1 hport
    obtain rfl : other = client := congrArg Prod.fst hq
    exact (he o rfl).elim
  | _ => rfl

/-- Nothing is told of what a link obeys. -/
theorem acts_obey (s : Station η) (context : String) (accepts : Bool) :
    s.obey.2.flatMap (Effect.acts context accepts) = [] := by
  have hw (l : Link η) (m : Message) :
      (l.write m).2.flatMap (Effect.acts context accepts) = [] := by
    rcases l.write_cases m with h | h
    · rw [h]; rfl
    · rw [h]; exact Port.acts_quiet (Port.quiet_teardown context l) accepts
  have hl (l : Link η) (c : Command η) :
      (l.obey c).2.flatMap (Effect.acts context accepts) = [] := by
    cases c with
    | register name priority handler =>
      simp only [Link.obey]
      split
      · rfl
      · exact hw ..
    | call => exact hw ..
    | shutdown => exact Port.acts_quiet (Port.quiet_teardown context l) accepts
    | cancel | update | finish =>
      simp only [Link.obey]
      split
      · exact hw ..
      · rfl
  unfold Station.obey
  split
  · rfl
  · next c cs _ =>
    have hs : (s.link.step (.commanded c)).2.flatMap (Effect.acts context accepts) = [] := by
      unfold Link.step
      split
      · exact hl s.link c
      · rfl
    have hf := Port.acts_quiet (Port.quiet_forgotten context cs) accepts
    simp only [Station.happen]
    split
    · exact hs
    · rw [List.flatMap_append, hs, hf]
      rfl

omit [DecidableEq η] in
theorem thread_tell (hx : net.exchange.Coherent) (e : ExchangeEvent) (v : Visits)
    (context : String) :
    ((net.tell e v).1.thread context).running =
      (net.exchange.step e).1.running.get? context ∧
    Posts (about context (net.exchange.step e).2) (net.thread context)
      ((net.tell e v).1.thread context) := by
  rw [← Exchange.stepIn_fst hx v, ← Exchange.about_stepIn hx v]
  have h := posts_post { net with exchange := (net.exchange.stepIn v e).1 }
    (net.exchange.stepIn v e).2 context
  exact ⟨rfl, h.before, h.after⟩

omit [DecidableEq η] in
/-- What is sent about other contexts passes a thread by. -/
theorem passesBy_tell (hx : net.exchange.Coherent) (e : ExchangeEvent) (context : String)
    (hr : (net.exchange.step e).1.running.get? context = net.exchange.running.get? context)
    (ha : about context (net.exchange.step e).2 = []) :
    Step context (net.thread context) [] ((net.tell e).1.thread context) := by
  obtain ⟨hrun, hp⟩ := thread_tell hx e {} context
  rw [ha] at hp
  exact .passesBy (hrun.trans hr) hp

omit [DecidableEq η] in
theorem route_received (h : net.Sound) (hp : net.ports.get? client = some p) {m m' : Message}
    {ms : List Message} (hu : p.uplink = m :: ms) (hm : m.transmitted = .ok m')
    (context : String) :
    Steps context (net.thread context)
      (offers (about context (net.exchange.receive client m').2))
      (((net.change client { p with uplink := ms }).tell (.received client m')).1.thread context) := by
  let net' := net.change client { p with uplink := ms }
  have hnet' : net'.thread context =
      (net.thread context).set client (({ p with uplink := ms } : Port η).strand context) :=
    thread_change hp
  have hmc := (Message.alike_of_transmitted hm).context
  have hcoherent : net'.exchange.Coherent := h.coherent
  obtain ⟨hrun, hposts⟩ := thread_tell hcoherent (.received client m') {} context
  by_cases hc : m'.context = context
  · have huplink : (p.strand context).uplink = m :: Message.within context ms := by
      simp only [Port.strand, hu, Message.within_cons, ← hmc, if_pos hc]
    have hfades : p.Fades { p with uplink := ms } := ⟨rfl, id, id, id⟩
    have hlined : Lined (net.exchange.receive client m').1 net'.ports :=
      (h.lined.modify hp hfades).congr (Exchange.receive_lines ..)
    have hx : Attends (net.exchange.receive client m').1 (net'.thread context) :=
      attends_of_lined hlined context
    rw [hnet'] at hposts hx
    refine .one (.routes (strand_thread hp) huplink hm hc ?_ hx hposts)
    rw [hrun]
    exact Exchange.step_turn h.coherent (.received client m') context
  · have hsame : net'.thread context = net.thread context := by
      have huplink : ({ p with uplink := ms } : Port η).strand context = p.strand context := by
        simp only [Port.strand, hu, Message.within_cons, ← hmc, if_neg hc]
      rw [hnet', huplink, set_self (strand_thread hp)]
    have ha := about_eq_nil (Exchange.receive_context h.coherent client m') hc
    have hs := passesBy_tell hcoherent (.received client m') context
      (Exchange.receive_get? _ client m' (Ne.symm hc)) ha
    rw [hsame] at hs
    rw [ha]
    exact .one hs

theorem route_left (h : net.Sound) (hp : net.ports.get? client = some p)
    (hl : p.left = false) (v : Visits) (context : String) :
    Steps context (net.thread context)
      (offers (about context (net.exchange.stepIn v (.left client)).2))
      (((net.change client { p.close 0 p.downlink.length with left := true }).tell
        (.left client) v).1.thread context) := by
  rw [Exchange.about_stepIn h.coherent]
  let p' : Port η := { p.close 0 p.downlink.length with left := true }
  let net' := net.change client p'
  have hnet' : net'.thread context = (net.thread context).set client (p'.strand context) :=
    thread_change hp
  have hcoherent : net'.exchange.Coherent := h.coherent
  obtain ⟨hrun, hposts⟩ := thread_tell hcoherent (.left client) v context
  have hclose : (p.strand context).Move context []
      ((p.close 0 p.downlink.length).strand context) :=
    Port.close_move (h.port client p hp) p.uplink 0 p.downlink.length List.nil_prefix context
  have hlined : Lined (net.exchange.leave client).1 net'.ports := h.lined.leave hp rfl
  have hx : Attends (net.exchange.leave client).1 (net'.thread context) :=
    attends_of_lined hlined context
  rw [hnet', ← set_set _ client ((p.close 0 p.downlink.length).strand context)] at hposts hx
  have hmoves : Step context (net.thread context) [] _ := .moves (strand_thread hp) hclose
  refine .step hmoves (.one ?_)
  refine .leaves (strand_set ..) ?_ rfl rfl hl ?_ hx hposts
  · rfl
  · rw [hrun]
    exact Exchange.step_turn h.coherent (.left client) context

omit [DecidableEq η] in
theorem steps_change (hp : net.ports.get? client = some p) {p' : Port η} {context : String}
    {acts : List Act} (h : (p.strand context).Moves context acts (p'.strand context)) :
    Steps context (net.thread context) (acts.map (client, ·))
      ((net.change client p').thread context) := by
  rw [thread_change hp]
  exact .of_moves (strand_thread hp) h

omit [DecidableEq η] in
theorem join_steps (h : net.Sound) (context : String) :
    Steps context (net.thread context) [] (net.join.1.thread context) := by
  have hnew : net.join.1.thread context =
      (net.thread context).set (net.ports.size + 1) {} := by
    simp only [join, tell, post, Exchange.stepIn, Exchange.step, thread, Thread.set, Thread.mk.injEq, true_and]
    funext other
    rw [Keyed.get?_map, Keyed.get?_insert]
    split
    · next e =>
      rw [e]
      rfl
    · cases net.ports.get? other <;> rfl
  rw [hnew]
  exact .one (.joins (congrArg (Option.map _) h.fresh))

/-- Every event is a row of steps of a thread, or it opens the thread's context. -/
theorem step_thread (h : net.Sound) (e : NetworkEvent η) (context : String) :
    Steps context (net.thread context) (net.deeds context e) ((net.step e).1.thread context) ∨
      (context = ContextId.ofNat net.serial ∧ (net.step e).1.serial = net.serial + 1 ∧
        net.deeds context e = [] ∧
          Thread.Opens (net.thread context) ((net.step e).1.thread context)) := by
  cases hport : net.port? e with
  | none =>
    have hd : net.deeds context e = [] := by rw [deeds, hport]
    rw [hd]
    by_cases he : e = .join
    · subst he
      exact .inl (join_steps h context)
    · rw [step_of_port?_none hport he]
      exact .inl .refl
  | some cp =>
    obtain ⟨client, p⟩ := cp
    have hp := port?_eq_some hport
    have hs := h.port client p hp
    by_cases hact : ∃ o, e = .act client o
    · obtain ⟨o, rfl⟩ := hact
      rw [deeds_act hp, step_of_port? hport]
      rcases Station.operate_moves p (ContextId.ofNat net.serial) o context with hm | ⟨hc, ha, ho⟩
      · exact .inl (steps_change hp hm)
      · refine .inr ⟨hc.symm, rfl, by rw [ha]; rfl, client, _, _, strand_thread hp, ho, ?_⟩
        exact thread_change hp
    · left
      have hclient : ∀ o, e ≠ .act client o := fun o ho => hact ⟨o, ho⟩
      rw [deeds_port hport hclient, step_of_port? hport]
      cases e with
      | join => cases hport
      | act other o =>
        obtain ⟨q, _, hq⟩ := Option.map_eq_some_iff.1 hport
        obtain rfl : other = client := congrArg Prod.fst hq
        exact (hclient o rfl).elim
      | obey =>
        simp only [stepPort]
        rw [acts_obey]
        exact steps_change hp (Port.obey_moves hs context)
      | hear =>
        simp only [stepPort, about_nil]
        have hm := steps_change hp (Port.hear_moves hs context)
        rw [← List.append_nil (List.map _ _)] at hm
        exact hm
      | route _ v =>
        simp only [stepPort]
        split
        · next m ms hu =>
          split
          · next m' hm => exact route_received h hp hu hm context
          · have hc := Port.close_move hs ms 0 p.downlink.length List.nil_prefix context
            exact steps_change hp (.one hc)
        · split
          · next hleft =>
            rw [Bool.and_eq_true, Bool.not_eq_true'] at hleft
            exact route_left h hp hleft.2 v context
          · exact .refl
      | mute =>
        simp only [stepPort]
        split
        · exact .one (passesBy_tell h.coherent (.muted client) context rfl rfl)
        · exact .refl
      | close _ up down =>
        have hc := Port.close_move hs p.uplink up down (List.take_prefix ..) context
        exact steps_change hp (.one hc)

/-! ### Runs -/

/-- Events in a row. -/
def run (net : Network η) : List (NetworkEvent η) → Network η
  | [] => net
  | e :: es => run (net.step e).1 es

/-- What callers and handlers would tell about a context of events in a row. -/
def history (context : String) (net : Network η) : List (NetworkEvent η) → List Deed
  | [] => []
  | e :: es => net.deeds context e ++ history context (net.step e).1 es

theorem run_append (net : Network η) (es es' : List (NetworkEvent η)) :
    net.run (es ++ es') = (net.run es).run es' := by
  induction es generalizing net with
  | nil => rfl
  | cons e es ih => exact ih _

theorem Reachable.exists_run {net : Network η} (h : Reachable net) : ∃ es, net = run {} es := by
  induction h with
  | start => exact ⟨[], rfl⟩
  | step e _ ih =>
    obtain ⟨es, rfl⟩ := ih
    exact ⟨es ++ [e], by rw [run_append]; rfl⟩

theorem reachable_run (es : List (NetworkEvent η)) {net : Network η} (h : Reachable net) :
    Reachable (net.run es) := by
  induction es generalizing net with
  | nil => exact h
  | cons e es ih => exact ih (h.step e)

theorem sound_run {net : Network η} (h : net.Sound) (es : List (NetworkEvent η)) :
    (net.run es).Sound := by
  induction es generalizing net with
  | nil => exact h
  | cons e es ih => exact ih (sound_step h e)

end Network

/-! ### Fresh contexts -/

namespace Thread

open Strand in
theorem blank_move {context : String} {s s' : Strand} {acts : List Act} (hs : s.Blank)
    (h : s.Move context acts s') : s'.Blank ∧ acts = [] := by
  obtain ⟨hq, hu, hd, hp, hv, hc, hh, hl⟩ := hs
  cases h with
  | lost => exact ⟨⟨rfl, hu, hd, rfl, rfl, hc, hh, hl⟩, rfl⟩
  | closes hu' hd' =>
    rw [hu] at hu'
    rw [hd] at hd'
    exact ⟨⟨hq, List.prefix_nil.1 hu', List.prefix_nil.1 hd', hp, hv, hc, hh, fun _ => rfl⟩, rfl⟩
  | _ => simp_all

theorem blank_strand : ({} : Strand).Blank :=
  ⟨rfl, rfl, rfl, rfl, rfl, rfl, fun _ => rfl, nofun⟩

theorem Blank.set {t : Thread} {client : ClientId} {s : Strand} (h : t.Blank) (hs : s.Blank) :
    (t.set client s).Blank := by
  refine ⟨h.running, fun other s' hs' => ?_⟩
  by_cases ho : other = client
  · subst ho
    rw [strand_set] at hs'
    exact Option.some.inj hs' ▸ hs
  · rw [strand_set_ne t s ho] at hs'
    exact h.strand other s' hs'

theorem Blank.posts {t t' : Thread} (h : t.Blank) (hr : t'.running = none) (hp : Posts [] t t') :
    t'.Blank := by
  refine ⟨hr, fun client s' hs' => ?_⟩
  obtain ⟨s, hs, kept, writes, rfl, hk, hw, _⟩ := hp.before client s' hs'
  have hb := h.strand client s hs
  have hkept : kept = [] := List.prefix_nil.1 hk
  refine ⟨hb.queue, hb.uplink, by rw [hb.downlink, hkept]; rfl, hb.pending, hb.serving, hb.call,
    hb.handlers, fun hl => ?_⟩
  cases hb' : writes with
  | false => rfl
  | true => exact Bool.noConfusion ((hw hb').1.symm.trans (hb.left hl))

/-- Nothing happens to a context before it is used. -/
theorem blank_step {context : String} {t t' : Thread} {ds : List Deed} (h : t.Blank)
    (hs : Step context t ds t') : t'.Blank ∧ ds = [] := by
  cases hs with
  | moves hs hm =>
    obtain ⟨hb, rfl⟩ := blank_move (h.strand _ _ hs) hm
    exact ⟨h.set hb, rfl⟩
  | joins => exact ⟨h.set blank_strand, rfl⟩
  | passesBy hr hp => exact ⟨h.posts (hr.trans h.running) hp, rfl⟩
  | routes hs hu =>
    rw [(h.strand _ _ hs).uplink] at hu
    cases hu
  | @leaves t' client s x sents hs _ _ hw _ ht _ hp =>
    have hb := h.strand _ _ hs
    have hset : (t.set client { s with left := true }).Blank :=
      h.set ⟨hb.queue, hb.uplink, hb.downlink, hb.pending, hb.serving, hb.call, hb.handlers,
        fun _ => hw⟩
    rw [h.running] at ht
    generalize hr' : t'.running = r' at ht
    cases ht with
    | elsewhere => exact ⟨hset.posts hr' hp, rfl⟩

end Thread

namespace ContextId

theorem series_succ (count : Nat) : series (count + 1) = series count ++ [ofNat count] := by
  simp [series, List.range_succ]

theorem series_mono {m n : Nat} (h : m ≤ n) : series m <+: series n := by
  induction h with
  | refl => exact List.prefix_refl _
  | step _ ih => exact ih.trans (by rw [series_succ]; exact List.prefix_append ..)

theorem fresh_of_nodup {m n : Nat} (h : (series n).Nodup) (hm : m < n) : ofNat m ∉ series m := by
  have hn := List.Nodup.sublist (series_mono hm).sublist h
  rw [Nat.succ_eq_add_one, series_succ, List.nodup_append] at hn
  exact fun hmem => hn.2.2 _ hmem _ (List.mem_singleton.2 rfl) rfl

end ContextId

namespace Network

variable [DecidableEq η]

/-- An event gives out one context at most. -/
theorem serial_step (net : Network η) (e : NetworkEvent η) :
    (net.step e).1.serial = net.serial ∨ (net.step e).1.serial = net.serial + 1 := by
  cases hport : net.port? e with
  | none =>
    by_cases he : e = .join
    · subst he; exact .inl rfl
    · rw [step_of_port?_none hport he]
      exact .inl rfl
  | some cp =>
    rw [step_of_port? hport]
    cases e with
    | act => exact .inr rfl
    | route =>
      simp only [stepPort]
      repeat' split
      all_goals exact .inl rfl
    | mute =>
      simp only [stepPort]
      split <;> exact .inl rfl
    | _ => exact .inl rfl

theorem serial_le_step (net : Network η) (e : NetworkEvent η) :
    net.serial ≤ (net.step e).1.serial := by
  rcases net.serial_step e with h | h <;> omega

theorem serial_le_run (net : Network η) (es : List (NetworkEvent η)) :
    net.serial ≤ (net.run es).serial := by
  induction es generalizing net with
  | nil => exact Nat.le_refl _
  | cons e es ih => exact Nat.le_trans (net.serial_le_step e) (ih _)

theorem serial_run_le (net : Network η) (es : List (NetworkEvent η)) :
    (net.run es).serial ≤ net.serial + es.length := by
  induction es generalizing net with
  | nil => exact Nat.le_refl _
  | cons e es ih =>
    have hs := ih (net.step e).1
    rcases net.serial_step e with h | h <;> rw [run, List.length_cons] <;> omega

omit [DecidableEq η] in
theorem blank_start (context : String) : (({} : Network η).thread context).Blank :=
  ⟨rfl, fun _ s hs => nomatch (hs : (none : Option Strand) = some s)⟩

section Induction

variable {context : String} {P : List Deed → Thread → Prop}

/-- Whatever is known of a context: nothing if it has not been used. -/
def Followed (P : List Deed → Thread → Prop) (context : String) (net : Network η)
    (done : List Deed) : Prop :=
  (net.thread context).Blank ∧ done = [] ∨
    context ∈ ContextId.series net.serial ∧ P done (net.thread context)

variable (hopens : ∀ t t' : Thread, t.Blank → t.Opens t' → P [] t')
  (hstep : ∀ done t ds t', P done t → Thread.Step context t ds t' → P (done ++ ds) t')

include hopens hstep

theorem followed_step {net : Network η} (h : net.Sound) (e : NetworkEvent η) {done : List Deed}
    (hf : Followed P context net done) (hn : (ContextId.series (net.step e).1.serial).Nodup) :
    Followed P context (net.step e).1 (done ++ net.deeds context e) := by
  have hle := net.serial_le_step e
  rcases step_thread h e context with hs | ⟨hc, hserial, hd, ho⟩
  · rcases hf with ⟨hb, rfl⟩ | ⟨hmem, hp⟩
    · have hstart : (net.thread context).Blank ∧ ([] : List Deed) = [] := ⟨hb, rfl⟩
      exact .inl (hs.preserves (P := fun done t => t.Blank ∧ done = [])
        (fun done t ds t' ⟨hb, hd⟩ hs => by
          obtain ⟨hb', hd'⟩ := Thread.blank_step hb hs
          exact ⟨hb', by rw [hd, hd']; rfl⟩) hstart)
    · exact .inr ⟨(ContextId.series_mono hle).subset hmem, hs.preserves hstep hp⟩
  · rw [hd, List.append_nil]
    rcases hf with ⟨hb, rfl⟩ | ⟨hmem, hp⟩
    · refine .inr ⟨?_, hopens _ _ hb ho⟩
      rw [hserial, ContextId.series_succ, hc]
      exact List.mem_append_right _ (List.mem_singleton.2 rfl)
    · refine (ContextId.fresh_of_nodup hn ?_ (hc ▸ hmem)).elim
      omega

theorem followed_run {net : Network η} (h : net.Sound) (es : List (NetworkEvent η))
    {done : List Deed} (hf : Followed P context net done)
    (hn : (ContextId.series (net.run es).serial).Nodup) :
    Followed P context (net.run es) (done ++ net.history context es) := by
  induction es generalizing net done with
  | nil => rwa [history, List.append_nil]
  | cons e es ih =>
    have hle := ((net.step e).1.serial_le_run es)
    have hn' := List.Nodup.sublist (ContextId.series_mono hle).sublist hn
    have hr := ih (sound_step h e) (followed_step hopens hstep h e hf hn') hn
    rwa [List.append_assoc] at hr

/-- What holds of blank threads and of those that have just been opened, and is preserved by every
step, holds of all that can come about of a context. -/
theorem thread_induction (hblank : ∀ t : Thread, t.Blank → P [] t) (es : List (NetworkEvent η))
    (hn : (ContextId.series (run ({} : Network η) es).serial).Nodup) :
    P (history context {} es) ((run ({} : Network η) es).thread context) := by
  rcases followed_run hopens hstep sound_start es (.inl ⟨blank_start context, rfl⟩) hn with
    ⟨hb, hd⟩ | ⟨_, hp⟩
  · rw [List.nil_append] at hd
    rw [hd]
    exact hblank _ hb
  · exact hp

end Induction

theorem blank_of_fresh (es : List (NetworkEvent η)) {context : String}
    (hn : (ContextId.series (run ({} : Network η) es).serial).Nodup)
    (hc : context ∉ ContextId.series (run ({} : Network η) es).serial) :
    ((run ({} : Network η) es).thread context).Blank := by
  have hf := followed_run (P := fun _ _ => True) (fun _ _ _ _ => trivial)
    (fun _ _ _ _ _ _ => trivial) sound_start es (.inl ⟨blank_start context, rfl⟩) hn
  exact (hf.resolve_right fun h => hc h.1).1

end Network
end Switchboard
