import Switchboard.Proofs.ContextId
import Switchboard.Proofs.Exchange.Room
import Switchboard.Proofs.Network.Confirmation
import Switchboard.Proofs.Network.Progress
import Switchboard.Proofs.Participant.Course

/-! # How deep calls are nested

A handler may make calls while it serves one, at the same participant or, by way of handlers
elsewhere, all over the network.  Each call carries its depth, and nobody keeps a record of the
calls that enclose it.

* **Carrying.** Calls wait in queues, are on their way, run at the exchange and are served.  Whatever
  is true of the contexts and depths of all of them stays true, as long as it is true of the calls
  that are made (`Network.Carries.step`): routing, falling through and dispatch change neither.
* **Nesting.** `Network.Enclosed` reads off the events of a run in which handlers' work a call was
  made.
* **Attaining.** In `Network.descending` a handler calls its own function as often as can be.
* **Main statement.** `Network.depth_eq_nesting`: depths count what `Enclosed` lists, and stay within
  the bound. -/

namespace Switchboard

variable {η : Type} {P Q : String → UInt32 → Prop}

/-! ### The exchange -/

theorem Notice.Stems.of_call {n : Notice} {m : Message} {c : Call} (h : n.Stems m)
    (hn : n.message = .call c) : ∃ d, m = .call d ∧ c.context = d.context ∧ c.depth = d.depth := by
  cases h with
  | offered d rank id =>
    obtain rfl := Message.call.inj hn
    exact ⟨d, rfl, rfl, rfl⟩
  | registered | refused | unknown | declined | withdrawn | updated | answered => cases hn

/-- All calls that are offered satisfy something. -/
def Offers (sents : List Sent) (P : String → UInt32 → Prop) : Prop :=
  ∀ s ∈ sents, ∀ c, s.notice.message = .call c → P c.context c.depth

namespace Exchange

/-- All calls that are running satisfy something. -/
def Carries (x : Exchange) (P : String → UInt32 → Prop) : Prop :=
  ∀ context r, x.running.get? context = some r → P r.call.context r.call.depth

variable {x : Exchange} {e : ExchangeEvent}

/-- A call runs with the depth that it was received with, however often it goes on. -/
theorem Carries.step (h : x.Carries P) (hx : x.Coherent)
    (he : ∀ client c, e = .received client (.call c) → P c.context c.depth) (v : Visits) :
    (x.stepIn v e).1.Carries P := by
  rw [stepIn_fst hx]
  intro context r' hr'
  have hturn := step_turn hx e context
  unfold TurnsInto at hturn
  rw [hr'] at hturn
  have hr := h context
  generalize x.running.get? context = r at hturn hr
  generalize about context (x.step e).2 = sents at hturn
  cases hturn with
  | elsewhere | registered | refused | relayed => exact hr r' rfl
  | accepted client c => exact he client c rfl
  | rerouted r => exact hr r rfl

theorem Carries.offers (h : x.Carries P) (hx : x.Coherent)
    (he : ∀ client c, e = .received client (.call c) → P c.context c.depth) (v : Visits) :
    Offers (x.stepIn v e).2 P := by
  intro s hs c hc
  rw [mem_stepIn hx] at hs
  have hturn := step_turn hx e s.notice.context
  have habout : s ∈ about s.notice.context (x.step e).2 :=
    List.mem_filter.2 ⟨hs, decide_eq_true rfl⟩
  rcases hturn.stems (hx _) habout with ⟨client, m, rfl, hstems⟩ | ⟨r, hr, hstems⟩
  · obtain ⟨d, rfl, hcontext, hdepth⟩ := hstems.of_call hc
    rw [hcontext, hdepth]
    exact he client d rfl
  · obtain ⟨d, hd, hcontext, hdepth⟩ := (hstems r.call rfl).of_call hc
    obtain rfl := Message.call.inj hd
    rw [hcontext, hdepth]
    exact h _ r hr

end Exchange

/-! ### Participants -/

namespace Link

variable [DecidableEq η] {l : Link η} {e : LinkEvent η} {c : Call}

theorem call_of_wrote (h : .call c ∈ (l.step e).2.filterMap Port.wrote?) :
    e = .commanded (.call c) := by
  have hreacts := l.reacts_step e
  generalize l.step e = r at hreacts h
  cases hreacts with
  | skips => cases h
  | notes _ hn => cases hn <;> cases h
  | wrote _ hw =>
    obtain rfl : Message.call c = _ := List.mem_singleton.1 h
    cases hw with
    | calls => rfl
  | breaks | falls =>
    rw [Port.wrote_quiet (Port.quiet_teardown "" _)] at h
    cases h

end Link

namespace Station

variable {s : Station η} {o : Operation η} {fresh context function : String} {args : Json}
  {job : JobId} {k : InboundCall} {depth : UInt32}

/-- An operation makes a call at a depth. -/
inductive Makes (s : Station η) : Operation η → UInt32 → Prop
  | call {function : String} {args : Json} : Makes s (.call function args) 0
  | nested {job : JobId} {k : InboundCall} {function : String} {args : Json}
      {depth : UInt32} (hk : s.jobs[job]? = some k) (hd : k.nestedDepth = .ok depth) :
    Makes s (.nested job function args) depth

theorem reply_callAt (s : Station η) (fresh function : String) (args : Json) (depth : UInt32) :
    ((s.attempt (s.callAt fresh function args depth)).map id fun r =>
        Reply.started (r.map fun _ => fresh)).2 =
      .started (if s.link.up then .ok fresh else .error .disconnected) := by
  cases hu : s.link.up with
  | true =>
    simp only [callAt, submit_of_up hu]
    rfl
  | false =>
    simp only [callAt, submit_of_lost hu]
    rfl

theorem reply_call (s : Station η) (fresh function : String) (args : Json) :
    (s.operate fresh (.call function args)).2 =
      .started (if s.link.up then .ok fresh else .error .disconnected) :=
  s.reply_callAt fresh function args 0

theorem reply_nested (hk : s.jobs[job]? = some k) (hd : k.nestedDepth = .ok depth)
    (fresh function : String) (args : Json) : (s.operate fresh (.nested job function args)).2 =
      .started (if s.link.up then .ok fresh else .error .disconnected) := by
  rw [← s.reply_callAt fresh function args depth]
  simp only [operate, nested, job?, hk, hd]
  rfl

theorem operate_nested_of_error {f : Failure} (hk : s.jobs[job]? = some k)
    (hd : k.nestedDepth = .error f) (fresh function : String) (args : Json) :
    s.operate fresh (.nested job function args) = (s, .started (.error f)) := by
  simp only [operate, nested, job?, hk, hd]
  rfl

theorem context_of_started (h : (s.operate fresh o).2 = .started (.ok context)) :
    context = fresh := by
  have named {r : Except Failure (Station η)} (h : ((s.attempt r).map id fun r =>
      Reply.started (r.map fun _ => fresh)).2 = .started (.ok context)) : context = fresh := by
    cases r with
    | ok => exact (Except.ok.inj (Reply.started.inj h)).symm
    | error => cases h
  cases o with
  | register => exact (Except.ok.inj (Reply.started.inj h)).symm
  | call | nested => exact named h
  | recv | tryRecv | wait | waitFor | cancel | dropCall | update | finish | dropJob | disconnect =>
    cases h

theorem Makes.reply (h : s.Makes o depth) (hu : s.link.up = true) (fresh : String) :
    (s.operate fresh o).2 = .started (.ok fresh) := by
  cases h with
  | call => rw [reply_call, if_pos hu]
  | nested hk hd => rw [reply_nested hk hd, if_pos hu]

/-- Commands to make a call, and jobs, are left by an operation only if it makes a call or they have
been there before. -/
theorem Does.makes {s' : Station η} {em : Option (JobId × CallEvent)} (h : s.Does fresh o em s') :
    (∀ c, .call c ∈ s'.queue → .call c ∈ s.queue ∨
      c.context = fresh ∧ s.link.up = true ∧ s.Makes o c.depth) ∧
    ∀ (job : JobId) k', s'.jobs[job]? = some k' →
      ∃ k, s.jobs[job]? = some k ∧ k'.context = k.context ∧ k'.depth = k.depth := by
  have same : ∀ (job : JobId) k', s.jobs[job]? = some k' →
      ∃ k, s.jobs[job]? = some k ∧ k'.context = k.context ∧ k'.depth = k.depth :=
    fun job k' hk' => ⟨k', hk', rfl, rfl⟩
  have older {cmd : Command η} {c : Call} (h : .call c ∈ s.queue ++ [cmd])
      (hcmd : ∀ c, cmd ≠ .call c) : .call c ∈ s.queue :=
    (List.mem_append.1 h).resolve_right fun hc => hcmd c (List.mem_singleton.1 hc).symm
  cases h with
  | nothing | refused | reads => exact ⟨fun c hc => .inl hc, same⟩
  | registers | passes | shutsDown => exact ⟨fun c hc => .inl (older hc (fun _ => nofun)), same⟩
  | givesUp _ _ hcs =>
    refine ⟨fun c hc => .inl ?_, same⟩
    rcases hcs with rfl | ⟨-, rfl⟩
    · rwa [List.append_nil] at hc
    · exact older hc (fun _ => nofun)
  | ends hk =>
    refine ⟨fun c hc => .inl ?_, fun job k' hk' => job_of_set hk hk'⟩
    split at hc
    · exact older hc (fun _ => nofun)
    · exact hc
  | calls ho hu =>
    refine ⟨fun c hc => ?_, same⟩
    rcases List.mem_append.1 hc with hc | hc
    · exact .inl hc
    · obtain rfl := Command.call.inj (List.mem_singleton.1 hc)
      rcases ho with ⟨rfl, rfl⟩ | ⟨job, k, rfl, hk, hd⟩
      · exact .inr ⟨rfl, hu, .call⟩
      · exact .inr ⟨rfl, hu, .nested hk hd⟩

end Station

namespace Port

/-- All calls that wait at a port, are on their way there, or are served satisfy something. -/
structure Carries (p : Port η) (P : String → UInt32 → Prop) : Prop where
  queue : ∀ c, .call c ∈ p.station.queue → P c.context c.depth
  uplink : ∀ c, .call c ∈ p.uplink → P c.context c.depth
  downlink : ∀ c, .call c ∈ p.downlink → P c.context c.depth
  jobs : ∀ (job : JobId) k, p.station.jobs[job]? = some k → P k.context k.depth

variable {p q : Port η}

theorem carries_empty : ({} : Port η).Carries P := ⟨nofun, nofun, nofun, nofun⟩

theorem Carries.mono (h : p.Carries P) (hPQ : ∀ context depth, P context depth → Q context depth) :
    p.Carries Q :=
  ⟨fun c hc => hPQ _ _ (h.queue c hc), fun c hc => hPQ _ _ (h.uplink c hc),
    fun c hc => hPQ _ _ (h.downlink c hc), fun job k hk => hPQ _ _ (h.jobs job k hk)⟩

theorem Carries.operate (h : p.Carries P) {fresh : String} {o : Operation η}
    (hm : ∀ depth, p.station.link.up = true → p.station.Makes o depth → P fresh depth) :
    (p.restate (p.station.operate fresh o).1).Carries P := by
  obtain ⟨hqueue, hjobs⟩ := (p.station.does_operate fresh o).makes
  refine ⟨fun c hc => ?_, h.uplink, h.downlink, fun job k' hk' => ?_⟩
  · rcases hqueue c hc with hc | ⟨hcontext, hu, hmakes⟩
    · exact h.queue c hc
    · rw [hcontext]
      exact hm c.depth hu hmakes
  · obtain ⟨k, hk, hcontext, hdepth⟩ := hjobs job k' hk'
    rw [hcontext, hdepth]
    exact h.jobs job k hk

theorem Carries.meets [DecidableEq η] (h : p.Carries P) {e : LinkEvent η} (hm : p.Meets e q) :
    (q.happen e).Carries P := by
  obtain ⟨hqueue, huplink, hdownlink⟩ := hm.subset
  constructor
  case queue =>
    intro c hc
    have hc : .call c ∈ (q.station.happen e).1.queue := hc
    rw [Station.happen_queue] at hc
    split at hc
    · exact h.queue c (hqueue hc)
    · cases hc
  case uplink =>
    intro c hc
    rw [uplink_happen, Station.wrote_happen] at hc
    have hold (hc : .call c ∈ q.uplink) : P c.context c.depth := h.uplink c (huplink hc)
    split at hc
    · rcases List.mem_append.1 hc with hc | hc
      · exact hold hc
      · obtain rfl := Link.call_of_wrote hc
        cases hm with
        | obeys hq => exact h.queue c (hq ▸ List.mem_cons_self)
    · exact hold hc
  case downlink =>
    intro c hc
    exact h.downlink c (hdownlink hc)
  case jobs =>
    intro job k hk
    have hold : ∀ (job : JobId) k, q.station.jobs[job]? = some k → P k.context k.depth := by
      cases hm <;> exact h.jobs
    rcases Station.old_or_new_job hk with ⟨k₀, hk₀, hcontext, hdepth⟩ | ⟨c, rfl, -, hcontext, hdepth⟩
    · rw [hcontext, hdepth]
      exact hold job k₀ hk₀
    · rw [hcontext, hdepth]
      cases hm with
      | hears hd hm =>
        cases Message.alike_of_transmitted hm with
        | call d => exact h.downlink d (hd ▸ List.mem_cons_self)

theorem Carries.post (h : p.Carries P) {sents : List Sent} (hs : Offers sents P)
    (client : ClientId) : (p.post client sents).Carries P := by
  obtain ⟨hstation, huplink, -⟩ := p.post_same client sents
  refine ⟨hstation ▸ h.queue, huplink ▸ h.uplink, fun c hc => ?_, hstation ▸ h.jobs⟩
  rcases mem_downlink_post hc with hc | ⟨s, hmem, -, hmessage⟩
  · exact h.downlink c hc
  · exact hs s hmem c hmessage

end Port

/-! ### Networks -/

namespace Network

/-- All calls that are anywhere in a network satisfy something. -/
structure Carries (net : Network η) (P : String → UInt32 → Prop) : Prop where
  ports : ∀ client p, net.ports.get? client = some p → p.Carries P
  running : net.exchange.Carries P

variable {net : Network η} {client : ClientId} {p : Port η}

theorem carries_start : ({} : Network η).Carries P := ⟨nofun, nofun⟩

theorem Carries.mono (h : net.Carries P)
    (hPQ : ∀ context depth, P context depth → Q context depth) : net.Carries Q :=
  ⟨fun client p hp => (h.ports client p hp).mono hPQ,
    fun context r hr => hPQ _ _ (h.running context r hr)⟩

theorem Carries.change (h : net.Carries P) (hp : net.ports.get? client = some p) {p' : Port η}
    (hp' : p'.Carries P) : (net.change client p').Carries P := by
  refine ⟨fun other q hq => ?_, h.running⟩
  rw [get?_change hp] at hq
  split at hq
  · obtain rfl := Option.some.inj hq
    exact hp'
  · exact h.ports other q hq

theorem Carries.tell (h : net.Carries P) (hx : net.exchange.Coherent) {e : ExchangeEvent}
    (he : ∀ client c, e = .received client (.call c) → P c.context c.depth) (v : Visits) :
    (net.tell e v).1.Carries P := by
  refine ⟨fun client q hq => ?_, h.running.step hx he v⟩
  obtain ⟨p, hp, rfl⟩ := of_get?_tell hq
  exact (h.ports client p hp).post (h.running.offers hx he v) client

theorem Carries.received (h : net.Carries P) (hp : net.ports.get? client = some p) {m m' : Message}
    {us : List Message} (hu : p.uplink = m :: us) (hm : m.transmitted = .ok m') :
    (net.change client { p with uplink := us }).Carries P ∧
      ∀ other c, ExchangeEvent.received client m' = .received other (.call c) →
        P c.context c.depth := by
  have hport := h.ports client p hp
  constructor
  · refine h.change hp { hport with uplink := fun c hc => hport.uplink c ?_ }
    rw [hu]
    exact List.mem_cons_of_mem _ hc
  · rintro other c he
    obtain rfl := (ExchangeEvent.received.inj he).2
    cases Message.alike_of_transmitted hm with
    | call d => exact hport.uplink d (hu ▸ List.mem_cons_self)

variable [DecidableEq η]

theorem Carries.close (h : net.Carries P) (hp : net.ports.get? client = some p) (up down : Nat) :
    (net.change client { p.close up down with left := true }).Carries P := by
  refine h.change hp ?_
  have hclose : (p.close up down).Carries P := by
    rw [Port.close_eq]
    exact (h.ports client p hp).meets (.closes up down (List.suffix_refl _))
  exact { hclose with }

/-- What is true of the contexts and depths of all calls stays so, as long as it is true of the calls
that are made. -/
theorem Carries.step (h : net.Carries P) (hs : net.Sound) {e : NetworkEvent η}
    (hmakes : ∀ client p o depth, e = .act client o → net.ports.get? client = some p →
      p.station.link.up = true → p.station.Makes o depth → P (ContextId.ofNat net.serial) depth) :
    (net.step e).1.Carries P := by
  have hchange := net.change_step e
  generalize (net.step e).1 = net' at hchange
  cases hchange with
  | nothing => exact h
  | joins =>
    have hjoined : Carries { net with ports := net.ports.insert (net.ports.size + 1) {} } P := by
      refine ⟨fun client p hp => ?_, h.running⟩
      rw [Keyed.get?_insert] at hp
      split at hp
      · obtain rfl := Option.some.inj hp
        exact Port.carries_empty
      · exact h.ports client p hp
    exact hjoined.tell hs.coherent (by rintro _ _ ⟨⟩) {}
  | @operates client p o he hp =>
    have hport : (p.restate (p.station.operate (ContextId.ofNat net.serial) o).1).Carries P :=
      (h.ports client p hp).operate fun depth hu hm => hmakes client p o depth he hp hu hm
    exact ⟨(h.change hp hport).ports, h.running⟩
  | @meets client p q le hp hm => exact h.change hp ((h.ports client p hp).meets hm)
  | receives hp hu hm =>
    obtain ⟨hleft, hreceived⟩ := h.received hp hu hm
    exact hleft.tell hs.coherent hreceived {}
  | leaves hp _ v => exact (h.close hp 0 _).tell hs.coherent (by rintro _ _ ⟨⟩) v
  | mutes => exact h.tell hs.coherent (by rintro _ _ ⟨⟩) {}

theorem Carries.offers (h : net.Carries P) (hs : net.Sound) (e : NetworkEvent η) :
    Offers (net.step e).2.sent P := by
  cases hport : net.port? e with
  | none =>
    by_cases he : e = .join
    · subst he
      exact h.running.offers (e := .connected (net.ports.size + 1)) hs.coherent
        (by rintro _ _ ⟨⟩) {}
    · rw [step_of_port?_none hport he]
      rintro _ ⟨⟩
  | some cp =>
    obtain ⟨client, p⟩ := cp
    have hp := port?_eq_some hport
    rw [step_of_port? hport]
    cases e with
    | join | act | obey | hear | close => rintro _ ⟨⟩
    | route _ v =>
      simp only [stepPort]
      split
      · next m us hu =>
        split
        · next m' hm =>
          obtain ⟨hleft, hreceived⟩ := h.received hp hu hm
          exact hleft.running.offers hs.coherent hreceived {}
        · rintro _ ⟨⟩
      · split
        · exact h.running.offers (e := .left client) hs.coherent (by rintro _ _ ⟨⟩) v
        · rintro _ ⟨⟩
    | mute =>
      simp only [stepPort]
      split
      · exact h.running.offers (e := .muted client) hs.coherent (by rintro _ _ ⟨⟩) {}
      · rintro _ ⟨⟩

/-! ### Calls that enclose each other -/

/-- By the events, a call was made under a context, in the work of the handlers of a chain: the one
that made it comes first, then the one that made the call which that one was serving, and so on. -/
inductive Enclosed : List (NetworkEvent η) → String → List (ClientId × JobId) → Prop
  | outermost {es past later : List (NetworkEvent η)} {client : ClientId} {function : String}
      {args : Json} {context : String} (he : es = past ++ .act client (.call function args) :: later)
      (hr : ((run {} past).step (.act client (.call function args))).2.reply =
        some (.started (.ok context))) :
    Enclosed es context []
  | nested {es past later : List (NetworkEvent η)} {client : ClientId} {job : JobId}
      {function : String} {args : Json} {context : String} {p : Port η} {k : InboundCall}
      {chain : List (ClientId × JobId)}
      (he : es = past ++ .act client (.nested job function args) :: later)
      (hr : ((run {} past).step (.act client (.nested job function args))).2.reply =
        some (.started (.ok context)))
      (hp : (run {} past).ports.get? client = some p) (hk : p.station.jobs[job]? = some k)
      (hc : Enclosed past k.context chain) :
    Enclosed es context ((client, job) :: chain)

variable {es es' past later : List (NetworkEvent η)} {context : String}
  {chain chain' : List (ClientId × JobId)} {o : Operation η}

theorem Enclosed.append (h : Enclosed es context chain) (es' : List (NetworkEvent η)) :
    Enclosed (es ++ es') context chain := by
  cases h with
  | outermost he hr => exact .outermost (he ▸ List.append_assoc ..) hr
  | nested he hr hp hk hc => exact .nested (he ▸ List.append_assoc ..) hr hp hk hc

theorem reply_act (hp : net.ports.get? client = some p) (o : Operation η) :
    (net.step (.act client o)).2.reply =
      some (p.station.operate (ContextId.ofNat net.serial) o).2 := by
  have hport : net.port? (.act client o) = some (client, p) := congrArg (Option.map _) hp
  rw [step_of_port? hport]
  rfl

theorem port_of_reply {r : Reply} (hr : (net.step (.act client o)).2.reply = some r) :
    ∃ p, net.ports.get? client = some p ∧
      (p.station.operate (ContextId.ofNat net.serial) o).2 = r := by
  cases hp : net.ports.get? client with
  | some p =>
    rw [reply_act hp] at hr
    exact ⟨p, rfl, Option.some.inj hr⟩
  | none =>
    have hport : net.port? (.act client o) = none := congrArg (Option.map _) hp
    rw [step_of_port?_none hport nofun] at hr
    cases hr

theorem given_of_reply
    (hr : ((run {} past).step (.act client o)).2.reply = some (.started (.ok context)))
    (later : List (NetworkEvent η)) :
    context = ContextId.ofNat (run ({} : Network η) past).serial ∧
      (run ({} : Network η) past).serial <
        (run ({} : Network η) (past ++ .act client o :: later)).serial := by
  obtain ⟨p, hp, hreply⟩ := port_of_reply hr
  refine ⟨Station.context_of_started hreply, ?_⟩
  have hserial : ((run ({} : Network η) past).step (.act client o)).1.serial =
      (run ({} : Network η) past).serial + 1 := by rw [step_act hp]
  have hle := ((run ({} : Network η) past).step (.act client o)).1.serial_le_run later
  rw [run_append]
  show _ < (((run ({} : Network η) past).step (.act client o)).1.run later).serial
  omega

section Given

variable {past' later' : List (NetworkEvent η)} {client' : ClientId} {o' : Operation η}

/-- No event comes after one that gives out a context if no context has been given out before it. -/
theorem event_of_serial {mid : List (NetworkEvent η)}
    (hr : ((run {} past).step (.act client o)).2.reply = some (.started (.ok context)))
    (hserial : (run ({} : Network η) past).serial = (run ({} : Network η) past').serial)
    (hpast : past' = past ++ mid)
    (hmid : .act client o :: later = mid ++ .act client' o' :: later') :
    past = past' ∧ client = client' ∧ o = o' := by
  cases mid with
  | nil =>
    obtain ⟨rfl, rfl⟩ := NetworkEvent.act.inj (List.cons.inj hmid).1
    exact ⟨by rw [hpast, List.append_nil], rfl, rfl⟩
  | cons e mid =>
    obtain ⟨rfl, -⟩ := List.cons.inj hmid
    obtain ⟨-, hlt⟩ := given_of_reply hr mid
    rw [← hpast, hserial] at hlt
    exact absurd hlt (Nat.lt_irrefl _)

theorem event_of_context (hn : (ContextId.series (run ({} : Network η) es).serial).Nodup)
    (he : es = past ++ .act client o :: later) (he' : es = past' ++ .act client' o' :: later')
    (hr : ((run {} past).step (.act client o)).2.reply = some (.started (.ok context)))
    (hr' : ((run {} past').step (.act client' o')).2.reply = some (.started (.ok context))) :
    past = past' ∧ client = client' ∧ o = o' := by
  have hserial : (run ({} : Network η) past).serial = (run ({} : Network η) past').serial := by
    obtain ⟨hc, hlt⟩ := given_of_reply hr later
    obtain ⟨hc', hlt'⟩ := given_of_reply hr' later'
    rw [← he] at hlt
    rw [← he'] at hlt'
    rcases Nat.lt_trichotomy (run ({} : Network η) past).serial
      (run ({} : Network η) past').serial with h | h | h
    · exact absurd (hc.symm.trans hc') (ofNat_ne hn h hlt')
    · exact h
    · exact absurd (hc'.symm.trans hc) (ofNat_ne hn h hlt)
  rcases List.append_eq_append_iff.1 (he.symm.trans he') with ⟨mid, hpast, hmid⟩ | ⟨mid, hpast, hmid⟩
  · exact event_of_serial hr hserial hpast hmid
  · obtain ⟨rfl, rfl, rfl⟩ := event_of_serial hr' hserial.symm hpast hmid
    exact ⟨rfl, rfl, rfl⟩

end Given

theorem nodup_of_append (hn : (ContextId.series (run ({} : Network η) (past ++ es)).serial).Nodup) :
    (ContextId.series (run ({} : Network η) past).serial).Nodup := by
  rw [run_append] at hn
  exact hn.sublist (ContextId.series_mono ((run ({} : Network η) past).serial_le_run es)).sublist

theorem Enclosed.unique (h : Enclosed es context chain)
    (hn : (ContextId.series (run ({} : Network η) es).serial).Nodup)
    (h' : Enclosed es context chain') : chain = chain' := by
  induction h generalizing chain' with
  | outermost he hr =>
    cases h' with
    | outermost => rfl
    | nested he' hr' =>
      obtain ⟨-, -, ho⟩ := event_of_context hn he he' hr hr'
      cases ho
  | nested he hr hp hk _ ih =>
    cases h' with
    | outermost he' hr' =>
      obtain ⟨-, -, ho⟩ := event_of_context hn he he' hr hr'
      cases ho
    | nested he' hr' hp' hk' hc' =>
      obtain ⟨rfl, rfl, ho⟩ := event_of_context hn he he' hr hr'
      obtain ⟨rfl, -, -⟩ := Operation.nested.inj ho
      obtain rfl := Option.some.inj (hp.symm.trans hp')
      obtain rfl := Option.some.inj (hk.symm.trans hk')
      subst he
      rw [ih (nodup_of_append hn) hc']

/-- A depth counts what encloses a call, and is within the bound. -/
def Counts (es : List (NetworkEvent η)) (context : String) (depth : UInt32) : Prop :=
  ∃ chain : List (ClientId × JobId),
    Enclosed es context chain ∧ depth.toNat = chain.length ∧ depth ≤ maxCallDepth

theorem counts_of_makes (h : (run ({} : Network η) es).Carries (Counts es))
    (hp : (run ({} : Network η) es).ports.get? client = some p) (hu : p.station.link.up = true)
    {depth : UInt32} (hm : p.station.Makes o depth) :
    Counts (es ++ [.act client o]) (ContextId.ofNat (run ({} : Network η) es).serial) depth := by
  have hr : ((run ({} : Network η) es).step (.act client o)).2.reply =
      some (.started (.ok (ContextId.ofNat (run ({} : Network η) es).serial))) := by
    rw [reply_act hp, hm.reply hu]
  cases hm with
  | call => exact ⟨[], .outermost rfl hr, rfl, UInt32.zero_le⟩
  | @nested job k _ _ _ hk hd =>
    obtain ⟨chain, henclosed, hdepth, hbound⟩ := (h.ports client p hp).jobs job k hk
    obtain ⟨hlt, rfl⟩ := InboundCall.depth_of_nestedDepth hbound hd
    have hsucc := InboundCall.depth_succ hbound
    refine ⟨(client, job) :: chain, .nested rfl hr hp hk henclosed, ?_, ?_⟩
    · rw [hsucc, hdepth, List.length_cons]
    · rw [UInt32.le_iff_toNat_le, hsucc]
      exact UInt32.lt_iff_toNat_lt.1 hlt

theorem counts_run (es : List (NetworkEvent η)) : (run ({} : Network η) es).Carries (Counts es) := by
  induction es using List.reverseRecOn with
  | nil => exact carries_start
  | append_singleton es e ih =>
    have hkept : (run ({} : Network η) es).Carries (Counts (es ++ [e])) :=
      ih.mono fun context depth ⟨chain, henclosed, hlength, hbound⟩ =>
        ⟨chain, henclosed.append [e], hlength, hbound⟩
    rw [run_append]
    refine hkept.step (sound_run sound_start es) ?_
    rintro client p o depth rfl hp hu hm
    exact counts_of_makes ih hp hu hm

theorem Enclosed.length_le (h : Enclosed es context chain)
    (hn : (ContextId.series (run ({} : Network η) es).serial).Nodup) :
    chain.length ≤ maxCallDepth.toNat := by
  cases h with
  | outermost => exact Nat.zero_le _
  | @nested _ past _ client job _ _ _ p k chain he hr hp hk hc =>
    obtain ⟨chain', hc', hdepth, hbound⟩ := ((counts_run past).ports client p hp).jobs job k hk
    subst he
    obtain rfl := hc.unique (nodup_of_append hn) hc'
    obtain ⟨q, hq, hreply⟩ := port_of_reply hr
    obtain rfl := Option.some.inj (hp.symm.trans hq)
    cases hd : k.nestedDepth with
    | ok depth =>
      obtain ⟨hlt, -⟩ := InboundCall.depth_of_nestedDepth hbound hd
      rw [List.length_cons, ← hdepth]
      exact UInt32.lt_iff_toNat_lt.1 hlt
    | error f =>
      rw [Station.operate_nested_of_error hk hd] at hreply
      cases hreply

/-! ### A handler that calls its own function -/

/-- A participant joins and registers two handlers of a function. -/
def equipping : List (NetworkEvent Bool) :=
  [.join] ++ errand 1 (.register "f" 0 true) 1 ++ errand 1 (.register "f" 0 false) 1

/-- The participant has two handlers of the function, and nothing else has happened. -/
structure Equipped (net : Network Bool) (p : Port Bool) : Prop where
  port : net.ports.get? 1 = some p
  idle : p.Idle
  serial : net.serial = 2
  line : net.exchange.lines.get? 1 = some .live
  route : net.exchange.directory.entries "f" = [⟨⟨0, 0⟩, ⟨1, 1⟩⟩, ⟨⟨0, 1⟩, ⟨1, 2⟩⟩]
  handlers : p.station.link.roster.get? 1 = some true ∧ p.station.link.roster.get? 2 = some false
  running : net.exchange.running.get? (ContextId.ofNat 2) = none
  serving : p.station.link.running.get? (ContextId.ofNat 2) = none
  jobs : p.station.jobs = []

/-- It calls the function.  The first handler declines, so that the second one serves the call. -/
def declining : List (NetworkEvent Bool) :=
  equipping ++ errand 1 (.call "f" .null) 1 ++ errand 1 (.dropJob 0) 1

/-- From then on, whichever handler was started last calls the function again, so often. -/
def descending : Nat → List (NetworkEvent Bool)
  | 0 => declining
  | n + 1 => descending n ++ errand 1 (.nested (n + 1) "f" .null) 1

/-- The participant serves a call that has fallen through, and within it so many calls, each in the
work of a handler of the one before. -/
structure Descends (es : List (NetworkEvent Bool)) (n : Nat) (net : Network Bool) (p : Port Bool) :
    Prop where
  run : Network.run {} es = net
  port : net.ports.get? 1 = some p
  idle : p.Idle
  serial : net.serial = n + 4
  line : net.exchange.lines.get? 1 = some .live
  route : ∃ entries, net.exchange.directory.entries "f" = ⟨⟨0, 0⟩, ⟨1, 1⟩⟩ :: entries
  handler : p.station.link.roster.get? 1 = some true
  jobs : p.station.jobs.length = n + 2
  declined : p.station.jobs[0]? =
    some { context := ContextId.ofNat 2, args := .null, depth := 0, finished := true }
  served : p.station.jobs[1]? = some { context := ContextId.ofNat 2, args := .null, depth := 0 }
  innermost : ∃ k chain, p.station.jobs[n + 1]? = some k ∧ k.depth.toNat = n ∧
    Enclosed es k.context chain ∧ chain.length = n

theorem leads_equipping : ∃ net p, ({} : Network Bool).Leads equipping net (fun _ => []) ∧
    Equipped net p := by
  let net₀ : Network Bool := ({} : Network Bool).run [.join]
  have hjoined : ({} : Network Bool).Leads [.join] net₀ fun _ => [] := ⟨rfl, fun _ => rfl⟩
  have hport₀ : net₀.ports.get? 1 = some {} := rfl
  have hfirst := leads_register_first true hport₀ rfl
  let p₁ : Port Bool := ({} : Port Bool).enlisted (ContextId.ofNat 0) 1 (.ofHandler true)
  let net₁ : Network Bool := { net₀.change 1 p₁ with
    exchange := { net₀.exchange with directory := net₀.exchange.directory.insert "f" 0 ⟨1, 1⟩ }
    serial := net₀.serial + 1 }
  have hp₁ : p₁.Idle := Port.idle_empty.enlisted ..
  have hport₁ : net₁.ports.get? 1 = some p₁ := rfl
  let roster : Roster Bool := {
    directory := (Roster.ofHandler true).directory.insert "f" 0 2
    handlers := (Roster.ofHandler true).handlers.insert 2 false
    issued := 2 }
  have hregisters : (Roster.ofHandler true).register "f" 0 false = .ok (2, roster) := rfl
  have hsecond := leads_register rfl hport₁ hp₁ hregisters (Message.travels_register_f 1 2) rfl
    (Message.travels_confirmed 1)
  have hleads := (hjoined.trans hfirst).trans hsecond
  exact ⟨_, p₁.enlisted (ContextId.ofNat 1) 2 roster,
    ⟨hleads.run, fun context => hleads.history context⟩, {
      port := rfl
      idle := hp₁.enlisted ..
      serial := rfl
      line := rfl
      route := rfl
      handlers := ⟨rfl, rfl⟩
      running := rfl
      serving := rfl
      jobs := rfl }⟩

theorem descends_declining : ∃ net p, Descends declining 0 net p := by
  obtain ⟨net, p, hequips, h⟩ := leads_equipping
  obtain ⟨hfirst, hsecond⟩ := h.handlers
  -- the first handler is started
  let c : Call := { context := ContextId.ofNat 2, function := "f" }
  have hoperates : (p.station.operate (ContextId.ofNat net.serial) (.call "f" .null)).1 =
      { p.station with
        queue := [.call c]
        calls := p.station.calls.insert c.context
          { context := c.context, function := c.function, args := c.args } } := by
    rw [h.serial]
    exact h.idle.operate_call ..
  have hserved := leads_call (c := c) (q := p.calling c) h.port h.idle hoperates
    (Message.travels_call_f 2 0 none) h.running h.route h.line (Message.travels_call_f 2 0 (some 1))
    (get?_change_self h.port _) (h.idle.calling c) hfirst h.serving
  -- it declines
  let q : Port Bool := (p.calling c).serving { c with handler := some 1 }
  let r : Running := ⟨1, ⟨⟨0, 0⟩, ⟨1, 1⟩⟩, { c with handler := some 1 }⟩
  let k : InboundCall := .ofCall c
  let net₁ : Network Bool := { (net.change 1 (p.calling c)).change 1 q with
    exchange := { net.exchange with running := net.exchange.running.insert c.context r }
    serial := net.serial + 1 }
  have hq : q.Idle := (h.idle.calling c).serving _
  have hport₁ : net₁.ports.get? 1 = some q := get?_change_self (get?_change_self h.port _) _
  have hjobs : q.station.jobs = [k] := by
    show p.station.jobs ++ [_] = _
    rw [h.jobs]
    rfl
  have hjob : q.station.jobs[0]? = some k := by rw [hjobs]; rfl
  have hserves : q.station.link.running.contains k.context = true := by
    rw [Keyed.contains]
    exact congrArg Option.isSome (Keyed.get?_insert_self ..)
  have hdeclines : (Message.result (ContextId.ofNat 2) .declined).Travels :=
    Message.travels_result (List.forall_mem_nil _) (by decide)
      (by rw [ContextId.size_ofNat, Outcome.size_declined]; decide)
  have hrunning : net₁.exchange.running.get? k.context = some r := Keyed.get?_insert_self ..
  have hafter : net₁.exchange.directory.after "f" ⟨0, 0⟩ = [⟨⟨0, 1⟩, ⟨1, 2⟩⟩] := by
    show (net.exchange.directory.entries "f").filter _ = _
    rw [h.route]
    rfl
  have hport₂ : (net₁.change 1 (q.ending 0 k)).ports.get? 1 = some (q.ending 0 k) :=
    get?_change_self hport₁ _
  have hfree : (q.ending 0 k).station.link.running.get? k.context = none :=
    Keyed.get?_erase_self ..
  have hdeclined := leads_dropJob hport₁ hq hjob rfl hserves hdeclines hrunning rfl rfl hafter
    h.line (Message.travels_call_f 2 0 (some 2)) hport₂ (hq.ending 0 k) hsecond hfree
  -- the second one is started, and the call is not nested
  let q' : Port Bool := (q.ending 0 k).serving { c with handler := some 2 }
  have hjobs' : q'.station.jobs = [{ k with finished := true }, k] := by
    show q.station.jobs.set 0 _ ++ [_] = _
    rw [hjobs]
    rfl
  have hcalled : ((run {} equipping).step (.act 1 (.call "f" .null))).2.reply =
      some (.started (.ok c.context)) := by
    rw [hequips.run, reply_act h.port, Station.reply_call, if_pos h.idle.up, h.serial]
  have hleads := (hequips.trans hserved).trans hdeclined
  exact ⟨_, q', {
    run := hleads.run
    port := get?_change_self hport₂ _
    idle := (hq.ending 0 k).serving _
    serial := congrArg (· + 2) h.serial
    line := h.line
    route := ⟨_, h.route⟩
    handler := hfirst
    jobs := by rw [hjobs']; rfl
    declined := by rw [hjobs']; rfl
    served := by rw [hjobs']; rfl
    innermost := ⟨k, [], by rw [hjobs']; rfl, rfl, .outermost rfl hcalled, rfl⟩ }⟩

/-- The innermost handler can go on as long as the bound is not reached. -/
theorem descends_nested {es : List (NetworkEvent Bool)} {n : Nat} {net : Network Bool}
    {p : Port Bool} (h : Descends es n net p) (hn : n < maxCallDepth.toNat) :
    ∃ net' p', Descends (es ++ errand 1 (.nested (n + 1) "f" .null) 1) (n + 1) net' p' := by
  obtain ⟨k, chain, hk, hdepth, henclosed, hchain⟩ := h.innermost
  obtain ⟨entries, hroute⟩ := h.route
  have hlt : k.depth < maxCallDepth := by
    rw [UInt32.lt_iff_toNat_lt, hdepth]
    exact hn
  have hnested := InboundCall.nestedDepth_of_lt hlt
  -- the context of the call is new
  have hmax : maxCallDepth.toNat = 32 := rfl
  have hnodup : (ContextId.series (n + 5)).Nodup :=
    ContextId.series_nodup (Nat.le_trans (by omega : n + 5 ≤ 64) (by decide))
  have hblank : (net.thread (ContextId.ofNat (n + 4))).Blank := by
    rw [← h.run]
    apply blank_of_fresh
    · rw [h.run, h.serial]
      exact (ContextId.series_mono (Nat.le_succ _)).sublist.nodup hnodup
    · rw [h.run, h.serial]
      exact ContextId.fresh_of_nodup hnodup (Nat.lt_succ_self _)
  have hserving : p.station.link.running.get? (ContextId.ofNat (n + 4)) = none :=
    (hblank.strand 1 _ (strand_thread h.port)).serving
  let c : Call := {
    context := ContextId.ofNat (n + 4), function := "f", args := .null, depth := k.depth + 1 }
  have hoperates : (p.station.operate (ContextId.ofNat net.serial) (.nested (n + 1) "f" .null)).1 =
      { p.station with
        queue := [.call c]
        calls := p.station.calls.insert c.context
          { context := c.context, function := c.function, args := c.args } } := by
    rw [h.serial]
    exact h.idle.operate_nested hk hnested ..
  have hleads := leads_call (c := c) (e := ⟨⟨0, 0⟩, ⟨1, 1⟩⟩) (q := p.calling c) h.port h.idle
    hoperates (Message.travels_call_f ..) hblank.running hroute h.line (Message.travels_call_f ..)
    (get?_change_self h.port _) (h.idle.calling c) h.handler hserving
  have hrun := (run_append {} es _).trans ((congrArg (run · _) h.run).trans hleads.run)
  have hreply : ((run {} es).step (.act 1 (.nested (n + 1) "f" .null))).2.reply =
      some (.started (.ok c.context)) := by
    rw [h.run, reply_act h.port, Station.reply_nested hk hnested, if_pos h.idle.up, h.serial]
  have hold {job : JobId} {k' : InboundCall} (hk' : p.station.jobs[job]? = some k')
      (k'' : InboundCall) : (p.station.jobs ++ [k''])[job]? = some k' := by
    rw [List.getElem?_append_left (List.getElem?_eq_some_iff.1 hk').1, hk']
  exact ⟨_, (p.calling c).serving { c with handler := some 1 }, {
    run := hrun
    port := get?_change_self (get?_change_self h.port _) _
    idle := (h.idle.calling c).serving _
    serial := congrArg (· + 1) h.serial
    line := h.line
    route := ⟨entries, hroute⟩
    handler := h.handler
    jobs := by
      show (p.station.jobs ++ [_]).length = _
      rw [List.length_append, h.jobs]
      rfl
    declined := hold h.declined _
    served := hold h.served _
    innermost := by
      have hp : (run {} es).ports.get? 1 = some p := by rw [h.run, h.port]
      refine ⟨.ofCall c, (1, n + 1) :: chain, ?_, ?_, .nested rfl hreply hp hk henclosed, ?_⟩
      · show (p.station.jobs ++ [_])[n + 2]? = _
        rw [← h.jobs, List.getElem?_concat_length]
        rfl
      · show (k.depth + 1).toNat = n + 1
        rw [InboundCall.depth_succ (UInt32.le_of_lt hlt), hdepth]
      · rw [List.length_cons, hchain] }⟩

theorem descends_descending {n : Nat} (hn : n ≤ maxCallDepth.toNat) :
    ∃ net p, Descends (descending n) n net p := by
  induction n with
  | zero => exact descends_declining
  | succ n ih =>
    obtain ⟨net, p, hp⟩ := ih (Nat.le_of_succ_le hn)
    exact descends_nested hp hn

/-! ### The main statement -/

/-- A call has been made, its depth counts the work of handlers that encloses it, and that is within
the bound. -/
structure Nested (es : List (NetworkEvent η)) (context : String) (depth : UInt32) : Prop where
  enclosed : ∃ chain, Enclosed es context chain
  depth_eq : ∀ chain, Enclosed es context chain → depth.toNat = chain.length
  bound : depth ≤ maxCallDepth

/-- **Depths count how deep calls are nested, and nesting is bounded.**  Let anything happen in a
network whose contexts differ.  Then:

* whatever call waits, is on its way, runs at the exchange, is served, or is offered by the next
  event is enclosed in the work of as many handlers as its depth says, which is within the bound;
* so is every call that has been made in the run, also if it is over;
* the depth of a call that is served can be increased by one without overflow;
* a nested call is refused exactly if the depth of the call being served is the bound, and then
  nothing else comes of it; otherwise it is begun, unless the link is lost. -/
theorem depth_eq_nesting (es : List (NetworkEvent η))
    (hn : (ContextId.series (run ({} : Network η) es).serial).Nodup) :
    let net := run ({} : Network η) es
    net.Carries (Nested es) ∧ (∀ e, Offers (net.step e).2.sent (Nested es)) ∧
    (∀ context chain, Enclosed es context chain → chain.length ≤ maxCallDepth.toNat) ∧
    ∀ client p, net.ports.get? client = some p →
      ∀ (job : JobId) k, p.station.jobs[job]? = some k →
        (k.depth + 1).toNat = k.depth.toNat + 1 ∧
        ∀ fresh function args,
          (k.depth = maxCallDepth → p.station.operate fresh (.nested job function args) =
            (p.station, .started (.error (.callTooDeep (maxCallDepth + 1) maxCallDepth)))) ∧
          (k.depth ≠ maxCallDepth →
            (p.station.operate fresh (.nested job function args)).2 =
              .started (if p.station.link.up then .ok fresh else .error .disconnected)) := by
  intro net
  have hsound : net.Sound := sound_run sound_start es
  have hcarries : net.Carries (Nested es) := by
    refine (counts_run es).mono fun context depth ⟨chain, henclosed, hlength, hbound⟩ => ?_
    refine ⟨⟨chain, henclosed⟩, fun chain' h' => ?_, hbound⟩
    rw [← henclosed.unique hn h', hlength]
  refine ⟨hcarries, hcarries.offers hsound, fun context chain h => h.length_le hn, ?_⟩
  intro client p hp job k hk
  have hbound : k.depth ≤ maxCallDepth := ((hcarries.ports client p hp).jobs job k hk).bound
  refine ⟨InboundCall.depth_succ hbound, fun fresh function args => ⟨fun hd => ?_, fun hd => ?_⟩⟩
  · exact Station.operate_nested_of_error hk (InboundCall.nestedDepth_of_eq hd) fresh function args
  · have hlt : k.depth < maxCallDepth := UInt32.lt_of_le_of_ne hbound hd
    exact Station.reply_nested hk (InboundCall.nestedDepth_of_lt hlt) fresh function args

/-- A call that falls through and is served by a second handler, calls that are nested within it as
deep as can be, and one that would be nested deeper. -/
theorem depth_eq_nesting_descending :
    let es := descending 32
    ∃ p k, (run {} es).ports.get? 1 = some p ∧
      p.station.jobs[0]? =
        some { context := ContextId.ofNat 2, args := .null, depth := 0, finished := true } ∧
      p.station.jobs[1]? = some { context := ContextId.ofNat 2, args := .null, depth := 0 } ∧
      p.station.jobs[33]? = some k ∧ k.depth = 32 ∧
      (∃ chain, Enclosed es k.context chain) ∧
      (∀ chain, Enclosed es k.context chain → chain.length = 32) ∧
      (∀ chain, Enclosed es (ContextId.ofNat 2) chain → chain = []) ∧
      ∀ fresh, p.station.operate fresh (.nested 33 "f" .null) =
          (p.station, .started (.error (.callTooDeep 33 32))) ∧
        (p.station.operate fresh (.nested 1 "f" .null)).2 = .started (.ok fresh) := by
  intro es
  obtain ⟨net, p, hp⟩ := descends_descending (n := 32) (Nat.le_refl _)
  obtain ⟨k, _, hk, hdepth, -, -⟩ := hp.innermost
  have hk32 : k.depth = 32 := UInt32.toNat_inj.1 hdepth
  have hn : (ContextId.series (run ({} : Network Bool) es).serial).Nodup := by
    rw [hp.run, hp.serial]
    exact ContextId.series_nodup (by decide)
  obtain ⟨hcarries, -, -, hjobs⟩ := depth_eq_nesting es hn
  obtain rfl := hp.run
  have hinner := (hcarries.ports 1 p hp.port).jobs 33 k hk
  have houter := (hcarries.ports 1 p hp.port).jobs 1 _ hp.served
  refine ⟨p, k, hp.port, hp.declined, hp.served, hk, hk32, hinner.enclosed, fun chain h => ?_,
    fun chain h => ?_, fun fresh => ⟨?_, ?_⟩⟩
  · rw [← hinner.depth_eq chain h, hdepth]
  · exact List.length_eq_zero_iff.1 (houter.depth_eq chain h).symm
  · exact ((hjobs 1 p hp.port 33 k hk).2 fresh "f" .null).1 hk32
  · rw [((hjobs 1 p hp.port 1 _ hp.served).2 fresh "f" .null).2 (by decide), if_pos hp.idle.up]

end Network
end Switchboard
