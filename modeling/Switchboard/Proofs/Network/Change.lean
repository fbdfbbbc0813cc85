import Switchboard.Proofs.Network.Run

/-! # What an event changes

Every event of a network changes a single port, or tells the exchange something, or both.  What is
said of all the ports and of the directory at once, and not of one context, is proved from this
list.

* **Links.** `Port.Meets` says what the link of a port may meet next, and what is then left of the
  commands and messages that are on their way at the port.
* **Posting.** A port to which something is posted has it behind what was on its way, as far as the
  broker still writes (`foldl_send`).
* **Main statement.** `change_step`: what an event does is one of the changes of `Change`. -/

namespace Switchboard

variable {η : Type}

/-! ### Links and their ports -/

section Happen

variable [DecidableEq η]

/-- A link that is lost takes the commands with it. -/
theorem Station.happen_queue (s : Station η) (e : LinkEvent η) :
    (s.happen e).1.queue = if (s.link.step e).1.up then s.queue else [] :=
  Station.foldl_note_queue ..

theorem Station.wrote_happen (s : Station η) (e : LinkEvent η) :
    (s.happen e).2.filterMap Port.wrote? = (s.link.step e).2.filterMap Port.wrote? := by
  simp only [Station.happen]
  split
  · rfl
  · rw [List.filterMap_append, Port.wrote_quiet (Port.quiet_forgotten "" s.queue),
      List.append_nil]

end Happen

namespace Port

variable {p : Port η}

/-- What a link may meet next, and its port without what the link has met.  When the broker ends
the session, what is then on its way is cut short at once. -/
inductive Meets (p : Port η) : LinkEvent η → Port η → Prop
  | obeys {c : Command η} {cs : List (Command η)} (hq : p.station.queue = c :: cs) :
    Meets p (.commanded c) (p.popped cs)
  | hears {m m' : Message} {ms : List Message} (hd : p.downlink = m :: ms)
      (hm : m.transmitted = .ok m') : Meets p (.heard m') (p.taken ms)
  | ends {ms : List Message} (hd : ms <:+ p.downlink) : Meets p .ended (p.taken ms)
  | closes {us : List Message} (up down : Nat) (hu : us <:+ p.uplink) :
    Meets p .deafened { p with
      uplink := us.take up
      downlink := p.downlink.take down
      reads := false
      writes := false }

/-- Closing a port is deafening its link when what is on its way has been cut short. -/
theorem close_eq [DecidableEq η] (p : Port η) (up down : Nat) : p.close up down = happen { p with
    uplink := p.uplink.take up
    downlink := p.downlink.take down
    reads := false
    writes := false } .deafened := rfl

theorem Meets.subset {e : LinkEvent η} {q : Port η} (h : p.Meets e q) :
    q.station.queue ⊆ p.station.queue ∧ q.uplink ⊆ p.uplink ∧ q.downlink ⊆ p.downlink := by
  cases h with
  | obeys hq =>
    refine ⟨?_, List.Subset.refl _, List.Subset.refl _⟩
    rw [hq]
    exact List.subset_cons_self ..
  | hears hd =>
    refine ⟨List.Subset.refl _, List.Subset.refl _, ?_⟩
    rw [hd]
    exact List.subset_cons_self ..
  | ends hd => exact ⟨List.Subset.refl _, List.Subset.refl _, hd.subset⟩
  | closes up down hu =>
    refine ⟨List.Subset.refl _, ?_, ?_⟩
    · exact List.Subset.trans (List.take_subset ..) hu.subset
    · exact List.take_subset ..

theorem Meets.station {e : LinkEvent η} {q : Port η} (h : p.Meets e q) :
    q.station.link = p.station.link ∧ q.station.registrations = p.station.registrations ∧
      q.left = p.left := by
  cases h <;> exact ⟨rfl, rfl, rfl⟩

/-- As long as the broker reads, nothing is taken from the uplink. -/
theorem Meets.uplink_eq {e : LinkEvent η} {q : Port η} (h : p.Meets e q) (hr : q.reads = true) :
    p.reads = true ∧ q.uplink = p.uplink := by
  cases h with
  | closes => exact Bool.noConfusion (hr : false = true)
  | obeys | hears | ends => exact ⟨hr, rfl⟩

/-- What is posted is put behind what was on its way, until the broker stops writing. -/
theorem foldl_send (ms : List Message) (p : Port η) : ∃ kept writes, kept <+: ms ∧
    ms.foldl send p = { p with downlink := p.downlink ++ kept, writes } := by
  induction ms generalizing p with
  | nil => exact ⟨[], p.writes, List.nil_prefix, by rw [List.append_nil]; rfl⟩
  | cons m ms ih =>
    have stops {q : Port η} (hq : q.writes = false) : ms.foldl send q = q := by
      clear ih
      induction ms with
      | nil => rfl
      | cons m ms ih => rw [List.foldl_cons, send, hq]; exact ih
    rw [List.foldl_cons]
    rcases p.send_cases m with ⟨hw, hs⟩ | ⟨_, hs⟩ | hs
    · rw [hs, stops hw]
      exact ⟨[], p.writes, List.nil_prefix, by rw [List.append_nil]⟩
    · obtain ⟨kept, writes, hk, he⟩ := ih (p.send m)
      rw [he, hs]
      refine ⟨m :: kept, writes, (List.prefix_cons_inj m).2 hk, ?_⟩
      simp only [List.append_assoc, List.singleton_append]
    · rw [hs, stops rfl]
      exact ⟨[], false, List.nil_prefix, by rw [List.append_nil]⟩

theorem mem_downlink_post {client : ClientId} {sents : List Sent} {m : Message}
    (h : m ∈ (p.post client sents).downlink) :
    m ∈ p.downlink ∨ ∃ s ∈ sents, s.client = client ∧ s.notice.message = m := by
  obtain ⟨kept, writes, hk, hp⟩ := foldl_send (Thread.reaching client sents) p
  rw [post_eq, hp] at h
  rcases List.mem_append.1 h with h | h
  · exact .inl h
  · obtain ⟨s, hs, rfl⟩ := List.mem_map.1 (hk.subset h)
    obtain ⟨hs, hc⟩ := List.mem_filter.1 hs
    exact .inr ⟨s, hs, by simpa using (Bool.and_eq_true_iff.1 hc).2, rfl⟩

theorem settle_nil (p : Port η) : p.settle p.station [] = p := by
  simp only [settle, List.filterMap_nil, List.append_nil, ite_self]

theorem post_same (p : Port η) (client : ClientId) (sents : List Sent) :
    (p.post client sents).station = p.station ∧ (p.post client sents).uplink = p.uplink ∧
      (p.post client sents).reads = p.reads ∧ (p.post client sents).left = p.left := by
  obtain ⟨kept, writes, _, hp⟩ := foldl_send (Thread.reaching client sents) p
  rw [post_eq, hp]
  exact ⟨rfl, rfl, rfl, rfl⟩

end Port

/-! ### Networks -/

namespace Network

variable {net : Network η} {client : ClientId} {p : Port η}

theorem change_self (hp : net.ports.get? client = some p) : net.change client p = net := by
  have hports : (net.ports.modify client fun _ => p) = net.ports := by
    apply Keyed.ext
    apply (List.map_congr_left ?_).trans (List.map_id _)
    rintro ⟨other, q⟩ hq
    by_cases ho : other = client
    · subst ho
      obtain rfl := Option.some.inj (hp.symm.trans (Keyed.get?_eq_some_iff.2 hq))
      simp
    · simp [ho]
  rw [change, hports]

theorem get?_change (hp : net.ports.get? client = some p) (p' : Port η) (other : ClientId) :
    (net.change client p').ports.get? other =
      if other = client then some p' else net.ports.get? other := by
  rw [change, Keyed.get?_modify]
  split
  · next he => rw [he, hp]; rfl
  · rfl

theorem get?_change_self (hp : net.ports.get? client = some p) (p' : Port η) :
    (net.change client p').ports.get? client = some p' :=
  (get?_change hp p' client).trans (if_pos rfl)

theorem change_change (net : Network η) (client : ClientId) (p q : Port η) :
    (net.change client p).change client q = net.change client q := by
  rw [change, change, change, Keyed.modify_modify]
  rfl

theorem get?_tell (net : Network η) (e : ExchangeEvent) (v : Visits) (client : ClientId) :
    (net.tell e v).1.ports.get? client =
      (net.ports.get? client).map (·.post client (net.exchange.stepIn v e).2) := by
  simp only [tell, post, Keyed.get?_map]

theorem of_get?_tell {e : ExchangeEvent} {v : Visits} {q : Port η}
    (h : (net.tell e v).1.ports.get? client = some q) :
    ∃ p, net.ports.get? client = some p ∧ q = p.post client (net.exchange.stepIn v e).2 := by
  rw [get?_tell] at h
  obtain ⟨p, hp, hq⟩ := Option.map_eq_some_iff.1 h
  exact ⟨p, hp, hq.symm⟩

variable [DecidableEq η]

theorem step_act (hp : net.ports.get? client = some p) (o : Operation η) :
    (net.step (.act client o)).1 = { net.change client
      (p.restate (p.station.operate (ContextId.ofNat net.serial) o).1) with
        serial := net.serial + 1 } := by
  have hport : net.port? (.act client o) = some (client, p) := congrArg (Option.map _) hp
  rw [step_of_port? hport]
  rfl

theorem step_obey (hp : net.ports.get? client = some p) {c : Command η} {cs : List (Command η)}
    (hq : p.station.queue = c :: cs) :
    (net.step (.obey client)).1 = net.change client ((p.popped cs).happen (.commanded c)) := by
  have hport : net.port? (.obey client) = some (client, p) := congrArg (Option.map _) hp
  rw [step_of_port? hport, stepPort, Station.obey, hq]
  rfl

theorem step_hear (hp : net.ports.get? client = some p) {m m' : Message} {ms : List Message}
    (hd : p.downlink = m :: ms) (hm : m.transmitted = .ok m') :
    (net.step (.hear client)).1 = net.change client ((p.taken ms).happen (.heard m')) := by
  have hport : net.port? (.hear client) = some (client, p) := congrArg (Option.map _) hp
  rw [step_of_port? hport, stepPort, Port.hear_ok hd hm]

theorem step_route (hp : net.ports.get? client = some p) {m m' : Message} {ms : List Message}
    (hu : p.uplink = m :: ms) (hm : m.transmitted = .ok m') :
    (net.step (.route client)).1 =
      ((net.change client { p with uplink := ms }).tell (.received client m')).1 := by
  have hport : net.port? (.route client) = some (client, p) := congrArg (Option.map _) hp
  rw [step_of_port? hport, stepPort, hu]
  simp only [hm]

/-- What an event may change. -/
inductive Change (net : Network η) (e : NetworkEvent η) : Network η → Prop
  | nothing : Change net e net
  | joins : Change net e net.join.1
  | operates {client : ClientId} {p : Port η} {o : Operation η} (he : e = .act client o)
      (hp : net.ports.get? client = some p) :
    Change net e { net.change client
      (p.restate (p.station.operate (ContextId.ofNat net.serial) o).1) with
        serial := net.serial + 1 }
  | meets {client : ClientId} {p q : Port η} {le : LinkEvent η}
      (hp : net.ports.get? client = some p) (hm : p.Meets le q) :
    Change net e (net.change client (q.happen le))
  | receives {client : ClientId} {p : Port η} {m m' : Message} {us : List Message}
      (hp : net.ports.get? client = some p) (hu : p.uplink = m :: us)
      (hm : m.transmitted = .ok m') :
    Change net e ((net.change client { p with uplink := us }).tell (.received client m')).1
  | leaves {client : ClientId} {p : Port η} (hp : net.ports.get? client = some p)
      (hu : p.uplink = []) (v : Visits) :
    Change net e ((net.change client
      { p.close 0 p.downlink.length with left := true }).tell (.left client) v).1
  | mutes (client : ClientId) : Change net e (net.tell (.muted client)).1

/-- Contexts are given out by operations only. -/
theorem Change.serial_eq {e : NetworkEvent η} {net' : Network η} (h : net.Change e net') :
    net'.serial = net.serial ∨
      ∃ client o p, e = .act client o ∧ net.ports.get? client = some p := by
  cases h with
  | operates he hp => exact .inr ⟨_, _, _, he, hp⟩
  | nothing | joins | meets | receives | leaves | mutes => exact .inl rfl

theorem Change.of_close {us : List Message} (e : NetworkEvent η)
    (hp : net.ports.get? client = some p) (hu : us <:+ p.uplink) (up down : Nat) :
    Change net e (net.change client (Port.close { p with uplink := us } up down)) := by
  rw [Port.close_eq]
  exact .meets hp (.closes up down hu)

theorem change_step (net : Network η) (e : NetworkEvent η) : net.Change e (net.step e).1 := by
  cases hport : net.port? e with
  | none =>
    by_cases he : e = .join
    · subst he
      exact .joins
    · rw [step_of_port?_none hport he]
      exact .nothing
  | some cp =>
    obtain ⟨client, p⟩ := cp
    have hp := port?_eq_some hport
    rw [step_of_port? hport]
    cases e with
    | join => exact .nothing
    | act other o =>
      obtain ⟨_, _, he⟩ := Option.map_eq_some_iff.1 hport
      obtain rfl : other = client := congrArg Prod.fst he
      exact .operates rfl hp
    | obey =>
      simp only [stepPort, Station.obey]
      split
      · rw [Port.settle_nil, change_self hp]
        exact .nothing
      · next c cs hq => exact .meets hp (.obeys hq)
    | hear =>
      simp only [stepPort]
      cases hd : p.downlink with
      | nil =>
        rw [Port.hear_nil hd]
        split
        · rw [change_self hp]
          exact .nothing
        · exact .meets hp (.ends (List.suffix_refl p.downlink))
      | cons m ms =>
        cases hm : m.transmitted with
        | ok m' =>
          rw [Port.hear_ok hd hm]
          exact .meets hp (.hears hd hm)
        | error f =>
          rw [Port.hear_error hd hm]
          exact .meets hp (.ends (hd ▸ List.suffix_cons ..))
    | route =>
      simp only [stepPort]
      split
      · next m us hu =>
        split
        · next m' hm => exact .receives hp hu hm
        · exact .of_close _ hp (hu ▸ List.suffix_cons ..) 0 _
      · next hu =>
        split
        · exact .leaves hp hu _
        · exact .nothing
    | mute =>
      simp only [stepPort]
      split
      · exact .mutes client
      · exact .nothing
    | close _ up down => exact .of_close _ hp (List.suffix_refl _) up down

end Network
end Switchboard
