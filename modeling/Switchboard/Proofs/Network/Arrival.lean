import Switchboard.Proofs.Network.Report
import Switchboard.Proofs.Network.Waiting

/-! # What arrives at a caller

The way of events from the exchange to the caller of a call.

* **Invariant.** What has arrived and what is on the downlink is in this order part of all that the
  exchange has passed on, and all of it as long as the broker writes (`Strand.Coming`).
* **Plain values.** Events arrive as they are, as they are plain. -/

namespace Switchboard

open Message

theorem OutboundCall.accepts_push (k : OutboundCall) (e : CallEvent) :
    (k.push e).accepts = k.accepts := by
  unfold push
  split <;> rfl

namespace Strand

/-- What arrives for the call gets into the caller's queue. -/
def Hears (s : Strand) : Prop := s.up = true ∧ s.pending = some .call ∧ s.accepts = true

/-- What has arrived and what is on its way is part of a stream, and all of it as long as the
broker writes. -/
def Coming (arrived stream : List CallEvent) (s : Strand) : Prop :=
  s.Hears → arrived ++ reports s.downlink <+: stream ∧
    (s.writes = true → arrived ++ reports s.downlink = stream)

variable {context : String} {s s' : Strand} {acts : List Act} {arrived stream : List CallEvent}

theorem accepts_push (s : Strand) (e : CallEvent) :
    (s.call.map (·.push e)).any (·.accepts) = s.accepts := by
  unfold Strand.accepts
  cases s.call with
  | none => rfl
  | some k => exact k.accepts_push e

theorem Coming.plain (hc : s.Coming arrived stream) (hp : ∀ e ∈ stream, e.Plain)
    {m m' : Message} {d : List Message} (hd : s.downlink = m :: d) (hm : m.transmitted = .ok m')
    (hh : s.Hears) : m.event? = m'.event? := by
  refine (event?_transmitted hm fun e he => hp e ((hc hh).1.subset ?_)).symm
  rw [hd, reports_cons, he]
  exact List.mem_append_right _ (List.mem_append_left _ (List.mem_singleton_self e))

theorem Coming.hears (hc : s.Coming arrived stream) (client : ClientId) (hs : arrived <+: stream)
    {m : Message} {d : List Message} {e : CallEvent} (hd : s.downlink = m :: d)
    (hm : s.Hears → m.event? = some e) (hu : s.up = true) (hpend : s.pending = some .call)
    (hacts : acts = if s.accepts then [.arrived e] else []) :
    arrived ++ Deeds.arrived (acts.map (client, ·)) <+: stream ∧ (s.accepts = true →
      arrived ++ Deeds.arrived (acts.map (client, ·)) ++ reports d <+: stream ∧
        (s.writes = true →
          arrived ++ Deeds.arrived (acts.map (client, ·)) ++ reports d = stream)) := by
  cases hb : s.accepts with
  | false =>
    rw [hb] at hacts
    subst hacts
    exact ⟨by simpa [Deeds.arrived] using hs, by simp⟩
  | true =>
    have hhears : s.Hears := ⟨hu, hpend, hb⟩
    obtain ⟨h1, h2⟩ := hc hhears
    rw [hd, reports_cons, hm hhears, ← List.append_assoc] at h1 h2
    rw [hb] at hacts
    subst hacts
    exact ⟨(List.prefix_append ..).trans h1, fun _ => ⟨h1, h2⟩⟩

/-- Events arrive in order, and none is left out as long as the caller hears them. -/
theorem coming_move (h : s.Move context acts s') (client : ClientId)
    (hc : s.Coming arrived stream) (hs : arrived <+: stream) (hp : ∀ e ∈ stream, e.Plain)
    (ha : s.asks = 0) (hr : s.Unregistered) :
    arrived ++ Deeds.arrived (acts.map (client, ·)) <+: stream ∧
      s'.Coming (arrived ++ Deeds.arrived (acts.map (client, ·))) stream := by
  have stays (hn : Deeds.arrived (acts.map (client, ·)) = []) (hh : s'.Hears → s.Hears)
      (hd : s'.Hears → reports s'.downlink = reports s.downlink) (hw : s'.writes = s.writes) :
      arrived ++ Deeds.arrived (acts.map (client, ·)) <+: stream ∧
        s'.Coming (arrived ++ Deeds.arrived (acts.map (client, ·))) stream := by
    rw [hn, List.append_nil]
    refine ⟨hs, fun hears => ?_⟩
    rw [hd hears, hw]
    exact hc (hh hears)
  cases h with
  | reads hk hr' =>
    refine stays rfl (fun h => ⟨h.1, h.2.1, ?_⟩) (fun _ => rfl) rfl
    rw [Strand.accepts, hk]
    exact hr'.accepts.symm.trans h.2.2
  | givesUp _ hg =>
    refine stays rfl (fun h => ?_) (fun _ => rfl) rfl
    cases hg.accepts.symm.trans h.2.2
  | passes | ends | forgets | relays | answers =>
    exact stays rfl id (fun _ => rfl) rfl
  | asks hq => simp [Strand.asks, hq, kind] at ha
  | enrolls hq hm =>
    have := hr.queue
    simp [hq, hm] at this
  | withdraws | enrolled | lost =>
    refine stays rfl (fun h => ?_) (fun h => ?_) rfl <;> cases h.2.1
  | starts hd | declines hd =>
    exact stays rfl id (fun _ => by simp [hd, reports_cons, event?]) rfl
  | hearsUpdate hd hm hu hpend =>
    obtain ⟨h1, h2⟩ := hc.hears client hs hd (hc.plain hp hd hm) hu hpend rfl
    exact ⟨h1, fun h => h2 ((s.accepts_push _).symm.trans h.2.2)⟩
  | hearsResult hd hm hu hpend =>
    refine ⟨(hc.hears client hs hd (hc.plain hp hd hm) hu hpend rfl).1, fun h => ?_⟩
    cases h.2.1
  | @stops m d hd hm =>
    have he : m.event? = none := event?_eq_none_iff.2 (by simp [hm])
    exact stays rfl id (fun _ => by simp [hd, reports_cons, he]) rfl
  | @ignores m d hd hm =>
    refine stays rfl id (fun h => ?_) rfl
    obtain ⟨hup, hpend, _⟩ := h
    have he : m.event? = none := by
      refine event?_eq_none_iff.2 ?_
      rcases hm with hm | ⟨hm, _⟩ | ⟨_, hne⟩ | ⟨_, hn⟩ | hd
      · simp [hm]
      · simp [hm]
      · exact (hne hpend).elim
      · cases hn.symm.trans hpend
      · cases hd.symm.trans hup
    simp [hd, reports_cons, he]
  | closes hu hd =>
    refine ⟨by simpa [Deeds.arrived] using hs, fun hh => ⟨?_, by simp⟩⟩
    have h1 := (hc hh).1
    rw [List.map_nil, show Deeds.arrived [] = [] from rfl, List.append_nil]
    exact ((List.prefix_append_right_inj _).2 (reports_mono hd)).trans h1

/-- What is in the caller's queue is the last of what has arrived. -/
theorem queued_move (h : s.Move context acts s') (client : ClientId)
    (hq : ∀ k, s.call = some k → k.events <:+ arrived) :
    ∀ k, s'.call = some k → k.events <:+ arrived ++ Deeds.arrived (acts.map (client, ·)) := by
  have stays (hn : Deeds.arrived (acts.map (client, ·)) = []) (k : OutboundCall)
      (hk : ∃ k', s.call = some k' ∧ k.events <:+ k'.events) :
      k.events <:+ arrived ++ Deeds.arrived (acts.map (client, ·)) := by
    obtain ⟨k', hk', he⟩ := hk
    rw [hn, List.append_nil]
    exact he.trans (hq k' hk')
  have hears (e : CallEvent) (hacts : acts = if s.accepts then [.arrived e] else [])
      (k : OutboundCall) (hk : s.call.map (·.push e) = some k) :
      k.events <:+ arrived ++ Deeds.arrived (acts.map (client, ·)) := by
    obtain ⟨k', hk', rfl⟩ := Option.map_eq_some_iff.1 hk
    have hacc : s.accepts = k'.accepts := by rw [Strand.accepts, hk']; rfl
    rw [hacc, OutboundCall.accepts] at hacts
    unfold OutboundCall.push
    split
    · next hb =>
      rw [hb] at hacts
      subst hacts
      simpa [Deeds.arrived] using hq k' hk'
    · next hb =>
      rw [Bool.eq_false_iff.2 hb] at hacts
      subst hacts
      obtain ⟨before, hbefore⟩ := hq k' hk'
      exact ⟨before, by simp [← hbefore, Deeds.arrived]⟩
  intro k hk
  cases h with
  | reads hk' hr =>
    obtain rfl := Option.some.inj hk
    exact stays rfl _ ⟨_, hk', hr.events⟩
  | givesUp hk' hg =>
    obtain rfl := Option.some.inj hk
    exact stays rfl _ ⟨_, hk', hg.events ▸ List.suffix_refl _⟩
  | hearsUpdate => exact hears _ rfl k hk
  | hearsResult => exact hears _ rfl k hk
  | _ => exact stays rfl k ⟨k, hk, List.suffix_refl _⟩

theorem Coming.posted {ms : List Message} {new : List CallEvent} (hc : s.Coming arrived stream)
    (h : Posted ms s s') (hms : s.up = true → s.writes = true → reports ms = new) :
    s'.Coming arrived (stream ++ new) := by
  obtain ⟨kept, writes, rfl, hk, hw, hn⟩ := h
  intro hh
  obtain ⟨h1, h2⟩ := hc hh
  rw [reports_append, ← List.append_assoc]
  cases hb : s.writes with
  | false =>
    obtain rfl := hn hb
    refine ⟨?_, fun hw' => ?_⟩
    · rw [reports_nil, List.append_nil]
      exact h1.trans (List.prefix_append ..)
    · exact Bool.noConfusion (hb.symm.trans (hw hw').1)
  | true =>
    rw [h2 hb]
    refine ⟨?_, fun hw' => ?_⟩
    · rw [← hms hh.1 hb]
      exact (List.prefix_append_right_inj _).2 (reports_mono hk)
    · rw [(hw hw').2, hms hh.1 hb]

end Strand
end Switchboard
