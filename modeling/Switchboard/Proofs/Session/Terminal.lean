import Switchboard.Participant.Terminal
import Switchboard.Proofs.Message.Codec
import Switchboard.Proofs.Participant.Loss
import Switchboard.Proofs.Session.Inbox
import Switchboard.Proofs.Session.Reception

/-! # A stream that cannot be read

A broker's session and a participant both read a stream that the other side may fill with anything.
Both read what the stream says, and not a frame more.

* **Scripts.** What happens at a terminal happens at its station, with the messages of the stream in
  place of its bytes (`Terminal.script`, `Terminal.run_script`).
* **Heeding.** A station heeds what happens while its link is up (`Station.heeded`).  Once the link
  is lost nothing comes of anything (`Station.run_of_lost`).
* **Streams.** Of what the broker sends a terminal hears what the stream says, and then hangs up if
  the stream cannot be read on or has ended (`Terminal.inbound_script`), unless it has lost its link
  for another reason.
* **Main statement.** `bad_stream_ends_session`. -/

namespace Switchboard

variable {η : Type}

/-! ### What happens at a terminal -/

/-- What may happen at a terminal. -/
inductive TerminalEvent (η : Type) where
  /-- The broker's bytes arrive. -/
  | bytes (s : Bytes)
  /-- The broker's stream ends. -/
  | hangUp
  /-- A caller or a handler does something.  What it starts is named by the given context. -/
  | act (fresh : String) (o : Operation η)
  /-- The link obeys the oldest command. -/
  | obey
  /-- The broker does not take any more what the link writes. -/
  | deafen

/-- What comes from the broker: a message, or `none` for that there will be no more. -/
def StationEvent.inbound? : StationEvent η → Option (Option Message)
  | hear m => some (some m)
  | hangUp => some none
  | act .. | obey | deafen => none

/-- The bytes that the broker sends before its stream ends, and whether it has ended. -/
def TerminalEvent.streamed : List (TerminalEvent η) → Bytes × Bool
  | [] => ([], false)
  | .hangUp :: _ => ([], true)
  | .bytes s :: es => (s ++ (streamed es).1, (streamed es).2)
  | .act .. :: es | .obey :: es | .deafen :: es => streamed es

namespace Terminal

variable [DecidableEq η]

/-- What happens, and what comes of it. -/
def step (t : Terminal η) : TerminalEvent η → Terminal η × List (Effect η)
  | .bytes s => t.receive s
  | .hangUp => t.hangUp
  | .act fresh o => ((t.operate fresh o).1, [])
  | .obey => ({ t with station := t.station.obey.1 }, t.station.obey.2)
  | .deafen => (t.deafen, (t.station.happen .deafened).2)

/-- Events in a row. -/
def run (t : Terminal η) : List (TerminalEvent η) → Terminal η × List (Effect η)
  | [] => (t, [])
  | e :: es =>
    let (t, fs) := t.step e
    let (t, fs') := t.run es
    (t, fs ++ fs')

/-- What an event is for the station: the bytes that arrive are the messages that they complete, and
after bytes that cannot be read the station hangs up. -/
def heard (reader : Reader) : TerminalEvent η → List (StationEvent η)
  | .bytes s =>
    (reader.feed s).2.map .hear ++ if (reader.feed s).1.broken then [.hangUp] else []
  | .hangUp => [.hangUp]
  | .act fresh o => [.act fresh o]
  | .obey => [.obey]
  | .deafen => [.deafen]

/-- What events in a row are for the station. -/
def script (t : Terminal η) : List (TerminalEvent η) → List (StationEvent η)
  | [] => []
  | e :: es => heard t.reader e ++ script (t.step e).1 es

theorem hearAll_eq (s : Station η) (ms : List Message) : hearAll s ms = s.run (ms.map .hear) := by
  induction ms generalizing s with
  | nil => rfl
  | cons m ms ih => simp only [hearAll, ih, List.map_cons, Station.run, Station.step]

theorem step_heard (t : Terminal η) (e : TerminalEvent η) :
    ((t.step e).1.station, (t.step e).2) = t.station.run (heard t.reader e) := by
  cases e with
  | bytes s =>
    rw [heard, Station.run_append]
    simp only [step, receive, hearAll_eq]
    split
    · simp [Station.run, Station.step]
    · rfl
  | hangUp => simp [step, hangUp, heard, Station.run, Station.step]
  | act => rfl
  | obey => simp [step, heard, Station.run, Station.step]
  | deafen => simp [step, deafen, Station.deafen, heard, Station.run, Station.step]

theorem run_script (t : Terminal η) (es : List (TerminalEvent η)) :
    ((t.run es).1.station, (t.run es).2) = t.station.run (t.script es) := by
  induction es generalizing t with
  | nil => rfl
  | cons e es ih =>
    have hstep := t.step_heard e
    rw [script, Station.run_append, ← hstep, ← ih]
    rfl

theorem script_append (t : Terminal η) (es fs : List (TerminalEvent η)) :
    t.script (es ++ fs) = t.script es ++ (t.run es).1.script fs := by
  induction es generalizing t with
  | nil => rfl
  | cons e es ih => simp only [List.cons_append, script, ih, List.append_assoc, run]

omit [DecidableEq η] in
theorem inbound_messages (ms : List Message) :
    (ms.map StationEvent.hear : List (StationEvent η)).filterMap (·.inbound?) = ms.map some := by
  rw [List.filterMap_map]
  exact List.filterMap_eq_map ▸ rfl

/-- What comes from the broker to a terminal that has read this much: the messages that the stream
says in addition, and then that there will be no more, if it cannot be read on or has ended. -/
theorem inbound_script {t : Terminal η} {s : Bytes} (ht : t.reader.Tracks s) (hs : ¬ Spoilt s)
    (es : List (TerminalEvent η)) :
    let a := TerminalEvent.streamed es
    ∃ ms rest, said (s ++ a.1) = said s ++ ms ∧
      (t.script es).filterMap (·.inbound?) = ms.map some ++
        if a.2 = true ∨ Spoilt (s ++ a.1) then none :: rest else [] := by
  induction es generalizing t s with
  | nil =>
    exact ⟨[], [], by simp [TerminalEvent.streamed], by simp [script, TerminalEvent.streamed, hs]⟩
  | cons e es ih =>
    cases e with
    | bytes b =>
      obtain ⟨htracks, hsaid⟩ := ht.feed b
      have hall : s ++ (TerminalEvent.streamed (.bytes b :: es)).1 =
          s ++ b ++ (TerminalEvent.streamed es).1 := (List.append_assoc ..).symm
      have hended : (TerminalEvent.streamed (.bytes b :: es)).2 = (TerminalEvent.streamed es).2 := rfl
      simp only [hall, hended, script, heard, List.filterMap_append, inbound_messages]
      cases hb : (t.reader.feed b).1.broken with
      | true =>
        obtain ⟨hsaid', hspoilt'⟩ :=
          said_append_of_spoilt (htracks.broken.1 hb) (TerminalEvent.streamed es).1
        refine ⟨(t.reader.feed b).2,
          (script (t.step (.bytes b)).1 es).filterMap (·.inbound?), ?_, ?_⟩
        · rw [hsaid', hsaid]
        · rw [if_pos rfl, if_pos (.inr hspoilt'), List.append_assoc]
          rfl
      | false =>
        have hsound : ¬ Spoilt (s ++ b) := fun h => by
          rw [htracks.broken.2 h] at hb
          cases hb
        have hreader : (t.step (.bytes b)).1.reader = (t.reader.feed b).1 := rfl
        obtain ⟨ms, rest, hms, hscript⟩ := ih (hreader ▸ htracks) hsound
        refine ⟨(t.reader.feed b).2 ++ ms, rest, ?_, ?_⟩
        · rw [hms, hsaid, List.append_assoc]
        · rw [hscript]
          simp
    | hangUp =>
      refine ⟨[], (script (t.step .hangUp).1 es).filterMap (·.inbound?), ?_, ?_⟩
      · simp [TerminalEvent.streamed]
      · simp [TerminalEvent.streamed, script, heard, StationEvent.inbound?]
    | act fresh o => exact ih (t := (t.step (.act fresh o)).1) ht hs
    | obey => exact ih (t := (t.step .obey).1) ht hs
    | deafen => exact ih (t := (t.step .deafen).1) ht hs

end Terminal

/-! ### Heeding -/

namespace Station

variable [DecidableEq η] {s : Station η}

/-- What happens at a station while its link is up. -/
def heeded (s : Station η) : List (StationEvent η) → List (StationEvent η)
  | [] => []
  | e :: es => if s.link.up then e :: heeded (s.step e).1 es else []

theorem heeded_prefix (s : Station η) (es : List (StationEvent η)) : s.heeded es <+: es := by
  induction es generalizing s with
  | nil => exact List.prefix_refl _
  | cons e es ih =>
    rw [heeded]
    split
    · exact (List.prefix_cons_inj e).2 (ih _)
    · exact List.nil_prefix

theorem heeded_of_up {es : List (StationEvent η)} (h : (s.run es).1.link.up = true) :
    s.heeded es = es ∧ s.link.up = true := by
  induction es generalizing s with
  | nil => exact ⟨rfl, h⟩
  | cons e es ih =>
    obtain ⟨hes, hu⟩ := ih (s := (s.step e).1) h
    have hup := up_of_step hu
    exact ⟨by rw [heeded, if_pos hup, hes], hup⟩

theorem link_hangUp (s : Station η) : (s.step .hangUp).1.link.up = false := by
  have hlink : (s.step .hangUp).1.link = (s.link.step .ended).1 := happen_link s .ended
  rw [hlink, Link.step]
  split
  · rfl
  · next h => exact Bool.eq_false_iff.2 h

theorem lost_of_hangUp {es : List (StationEvent η)} (h : .hangUp ∈ es) :
    (s.run es).1.link.up = false := by
  obtain ⟨past, later, rfl⟩ := List.append_of_mem h
  rw [run_append]
  refine Bool.eq_false_iff.2 fun hup => ?_
  have hafter := (heeded_of_up (s := ((s.run past).1.step .hangUp).1) hup).2
  rw [link_hangUp] at hafter
  cases hafter

theorem run_of_lost (hs : s.Sound) (hu : s.link.up = false) (es : List (StationEvent η)) :
    (s.run es).1.link = s.link ∧ (s.run es).2 = [] ∧ s.heeded es = [] := by
  have hstep {s : Station η} (hs : s.Sound) (hu : s.link.up = false) (e : StationEvent η) :
      (s.step e).1.link = s.link ∧ (s.step e).2 = [] := by
    rcases s.happens_step e with @⟨fresh, o, -, hr⟩ | ⟨-, -, hr⟩ | @⟨le, t, hm, hr⟩
    · rw [hr]
      exact ⟨(s.operate_kept fresh o).link, rfl⟩
    · rw [hr]
      exact ⟨rfl, rfl⟩
    · have ht : t = s := by
        cases hm with
        | obeys hq => cases (hs.queue hu).symm.trans hq
        | hears | deafens | hangsUp => rfl
      rw [hr, ht, happen_of_lost hu (hs.queue hu)]
      exact ⟨rfl, rfl⟩
  induction es generalizing s with
  | nil => exact ⟨rfl, rfl, rfl⟩
  | cons e es ih =>
    obtain ⟨hlink, hsent⟩ := hstep hs hu e
    obtain ⟨hlink', hsent', _⟩ := ih (hs.step e) (by rw [hlink, hu])
    refine ⟨hlink'.trans hlink, ?_, ?_⟩
    · show (s.step e).2 ++ ((s.step e).1.run es).2 = []
      rw [hsent, hsent']
      rfl
    · rw [heeded, hu]
      rfl

theorem heeded_append {es : List (StationEvent η)} (h : (s.run es).1.link.up = false)
    (fs : List (StationEvent η)) : s.heeded (es ++ fs) = s.heeded es := by
  induction es generalizing s with
  | nil =>
    cases fs with
    | nil => rfl
    | cons f fs => exact if_neg (Bool.eq_false_iff.1 h)
  | cons e es ih => rw [List.cons_append, heeded, heeded, ih (s := (s.step e).1) h]

/-- A link that is lost is lost by the last thing that its station heeds. -/
theorem heeded_of_lost (hu : s.link.up = true) {es : List (StationEvent η)}
    (h : (s.run es).1.link.up = false) :
    ∃ front e, s.heeded es = front ++ [e] ∧ (s.run front).1.link.up = true ∧
      (s.run (front ++ [e])).1.link.up = false := by
  induction es generalizing s with
  | nil => exact Bool.noConfusion (hu.symm.trans h)
  | cons e es ih =>
    rw [heeded, if_pos hu]
    cases hstep : (s.step e).1.link.up with
    | true =>
      obtain ⟨front, e', hfront, hbefore, hafter⟩ := ih hstep h
      exact ⟨e :: front, e', by rw [hfront]; rfl, hbefore, hafter⟩
    | false =>
      refine ⟨[], e, ?_, hu, hstep⟩
      cases es with
      | nil => rfl
      | cons => rw [heeded, hstep]; rfl

theorem hangUp_last {es : List (StationEvent η)} {front : List (StationEvent η)}
    {e : StationEvent η} (h : s.heeded es = front ++ [e]) : .hangUp ∉ front := by
  induction es generalizing s front with
  | nil => simp [heeded] at h
  | cons e' es ih =>
    rw [heeded] at h
    split at h
    · cases front with
      | nil => simp
      | cons f front =>
        obtain ⟨rfl, hrest⟩ := List.cons.inj h
        intro hmem
        rcases List.mem_cons.1 hmem with rfl | hmem
        · have hlost := s.link_hangUp
          cases es with
          | nil => simp [heeded] at hrest
          | cons => simp [heeded, hlost] at hrest
        · exact ih hrest hmem
    · simp at h

end Station

theorem prefix_of_first {α : Type} {l xs rest : List α} {x : α} (h : l <+: xs ++ x :: rest)
    (hx : x ∉ l.dropLast) : l <+: xs ++ [x] := by
  have hfirst : xs ++ [x] <+: xs ++ x :: rest := ⟨rest, by simp⟩
  rcases List.prefix_or_prefix_of_prefix h hfirst with h | ⟨t, rfl⟩
  · exact h
  · cases t with
    | nil => rw [List.append_nil]
    | cons y t => exact absurd (by simp) hx

namespace Station

variable [DecidableEq η]

omit [DecidableEq η] in
theorem hangUp_of_inbound {es : List (StationEvent η)} (h : none ∈ es.filterMap (·.inbound?)) :
    .hangUp ∈ es := by
  obtain ⟨e, he, hin⟩ := List.mem_filterMap.1 h
  cases e with
  | hangUp => exact he
  | hear => cases Option.some.inj hin
  | act | obey | deafen => cases hin

theorem none_last (s : Station η) (es : List (StationEvent η)) :
    none ∉ ((s.heeded es).filterMap (·.inbound?)).dropLast := by
  rcases List.eq_nil_or_concat' (s.heeded es) with h | ⟨front, e, h⟩
  · rw [h]
    simp
  · rw [h, List.filterMap_append]
    intro hmem
    refine hangUp_last h (hangUp_of_inbound ?_)
    cases hin : e.inbound? with
    | none =>
      simp only [List.filterMap_cons, hin, List.filterMap_nil, List.append_nil] at hmem
      exact List.mem_of_mem_dropLast hmem
    | some m =>
      simp only [List.filterMap_cons, hin, List.filterMap_nil, List.dropLast_concat] at hmem
      exact hmem

end Station

namespace Terminal

variable [DecidableEq η]

theorem script_inbound (es : List (TerminalEvent η)) :
    let a := TerminalEvent.streamed es
    ∃ rest, (script ({} : Terminal η) es).filterMap (·.inbound?) = (said a.1).map some ++
      if a.2 = true ∨ Spoilt a.1 then none :: rest else [] := by
  obtain ⟨ms, rest, hms, hscript⟩ :=
    inbound_script (t := ({} : Terminal η)) Reader.Tracks.nil not_spoilt_nil es
  rw [List.nil_append, said_nil, List.nil_append] at hms
  subst hms
  exact ⟨rest, hscript⟩

/-- What comes from the broker while the link is up: what the stream says, or the beginning of it,
and after all of it that there will be no more, if the stream cannot be read on or has ended. -/
theorem heeded_inbound (es : List (TerminalEvent η)) :
    let a := TerminalEvent.streamed es
    (Station.heeded {} (script {} es)).filterMap (·.inbound?) <+:
      (said a.1).map some ++ if a.2 = true ∨ Spoilt a.1 then [none] else [] := by
  intro a
  obtain ⟨rest, hscript⟩ := script_inbound es
  have hprefix := (Station.heeded_prefix {} (script ({} : Terminal η) es)).filterMap (·.inbound?)
  rw [hscript] at hprefix
  by_cases hover : a.2 = true ∨ Spoilt a.1
  · rw [if_pos hover] at hprefix ⊢
    exact prefix_of_first hprefix (Station.none_last _ _)
  · rw [if_neg hover] at hprefix ⊢
    exact hprefix

/-- If the stream cannot be read on or has ended, the link is lost.  If the link is up, all that the
stream says has come to it. -/
theorem inbound_of_up {es : List (TerminalEvent η)}
    (h : (run ({} : Terminal η) es).1.station.link.up = true) :
    let a := TerminalEvent.streamed es
    (Station.heeded {} (script {} es)).filterMap (·.inbound?) = (said a.1).map some ∧
      ¬ (a.2 = true ∨ Spoilt a.1) := by
  intro a
  obtain ⟨rest, hscript⟩ := script_inbound es
  have hup : (Station.run {} (script ({} : Terminal η) es)).1.link.up = true :=
    congrArg Prod.fst (run_script {} es) ▸ h
  have hover : ¬ (a.2 = true ∨ Spoilt a.1) := by
    intro hover
    rw [if_pos hover] at hscript
    have hmem : none ∈ (script ({} : Terminal η) es).filterMap (·.inbound?) := by
      rw [hscript]
      simp
    have hlost := Station.lost_of_hangUp (s := {}) (Station.hangUp_of_inbound hmem)
    exact Bool.noConfusion (hup.symm.trans hlost)
  rw [if_neg hover, List.append_nil] at hscript
  rw [(Station.heeded_of_up hup).1]
  exact ⟨hscript, hover⟩

/-- A link is lost by the last event that it heeds, and then nothing comes of anything. -/
theorem over_of_lost {es : List (TerminalEvent η)}
    (hlost : (run {} es).1.station.link.up = false) :
    (∃ front e, Station.heeded {} (script {} es) = front ++ [e] ∧
      (Station.run {} front).1.link.up = true ∧
      (Station.run {} (Station.heeded {} (script {} es))).1.link.up = false) ∧
    ∀ more, ((run {} es).1.run more).2 = [] ∧
      ((run {} es).1.run more).1.station.link = (run {} es).1.station.link ∧
      Station.heeded {} (script {} (es ++ more)) = Station.heeded {} (script {} es) := by
  have hstation : (run {} es).1.station = (Station.run {} (script {} es)).1 :=
    congrArg Prod.fst (run_script {} es)
  have hsound : (run {} es).1.station.Sound := by
    rw [hstation]
    exact Station.sound_start.run _
  have hlost' : (Station.run {} (script {} es)).1.link.up = false := hstation ▸ hlost
  obtain ⟨front, e, hfront, hbefore, hafter⟩ := Station.heeded_of_lost (s := {}) rfl hlost'
  refine ⟨⟨front, e, hfront, hbefore, ?_⟩, fun more => ?_⟩
  · rw [hfront]
    exact hafter
  · have hmore := run_script (run {} es).1 more
    obtain ⟨hlink, hsent, _⟩ := Station.run_of_lost hsound hlost ((run {} es).1.script more)
    rw [← hmore] at hlink hsent
    refine ⟨hsent, hlink, ?_⟩
    rw [script_append]
    exact Station.heeded_append hlost' _

end Terminal

/-! ### Main statement -/

/-- **A stream that cannot be read ends its own session.**

* *Streams.*  A stream says the messages of the longest beginning that is made of frames that are
  complete, small enough and messages; then comes a bad frame or an incomplete one.  Nothing counts
  that comes after a bad frame.
* *Broker.*  Once a session has been announced, the exchange hears that the client is there, what its
  audible bytes say, and once that the client left, if these bytes cannot be read on or have come to
  an end, and then nothing more, whatever happens.  The audible bytes are all that the client sends
  before it hangs up, or a beginning of that after a shutdown.  Of a session that is not announced
  nothing is heard.
* *Participant.*  While its link is up, what comes to a participant from the broker is what the stream
  says, and then that there will be no more.  If its link is up, all of that has come to it, and the
  stream can be read on.  If not, the link was lost by the last thing that came to it, and from then on
  nothing comes of anything.
* *Inbox.*  Whatever goes wrong with reading a message is fatal.  What is read off a stream is what it
  says, and then one failure unless it ends cleanly, so the link skips nothing. -/
theorem bad_stream_ends_session [DecidableEq η] :
    (∀ s, Opens s (said s) ∧ (∀ ms, Opens s ms → ms <+: said s) ∧
      (∃ (ps : List Bytes) (r : Bytes), s = (ps.map framed).flatten ++ r ∧
        (∀ p ∈ ps, p.length ≤ maxFrameSize) ∧ ps.map Message.decode = (said s).map .ok ∧
        (Spoilt s ∧ Bad r ∨ ¬ Spoilt s ∧ Unfinished r)) ∧
      (Spoilt s → ∀ t, said (s ++ t) = said s ∧ Spoilt (s ++ t))) ∧
    (∀ client before after,
      (Reception.run {} before).1.sessions.get? client = some .admitted →
        let a := Reception.audible client (Reception.run {} before).1.listening after
        let es := (Reception.run {} (before ++ .announce client :: after)).2
        Reception.told client es = .connected client :: (said a.1).map (.received client) ++
          (if a.2 = true ∨ Spoilt a.1 then [.left client] else []) ∧
        (a.2 = true ∨ Spoilt a.1 → ∀ more, Reception.told client
          (Reception.run {} (before ++ .announce client :: after ++ more)).2 =
            Reception.told client es) ∧
        a.1 <+: Reception.sentBy client after ∧
        (.shutdown ∉ before ++ after →
          a = (Reception.sentBy client after, decide (.hangUp client ∈ after)))) ∧
    (∀ client is, Reception.told client (Reception.run {} is).2 ≠ [] →
      ∃ before after, is = before ++ .announce client :: after ∧
        (Reception.run {} before).1.sessions.get? client = some .admitted) ∧
    (∀ es : List (TerminalEvent η),
      let a := TerminalEvent.streamed es
      let t := Terminal.run {} es
      let script := Terminal.script {} es
      let heeded := Station.heeded {} script
      (t.1.station, t.2) = Station.run {} script ∧
      heeded.filterMap (·.inbound?) <+:
        (said a.1).map some ++ (if a.2 = true ∨ Spoilt a.1 then [none] else []) ∧
      (t.1.station.link.up = true → heeded.filterMap (·.inbound?) = (said a.1).map some ∧
        ¬ (a.2 = true ∨ Spoilt a.1)) ∧
      (t.1.station.link.up = false →
        (∃ front e, heeded = front ++ [e] ∧ (Station.run {} front).1.link.up = true ∧
          (Station.run {} heeded).1.link.up = false) ∧
        ∀ more, (t.1.run more).2 = [] ∧ (t.1.run more).1.station.link = t.1.station.link ∧
          Station.heeded {} (Terminal.script {} (es ++ more)) = heeded)) ∧
    (∀ s : Pieces, (∀ f r, s.readMessage = (.error f, r) → f.isFatal = true) ∧
      (∃ last : Option Failure, s.inbox = (said s.flatten).map .ok ++ last.toList.map .error ∧
        (last = none ↔ ¬ Spoilt s.flatten ∧ leftover s.flatten = [])) ∧
      (LinkEvent.ofInbox s.inbox : List (LinkEvent η)) =
        (said s.flatten).map .heard ++ [.ended]) := by
  refine ⟨?_, ?_, ?_, ?_, ?_⟩
  · intro s
    refine ⟨opens_said s, fun ms h => h.prefix_said, ?_, said_append_of_spoilt⟩
    obtain ⟨ps, r, hs, hfits, hps, hrest⟩ := said_split s
    exact ⟨ps, r, hs, hfits, hps, hrest.imp_right fun h => ⟨h.1, h.2.2⟩⟩
  · intro client before after h
    obtain ⟨htold, hover⟩ := Reception.told_of_announced h
    refine ⟨htold, hover, Reception.audible_prefix client _ after, ?_⟩
    intro hno
    obtain ⟨hbefore, hafter⟩ := not_or.1 (mt List.mem_append.2 hno)
    show Reception.audible client (Reception.run {} before).1.listening after = _
    rw [Reception.listening_run hbefore]
    exact Reception.audible_of_listening client hafter
  · intro client is h
    refine Reception.exists_announcement ?_ h
    rintro ⟨session, hs, _⟩
    cases hs
  · intro es a t script heeded
    exact ⟨Terminal.run_script _ es, Terminal.heeded_inbound es, Terminal.inbound_of_up,
      Terminal.over_of_lost⟩
  · intro s
    obtain ⟨last, hlast, _, hnone⟩ := s.inbox_eq
    exact ⟨fun f r => Pieces.isFatal_of_readMessage, ⟨last, hlast, hnone⟩, ofInbox_inbox s⟩

/-- A withdrawal, and then a frame with an opening brace only.  The exchange hears of the withdrawal
and that the client left, and not of the bytes that come later; a participant that reads the same has
lost its link. -/
theorem bad_stream_ends_session_early :
    let m : Message := .cancel "c"
    let s := framed m.toJson.render.toUTF8.toList ++ [1, 0, 0, 0, 0x7b]
    Reception.told 1 (Reception.run {}
      ([.arrive] ++ .announce 1 :: [.bytes 1 s, .bytes 1 [0], .hangUp 1])).2 =
        [.connected 1, .received 1 m, .left 1] ∧
      (Terminal.run ({} : Terminal Unit) [.bytes s]).1.station.link.up = false ∧
      (Station.heeded {} (Terminal.script ({} : Terminal Unit) [.bytes s])).filterMap
        (·.inbound?) <+: [some m, none] := by
  intro m s
  have hdecode : Message.decode m.toJson.render.toUTF8.toList = .ok m :=
    Message.decode_of_plain (by simp [m, Message.values]) (by decide)
  have htext : m.toJson.render = "\x7b\"type\":\"cancel\",\"context\":\"c\"\x7d" := by cbv
  have hsize : m.toJson.render.toUTF8.toList.length ≤ maxFrameSize := by
    rw [length_toUTF8, htext]
    decide
  have hbad : Message.decode [0x7b] = .error .malformed := by cbv
  obtain ⟨hrest, hspoiltRest⟩ := said_of_error (s := [1, 0, 0, 0, 0x7b]) (r := []) (by rfl) hbad
  obtain ⟨hsaid, hspoilt, _⟩ := said_of_ok (cut_framed hsize [1, 0, 0, 0, 0x7b]) hdecode
  have hspoilt : Spoilt s := hspoilt.2 hspoiltRest
  have hsaid : said s = [m] := by
    rw [show said s = _ from hsaid, hrest]
  have hall : TerminalEvent.streamed [(.bytes s : TerminalEvent Unit)] = (s, false) :=
    congrArg (·, false) (List.append_nil s)
  obtain ⟨hstreams, hbroker, _, hparticipant, _⟩ := bad_stream_ends_session (η := Unit)
  refine ⟨?_, ?_, ?_⟩
  · obtain ⟨htold, _⟩ :=
      hbroker 1 [.arrive] [.bytes 1 s, .bytes 1 [0], .hangUp 1] (by decide)
    have haudible : Reception.audible 1 (Reception.run {} [.arrive]).1.listening
        [.bytes 1 s, .bytes 1 [0], .hangUp 1] = (s ++ [0], true) := rfl
    obtain ⟨_, _, _, hlater⟩ := hstreams s
    rw [htold, haudible, (hlater hspoilt [0]).1, hsaid]
    rfl
  · obtain ⟨_, _, hup, _⟩ := hparticipant [.bytes s]
    refine Bool.eq_false_iff.2 fun h => (hup h).2 ?_
    rw [hall]
    exact .inr hspoilt
  · obtain ⟨_, hheeded, _⟩ := hparticipant [.bytes s]
    simpa [hall, hsaid, hspoilt] using hheeded

end Switchboard
