import Switchboard.Proofs.Network.Waiting

/-! # The context of a registration

A context that comes to be used for a registration is used for nothing else: no call is ever made or
served under it, so what comes back under it is the exchange's acknowledgement.

* **Invariant.** `Thread.Enrolling` says so of everything that is on its way.
* **Main statement.** `acknowledged_of_run`: a registration that waits for its answer is answered
  with a value, so a handler is never taken off a roster because of an answer. -/

namespace Switchboard

open Message

namespace Strand

/-- What is on its way under the context of a registration. -/
structure Enrolling (context : String) (s : Strand) : Prop where
  queue : ∀ m ∈ s.queue, m.kind = .register
  uplink : ∀ m ∈ s.uplink, m.kind = .register
  downlink : ∀ m ∈ s.downlink, m = .result context (.value .null)
  pending : s.pending ≠ some .call
  serving : s.serving = none
  call : s.call = none
  handlers : ∀ job, s.handlers job = none

variable {context : String} {s s' : Strand}

theorem enrolling_nil : ({} : Strand).Enrolling context :=
  ⟨nofun, nofun, nofun, nofun, rfl, rfl, fun _ => rfl⟩

theorem Blank.enrolling (h : s.Blank) : s.Enrolling context where
  queue := by simp [h.queue]
  uplink := by simp [h.uplink]
  downlink := by simp [h.downlink]
  pending := by simp [h.pending]
  serving := h.serving
  call := h.call
  handlers := h.handlers

theorem Enrolling.queue_ne (h : s.Enrolling context) {m : Message} {q : List Message}
    (hq : s.queue = m :: q) : m.kind = .register := h.queue m (by simp [hq])

theorem Enrolling.downlink_eq (h : s.Enrolling context) {m : Message} {d : List Message}
    (hd : s.downlink = m :: d) : m = .result context (.value .null) := h.downlink m (by simp [hd])

/-- Nothing but a registration's command and its answer happens to its context. -/
theorem enrolling_move {acts : List Act} (hm : s.Move context acts s') (h : s.Enrolling context) :
    s'.Enrolling context := by
  have nocall {k : OutboundCall} (hk : s.call = some k) : False := by simp [h.call] at hk
  have nojob {job : JobId} {b : Bool} (hj : s.handlers job = some b) : False := by
    simp [h.handlers job] at hj
  cases hm with
  | reads hk | givesUp hk => exact (nocall hk).elim
  | passes hj | ends hj => exact (nojob hj).elim
  | forgets hq =>
    refine { h with queue := ?_ }
    intro m hm
    exact h.queue m (by rw [hq]; exact List.mem_cons_of_mem _ hm)
  | asks hq | withdraws hq | relays hq | answers hq => cases h.queue_ne hq
  | @enrolls m m' q id hq hm hm' =>
    refine { h with queue := ?_, uplink := ?_, pending := ?_ }
    · intro k hk
      exact h.queue k (by rw [hq]; exact List.mem_cons_of_mem _ hk)
    · intro k hk
      simp only [written] at hk
      split at hk
      · rcases List.mem_append.1 hk with hk | hk
        · exact h.uplink k hk
        · rwa [List.mem_singleton.1 hk]
      · exact h.uplink k hk
    · intro hp
      cases hp
  | starts hd | declines hd => cases h.downlink_eq hd
  | hearsUpdate _ _ _ hp | hearsResult _ _ _ hp => exact absurd hp h.pending
  | enrolled hd =>
    refine { h with downlink := ?_, pending := ?_ }
    · intro k hk
      exact h.downlink k (by rw [hd]; exact List.mem_cons_of_mem _ hk)
    · intro hp
      cases hp
  | stops hd hk =>
    rw [h.downlink_eq hd] at hk
    cases hk
  | ignores hd =>
    refine { h with downlink := ?_ }
    intro k hk
    exact h.downlink k (by rw [hd]; exact List.mem_cons_of_mem _ hk)
  | lost =>
    refine { h with queue := ?_, pending := ?_, serving := rfl }
    · intro k hk
      cases hk
    · intro hp
      cases hp
  | closes hu hd =>
    refine { h with uplink := ?_, downlink := ?_ }
    · intro k hk
      exact h.uplink k (hu.subset hk)
    · intro k hk
      exact h.downlink k (hd.subset hk)

theorem Enrolling.posted {ms : List Message} (h : s.Enrolling context)
    (hms : ∀ m ∈ ms, m = .result context (.value .null)) (hp : Posted ms s s') :
    s'.Enrolling context := by
  obtain ⟨kept, writes, rfl, hk, _⟩ := hp
  refine ⟨h.queue, h.uplink, ?_, h.pending, h.serving, h.call, h.handlers⟩
  intro m hm
  rcases List.mem_append.1 hm with hm | hm
  · exact h.downlink m hm
  · exact hms m (hk.subset hm)

end Strand

namespace Thread

variable {context : String} {t t' : Thread}

/-- A context is used for a registration, if for anything. -/
structure Enrolling (context : String) (t : Thread) : Prop where
  running : t.running = none
  strand : ∀ a s, t.strand a = some s → s.Enrolling context

theorem Enrolling.set {a : ClientId} {s : Strand} (h : t.Enrolling context)
    (hs : s.Enrolling context) : (t.set a s).Enrolling context := by
  refine ⟨h.running, ?_⟩
  intro b u hu
  by_cases hb : b = a
  · subst hb
    rw [strand_set] at hu
    exact Option.some.inj hu ▸ hs
  · rw [strand_set_ne t s hb] at hu
    exact h.strand b u hu

theorem Enrolling.posts {sents : List Sent} (h : t.Enrolling context) (hr : t'.running = none)
    (hs : ∀ a, ∀ m ∈ reaching a sents, m = .result context (.value .null))
    (hp : Posts sents t t') : t'.Enrolling context := by
  refine ⟨hr, ?_⟩
  intro a s' hs'
  obtain ⟨s, hs₀, hposted⟩ := hp.before a s' hs'
  exact (h.strand a s hs₀).posted (hs a) hposted

/-- What the exchange does about a context without calls: it acknowledges a registration. -/
theorem acknowledges {x : Exchange} {e : ExchangeEvent} {r' : Option Running} {sents : List Sent}
    (h : Exchange.Turn context x none e r' sents)
    (he : ∀ a m, e = .received a m → m.kind = .register) :
    r' = none ∧ ∀ a, ∀ m ∈ reaching a sents, m = .result context (.value .null) := by
  cases h with
  | elsewhere => exact ⟨rfl, fun _ _ hm => absurd hm List.not_mem_nil⟩
  | registered client =>
    refine ⟨rfl, ?_⟩
    intro a m hm
    rw [reaching_send] at hm
    split at hm
    · exact List.mem_singleton.1 hm
    · cases hm
  | unknown a c | accepted a c | untaken a c => exact absurd (he a (.call c) rfl) nofun

theorem Enrolling.step {ds : List Deed} (h : t.Enrolling context) (hs : Step context t ds t') :
    t'.Enrolling context := by
  cases hs with
  | moves hs hm => exact h.set (Strand.enrolling_move hm (h.strand _ _ hs))
  | joins => exact h.set Strand.enrolling_nil
  | passesBy hr hp => exact h.posts (hr.trans h.running) (fun _ _ hm => absurd hm List.not_mem_nil) hp
  | @routes _ client s m m' us x sents hs hu hm hc ht _ hp =>
    have hstrand := h.strand client s hs
    have hkind : m'.kind = .register := by
      rw [← kind_of_transmitted hm]
      exact hstrand.uplink m (by simp [hu])
    have htail : ({ s with uplink := us } : Strand).Enrolling context := by
      refine { hstrand with uplink := ?_ }
      intro k hk
      exact hstrand.uplink k (by rw [hu]; exact List.mem_cons_of_mem _ hk)
    rw [h.running] at ht
    obtain ⟨hr, hms⟩ := acknowledges ht (fun a k he => (ExchangeEvent.received.inj he).2 ▸ hkind)
    exact (h.set htail).posts hr hms hp
  | @leaves _ client s x sents hs _ _ _ _ ht _ hp =>
    have hstrand := h.strand client s hs
    have hleft : ({ s with left := true } : Strand).Enrolling context := { hstrand with }
    rw [h.running] at ht
    obtain ⟨hr, hms⟩ := acknowledges ht nofun
    exact (h.set hleft).posts hr hms hp

theorem Enrolling.steps {ds : List Deed} (h : t.Enrolling context) (hs : Steps context t ds t') :
    t'.Enrolling context := by
  induction hs with
  | refl => exact h
  | step hd _ ih => exact ih (h.step hd)

/-- What comes to be used is used for a registration, or for a call that a client waits for. -/
theorem enrolling_of_opens (hb : t.Blank) (ho : t.Opens t') :
    t'.Enrolling context ∨ ∃ a, t'.Waiting a := by
  have hwaiting := waiting_of_opens hb ho
  obtain ⟨client, s, s', hs, hos, rfl⟩ := ho
  have hstrand := hb.strand client s hs
  have hall : t.Enrolling context := ⟨hb.running, fun a u hu => (hb.strand a u hu).enrolling⟩
  cases hos with
  | issues =>
    rcases hwaiting with hidle | hwaiting
    · exact absurd (hidle.strand client _ (strand_set ..)).1 nofun
    · exact .inr hwaiting
  | requests _ hm =>
    refine .inl (hall.set ?_)
    refine { hstrand.enrolling with queue := ?_ }
    intro k hk
    rw [hstrand.queue, List.nil_append] at hk
    rwa [List.mem_singleton.1 hk]

end Thread

namespace Network

variable {η : Type} [DecidableEq η]

theorem enrolling_of_run (es : List (NetworkEvent η))
    (hn : (ContextId.series (run ({} : Network η) es).serial).Nodup) (context : String) :
    ((run ({} : Network η) es).thread context).Enrolling context ∨
      ∃ a, ((run ({} : Network η) es).thread context).Waiting a := by
  refine thread_induction (P := fun _ t => t.Enrolling context ∨ ∃ a, t.Waiting a)
    (fun t t' hb ho => Thread.enrolling_of_opens hb ho) ?_
    (fun t hb => .inl ⟨hb.running, fun a s hs => (hb.strand a s hs).enrolling⟩) es hn
  intro _ t _ t' ht hs
  rcases ht with he | ⟨a, hw⟩
  · exact .inl (he.step hs)
  · exact .inr ⟨a, hw.step hs⟩

/-- What a registration that waits for its answer hears is that it has been made. -/
theorem acknowledged_of_run (es : List (NetworkEvent η))
    (hn : (ContextId.series (run ({} : Network η) es).serial).Nodup) {client : ClientId}
    {p : Port η} (hp : (run ({} : Network η) es).ports.get? client = some p) {context : String}
    {id : HandlerId} (hpending : p.station.link.pending.get? context = some (.registration id))
    {m : Message} (hm : m ∈ p.downlink) (hc : m.context = context) :
    m = .result context (.value .null) := by
  have hs : ((run ({} : Network η) es).thread context).strand client = some (p.strand context) :=
    strand_thread hp
  rcases enrolling_of_run es hn context with he | ⟨a, hw⟩
  · apply (he.strand client _ hs).downlink m
    exact List.mem_filter.2 ⟨hm, by simpa using hc⟩
  · exact absurd hpending ((hw.attached.unregistered client _ hs).pending id)

end Network
end Switchboard
