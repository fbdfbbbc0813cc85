import Switchboard.Proofs.Network.Order

/-! # No call is lost

While a caller waits for a call, exactly one thing is on its way for it: the request, the
exchange's entry, or the end of the call.

* **Balance.** What the exchange does about a call takes as much as it gives (`Turn.conserves`).
* **Invariant.** `Strand.Waits` counts what is on its way for a caller that waits, on the whole way
  and between the caller and its link.
* **Main statements.** `Network.lossless_of_reachable`, of which `Network.done_of_quiet` is one
  half: when nothing is on its way and all handlers have ended their calls, nobody waits. -/

namespace Switchboard

open Message

/-! ### Callers -/

namespace OutboundCall

/-- The call is pending for its caller, who has not let go of it. -/
structure Awaited (k : OutboundCall) : Prop where
  state : k.state = .pending
  dropped : k.dropped = false

/-- The ends of the call that have arrived and have not been read. -/
def finishes (k : OutboundCall) : Nat := k.events.countP fun
  | .finished _ => true
  | .update _ => false

theorem Reads.awaited {k k' : OutboundCall} (h : k.Reads k') (hk : k'.Awaited) :
    k.Awaited ∧ k'.finishes = k.finishes := by
  obtain ⟨hs, hd, us, he, hu⟩ := h.pending hk.state
  have hz : us.countP (fun | .finished _ => true | .update _ => false) = 0 := by
    refine List.countP_eq_zero.2 fun e hmem => ?_
    obtain ⟨v, rfl⟩ := hu e hmem
    simp
  refine ⟨⟨hs, hd ▸ hk.dropped⟩, ?_⟩
  rw [finishes, finishes, he, List.countP_append, hz, Nat.zero_add]

theorem GivenUp.not_awaited {k k' : OutboundCall} (h : k.GivenUp k') : ¬ k'.Awaited := by
  intro hk
  have hd := h.dropped hk.state
  rw [hk.dropped] at hd
  cases hd

/-- What arrives for a call that is awaited is kept. -/
theorem Awaited.push {k : OutboundCall} {e : CallEvent} (h : (k.push e).Awaited) :
    k.Awaited ∧ (k.push e).events = k.events ++ [e] := by
  unfold OutboundCall.push at h ⊢
  split at h
  · next hc =>
    rw [h.dropped, h.state] at hc
    cases hc
  · next hc =>
    rw [if_neg hc]
    exact ⟨⟨h.state, h.dropped⟩, rfl⟩

end OutboundCall

/-! ### Balance -/

/-- The number of a thing that is there or not. -/
def unit {α : Type} (o : Option α) : Nat := if o.isSome then 1 else 0

/-- The number of calls that are asked for. -/
def ExchangeEvent.requests : ExchangeEvent → Nat
  | received _ m => if m.kind = .call then 1 else 0
  | _ => 0

namespace Exchange

open Thread

variable {context : String} {x : Exchange} {r₀ r₁ : Option Running} {e : ExchangeEvent}
  {sents : List Sent} {client : ClientId}

theorem Turn.caller (h : Turn context x r₀ e r₁ sents)
    (hr : ∀ r, r₀ = some r → r.caller = client)
    (hc : ∀ a c, e = .received a (.call c) → a = client) :
    ∀ r, r₁ = some r → r.caller = client := by
  cases h with
  | elsewhere | registered | refused | relayed => exact hr
  | accepted a c => rintro r ⟨⟩; exact hc a c rfl
  | rerouted r => rintro r' ⟨⟩; exact hr r rfl
  | unknown | untaken | answered | exhausted | withdrawn => nofun

/-- What the exchange takes for a caller that can be reached, it gives back. -/
theorem Turn.conserves (h : Turn context x r₀ e r₁ sents) (hx : x.Reachable client)
    (hctx : ∀ a m, e = .received a m → m.context = context)
    (hr : ∀ r, r₀ = some r → r.caller = client)
    (hcall : ∀ a c, e = .received a (.call c) → a = client ∧ r₀ = none)
    (hreg : ∀ a f p i, e ≠ .received a (.register context f p i))
    (hcancel : e ≠ .received client (.cancel context)) (hleft : e ≠ .left client) :
    unit r₁ + count .result (reaching client sents) =
      unit r₀ + e.requests := by
  have answers (o : Outcome) : count .result (reaching client [x.send client (.answered context o)])
      = 1 := by
    rw [reaching_send, if_pos ⟨hx, rfl⟩]
    rfl
  have offers {missed : List (Entry Route)} (hm : x.Unreachable missed) {f : Entry Route}
      (hf : x.Reachable f.value.client) (c : Call) :
      count .result (reaching client ((missed ++ [f]).map (x.offering c))) = 0 := by
    rw [reaching_offered hm hf]
    split <;> rfl
  cases h with
  | elsewhere hne =>
    cases e with
    | received a m =>
      cases m with
      | call c => exact (hne ⟨hctx a _ rfl, trivial⟩).elim
      | _ => rfl
    | _ => rfl
  | registered a f p i => exact (hreg a f p i rfl).elim
  | refused r a c => cases (hcall a c rfl).2
  | unknown a c =>
    obtain rfl := (hcall a c rfl).1
    rw [answers]
    rfl
  | accepted a c _ missed rest f _ hm hf =>
    rw [offers hm hf]
    rfl
  | untaken a c _ missed _ hm =>
    obtain rfl := (hcall a c rfl).1
    rw [reaching_append, reaching_missed hm, List.nil_append, answers]
    rfl
  | relayed r v =>
    rw [reaching_send]
    split <;> rfl
  | answered r o =>
    obtain rfl := hr r rfl
    rw [answers]
    rfl
  | rerouted r _ hcause missed rest f _ hm hf =>
    rw [offers hm hf]
    rcases hcause with rfl | ⟨rfl, _⟩ <;> rfl
  | exhausted r _ hcause missed _ hm =>
    obtain rfl := hr r rfl
    rw [reaching_append, reaching_missed hm, List.nil_append, answers]
    rcases hcause with rfl | ⟨rfl, _⟩ <;> rfl
  | withdrawn r _ hcause =>
    obtain rfl := hr r rfl
    rcases hcause with h | h
    · exact (hcancel h).elim
    · exact (hleft h).elim

/-- Without a request no call comes to run. -/
theorem Turn.none_of_none (h : Turn context x none e r₁ sents) (he : e.requests = 0) :
    r₁ = none := by
  cases h with
  | accepted => cases he
  | _ => rfl

end Exchange

/-! ### Strands of callers -/

namespace Strand

/-- No registration is asked for. -/
structure Unregistered (s : Strand) : Prop where
  queue : count .register s.queue = 0
  uplink : count .register s.uplink = 0
  pending : ∀ id, s.pending ≠ some (.registration id)

/-- The caller has not withdrawn the call, and what is on its way for it is one thing: a request or
what `entries` counts, or the end of the call. -/
structure Waits (entries : Nat) (s : Strand) (k : OutboundCall) : Prop where
  way : s.asks + entries + count .result s.downlink + k.finishes = 1
  link : count .call s.queue + (if s.pending = some .call then 1 else 0) + k.finishes = 1
  queue : count .cancel s.queue = 0
  uplink : count .cancel s.uplink = 0

/-- Waiting goes on where as much is on its way as before. -/
theorem Waits.same {s s' : Strand} {n : Nat} {k : OutboundCall} (h : s.Waits n k)
    (hask : s'.asks = s.asks) (hcall : count .call s'.queue = count .call s.queue)
    (hqueue : count .cancel s'.queue = count .cancel s.queue)
    (huplink : count .cancel s'.uplink = count .cancel s.uplink)
    (hdown : count .result s'.downlink = count .result s.downlink)
    (hpending : s'.pending = s.pending) : s'.Waits n k :=
  ⟨by rw [hask, hdown]; exact h.way, by rw [hcall, hpending]; exact h.link,
    hqueue.trans h.queue, huplink.trans h.uplink⟩

theorem unregistered_move {context : String} {s s' : Strand} {acts : List Act}
    (h : s.Move context acts s') (hs : s.Unregistered) : s'.Unregistered := by
  obtain ⟨hq, hu, hp⟩ := hs
  cases h with
  | enrolls hq' hm =>
    rw [hq', count_cons, if_pos hm] at hq
    cases hq
  | givesUp _ _ hm =>
    refine ⟨?_, hu, hp⟩
    rcases hm with rfl | ⟨_, rfl⟩ <;> simp [hq, kind]
  | passes => exact ⟨by simp [hq, kind], hu, hp⟩
  | ends =>
    refine ⟨?_, hu, hp⟩
    dsimp only
    split <;> simp [hq, kind]
  | forgets hq' =>
    rw [hq', count_cons] at hq
    exact ⟨by simp only; omega, hu, hp⟩
  | asks hq' | withdraws hq' | relays hq' | answers hq' =>
    rw [hq', count_cons] at hq
    refine ⟨by simp only; omega, ?_, by simp_all⟩
    simp [count_written, hu, kind]
  | declines => exact ⟨hq, by simp [count_written, hu, kind], hp⟩
  | hearsResult | enrolled => exact ⟨hq, hu, by simp⟩
  | lost => exact ⟨rfl, hu, by rintro _ ⟨⟩⟩
  | closes hu' =>
    have := count_mono .register hu'
    exact ⟨hq, by simp only; omega, hp⟩
  | _ => exact ⟨hq, hu, hp⟩

theorem call_move {context : String} {s s' : Strand} {acts : List Act}
    (h : s.Move context acts s') : s'.call.isSome = s.call.isSome := by
  cases h <;> simp_all [gone]

/-- Waiting goes on in every move of the caller's strand, as long as the session goes on. -/
theorem waits_move {context : String} {s s' : Strand} {acts : List Act} {n : Nat}
    {k' : OutboundCall} (h : s.Move context acts s') (hs : s.Unregistered) (hl : s'.Live)
    (hk : s'.call = some k') (ha : k'.Awaited)
    (hw : ∀ k, s.call = some k → k.Awaited → s.Waits n k) : s'.Waits n k' := by
  obtain ⟨hregister, _, hpending⟩ := hs
  cases h with
  | reads hk' hr =>
    obtain rfl := Option.some.inj hk
    obtain ⟨ha', hf⟩ := hr.awaited ha
    obtain ⟨h1, h2, h3, h4⟩ := hw _ hk' ha'
    exact ⟨hf ▸ h1, hf ▸ h2, h3, h4⟩
  | givesUp _ hg =>
    obtain rfl := Option.some.inj hk
    exact (hg.not_awaited ha).elim
  | passes =>
    exact (hw _ hk ha).same (by simp [Strand.asks, kind]) (by simp [kind]) (by simp [kind]) rfl rfl
      rfl
  | ends =>
    have hu : s.up = true := hl.up
    rw [hu, if_pos rfl]
    exact (hw _ hk ha).same (by simp [Strand.asks, kind]) (by simp [kind]) (by simp [kind]) rfl rfl
      rfl
  | @forgets m q hq hm =>
    have h := hw _ hk ha
    have hcall : m.kind ≠ .call := fun h => by simp [h] at hm
    have hcancel : m.kind ≠ .cancel := fun hc => by simpa [hq, hc] using h.queue
    exact h.same (by simp [Strand.asks, hq, hcall]) (by simp [hq, hcall]) (by simp [hq, hcancel])
      rfl rfl rfl
  | asks hq =>
    obtain ⟨h1, h2, h3, h4⟩ := hw _ hk ha
    have hr : s.reads = true := hl.reads
    simp only [Strand.asks, hq, count_cons, kind] at h1 h2 h3
    refine ⟨?_, ?_, ?_, ?_⟩
    · simp [Strand.asks, count_written, hr, kind] at h1 ⊢
      omega
    · simp at h2 ⊢
      omega
    · simpa using h3
    · simpa [count_written, kind] using h4
  | enrolls hq hm =>
    rw [hq, count_cons, if_pos hm] at hregister
    cases hregister
  | withdraws hq =>
    have h3 := (hw _ hk ha).queue
    simp [hq, kind] at h3
  | relays hq | answers hq =>
    exact (hw _ hk ha).same (by simp [Strand.asks, hq, count_written, kind]) (by simp [hq, kind])
      (by simp [hq, kind]) (by simp [count_written, kind]) rfl rfl
  | starts hd => exact (hw _ hk ha).same rfl rfl rfl rfl (by simp [hd, kind]) rfl
  | stops hd hm => exact (hw _ hk ha).same rfl rfl rfl rfl (by simp [hd, hm]) rfl
  | declines hd =>
    exact (hw _ hk ha).same (by simp [Strand.asks, count_written, kind]) rfl rfl
      (by simp [count_written, kind]) (by simp [hd, kind]) rfl
  | @hearsUpdate m v d hd hm hu hp =>
    have hkind : m.kind = .update := kind_of_transmitted hm
    obtain ⟨k, hcall, rfl⟩ := Option.map_eq_some_iff.1 hk
    obtain ⟨ha', he⟩ := ha.push
    obtain ⟨h1, h2, h3, h4⟩ := hw k hcall ha'
    have hf : (k.push (.update v)).finishes = k.finishes := by
      rw [OutboundCall.finishes, he, List.countP_append]
      rfl
    exact ⟨by simpa [Strand.asks, hd, hkind, hf] using h1, by simpa [hf] using h2, h3, h4⟩
  | @hearsResult m o d hd hm hu hp =>
    have hkind : m.kind = .result := kind_of_transmitted hm
    obtain ⟨k, hcall, rfl⟩ := Option.map_eq_some_iff.1 hk
    obtain ⟨ha', he⟩ := ha.push
    obtain ⟨h1, h2, h3, h4⟩ := hw k hcall ha'
    have hf : (k.push (.finished o)).finishes = k.finishes + 1 := by
      rw [OutboundCall.finishes, he, List.countP_append]
      rfl
    simp only [Strand.asks, hd, count_cons, hkind, if_true, hp] at h1 h2
    exact ⟨by simp only [Strand.asks, hf]; omega, by simp [hf]; omega, h3, h4⟩
  | enrolled _ _ hp => exact (hpending _ hp).elim
  | @ignores m d hd hm =>
    have h := hw _ hk ha
    have hu : s.up = true := hl.up
    by_cases hkind : m.kind = .result
    · -- an end that is on its way would find the call waiting
      have hp : s.pending = none := by simpa [hkind, hu] using hm
      have hway := h.way
      have hlink := h.link
      simp only [Strand.asks, hd, count_cons, hkind, if_true] at hway
      simp [hp] at hlink
      omega
    · exact h.same rfl rfl rfl rfl (by simp [hd, hkind]) rfl
  | lost => exact Bool.noConfusion hl.up
  | closes => exact Bool.noConfusion hl.reads

/-- What happens to a strand to which nobody comes as a caller. -/
structure Stays (s s' : Strand) : Prop where
  call : s'.call.isSome = s.call.isSome
  asks : s'.asks ≤ s.asks
  unregistered : s.Unregistered → s'.Unregistered

theorem Stays.refl (s : Strand) : s.Stays s := ⟨rfl, Nat.le_refl _, id⟩

theorem Stays.trans {s s' s'' : Strand} (h : s.Stays s') (h' : s'.Stays s'') : s.Stays s'' :=
  ⟨h'.call.trans h.call, Nat.le_trans h'.asks h.asks, h'.unregistered ∘ h.unregistered⟩

theorem stays_move {context : String} {s s' : Strand} {acts : List Act}
    (h : s.Move context acts s') : s.Stays s' :=
  ⟨call_move h, (keeps_move h).fares.asks, unregistered_move h⟩

theorem Posted.stays {ms : List Message} {s s' : Strand} (h : Posted ms s s') : s.Stays s' := by
  obtain ⟨kept, writes, rfl, _⟩ := h
  exact ⟨rfl, Nat.le_refl _, fun h => ⟨h.queue, h.uplink, h.pending⟩⟩

theorem stays_uplink {s : Strand} {m : Message} {us : List Message} (hu : s.uplink = m :: us) :
    s.Stays { s with uplink := us } := by
  refine ⟨rfl, (fares_uplink hu).asks, fun h => ⟨h.queue, ?_, h.pending⟩⟩
  have := h.uplink
  rw [hu, count_cons] at this
  simp only
  omega

theorem stays_left (s : Strand) : s.Stays { s with left := true } :=
  ⟨rfl, Nat.le_refl _, fun h => ⟨h.queue, h.uplink, h.pending⟩⟩

/-- Waiting goes on when the exchange gives back what it takes. -/
theorem Waits.posted {v w u : Strand} {n₀ n₁ c : Nat} {ms : List Message} {k : OutboundCall}
    (h : v.Waits n₀ k) (hq : w.queue = v.queue) (hp : w.pending = v.pending)
    (hd : w.downlink = v.downlink) (ha : v.asks = w.asks + c) (hu : count .cancel w.uplink = 0)
    (hposted : w.Posted ms u) (hl : u.Live) (hb : n₁ + count .result ms = n₀ + c) :
    u.Waits n₁ k := by
  have hdown := (hposted.live hl).2
  obtain ⟨kept, writes, rfl, _⟩ := hposted
  obtain ⟨h1, h2, h3, _⟩ := h
  refine ⟨?_, ?_, ?_, hu⟩
  · rw [hdown, count_append, hd]
    simp only [Strand.asks] at h1 ha ⊢
    omega
  · simpa only [hq, hp] using h2
  · simpa only [hq] using h3

end Strand

/-! ### Threads -/

namespace Thread

/-- Nobody has made a call. -/
structure Idle (t : Thread) : Prop where
  running : t.running = none
  strand : ∀ a s, t.strand a = some s → s.call = none ∧ s.asks = 0

/-- Only one client has to do with the call as its caller. -/
structure Attached (client : ClientId) (t : Thread) : Prop where
  caller : ∃ s, t.strand client = some s ∧ s.call.isSome = true
  only : ∀ a s, t.strand a = some s → a ≠ client → s.call = none ∧ s.asks = 0
  unregistered : ∀ a s, t.strand a = some s → s.Unregistered

/-- A client has made the call, and if it waits there is something on its way for it. -/
structure Waiting (client : ClientId) (t : Thread) : Prop where
  attached : t.Attached client
  runs : ∀ r, t.running = some r → r.caller = client
  waits : ∀ s k, t.strand client = some s → s.call = some k → s.Live → k.Awaited →
    s.Waits (unit t.running) k

variable {t t' : Thread} {a b : ClientId} {s s₁ : Strand} {sents : List Sent}

theorem Attached.stays (h : t.Attached a)
    (hs : ∀ b u, t'.strand b = some u → ∃ v, t.strand b = some v ∧ v.Stays u)
    (hs' : ∀ v, t.strand a = some v → ∃ u, t'.strand a = some u ∧ v.Stays u) :
    t'.Attached a where
  caller := by
    obtain ⟨v, hv, hc⟩ := h.caller
    obtain ⟨u, hu, hst⟩ := hs' v hv
    exact ⟨u, hu, hst.call.trans hc⟩
  only b u hu hb := by
    obtain ⟨v, hv, hst⟩ := hs b u hu
    obtain ⟨h1, h2⟩ := h.only b v hv hb
    refine ⟨?_, Nat.le_zero.1 (h2 ▸ hst.asks)⟩
    have hc := hst.call
    rw [h1] at hc
    simpa using hc
  unregistered b u hu := by
    obtain ⟨v, hv, hst⟩ := hs b u hu
    exact hst.unregistered (h.unregistered b v hv)

theorem Attached.posts (h : t.Attached a) (hs : t.strand b = some s)
    (hp : Posts sents (t.set b s₁) t') (hst : s.Stays s₁) : t'.Attached a := by
  refine h.stays (fun c u hu => ?_) fun v hv => ?_
  · obtain ⟨v, w, hv, hsw, _, hposted⟩ := hp.of_set hs hu
    exact ⟨v, hv, (hsw.rel hst .refl).trans hposted.stays⟩
  · obtain ⟨w, u, hu, hsw, hposted⟩ := hp.to_set hs hv
    exact ⟨u, hu, (hsw.rel hst .refl).trans hposted.stays⟩

theorem Waiting.moves {context : String} {acts : List Act} (h : t.Waiting a)
    (hs : t.strand b = some s) (hm : s.Move context acts s₁) : (t.set b s₁).Waiting a where
  attached := by
    refine h.attached.stays (fun c u hu => ?_) fun v hv => ?_
    · obtain ⟨v, hv, hsw⟩ := of_strand_set hs hu
      exact ⟨v, hv, hsw.rel (Strand.stays_move hm) .refl⟩
    · obtain ⟨u, hu, hsw⟩ := to_strand_set hs hv
      exact ⟨u, hu, hsw.rel (Strand.stays_move hm) .refl⟩
  runs := h.runs
  waits u k hu hk hl ha := by
    obtain ⟨v, hv, hsw⟩ := of_strand_set hs hu
    rcases hsw with ⟨rfl, rfl, rfl⟩ | ⟨_, rfl⟩
    · have hlive := (Strand.keeps_move hm).fares.live hl
      exact Strand.waits_move hm (h.attached.unregistered _ _ hs) hl hk ha fun k' hk' ha' =>
        h.waits _ k' hs hk' hlive ha'
    · exact h.waits _ k hv hk hl ha

theorem Waiting.joins (h : t.Waiting a) (hnone : t.strand b = none) : (t.set b {}).Waiting a := by
  obtain ⟨s, hs, hc⟩ := h.attached.caller
  have hne : a ≠ b := fun e => by rw [e, hnone] at hs; cases hs
  have hsame : (t.set b {}).strand a = t.strand a := strand_set_ne t {} hne
  refine ⟨⟨⟨s, hsame.trans hs, hc⟩, fun c u hu hca => ?_, fun c u hu => ?_⟩, h.runs, ?_⟩
  · rcases strand_of_join hu with hu | rfl
    · exact h.attached.only c u hu hca
    · exact ⟨rfl, rfl⟩
  · rcases strand_of_join hu with hu | rfl
    · exact h.attached.unregistered c u hu
    · exact ⟨rfl, rfl, nofun⟩
  · intro u k hu
    exact h.waits u k (hsame.symm.trans hu)

theorem Waiting.passesBy (h : t.Waiting a) (hr : t'.running = t.running) (hp : Posts [] t t') :
    t'.Waiting a where
  attached := by
    refine h.attached.stays (fun c u hu => ?_) fun v hv => ?_
    · obtain ⟨v, hv, hposted⟩ := hp.before c u hu
      exact ⟨v, hv, hposted.stays⟩
    · obtain ⟨u, hu, hposted⟩ := hp.after a v hv
      exact ⟨u, hu, hposted.stays⟩
  runs := hr ▸ h.runs
  waits u k hu hk hl ha := by
    obtain ⟨v, hv, hposted⟩ := hp.before a u hu
    have hw := h.waits v k hv (hposted.call ▸ hk) (hposted.live hl).1 ha
    exact hw.posted (c := 0) rfl rfl rfl rfl hw.uplink hposted hl (by rw [hr]; rfl)

theorem Waiting.routes {context : String} {x : Exchange} {m m' : Message} {us : List Message}
    (h : t.Waiting a) (hs : t.strand b = some s) (hu : s.uplink = m :: us)
    (hm : m.transmitted = .ok m') (hc : m'.context = context)
    (ht : Exchange.Turn context x t.running (.received b m') t'.running sents)
    (hx : Attends x (t.set b { s with uplink := us }))
    (hp : Posts sents (t.set b { s with uplink := us }) t') : t'.Waiting a := by
  have hkind := kind_of_transmitted hm
  have hcaller {c : Call} (hcall : m' = .call c) : b = a := by
    have hasks := Strand.asks_uplink hu (hkind.trans (hcall ▸ rfl))
    refine Decidable.byContradiction fun hne => ?_
    have := (h.attached.only b s hs hne).2
    omega
  refine ⟨h.attached.posts hs hp (Strand.stays_uplink hu), ?_, fun u k hu' hk hl ha => ?_⟩
  · refine ht.caller h.runs fun c d he => ?_
    obtain ⟨rfl, hcall⟩ := ExchangeEvent.received.inj he
    exact hcaller hcall
  · obtain ⟨v, w, hv, hsw, hw, hposted⟩ := hp.of_set hs hu'
    have hlive := (hposted.live hl).1
    have hreach := hx.live a w hw hlive.left hlive.writes hlive.up
    -- the caller's strand before, of which the uplink at most has become shorter
    have hvw : v.call = some k ∧ v.Live ∧ w.queue = v.queue ∧ w.pending = v.pending ∧
        w.downlink = v.downlink ∧ count .cancel w.uplink ≤ count .cancel v.uplink := by
      have hcall : w.call = some k := hposted.call ▸ hk
      rcases hsw with ⟨_, rfl, rfl⟩ | ⟨_, rfl⟩
      · refine ⟨hcall, ⟨hlive.up, hlive.reads, hlive.writes, hlive.left⟩, rfl, rfl, rfl, ?_⟩
        rw [hu, count_cons]
        exact Nat.le_add_right ..
      · exact ⟨hcall, hlive, rfl, rfl, rfl, Nat.le_refl _⟩
    obtain ⟨hcall, hvlive, hq, hpend, hd, hcancel⟩ := hvw
    have hwaits := h.waits v k hv hcall hvlive ha
    have hasks : v.asks = w.asks + (ExchangeEvent.received b m').requests := by
      rcases hsw with ⟨rfl, rfl, rfl⟩ | ⟨hne, rfl⟩
      · simp only [Strand.asks, hu, count_cons, hkind, ExchangeEvent.requests]
        omega
      · cases m' with
        | call c => exact (hne (hcaller rfl).symm).elim
        | _ => rfl
    have hbalance := ht.conserves hreach (by rintro _ _ ⟨⟩; exact hc) h.runs
      (fun c d he => by
        obtain ⟨rfl, rfl⟩ := ExchangeEvent.received.inj he
        have hb := hcaller rfl
        refine ⟨hb, ?_⟩
        have hway := hwaits.way
        cases hr : t.running with
        | none => rfl
        | some r =>
          rw [hr] at hway
          simp only [unit, Option.isSome_some, if_true, ExchangeEvent.requests, kind] at hway hasks
          omega)
      (fun c f p i he => by
        obtain ⟨_, rfl⟩ := ExchangeEvent.received.inj he
        have hz := (h.attached.unregistered b s hs).uplink
        rw [hu, count_cons, if_pos (show m.kind = .register from hkind)] at hz
        cases hz)
      (fun he => by
        obtain ⟨rfl, rfl⟩ := ExchangeEvent.received.inj he
        obtain rfl := Option.some.inj (hs.symm.trans hv)
        have hz := hwaits.uplink
        rw [hu, count_cons, if_pos (show m.kind = .cancel from hkind)] at hz
        cases hz)
      (by rintro ⟨⟩)
    refine hwaits.posted hq hpend hd hasks ?_ hposted hl hbalance
    have := hwaits.uplink
    omega

theorem Waiting.leaves {context : String} {x : Exchange} (h : t.Waiting a)
    (hs : t.strand b = some s)
    (ht : Exchange.Turn context x t.running (.left b) t'.running sents)
    (hx : Attends x (t.set b { s with left := true }))
    (hp : Posts sents (t.set b { s with left := true }) t') : t'.Waiting a := by
  refine ⟨h.attached.posts hs hp (Strand.stays_left s), ht.caller h.runs nofun,
    fun u k hu hk hl ha => ?_⟩
  obtain ⟨v, w, hv, hsw, hw, hposted⟩ := hp.of_set hs hu
  have hlive := (hposted.live hl).1
  have hreach := hx.live a w hw hlive.left hlive.writes hlive.up
  rcases hsw with ⟨_, _, rfl⟩ | ⟨hne, rfl⟩
  · exact Bool.noConfusion hlive.left
  · have hwaits := h.waits w k hv (hposted.call ▸ hk) hlive ha
    have hbalance := ht.conserves hreach nofun h.runs nofun nofun nofun fun he =>
      hne (ExchangeEvent.left.inj he).symm
    exact hwaits.posted (c := 0) rfl rfl rfl rfl hwaits.uplink hposted hl hbalance

theorem Waiting.step {context : String} {ds : List Deed} (h : t.Waiting a)
    (hstep : Step context t ds t') : t'.Waiting a := by
  cases hstep with
  | moves hs hm => exact h.moves hs hm
  | joins hnone => exact h.joins hnone
  | passesBy hr hp => exact h.passesBy hr hp
  | routes hs hu hm hc ht hx hp => exact h.routes hs hu hm hc ht hx hp
  | leaves hs _ _ _ _ ht hx hp => exact h.leaves hs ht hx hp

/-! ### Without callers -/

theorem Idle.stays (h : t.Idle) (hr : t'.running = none)
    (hs : ∀ b u, t'.strand b = some u → ∃ v, t.strand b = some v ∧ v.Stays u) : t'.Idle := by
  refine ⟨hr, fun b u hu => ?_⟩
  obtain ⟨v, hv, hst⟩ := hs b u hu
  obtain ⟨h1, h2⟩ := h.strand b v hv
  refine ⟨?_, Nat.le_zero.1 (h2 ▸ hst.asks)⟩
  have hc := hst.call
  rw [h1] at hc
  simpa using hc

theorem Idle.step {context : String} {ds : List Deed} (h : t.Idle) (hstep : Step context t ds t') :
    t'.Idle := by
  cases hstep with
  | moves hs hm =>
    refine h.stays h.running fun b u hu => ?_
    obtain ⟨v, hv, hsw⟩ := of_strand_set hs hu
    exact ⟨v, hv, hsw.rel (Strand.stays_move hm) .refl⟩
  | joins =>
    refine ⟨h.running, fun b u hu => ?_⟩
    rcases strand_of_join hu with hu | rfl
    · exact h.strand b u hu
    · exact ⟨rfl, rfl⟩
  | passesBy hr hp =>
    refine h.stays (hr.trans h.running) fun b u hu => ?_
    obtain ⟨v, hv, hposted⟩ := hp.before b u hu
    exact ⟨v, hv, hposted.stays⟩
  | @routes _ client s m m' us x sents hs hu hm _ ht _ hp =>
    have hcall : m.kind ≠ .call := fun hk => by
      have hasks := Strand.asks_uplink hu hk
      have := (h.strand client s hs).2
      omega
    rw [kind_of_transmitted hm] at hcall
    rw [h.running] at ht
    refine h.stays (ht.none_of_none ?_) fun b u hu' => ?_
    · simp only [ExchangeEvent.requests, if_neg hcall]
    · obtain ⟨v, w, hv, hsw, _, hposted⟩ := hp.of_set hs hu'
      exact ⟨v, hv, (hsw.rel (Strand.stays_uplink hu) .refl).trans hposted.stays⟩
  | @leaves _ client s x sents hs _ _ _ _ ht _ hp =>
    rw [h.running] at ht
    refine h.stays (ht.none_of_none rfl) fun b u hu' => ?_
    obtain ⟨v, w, hv, hsw, _, hposted⟩ := hp.of_set hs hu'
    exact ⟨v, hv, (hsw.rel (Strand.stays_left s) .refl).trans hposted.stays⟩

theorem idle_of_blank (h : t.Blank) : t.Idle :=
  ⟨h.running, fun a s hs => ⟨(h.strand a s hs).call, (h.strand a s hs).counts.2.2⟩⟩

theorem waiting_of_opens (h : t.Blank) (ho : t.Opens t') : t'.Idle ∨ ∃ a, t'.Waiting a := by
  obtain ⟨client, s, s', hs, hos, rfl⟩ := ho
  have hb := h.strand client s hs
  have other {b : ClientId} {u : Strand} (hu : (t.set client s').strand b = some u)
      (hne : b ≠ client) : u.Blank := h.strand b u ((strand_set_ne t s' hne).symm.trans hu)
  have hasks := hb.counts.2.2
  rw [Strand.asks] at hasks
  cases hos with
  | @issues k c hup hk he hd =>
    refine .inr ⟨client, ⟨⟨_, strand_set .., rfl⟩, fun b u hu hne => ?_, fun b u hu => ?_⟩, ?_, ?_⟩
    · exact ⟨(other hu hne).call, (other hu hne).counts.2.2⟩
    · by_cases hne : b = client
      · subst hne
        rw [strand_set] at hu
        obtain rfl := Option.some.inj hu
        exact ⟨by simp [hb.queue, kind], by simp [hb.uplink], by simp [hb.pending]⟩
      · have hbu := other hu hne
        exact ⟨by simp [hbu.queue], by simp [hbu.uplink], by simp [hbu.pending]⟩
    · intro r hr
      cases h.running.symm.trans hr
    · intro u k' hu hk' _ _
      rw [strand_set] at hu
      obtain rfl := Option.some.inj hu
      obtain rfl := Option.some.inj hk'
      refine ⟨?_, ?_, ?_, ?_⟩
      · simp [Strand.asks, OutboundCall.finishes, unit, Thread.set, hb.queue, hb.uplink, hb.downlink,
          he, h.running, kind]
      · simp [OutboundCall.finishes, hb.queue, hb.pending, he, kind]
      · simp [hb.queue, kind]
      · simp [hb.uplink]
  | requests hup hm =>
    refine .inl ⟨h.running, fun b u hu => ?_⟩
    by_cases hne : b = client
    · subst hne
      rw [strand_set] at hu
      obtain rfl := Option.some.inj hu
      exact ⟨hb.call, by simp [Strand.asks, hb.queue, hb.uplink, hm]⟩
    · exact ⟨(other hu hne).call, (other hu hne).counts.2.2⟩

end Thread

/-! ### Networks -/

variable {η : Type}

namespace Port

/-- The requests for a call that are on their way to the exchange, as commands or as messages. -/
def requests (context : String) (p : Port η) : Nat :=
  count .call (within context (p.station.queue.filterMap Command.message?)) +
    count .call (within context p.uplink)

/-- The ends of a call that are on their way to its caller, as messages or as events. -/
def endings (context : String) (p : Port η) (k : OutboundCall) : Nat :=
  count .result (within context p.downlink) + k.finishes

/-- Nothing is on its way from the station or to it, its handlers have ended their calls, and if
its session does not go on both sides know. -/
structure Quiet (p : Port η) : Prop where
  queue : p.station.queue = []
  uplink : p.uplink = []
  downlink : p.downlink = []
  events : ∀ context k, p.station.calls.get? context = some k → k.Awaited → k.events = []
  session : (p.Live ∧ ∀ c ∈ p.station.jobs, c.finished = true) ∨
    p.left = true ∧ p.station.link.up = false

end Port

namespace Network

/-- Whether the exchange has a call of a client running. -/
def entrusted (context : String) (client : ClientId) (net : Network η) : Nat :=
  if (net.exchange.running.get? context).any (·.caller = client) then 1 else 0

/-- No call is lost. -/
structure Lossless (net : Network η) : Prop where
  /-- While a caller waits and the session goes on, exactly one thing is on its way for the call: a
  request, the exchange's entry, or the end of the call. -/
  waiting : ∀ context client p k, net.ports.get? client = some p → p.Live →
    p.station.calls.get? context = some k → k.Awaited →
      p.requests context + net.entrusted context client + p.endings context k = 1
  /-- So nobody waits when nothing is on its way and all handlers have ended their calls. -/
  quiet : (∀ client p, net.ports.get? client = some p → p.Quiet) →
    ∀ context client p k, net.ports.get? client = some p → p.station.link.up = true →
      p.station.calls.get? context = some k → ¬ k.Awaited

section Lossless

variable {net : Network η} {context : String} {client : ClientId} {p : Port η} {k : OutboundCall}

theorem waits_of_thread (h : (net.thread context).Idle ∨ ∃ a, (net.thread context).Waiting a)
    (hp : net.ports.get? client = some p) (hl : p.Live)
    (hk : p.station.calls.get? context = some k) (ha : k.Awaited) :
    p.requests context + net.entrusted context client + p.endings context k = 1 := by
  have hs : (net.thread context).strand client = some (p.strand context) := strand_thread hp
  have hcall : (p.strand context).call = some k.detach := congrArg (Option.map _) hk
  rcases h with h | ⟨a, h⟩
  · rw [(h.strand client _ hs).1] at hcall
    cases hcall
  · have hac : client = a := by
      refine Decidable.byContradiction fun hne => ?_
      rw [(h.attached.only client _ hs hne).1] at hcall
      cases hcall
    subst hac
    have hway := (h.waits _ _ hs hcall ⟨hl.up, hl.reads, hl.writes, hl.left⟩
      ⟨ha.state, ha.dropped⟩).way
    have hrun : net.entrusted context client = unit (net.thread context).running := by
      rw [entrusted, unit]
      cases hr : net.exchange.running.get? context with
      | none => rw [show (net.thread context).running = none from hr]; rfl
      | some r =>
        rw [show (net.thread context).running = some r from hr]
        simp [h.runs r hr]
    rw [hrun]
    have hf : k.detach.finishes = k.finishes := rfl
    simp only [Strand.asks, hf] at hway
    simp only [Port.requests, Port.endings]
    simp only [Port.strand] at hway
    omega

theorem done_of_quiet (hc : net.Custody context) (ht : (net.thread context).Orderly)
    (hw : ∀ client p k, net.ports.get? client = some p → p.Live →
      p.station.calls.get? context = some k → k.Awaited →
        p.requests context + net.entrusted context client + p.endings context k = 1)
    (hq : ∀ client p, net.ports.get? client = some p → p.Quiet)
    (hp : net.ports.get? client = some p) (hu : p.station.link.up = true)
    (hk : p.station.calls.get? context = some k) : ¬ k.Awaited := by
  intro ha
  have hquiet := hq client p hp
  have hl : p.Live := by
    rcases hquiet.session with h | h
    · exact h.1
    · exact Bool.noConfusion (hu.symm.trans h.2)
  -- the one thing that is left is the exchange's entry
  have hone := hw client p k hp hl hk ha
  have hrun : 0 < net.entrusted context client := by
    have hr : p.requests context = 0 := by simp [Port.requests, hquiet.queue, hquiet.uplink]
    have he : p.endings context k = 0 := by
      simp [Port.endings, OutboundCall.finishes, hquiet.downlink, hquiet.events context k hk ha]
    omega
  cases hr : net.exchange.running.get? context with
  | none => simp [entrusted, hr] at hrun
  | some r =>
    -- so its callee is serving the call, with a handler at work
    obtain ⟨q, hq', hleft, htoken⟩ := hc.callee r hr
    have hqq := hq _ q hq'
    obtain ⟨hlive, hjobs⟩ : q.Live ∧ ∀ c ∈ q.station.jobs, c.finished = true := by
      rcases hqq.session with h | h
      · exact h
      · exact Bool.noConfusion (hleft.symm.trans h.1)
    have h1 := (htoken hlive).1
    have hserving : q.station.link.running.contains context = true := by
      cases hs : q.station.link.running.contains context with
      | true => rfl
      | false => simp [Port.tokens, hqq.downlink, hqq.uplink, hs] at h1
    obtain ⟨job, hjob⟩ := Option.isSome_iff_exists.1 hserving
    rcases (ht _ _ (strand_thread hq')).served job hjob with hh | hh
    · simp only [Port.strand, Station.handlers] at hh
      obtain ⟨c, hcc, hf⟩ := Option.map_eq_some_iff.1 hh
      have hmem := List.mem_of_getElem? (Option.filter_eq_some_iff.1 hcc).1
      rw [hjobs c hmem] at hf
      cases hf
    · simp [Port.strand, hqq.queue] at hh

end Lossless

/-- In every network that can come about, as long as its contexts differ, no call is lost. -/
theorem lossless_of_reachable [DecidableEq η] {net : Network η} (h : Reachable net)
    (hd : (ContextId.series net.serial).Nodup) : net.Lossless := by
  have follow (context : String) : ((net.thread context).Idle ∨ ∃ a, (net.thread context).Waiting a) ∧
      (net.thread context).Orderly := by
    obtain ⟨es, rfl⟩ := h.exists_run
    refine thread_induction (P := fun _ t => (t.Idle ∨ ∃ a, t.Waiting a) ∧ t.Orderly)
      (fun t t' hb ho => ⟨Thread.waiting_of_opens hb ho, Thread.orderly_of_opens hb ho⟩)
      (fun _ t _ t' ht hs => ⟨?_, ht.2.step hs⟩)
      (fun t hb => ⟨.inl (Thread.idle_of_blank hb), Thread.orderly_of_blank hb⟩) es hd
    rcases ht.1 with hi | ⟨a, hw⟩
    · exact .inl (hi.step hs)
    · exact .inr ⟨a, hw.step hs⟩
  have waiting (context : String) (client : ClientId) (p : Port η) (k : OutboundCall)
      (hp : net.ports.get? client = some p) (hl : p.Live)
      (hk : p.station.calls.get? context = some k) (ha : k.Awaited) :=
    waits_of_thread (follow context).1 hp hl hk ha
  exact ⟨waiting, fun hq context client p k hp => done_of_quiet (custody_of_reachable h hd context)
    (follow context).2 (waiting context) hq hp⟩

/-- The first participant waits for its call, of which nothing is on the way: the exchange has an
entry.  So the network is not quiet, and indeed a handler is at work. -/
theorem lossless_served :
    let net := ({} : Network Unit).run serving
    let context := ContextId.ofNat 1
    (∃ p k, net.ports.get? 1 = some p ∧ p.Live ∧ p.station.calls.get? context = some k ∧
      k.function = "f" ∧ k.Awaited ∧
      p.requests context = 0 ∧ net.entrusted context 1 = 1 ∧ p.endings context k = 0) ∧
    ¬ ∀ client p, net.ports.get? client = some p → p.Quiet := by
  intro net context
  have hlossless : net.Lossless := lossless_of_reachable (reachable_run _ .start)
    (ContextId.series_nodup (Nat.le_trans (serial_run_le ..) (by decide)))
  obtain ⟨_, p, q, hleads, hserves⟩ := leads_serving
  obtain rfl : net = _ := hleads.run
  have hidle := hserves.callerIdle
  have hlive : p.Live := ⟨hidle.up, hidle.reads, hidle.writes, hserves.callerThere⟩
  have hone := hlossless.waiting context 1 p _ hserves.caller hlive hserves.call ⟨rfl, rfl⟩
  have hentrusted : net.entrusted context 1 = 1 := by
    rw [entrusted, hserves.running]
    rfl
  refine ⟨⟨p, _, hserves.caller, hlive, hserves.call, rfl, ⟨rfl, rfl⟩, ?_⟩, fun hquiet => ?_⟩
  · omega
  · exact hlossless.quiet hquiet context 1 p _ hserves.caller hidle.up hserves.call ⟨rfl, rfl⟩

end Network
end Switchboard
