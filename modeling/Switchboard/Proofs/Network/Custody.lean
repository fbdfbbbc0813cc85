import Switchboard.Proofs.Network.Progress

/-! # Custody of a call

The exchange and the callees agree on who serves a call: a token passes from the exchange to a
station and back, and there is never more than one of it.

* **Tokens.** A strand holds the token as a call on its way to the station, as an entry among the
  calls that are being served, or as a result on its way back (`Strand.tokens`).
* **Invariant.** `Thread.Custody` says where the token is.  It is lost with a session, and it is
  recalled when a call is withdrawn: then a withdrawal follows it (`Strand.Withdrawn`).
* **Main statements.** `Thread.Custody.step` keeps the invariant, and `Network.custody_of_reachable`
  says of networks what follows from it: one handler serves a call at a time, none goes on serving
  one that is withdrawn, and no station gets a call that it is serving. -/

namespace Switchboard

namespace Message

/-! ### Counting messages -/

@[simp] theorem count_nil (k : Kind) : count k [] = 0 := rfl

@[simp] theorem count_cons (k : Kind) (m : Message) (ms : List Message) :
    count k (m :: ms) = count k ms + if m.kind = k then 1 else 0 := by
  simp [count, List.countP_cons]

@[simp] theorem count_append (k : Kind) (ms ms' : List Message) :
    count k (ms ++ ms') = count k ms + count k ms' := List.countP_append

theorem count_mono (k : Kind) {ms ms' : List Message} (h : ms <+: ms') :
    count k ms ≤ count k ms' := h.sublist.countP_le

/-- Every call is followed by a withdrawal. -/
def Recalled : List Message → Prop
  | [] => True
  | m :: ms => (m.kind = .call → 0 < count .cancel ms) ∧ Recalled ms

theorem recalled_of_count {ms : List Message} (h : count .call ms = 0) : Recalled ms := by
  induction ms with
  | nil => trivial
  | cons m ms ih =>
    rw [count_cons] at h
    refine ⟨fun hm => ?_, ih (by omega)⟩
    rw [if_pos hm] at h
    omega

theorem Recalled.append {ms ms' : List Message} (h : Recalled ms) (h' : Recalled ms') :
    Recalled (ms ++ ms') := by
  induction ms with
  | nil => exact h'
  | cons m ms ih =>
    refine ⟨fun hm => ?_, ih h.2⟩
    have := h.1 hm
    rw [List.append_eq, count_append]
    omega

theorem recalled_cancel (ms : List Message) (context : String) :
    Recalled (ms ++ [.cancel context]) := by
  induction ms with
  | nil => exact ⟨nofun, trivial⟩
  | cons m ms ih =>
    refine ⟨fun _ => ?_, ih⟩
    rw [List.append_eq, count_append]
    simp [kind]

theorem kind_of_transmitted {m m' : Message} (h : m.transmitted = .ok m') : m.kind = m'.kind := by
  cases alike_of_transmitted h <;> rfl

end Message

open Message

/-! ### Strands -/

namespace Strand

/-- The requests for the call that are on their way to the exchange. -/
def asks (s : Strand) : Nat := count .call s.queue + count .call s.uplink

/-- Calls on their way to the station, being served there, or on their way back as results. -/
def tokens (s : Strand) : Nat :=
  count .call s.downlink + (if s.serving.isSome then 1 else 0) + count .result s.uplink

/-- The withdrawals on their way to the station. -/
def cancels (s : Strand) : Nat := count .cancel s.downlink

/-- The session goes on, on both sides. -/
structure Live (s : Strand) : Prop where
  up : s.up = true
  reads : s.reads = true
  writes : s.writes = true
  left : s.left = false

/-- Whatever the station serves or will serve is withdrawn by a message on its way. -/
structure Withdrawn (s : Strand) : Prop where
  serving : s.serving ≠ none → 0 < s.cancels
  recalled : Recalled s.downlink

theorem withdrawn_of_tokens {s : Strand} (h : s.tokens = 0) : s.Withdrawn := by
  unfold tokens at h
  refine ⟨fun hs => ?_, recalled_of_count (by omega)⟩
  rw [Option.isSome_iff_ne_none.2 hs] at h
  simp at h

/-- The station has given the token back, or it has left. -/
def Released (s : Strand) : Prop := s.left = false → s.tokens = 0

/-- What happens to a strand without a new token. -/
structure Fares (s s' : Strand) : Prop where
  left : s'.left = false → s.left = false
  asks : s'.asks ≤ s.asks
  tokens : s'.tokens ≤ s.tokens
  live : s'.Live → s.Live
  withdrawn : s'.Live → s.tokens ≤ 1 → s.Withdrawn → s'.Withdrawn

theorem Fares.refl (s : Strand) : s.Fares s :=
  ⟨id, Nat.le_refl _, Nat.le_refl _, id, fun _ _ h => h⟩

theorem Fares.trans {s s' s'' : Strand} (h : s.Fares s') (h' : s'.Fares s'') : s.Fares s'' where
  left := h.left ∘ h'.left
  asks := Nat.le_trans h'.asks h.asks
  tokens := Nat.le_trans h'.tokens h.tokens
  live := h.live ∘ h'.live
  withdrawn hl ht hw :=
    h'.withdrawn hl (Nat.le_trans h.tokens ht) (h.withdrawn (h'.live hl) ht hw)

/-- What happens to a strand so that the token stays, unless the session ends or it is withdrawn. -/
structure Keeps (s s' : Strand) : Prop where
  fares : s.Fares s'
  cancels : s'.cancels ≤ s.cancels
  holds : s'.Live → s.tokens ≤ 1 → s.cancels = 0 → s'.tokens = s.tokens

theorem Keeps.refl (s : Strand) : s.Keeps s := ⟨.refl s, Nat.le_refl _, fun _ _ _ => rfl⟩

theorem count_written (k : Kind) (s : Strand) (m : Message) : count k (s.written m) =
    count k s.uplink + if s.reads = true ∧ m.kind = k then 1 else 0 := by
  unfold written
  split <;> simp [*]

theorem Withdrawn.pop {s s' : Strand} {m : Message} (h : s.Withdrawn)
    (hd : s.downlink = m :: s'.downlink) (hm : m.kind ≠ .cancel)
    (hs : s'.serving ≠ none → s.serving ≠ none ∨ m.kind = .call) : s'.Withdrawn := by
  have hr := h.recalled
  rw [hd] at hr
  refine ⟨fun hv => ?_, hr.2⟩
  rcases hs hv with hv | hk
  · have hc := h.serving hv
    rw [cancels, hd, count_cons, if_neg hm] at hc
    exact hc
  · exact hr.1 hk

theorem Keeps.of_eq {s s' : Strand} (hleft : s'.left = s.left) (ha : s'.asks ≤ s.asks)
    (ht : s'.tokens = s.tokens) (hd : s'.downlink = s.downlink) (hs : s'.serving = s.serving)
    (hlive : s'.Live → s.Live) : s.Keeps s' := by
  have hc : s'.cancels = s.cancels := by rw [Strand.cancels, Strand.cancels, hd]
  refine ⟨⟨fun h => hleft ▸ h, ha, Nat.le_of_eq ht, hlive, fun _ _ hw => ⟨fun h => ?_, ?_⟩⟩,
    Nat.le_of_eq hc, fun _ _ _ => ht⟩
  · rw [hc]
    exact hw.serving (hs ▸ h)
  · rw [hd]
    exact hw.recalled

/-- A strand whose session has ended, or is not better off otherwise. -/
theorem Keeps.of_dead {s s' : Strand} (hleft : s'.left = s.left) (ha : s'.asks ≤ s.asks)
    (ht : s'.tokens ≤ s.tokens) (hc : s'.cancels ≤ s.cancels) (hdead : ¬ s'.Live) :
    s.Keeps s' :=
  ⟨⟨fun h => hleft ▸ h, ha, ht, fun h => (hdead h).elim, fun h => (hdead h).elim⟩, hc,
    fun h => (hdead h).elim⟩

theorem Keeps.sends {s s' : Strand} {m m' : Message} (hq : s.queue = m :: s'.queue)
    (hu : s'.uplink = s.written m') (hkind : m'.kind = m.kind) (hr : m.kind ≠ .result)
    (hd : s'.downlink = s.downlink) (hs : s'.serving = s.serving) (hleft : s'.left = s.left)
    (hlive : s'.Live → s.Live) : s.Keeps s' := by
  refine .of_eq hleft ?_ ?_ hd hs hlive
  · rw [Strand.asks, Strand.asks, hq, hu, count_cons, count_written, hkind]
    by_cases hm : m.kind = .call
    · simp only [hm, and_true, if_true]
      split <;> omega
    · simp only [hm, and_false, if_false]
      omega
  · simp only [Strand.tokens, hu, hd, hs, count_written, hkind, hr, and_false, if_false,
      Nat.add_zero]

theorem Keeps.pop {s s' : Strand} {m : Message} (hleft : s'.left = s.left) (ha : s'.asks ≤ s.asks)
    (hd : s.downlink = m :: s'.downlink) (hm : m.kind ≠ .cancel) (ht : s'.tokens ≤ s.tokens)
    (hh : s'.Live → s.tokens ≤ 1 → s'.tokens = s.tokens)
    (hs : s'.serving ≠ none → s.serving ≠ none ∨ m.kind = .call) (hlive : s'.Live → s.Live) :
    s.Keeps s' := by
  refine ⟨⟨fun h => hleft ▸ h, ha, ht, hlive, fun _ _ hw => hw.pop hd hm hs⟩, ?_,
    fun hl ht _ => hh hl ht⟩
  rw [Strand.cancels, Strand.cancels, hd, count_cons]
  exact Nat.le_add_right ..

theorem Keeps.hears {s s' : Strand} {m : Message} (hd : s.downlink = m :: s'.downlink)
    (hc : m.kind ≠ .call) (hm : m.kind ≠ .cancel) (hq : s'.queue = s.queue)
    (hu : s'.uplink = s.uplink) (hs : s'.serving = s.serving) (hleft : s'.left = s.left)
    (hlive : s'.Live → s.Live) : s.Keeps s' := by
  have ht : s'.tokens = s.tokens := by
    rw [Strand.tokens, Strand.tokens, hd, count_cons, if_neg hc, hu, hs, Nat.add_zero]
  have ha : s'.asks = s.asks := by rw [Strand.asks, Strand.asks, hq, hu]
  refine .pop hleft (Nat.le_of_eq ha) hd hm (Nat.le_of_eq ht) (fun _ _ => ht) (fun h => ?_) hlive
  rw [hs] at h
  exact .inl h

/-- No move makes a token, and while the session goes on only a withdrawal takes one away. -/
theorem keeps_move {context : String} {s s' : Strand} {acts : List Act}
    (h : s.Move context acts s') : s.Keeps s' := by
  have live {s' : Strand} (hu : s'.up = s.up) (hr : s'.reads = s.reads) (hw : s'.writes = s.writes)
      (hl : s'.left = s.left) (h : s'.Live) : s.Live :=
    ⟨hu ▸ h.up, hr ▸ h.reads, hw ▸ h.writes, hl ▸ h.left⟩
  cases h with
  | reads => exact .of_eq rfl (Nat.le_refl _) rfl rfl rfl (live rfl rfl rfl rfl)
  | givesUp hk h hm =>
    refine .of_eq rfl ?_ rfl rfl rfl (live rfl rfl rfl rfl)
    rcases hm with rfl | ⟨_, rfl⟩ <;> simp [Strand.asks, kind]
  | passes =>
    exact .of_eq rfl (by simp [Strand.asks, kind]) rfl rfl rfl (live rfl rfl rfl rfl)
  | ends =>
    refine .of_eq rfl ?_ rfl rfl rfl (live rfl rfl rfl rfl)
    simp only [Strand.asks]
    split <;> simp [kind]
  | forgets hq =>
    refine .of_eq rfl ?_ rfl rfl rfl (live rfl rfl rfl rfl)
    simp only [Strand.asks, hq, count_cons]
    omega
  | asks hq | withdraws hq | relays hq =>
    exact .sends hq rfl rfl (by simp [kind]) rfl rfl rfl (live rfl rfl rfl rfl)
  | enrolls hq hm hm' =>
    exact .sends hq rfl (hm'.trans hm.symm) (by simp [hm]) rfl rfl rfl (live rfl rfl rfl rfl)
  | answers hq hs =>
    have hsome : s.serving.isSome = true := Option.isSome_iff_ne_none.2 hs
    refine ⟨⟨id, ?_, ?_, live rfl rfl rfl rfl, fun _ _ hw => ⟨fun h => (h rfl).elim, hw.recalled⟩⟩,
      Nat.le_refl _, fun hl _ _ => ?_⟩
    · simp [Strand.asks, hq, count_written, kind]
    · by_cases hr : s.reads = true <;> simp [Strand.tokens, count_written, kind, hsome, hr]
      omega
    · have hr : s.reads = true := hl.reads
      simp only [Strand.tokens, count_written, kind, hsome, hr]
      simp
      omega
  | starts hd hu hs =>
    refine .pop rfl (Nat.le_refl _) hd (by simp [kind]) ?_ (fun _ _ => ?_) (fun _ => .inr rfl)
      (live rfl rfl rfl rfl)
    · simp [Strand.tokens, hd, hs, kind]
    · simp [Strand.tokens, hd, hs, kind]
  | declines hd hu =>
    refine .pop rfl ?_ hd (by simp [kind]) ?_ (fun hl _ => ?_) .inl (live rfl rfl rfl rfl)
    · simp [Strand.asks, count_written, kind]
    · by_cases hr : s.reads = true <;> simp [Strand.tokens, hd, count_written, kind, hr]
      omega
    · have hr : s.reads = true := hl.reads
      simp only [Strand.tokens, hd, count_cons, count_written, kind, hr]
      simp
      omega
  | @hearsUpdate m _ _ hd hm =>
    have hk : m.kind = .update := kind_of_transmitted hm
    exact .hears hd (by simp [hk]) (by simp [hk]) rfl rfl rfl rfl (live rfl rfl rfl rfl)
  | @hearsResult m _ _ hd hm =>
    have hk : m.kind = .result := kind_of_transmitted hm
    exact .hears hd (by simp [hk]) (by simp [hk]) rfl rfl rfl rfl (live rfl rfl rfl rfl)
  | enrolled hd hm hp =>
    exact .hears hd (by simp [hm]) (by simp [hm]) rfl rfl rfl rfl (live rfl rfl rfl rfl)
  | stops hd hm hu =>
    refine ⟨⟨id, Nat.le_refl _, ?_, live rfl rfl rfl rfl, fun _ _ hw => ⟨fun h => (h rfl).elim, ?_⟩⟩,
      ?_, fun _ _ hc => ?_⟩
    · simp [Strand.tokens, hd, hm]
    · have hr := hw.recalled
      rw [hd] at hr
      exact hr.2
    · simp [cancels, hd, hm]
    · simp [cancels, hd, hm] at hc
  | @ignores m d hd h =>
    have ht : s.tokens = ({ s with downlink := d } : Strand).tokens +
        if m.kind = .call then 1 else 0 := by
      simp only [Strand.tokens, hd, count_cons]
      omega
    by_cases hu : s.up = true
    · -- a call is ignored only where one is served, and there is but one token
      have hm : m.kind ≠ .cancel ∧ (m.kind = .call → s.serving.isSome = true) := by
        rcases h with h | ⟨h, hs⟩ | ⟨h, _⟩ | ⟨h, _⟩ | h
        · simp [h]
        · exact ⟨by simp [h], fun _ => Option.isSome_iff_ne_none.2 hs⟩
        · simp [h]
        · simp [h]
        · exact absurd hu (by simp [h])
      refine .pop rfl (Nat.le_refl _) hd hm.1 (by omega) (fun _ h1 => ?_) .inl
        (live rfl rfl rfl rfl)
      by_cases hcall : m.kind = .call
      · simp only [Strand.tokens, hd, count_cons, hcall, hm.2 hcall, if_true] at h1
        omega
      · rw [ht, if_neg hcall, Nat.add_zero]
    · exact .of_dead rfl (Nat.le_refl _) (by omega) (by simp [Strand.cancels, hd]) fun h => hu h.up
  | lost =>
    refine .of_dead rfl ?_ ?_ (Nat.le_refl _) fun h => Bool.noConfusion h.up
    · simp [Strand.asks, gone]
    · simp [Strand.tokens, gone]
  | closes hu hd =>
    refine .of_dead rfl ?_ ?_ (count_mono _ hd) fun h => Bool.noConfusion h.reads
    · exact Nat.add_le_add_left (count_mono _ hu) _
    · have := count_mono .call hd
      have := count_mono .result hu
      simp only [Strand.tokens]
      omega

theorem left_move {context : String} {s s' : Strand} {acts : List Act}
    (h : s.Move context acts s') : s'.left = s.left := by
  cases h <;> rfl

theorem Posted.live {ms : List Message} {s s' : Strand} (h : Posted ms s s') (hl : s'.Live) :
    s.Live ∧ s'.downlink = s.downlink ++ ms := by
  obtain ⟨kept, writes, rfl, _, hw, _⟩ := h
  obtain ⟨hs, rfl⟩ := hw hl.writes
  exact ⟨⟨hl.up, hl.reads, hs, hl.left⟩, rfl⟩

theorem Posted.asks {ms : List Message} {s s' : Strand} (h : Posted ms s s') :
    s'.asks = s.asks := by
  obtain ⟨kept, writes, rfl, _⟩ := h
  rfl

theorem Posted.cancels {ms : List Message} {s s' : Strand} (h : Posted ms s s')
    (hm : count .cancel ms = 0) : s'.cancels = s.cancels := by
  obtain ⟨kept, writes, rfl, hk, _⟩ := h
  have := count_mono .cancel hk
  simp only [Strand.cancels, count_append]
  omega

theorem Posted.tokens {ms : List Message} {s s' : Strand} (h : Posted ms s s')
    (hm : count .call ms = 0) : s'.tokens = s.tokens := by
  obtain ⟨kept, writes, rfl, hk, _⟩ := h
  have := count_mono .call hk
  simp only [Strand.tokens, count_append]
  omega

/-- A call that is sent is a token, unless it is not put on its way. -/
theorem Posted.tokens_call {c : Call} {s s' : Strand} (h : Posted [.call c] s s') :
    s'.tokens ≤ s.tokens + 1 ∧ (s'.Live → s'.tokens = s.tokens + 1) := by
  have hlive := h.live
  obtain ⟨kept, writes, rfl, hk, _⟩ := h
  refine ⟨?_, fun hl => ?_⟩
  · have := count_mono .call hk
    simp only [Strand.tokens, count_append]
    simp [kind] at this
    omega
  · have hd : s.downlink ++ kept = s.downlink ++ [.call c] := (hlive hl).2
    simp only [Strand.tokens, hd, count_append]
    simp [kind]
    omega

/-- What is sent makes no token unless it is a call. -/
theorem Posted.fares {ms : List Message} {s s' : Strand} (h : Posted ms s s')
    (hm : count .call ms = 0) : s.Fares s' := by
  refine ⟨fun hl => h.left ▸ hl, Nat.le_of_eq h.asks, Nat.le_of_eq (h.tokens hm),
    fun hl => (h.live hl).1, fun _ _ hw => ?_⟩
  obtain ⟨kept, writes, rfl, hk, _, _⟩ := h
  have hc : count .call kept = 0 := Nat.le_zero.1 (hm ▸ count_mono .call hk)
  refine ⟨fun hs => ?_, hw.recalled.append (recalled_of_count hc)⟩
  rw [Strand.cancels, count_append]
  exact Nat.lt_add_right _ (hw.serving hs)

theorem Posted.keeps {ms : List Message} {s s' : Strand} (h : Posted ms s s')
    (hm : count .call ms = 0) (hc : count .cancel ms = 0) : s.Keeps s' :=
  ⟨h.fares hm, Nat.le_of_eq (h.cancels hc), fun _ _ _ => h.tokens hm⟩

theorem Posted.withdrawn {context : String} {s s' : Strand}
    (h : Posted [.cancel context] s s') (hl : s'.Live) : s'.Withdrawn := by
  have hd := (h.live hl).2
  refine ⟨fun _ => ?_, hd ▸ recalled_cancel ..⟩
  rw [Strand.cancels, hd, count_append]
  simp [kind]

theorem Keeps.trans {s s' s'' : Strand} (h : s.Keeps s') (h' : s'.Keeps s'') : s.Keeps s'' where
  fares := h.fares.trans h'.fares
  cancels := Nat.le_trans h'.cancels h.cancels
  holds hl ht hc := by
    rw [h'.holds hl (Nat.le_trans h.fares.tokens ht) (by have := h.cancels; omega)]
    exact h.holds (h'.fares.live hl) ht hc

theorem Blank.counts {s : Strand} (h : s.Blank) : s.tokens = 0 ∧ s.cancels = 0 ∧ s.asks = 0 := by
  simp [Strand.tokens, Strand.cancels, Strand.asks, h.queue, h.uplink, h.downlink, h.serving]

/-! ### Messages taken from the uplink -/

section Uplink

variable {s : Strand} {m : Message} {us : List Message}

theorem fares_uplink (hu : s.uplink = m :: us) : s.Fares { s with uplink := us } where
  left := id
  asks := by simp only [Strand.asks, hu, count_cons]; omega
  tokens := by simp only [Strand.tokens, hu, count_cons]; omega
  live h := ⟨h.up, h.reads, h.writes, h.left⟩
  withdrawn _ _ h := ⟨h.serving, h.recalled⟩

theorem keeps_uplink (hu : s.uplink = m :: us) (hm : m.kind ≠ .result) :
    s.Keeps { s with uplink := us } where
  fares := fares_uplink hu
  cancels := Nat.le_refl _
  holds _ _ _ := by simp only [Strand.tokens, hu, count_cons, if_neg hm]; omega

theorem released_uplink (hu : s.uplink = m :: us) (hm : m.kind = .result) (ht : s.tokens ≤ 1) :
    Released { s with uplink := us } := by
  intro _
  simp only [Strand.tokens, hu, count_cons, if_pos hm] at ht ⊢
  omega

theorem asks_uplink (hu : s.uplink = m :: us) (hm : m.kind = .call) :
    s.asks = ({ s with uplink := us } : Strand).asks + 1 := by
  simp only [Strand.asks, hu, count_cons, if_pos hm]
  omega

theorem fares_left (s : Strand) : s.Fares { s with left := true } where
  left := nofun
  asks := Nat.le_refl _
  tokens := Nat.le_refl _
  live h := Bool.noConfusion h.left
  withdrawn h := Bool.noConfusion h.left

end Uplink

end Strand

/-! ### Threads -/

namespace Thread

/-- Where the token of a call is. -/
structure Custody (t : Thread) : Prop where
  asks : ∀ a b s u, t.strand a = some s → t.strand b = some u → 0 < s.asks → 0 < u.asks → a = b
  asked : ∀ a s, t.strand a = some s → 0 < s.asks → s.asks = 1 ∧ t.running = none ∧
    ∀ b u, t.strand b = some u → u.tokens = 0 ∧ u.cancels = 0
  token : ∀ a s, t.strand a = some s → s.tokens ≤ 1
  tokens : ∀ a b s u, t.strand a = some s → t.strand b = some u → s.left = false →
    u.left = false → 0 < s.tokens → 0 < u.tokens → a = b
  callee : ∀ r, t.running = some r → ∃ s, t.strand r.callee.value.client = some s ∧
    s.left = false ∧ (s.Live → s.tokens = 1)
  others : ∀ r, t.running = some r → ∀ b u, t.strand b = some u → u.left = false →
    0 < u.tokens → b = r.callee.value.client
  cancelled : ∀ r, t.running = some r → ∀ b u, t.strand b = some u → u.cancels = 0
  freed : ∀ a s, t.strand a = some s → s.Live →
    (∀ r, t.running = some r → r.callee.value.client ≠ a) → s.Withdrawn

/-- Nobody has anything to do with the call any more, or yet. -/
structure Vacant (t : Thread) : Prop where
  running : t.running = none
  asks : ∀ a s, t.strand a = some s → s.asks = 0
  cancels : ∀ a s, t.strand a = some s → s.cancels = 0
  token : ∀ a s, t.strand a = some s → s.tokens ≤ 1
  tokens : ∀ a s, t.strand a = some s → s.left = false → s.tokens = 0

variable {t t' : Thread}

/-- The exchange's entry stays, and so does the token at the callee. -/
theorem Custody.keeps (h : t.Custody) (hr : t'.running = t.running)
    (hs : ∀ a u, t'.strand a = some u → ∃ s, t.strand a = some s ∧ s.Fares u ∧ u.cancels ≤ s.cancels)
    (hc : ∀ r, t.running = some r → ∀ s, t.strand r.callee.value.client = some s →
      s.left = false → ∃ u, t'.strand r.callee.value.client = some u ∧ u.left = false ∧ s.Keeps u) :
    t'.Custody where
  asks a b u v hu hv := by
    obtain ⟨s, hs1, hf, _⟩ := hs a u hu
    obtain ⟨w, hw, hg, _⟩ := hs b v hv
    exact fun h1 h2 => h.asks a b s w hs1 hw (Nat.lt_of_lt_of_le h1 hf.asks)
      (Nat.lt_of_lt_of_le h2 hg.asks)
  asked a u hu h1 := by
    obtain ⟨s, hs1, hf, _⟩ := hs a u hu
    obtain ⟨h2, h3, h4⟩ := h.asked a s hs1 (Nat.lt_of_lt_of_le h1 hf.asks)
    refine ⟨by have := hf.asks; omega, hr.trans h3, fun b v hv => ?_⟩
    obtain ⟨w, hw, hg, hk⟩ := hs b v hv
    obtain ⟨h5, h6⟩ := h4 b w hw
    have := hg.tokens
    omega
  token a u hu := by
    obtain ⟨s, hs1, hf, _⟩ := hs a u hu
    exact Nat.le_trans hf.tokens (h.token a s hs1)
  tokens a b u v hu hv hl hm := by
    obtain ⟨s, hs1, hf, _⟩ := hs a u hu
    obtain ⟨w, hw, hg, _⟩ := hs b v hv
    exact fun h1 h2 => h.tokens a b s w hs1 hw (hf.left hl) (hg.left hm)
      (Nat.lt_of_lt_of_le h1 hf.tokens) (Nat.lt_of_lt_of_le h2 hg.tokens)
  callee r hrun := by
    rw [hr] at hrun
    obtain ⟨s, hs1, hl, ht⟩ := h.callee r hrun
    obtain ⟨u, hu, hul, hk⟩ := hc r hrun s hs1 hl
    refine ⟨u, hu, hul, fun hlive => ?_⟩
    rw [hk.holds hlive (h.token _ s hs1) (h.cancelled r hrun _ s hs1)]
    exact ht (hk.fares.live hlive)
  others r hrun b v hv hl h1 := by
    rw [hr] at hrun
    obtain ⟨w, hw, hg, _⟩ := hs b v hv
    exact h.others r hrun b w hw (hg.left hl) (Nat.lt_of_lt_of_le h1 hg.tokens)
  cancelled r hrun b v hv := by
    rw [hr] at hrun
    obtain ⟨w, hw, _, hk⟩ := hs b v hv
    have := h.cancelled r hrun b w hw
    omega
  freed a u hu hl hne := by
    rw [hr] at hne
    obtain ⟨s, hs1, hf, _⟩ := hs a u hu
    exact hf.withdrawn hl (h.token a s hs1) (h.freed a s hs1 (hf.live hl) hne)

/-- The exchange's entry goes, and with it what it has to do with its callee. -/
theorem Custody.retires (h : t.Custody) {r : Running} (hrun : t.running = some r)
    (hr : t'.running = none)
    (hs : ∀ a u, t'.strand a = some u → ∃ s, t.strand a = some s ∧ s.Fares u)
    (hc : ∀ u, t'.strand r.callee.value.client = some u → u.Live → u.Withdrawn) :
    t'.Custody where
  asks a b u v hu hv := by
    obtain ⟨s, hs1, hf⟩ := hs a u hu
    obtain ⟨w, hw, hg⟩ := hs b v hv
    exact fun h1 h2 => h.asks a b s w hs1 hw (Nat.lt_of_lt_of_le h1 hf.asks)
      (Nat.lt_of_lt_of_le h2 hg.asks)
  asked a u hu h1 := by
    obtain ⟨s, hs1, hf⟩ := hs a u hu
    have hn := (h.asked a s hs1 (Nat.lt_of_lt_of_le h1 hf.asks)).2.1
    rw [hrun] at hn
    cases hn
  token a u hu := by
    obtain ⟨s, hs1, hf⟩ := hs a u hu
    exact Nat.le_trans hf.tokens (h.token a s hs1)
  tokens a b u v hu hv hl hm := by
    obtain ⟨s, hs1, hf⟩ := hs a u hu
    obtain ⟨w, hw, hg⟩ := hs b v hv
    exact fun h1 h2 => h.tokens a b s w hs1 hw (hf.left hl) (hg.left hm)
      (Nat.lt_of_lt_of_le h1 hf.tokens) (Nat.lt_of_lt_of_le h2 hg.tokens)
  callee r' hr' := by rw [hr] at hr'; cases hr'
  others r' hr' := by rw [hr] at hr'; cases hr'
  cancelled r' hr' := by rw [hr] at hr'; cases hr'
  freed a u hu hl _ := by
    by_cases ha : r.callee.value.client = a
    · subst ha
      exact hc u hu hl
    · obtain ⟨s, hs1, hf⟩ := hs a u hu
      refine hf.withdrawn hl (h.token a s hs1) (h.freed a s hs1 (hf.live hl) fun r' hr' => ?_)
      obtain rfl := Option.some.inj (hrun.symm.trans hr')
      exact ha

theorem Vacant.offered (h : t.Vacant) {r : Running} (hr : t'.running = some r) {c : Call}
    {sents : List Sent}
    (hreach : ∀ a, reaching a sents = if r.callee.value.client = a then [.call c] else [])
    (hthere : ∃ s, t.strand r.callee.value.client = some s ∧ s.left = false)
    (hp : Posts sents t t') : t'.Custody := by
  have hpost (a : ClientId) (u : Strand) (hu : t'.strand a = some u) :
      ∃ s, t.strand a = some s ∧
        s.Posted (if r.callee.value.client = a then [.call c] else []) u := by
    obtain ⟨s, hs, hposted⟩ := hp.before a u hu
    exact ⟨s, hs, hreach a ▸ hposted⟩
  have hasks (a : ClientId) (u : Strand) (hu : t'.strand a = some u) : u.asks = 0 := by
    obtain ⟨s, hs, hposted⟩ := hpost a u hu
    rw [hposted.asks, h.asks a s hs]
  have hcancels (a : ClientId) (u : Strand) (hu : t'.strand a = some u) : u.cancels = 0 := by
    obtain ⟨s, hs, hposted⟩ := hpost a u hu
    rw [hposted.cancels (by split <;> simp [kind]), h.cancels a s hs]
  have hout (a : ClientId) (u : Strand) (hu : t'.strand a = some u)
      (ha : r.callee.value.client ≠ a) : ∃ s, t.strand a = some s ∧ s.left = u.left ∧
        u.tokens = s.tokens := by
    obtain ⟨s, hs, hposted⟩ := hpost a u hu
    rw [if_neg ha] at hposted
    exact ⟨s, hs, hposted.left.symm, hposted.tokens rfl⟩
  have hin (u : Strand) (hu : t'.strand r.callee.value.client = some u) :
      ∃ s, t.strand r.callee.value.client = some s ∧ s.left = u.left ∧
        u.tokens ≤ s.tokens + 1 ∧ (u.Live → u.tokens = s.tokens + 1) := by
    obtain ⟨s, hs, hposted⟩ := hpost _ u hu
    rw [if_pos rfl] at hposted
    exact ⟨s, hs, hposted.left.symm, hposted.tokens_call⟩
  obtain ⟨s₀, hs₀, hl₀⟩ := hthere
  exact {
    asks := fun a b u v hu _ h1 => by rw [hasks a u hu] at h1; cases h1
    asked := fun a u hu h1 => by rw [hasks a u hu] at h1; cases h1
    token := fun a u hu => by
      by_cases ha : r.callee.value.client = a
      · subst ha
        obtain ⟨s, hs, _, ht, _⟩ := hin u hu
        obtain rfl := Option.some.inj (hs₀.symm.trans hs)
        have := h.tokens _ _ hs hl₀
        omega
      · obtain ⟨s, hs, _, ht⟩ := hout a u hu ha
        rw [ht]
        exact h.token a s hs
    tokens := fun a b u v hu hv hlu hlv h1 h2 => by
      have hcallee (a : ClientId) (u : Strand) (hu : t'.strand a = some u) (hl : u.left = false)
          (h1 : 0 < u.tokens) : r.callee.value.client = a := by
        refine Decidable.byContradiction fun ha => ?_
        obtain ⟨s, hs, hls, ht⟩ := hout a u hu ha
        have := h.tokens a s hs (hls.trans hl)
        omega
      rw [← hcallee a u hu hlu h1, ← hcallee b v hv hlv h2]
    callee := fun r' hr' => by
      obtain rfl := Option.some.inj (hr.symm.trans hr')
      obtain ⟨u, hu, _⟩ := hp.after _ s₀ hs₀
      obtain ⟨s, hs, hls, _, ht⟩ := hin u hu
      obtain rfl := Option.some.inj (hs₀.symm.trans hs)
      refine ⟨u, hu, hls ▸ hl₀, fun hl => ?_⟩
      rw [ht hl, h.tokens _ _ hs hl₀]
    others := fun r' hr' b v hv hl h1 => by
      obtain rfl := Option.some.inj (hr.symm.trans hr')
      refine Decidable.byContradiction fun hb => ?_
      obtain ⟨s, hs, hls, ht⟩ := hout b v hv (Ne.symm hb)
      have := h.tokens b s hs (hls.trans hl)
      omega
    cancelled := fun _ _ b v hv => hcancels b v hv
    freed := fun a u hu hl hne => by
      obtain ⟨s, hs, hls, ht⟩ := hout a u hu (hne r hr)
      exact Strand.withdrawn_of_tokens (by rw [ht, h.tokens a s hs (hls.trans hl.left)]) }

/-! ### Harmless messages -/

/-- Neither calls nor withdrawals are sent. -/
def Harmless (sents : List Sent) : Prop :=
  ∀ client, count .call (reaching client sents) = 0 ∧ count .cancel (reaching client sents) = 0

theorem harmless_nil : Harmless [] := fun _ => ⟨rfl, rfl⟩

theorem harmless_send (x : Exchange) (client : ClientId) {n : Notice} (h : n.message.kind ≠ .call)
    (h' : n.message.kind ≠ .cancel) : Harmless [x.send client n] := by
  intro other
  rw [reaching_send]
  split
  · simp [h, h']
  · exact ⟨rfl, rfl⟩

theorem harmless_missed {x : Exchange} {missed : List (Entry Route)} (hm : x.Unreachable missed)
    (c : Call) {sents : List Sent} (h : Harmless sents) :
    Harmless (missed.map (x.offering c) ++ sents) := by
  intro other
  rw [reaching_append, reaching_missed hm, List.nil_append]
  exact h other

/-! ### Messages to the exchange -/

section Turns

variable {client : ClientId} {s s₁ : Strand} {sents : List Sent} {r : Running}

/-- The exchange goes on with the call where it is. -/
theorem Custody.continues (h : t.Custody) (hs : t.strand client = some s)
    (hp : Posts sents (t.set client s₁) t') (hm : Harmless sents) (hr : t'.running = t.running)
    (hf : s.Fares s₁ ∧ s₁.cancels ≤ s.cancels)
    (hk : ∀ r, t.running = some r → r.callee.value.client = client →
      s.left = false → s₁.left = false ∧ s.Keeps s₁) : t'.Custody := by
  refine h.keeps hr (fun a u hu => ?_) fun r hrun v hv hl => ?_
  · obtain ⟨v, w, hv, hsw, _, hposted⟩ := hp.of_set hs hu
    obtain ⟨hf', hc'⟩ := hsw.rel (R := fun v w => v.Fares w ∧ w.cancels ≤ v.cancels) hf
      fun v => ⟨.refl v, Nat.le_refl _⟩
    have hk' := hposted.keeps (hm a).1 (hm a).2
    exact ⟨v, hv, hf'.trans hk'.fares, Nat.le_trans hk'.cancels hc'⟩
  · obtain ⟨w, u, hu, hsw, hposted⟩ := hp.to_set hs hv
    have hk' := hposted.keeps (hm _).1 (hm _).2
    have hw : w.left = false ∧ v.Keeps w := by
      rcases hsw with ⟨ha, rfl, rfl⟩ | ⟨_, rfl⟩
      · exact hk r hrun ha hl
      · exact ⟨hl, .refl _⟩
    exact ⟨u, hu, hposted.left.trans hw.1, hw.2.trans hk'⟩

theorem Custody.ends (h : t.Custody) (hs : t.strand client = some s)
    (hp : Posts sents (t.set client s₁) t') (hm : ∀ a, count .call (reaching a sents) = 0)
    (hrun : t.running = some r) (hr : t'.running = none) (hf : s.Fares s₁)
    (hc : ∀ w u, (t.set client s₁).strand r.callee.value.client = some w →
      w.Posted (reaching r.callee.value.client sents) u → u.Live → u.Withdrawn) :
    t'.Custody := by
  refine h.retires hrun hr (fun a u hu => ?_) fun u hu hl => ?_
  · obtain ⟨v, w, hv, hsw, _, hposted⟩ := hp.of_set hs hu
    exact ⟨v, hv, (hsw.rel (R := Strand.Fares) hf .refl).trans (hposted.fares (hm a))⟩
  · obtain ⟨_, w, _, _, hw, hposted⟩ := hp.of_set hs hu
    exact hc w u hw hposted hl

/-- The exchange has done with the call, and so has its callee. -/
theorem Custody.releases (h : t.Custody) (hs : t.strand client = some s)
    (hp : Posts sents (t.set client s₁) t') (hm : Harmless sents) (hrun : t.running = some r)
    (hr : t'.running = none) (hf : s.Fares s₁) (hc : r.callee.value.client = client)
    (hfree : s₁.Released) : t'.Custody := by
  refine h.ends hs hp (fun a => (hm a).1) hrun hr hf fun w u hw hposted hl => ?_
  rw [hc, strand_set] at hw
  obtain rfl := Option.some.inj hw
  have hk := hposted.keeps (hm _).1 (hm _).2
  have h0 := hfree (hk.fares.live hl).left
  exact hk.fares.withdrawn hl (by omega) (Strand.withdrawn_of_tokens h0)

theorem Custody.vacant_of_frees (h : t.Custody) (hs : t.strand r.callee.value.client = some s)
    (hrun : t.running = some r) (hf : s.Fares s₁ ∧ s₁.cancels ≤ s.cancels) (hfree : s₁.Released) :
    Vacant { t.set r.callee.value.client s₁ with running := none } := by
  have back {a : ClientId} {u : Strand} (hu : (t.set r.callee.value.client s₁).strand a = some u) :
      ∃ v, t.strand a = some v ∧ v.Fares u ∧ u.cancels ≤ v.cancels := by
    obtain ⟨v, hv, hsw⟩ := of_strand_set hs hu
    exact ⟨v, hv, hsw.rel (R := fun v w => v.Fares w ∧ w.cancels ≤ v.cancels) hf
      fun v => ⟨.refl v, Nat.le_refl _⟩⟩
  refine ⟨rfl, fun a u hu => ?_, fun a u hu => ?_, fun a u hu => ?_, fun a u hu hl => ?_⟩
  · obtain ⟨v, hv, hg, _⟩ := back hu
    refine Nat.eq_zero_of_not_pos fun h1 => ?_
    have hn := (h.asked a v hv (Nat.lt_of_lt_of_le h1 hg.asks)).2.1
    rw [hrun] at hn
    cases hn
  · obtain ⟨v, hv, _, hc⟩ := back hu
    have := h.cancelled r hrun a v hv
    omega
  · obtain ⟨v, hv, hg, _⟩ := back hu
    exact Nat.le_trans hg.tokens (h.token a v hv)
  · obtain ⟨v, hv, hsw⟩ := of_strand_set hs hu
    rcases hsw with ⟨_, _, rfl⟩ | ⟨ha, rfl⟩
    · exact hfree hl
    · refine Nat.eq_zero_of_not_pos fun h1 => ?_
      exact ha (h.others r hrun a u hv hl h1)

theorem Custody.vacant_of_asked (h : t.Custody) (hs : t.strand client = some s)
    (ha : s.asks = s₁.asks + 1) (hf : s.Fares s₁ ∧ s₁.cancels ≤ s.cancels) :
    Vacant { t.set client s₁ with running := none } := by
  obtain ⟨h1, _, hall⟩ := h.asked client s hs (by omega)
  have zero {a : ClientId} {u : Strand} (hu : (t.set client s₁).strand a = some u) :
      u.tokens = 0 ∧ u.cancels = 0 := by
    obtain ⟨v, hv, hsw⟩ := of_strand_set hs hu
    obtain ⟨hg, hc⟩ := hsw.rel (R := fun v w => v.Fares w ∧ w.cancels ≤ v.cancels) hf
      fun v => ⟨.refl v, Nat.le_refl _⟩
    obtain ⟨h2, h3⟩ := hall a v hv
    have := hg.tokens
    omega
  refine ⟨rfl, fun a u hu => ?_, fun a u hu => (zero hu).2, fun a u hu => ?_,
    fun a u hu _ => (zero hu).1⟩
  · obtain ⟨v, hv, hsw⟩ := of_strand_set hs hu
    rcases hsw with ⟨_, _, rfl⟩ | ⟨hne, rfl⟩
    · omega
    · refine Nat.eq_zero_of_not_pos fun h2 => hne ?_
      exact h.asks a client u s hv hs h2 (by omega)
  · rw [(zero hu).1]
    exact Nat.zero_le _

/-- Whatever the exchange does about the call, custody is kept. -/
theorem Custody.turn {context : String} {x : Exchange} {e : ExchangeEvent} (h : t.Custody)
    (hs : t.strand client = some s) (hp : Posts sents (t.set client s₁) t')
    (hx : Attends x (t.set client s₁))
    (ht : Exchange.Turn context x t.running e t'.running sents)
    (hf : s.Fares s₁ ∧ s₁.cancels ≤ s.cancels)
    (he : (∃ m, e = .received client m) ∨ e = .left client)
    (hcall : ∀ c, e = .received client (.call c) → s.asks = s₁.asks + 1)
    (hfree : (∃ o, e = .received client (.result context o)) ∨ e = .left client → s₁.Released)
    (hkeep : (∀ o, e ≠ .received client (.result context o)) → e ≠ .left client →
      s₁.left = s.left ∧ s.Keeps s₁) : t'.Custody := by
  have there {a : ClientId} (ha : x.Reachable a) :
      ∃ w, (t.set client s₁).strand a = some w ∧ w.left = false := hx.there a ha
  have posts {sents : List Sent} (hp : Posts sents (t.set client s₁) t') :
      Posts sents { t.set client s₁ with running := none } t' := ⟨hp.before, hp.after⟩
  have sender {a : ClientId} {m : Message} (hm : e = .received a m) : a = client := by
    rcases he with ⟨m', h⟩ | h
    · exact (ExchangeEvent.received.inj (hm.symm.trans h)).1
    · cases hm.symm.trans h
  have leaver {a : ClientId} (hl : e = .left a) : a = client := by
    rcases he with ⟨m', h⟩ | h
    · cases hl.symm.trans h
    · exact ExchangeEvent.left.inj (hl.symm.trans h)
  have released {r : Running} (hcause : e.Frees context r) :
      r.callee.value.client = client ∧ s₁.Released := by
    rcases hcause with h1 | ⟨h1, _⟩
    · have hc := sender h1
      exact ⟨hc, hfree (.inl ⟨_, hc ▸ h1⟩)⟩
    · have hc := leaver h1
      exact ⟨hc, hfree (.inr (hc ▸ h1))⟩
  have goesOn (hm : Harmless sents) (hr : t'.running = t.running)
      (hk : ∀ r, t.running = some r → r.callee.value.client = client →
        s₁.left = s.left ∧ s.Keeps s₁) : t'.Custody :=
    h.continues hs hp hm hr hf fun r hrun hc hl =>
      ⟨(hk r hrun hc).1.trans hl, (hk r hrun hc).2⟩
  generalize hr : t.running = r₀ at ht
  generalize hr' : t'.running = r₁ at ht
  cases ht with
  | elsewhere hne =>
    refine goesOn harmless_nil (hr'.trans hr.symm) fun r hrun hc => ?_
    obtain rfl := hr.symm.trans hrun
    exact hkeep (by rintro o rfl; exact hne ⟨rfl, r, rfl, hc⟩)
      (by rintro rfl; exact hne ⟨r, rfl, .inr hc⟩)
  | registered a f pr id =>
    exact goesOn (harmless_send _ _ nofun nofun) (hr'.trans hr.symm) fun _ _ _ =>
      hkeep nofun nofun
  | refused r a c hc =>
    obtain rfl := sender rfl
    have ha := hcall c rfl
    have hn := (h.asked a s hs (by omega)).2.1
    rw [hr] at hn
    cases hn
  | unknown a c hc =>
    exact goesOn (harmless_send _ _ nofun nofun) (hr'.trans hr.symm) fun _ hrun =>
      nomatch hr.symm.trans hrun
  | untaken a c hc missed hd hm =>
    exact goesOn (harmless_missed hm c (harmless_send _ _ nofun nofun)) (hr'.trans hr.symm)
      fun _ hrun => nomatch hr.symm.trans hrun
  | accepted a c hc missed rest f hd hm hreach =>
    obtain rfl := sender rfl
    have hv := h.vacant_of_asked hs (hcall c rfl) hf
    exact hv.offered hr' (reaching_offered hm hreach c) (there hreach) (posts hp)
  | relayed r v =>
    exact goesOn (harmless_send _ _ nofun nofun) (hr'.trans hr.symm) fun _ _ _ =>
      hkeep nofun nofun
  | answered r o ho =>
    have hc := sender rfl
    have hreleased := hfree (.inl ⟨o, hc ▸ rfl⟩)
    exact h.releases hs hp (harmless_send _ _ nofun nofun) hr hr' hf.1 hc hreleased
  | rerouted r _ hcause missed rest f hd hm hreach =>
    obtain ⟨rfl, hreleased⟩ := released hcause
    have hv := h.vacant_of_frees hs hr hf hreleased
    exact hv.offered hr' (reaching_offered hm hreach r.call) (there hreach) (posts hp)
  | exhausted r _ hcause missed hd hm =>
    obtain ⟨hc, hreleased⟩ := released hcause
    exact h.releases hs hp (harmless_missed hm r.call (harmless_send _ _ nofun nofun)) hr hr'
      hf.1 hc hreleased
  | withdrawn r _ hcause =>
    refine h.ends hs hp (fun a => ?_) hr hr' hf.1 fun w u hw hposted hl => ?_
    · rw [reaching_send]
      split <;> simp [Notice.message, kind]
    · have hlive := (hposted.live hl).1
      have hreach := hx.live _ w hw hlive.left hlive.writes hlive.up
      rw [reaching_send, if_pos ⟨hreach, rfl⟩] at hposted
      exact hposted.withdrawn hl

end Turns

/-! ### Steps -/

theorem Custody.joins (h : t.Custody) {client : ClientId} (hnone : t.strand client = none) :
    (t.set client {}).Custody where
  asks a b u v hu hv h1 h2 := by
    rcases strand_of_join hu with hu | rfl
    · rcases strand_of_join hv with hv | rfl
      · exact h.asks a b u v hu hv h1 h2
      · cases h2
    · cases h1
  asked a u hu h1 := by
    rcases strand_of_join hu with hu | rfl
    · obtain ⟨h2, h3, h4⟩ := h.asked a u hu h1
      refine ⟨h2, h3, fun b v hv => ?_⟩
      rcases strand_of_join hv with hv | rfl
      · exact h4 b v hv
      · exact ⟨rfl, rfl⟩
    · cases h1
  token a u hu := by
    rcases strand_of_join hu with hu | rfl
    · exact h.token a u hu
    · exact Nat.zero_le _
  tokens a b u v hu hv hl hl' h1 h2 := by
    rcases strand_of_join hu with hu | rfl
    · rcases strand_of_join hv with hv | rfl
      · exact h.tokens a b u v hu hv hl hl' h1 h2
      · cases h2
    · cases h1
  callee r hr := by
    obtain ⟨s, hs, hl, ht⟩ := h.callee r hr
    refine ⟨s, ?_, hl, ht⟩
    rwa [strand_set_ne t {} (fun hc => by rw [hc, hnone] at hs; cases hs)]
  others r hr b v hv hl h1 := by
    rcases strand_of_join hv with hv | rfl
    · exact h.others r hr b v hv hl h1
    · cases h1
  cancelled r hr b v hv := by
    rcases strand_of_join hv with hv | rfl
    · exact h.cancelled r hr b v hv
    · rfl
  freed a u hu hl hne := by
    rcases strand_of_join hu with hu | rfl
    · exact h.freed a u hu hl hne
    · exact Strand.withdrawn_of_tokens rfl

theorem Custody.step {context : String} {ds : List Deed} (h : t.Custody)
    (hstep : Step context t ds t') : t'.Custody := by
  cases hstep with
  | @moves client s s' acts hs hm =>
    have hk := Strand.keeps_move hm
    refine h.keeps rfl (fun a u hu => ?_) fun r _ v hv hl => ?_
    · obtain ⟨v, hv, hsw⟩ := of_strand_set hs hu
      have hvu := hsw.rel hk .refl
      exact ⟨v, hv, hvu.fares, hvu.cancels⟩
    · obtain ⟨u, hu, hsw⟩ := to_strand_set hs hv
      refine ⟨u, hu, ?_, hsw.rel hk .refl⟩
      rcases hsw with ⟨_, rfl, rfl⟩ | ⟨_, rfl⟩
      · rw [← hl]
        exact Strand.left_move hm
      · exact hl
  | joins hnone => exact h.joins hnone
  | passesBy hr hp =>
    refine h.keeps hr (fun a u hu => ?_) fun r _ v hv hl => ?_
    · obtain ⟨v, hv, hposted⟩ := hp.before a u hu
      have hk := hposted.keeps rfl rfl
      exact ⟨v, hv, hk.fares, hk.cancels⟩
    · obtain ⟨u, hu, hposted⟩ := hp.after _ v hv
      exact ⟨u, hu, hposted.left.trans hl, hposted.keeps rfl rfl⟩
  | @routes _ client s m m' us x sents hs hu hm hc ht hx hp =>
    have hkind := kind_of_transmitted hm
    refine h.turn hs hp hx ht ⟨Strand.fares_uplink hu, Nat.le_refl _⟩ (.inl ⟨m', rfl⟩) ?_ ?_ ?_
    · rintro c ⟨⟩
      exact Strand.asks_uplink hu hkind
    · rintro (⟨o, ⟨⟩⟩ | hl)
      · exact Strand.released_uplink hu hkind (h.token client s hs)
      · cases hl
    · intro hne _
      refine ⟨rfl, Strand.keeps_uplink hu fun hk => ?_⟩
      rw [hkind] at hk
      cases m' with
      | result d o =>
        obtain rfl : d = context := hc
        exact hne o rfl
      | _ => cases hk
  | leaves hs _ _ _ _ ht hx hp =>
    exact h.turn hs hp hx ht ⟨Strand.fares_left _, Nat.le_refl _⟩ (.inr rfl) nofun
      (fun _ => nofun) (fun _ hne => (hne rfl).elim)

/-- Where at most one client has asked for the call, and nothing else has come of it. -/
theorem custody_of_asked (hr : t.running = none) (client : ClientId)
    (h : ∀ a s, t.strand a = some s → s.tokens = 0 ∧ s.cancels = 0 ∧ s.asks ≤ 1 ∧
      (0 < s.asks → a = client)) : t.Custody := by
  have none_running {r : Running} {P : Prop} (hrun : t.running = some r) : P := by
    rw [hr] at hrun
    cases hrun
  refine ⟨fun a b s u hs hu h1 h2 => ?_, fun a s hs h1 => ?_, fun a s hs => ?_,
    fun a b s u hs hu _ _ h1 h2 => ?_, fun r => none_running, fun r => none_running,
    fun r => none_running, fun a s hs _ _ => Strand.withdrawn_of_tokens (h a s hs).1⟩
  · rw [(h a s hs).2.2.2 h1, (h b u hu).2.2.2 h2]
  · have := (h a s hs).2.2.1
    exact ⟨by omega, hr, fun b u hu => ⟨(h b u hu).1, (h b u hu).2.1⟩⟩
  · rw [(h a s hs).1]
    exact Nat.zero_le _
  · rw [(h a s hs).1] at h1
    cases h1

theorem custody_of_blank (h : t.Blank) : t.Custody := by
  refine custody_of_asked h.running 0 fun a s hs => ?_
  obtain ⟨h1, h2, h3⟩ := (h.strand a s hs).counts
  omega

theorem custody_of_opens (h : t.Blank) (ho : t.Opens t') : t'.Custody := by
  obtain ⟨client, s, s', hs, hos, rfl⟩ := ho
  have hb := h.strand client s hs
  have hs' : s'.tokens = 0 ∧ s'.cancels = 0 ∧ s'.asks ≤ 1 := by
    obtain ⟨h1, h2, h3⟩ := hb.counts
    cases hos with
    | issues =>
      simp only [Strand.asks, count_append] at h3 ⊢
      exact ⟨h1, h2, by simp [kind]; omega⟩
    | requests hu hm =>
      simp only [Strand.asks, count_append] at h3 ⊢
      exact ⟨h1, h2, by simp [hm]; omega⟩
  refine custody_of_asked h.running client fun a u hu => ?_
  obtain ⟨v, hv, hsw⟩ := of_strand_set hs hu
  rcases hsw with ⟨rfl, _, rfl⟩ | ⟨_, rfl⟩
  · exact ⟨hs'.1, hs'.2.1, hs'.2.2, fun _ => rfl⟩
  · obtain ⟨h1, h2, h3⟩ := (h.strand a u hv).counts
    exact ⟨h1, h2, by omega, fun h4 => by omega⟩

end Thread

/-! ### Networks -/

variable {η : Type}

/-- The session goes on, on both sides. -/
structure Port.Live (p : Port η) : Prop where
  up : p.station.link.up = true
  reads : p.reads = true
  writes : p.writes = true
  left : p.left = false

/-- Calls on the way to the station, being served there, or on the way back as results. -/
def Port.tokens (context : String) (p : Port η) : Nat :=
  count .call (within context p.downlink) +
    (if p.station.link.running.contains context then 1 else 0) +
    count .result (within context p.uplink)

namespace Network

/-- The tokens of a call at all clients that have not left. -/
def tokens (context : String) (net : Network η) : Nat :=
  (net.ports.values.map fun p => if p.left then 0 else p.tokens context).sum

/-- The exchange and the callees agree on who serves a call. -/
structure Custody (context : String) (net : Network η) : Prop where
  /-- There is at most one token. -/
  tokens_le : net.tokens context ≤ 1
  /-- If the exchange has the call running, its callee is there, and the token is at the callee as
  long as its session goes on. -/
  callee : ∀ r, net.exchange.running.get? context = some r →
    ∃ p, net.ports.get? r.callee.value.client = some p ∧ p.left = false ∧
      (p.Live → p.tokens context = 1 ∧ net.tokens context = 1)
  /-- If the exchange has the call running, the token is nowhere but at the callee. -/
  others : ∀ r, net.exchange.running.get? context = some r →
    ∀ client p, net.ports.get? client = some p → p.left = false → 0 < p.tokens context →
      client = r.callee.value.client
  /-- A station serves a call for the exchange, or the call is withdrawn by a message on its way. -/
  serving : ∀ client p, net.ports.get? client = some p → p.Live →
    p.station.link.running.contains context = true →
      (∃ r, net.exchange.running.get? context = some r ∧ r.callee.value.client = client) ∨
        .cancel context ∈ p.downlink
  /-- So one handler serves the call at a time, -/
  unique : ∀ a b p q i j, net.ports.get? a = some p → net.ports.get? b = some q →
    p.left = false → q.left = false → p.station.link.running.get? context = some i →
      q.station.link.running.get? context = some j → a = b ∧ i = j
  /-- none serves it that the exchange has done with, once the withdrawal has been heard, -/
  drained : ∀ client p, net.ports.get? client = some p → p.Live →
    net.exchange.running.get? context = none → within context p.downlink = [] →
      p.station.link.running.get? context = none
  /-- and no station gets a call that it is serving. -/
  single : ∀ client p c, net.ports.get? client = some p → .call c ∈ p.downlink →
    c.context = context → p.station.link.running.contains context = false

/-- A sum of which one summand at most is positive, and that one is not greater than one. -/
theorem sum_le_one {α : Type} {f : α → Nat} {l : List α} (hn : l.Nodup) (h : ∀ a ∈ l, f a ≤ 1)
    (hu : ∀ a ∈ l, ∀ b ∈ l, 0 < f a → 0 < f b → a = b) : (l.map f).sum ≤ 1 := by
  induction l with
  | nil => exact Nat.zero_le _
  | cons a l ih =>
    obtain ⟨ha, hn⟩ := List.nodup_cons.1 hn
    rw [List.map_cons, List.sum_cons]
    by_cases h0 : f a = 0
    · rw [h0, Nat.zero_add]
      exact ih hn (fun b hb => h b (List.mem_cons_of_mem a hb)) fun b hb c hc =>
        hu b (List.mem_cons_of_mem a hb) c (List.mem_cons_of_mem a hc)
    · have hzero : (l.map f).sum = 0 := by
        apply List.sum_eq_zero
        intro n hn
        obtain ⟨b, hb, rfl⟩ := List.mem_map.1 hn
        refine Nat.eq_zero_of_not_pos fun hb' => ha ?_
        rw [hu a List.mem_cons_self b (List.mem_cons_of_mem a hb) (Nat.pos_of_ne_zero h0) hb']
        exact hb
      rw [hzero]
      exact h a List.mem_cons_self

section Custody

variable {net : Network η} {context : String} {client : ClientId} {p : Port η}

theorem tokens_eq (context : String) (net : Network η) : net.tokens context =
    (net.ports.entries.map fun e => if e.2.left then 0 else e.2.tokens context).sum := by
  rw [tokens, Keyed.values, List.map_map]
  rfl

theorem tokens_le_one (h : (net.thread context).Custody) : net.tokens context ≤ 1 := by
  -- what is counted of a port is what its client has while it has not left
  have counted {p : Port η} (h1 : 0 < if p.left then 0 else p.tokens context) :
      p.left = false ∧ 0 < p.tokens context := by
    split at h1
    · cases h1
    · next hl => exact ⟨Bool.eq_false_iff.2 hl, h1⟩
  rw [tokens_eq]
  refine sum_le_one ?_ ?_ ?_
  · exact List.Pairwise.of_map _ (fun a b hab he => hab (by rw [he])) net.ports.nodup
  · rintro ⟨client, p⟩ he
    dsimp only
    split
    · exact Nat.zero_le _
    · exact h.token client _ (strand_thread (Keyed.get?_eq_some_iff.2 he))
  · rintro ⟨a, p⟩ ha ⟨b, q⟩ hb h1 h2
    obtain ⟨hl, h1⟩ := counted h1
    obtain ⟨hl', h2⟩ := counted h2
    have hp := Keyed.get?_eq_some_iff.2 ha
    have hq := Keyed.get?_eq_some_iff.2 hb
    obtain rfl := h.tokens a b _ _ (strand_thread hp) (strand_thread hq) hl hl' h1 h2
    obtain rfl := Option.some.inj (hp.symm.trans hq)
    rfl

/-- What a station serves is served for the exchange, or withdrawn by a message on its way. -/
theorem withdrawn_of_serving (h : (net.thread context).Custody)
    (hp : net.ports.get? client = some p) (hl : p.Live)
    (hs : p.station.link.running.contains context = true) :
    (∃ r, net.exchange.running.get? context = some r ∧ r.callee.value.client = client) ∨
      .cancel context ∈ p.downlink := by
  by_cases hr : ∃ r, net.exchange.running.get? context = some r ∧ r.callee.value.client = client
  · exact .inl hr
  · have hw := h.freed client _ (strand_thread hp) ⟨hl.up, hl.reads, hl.writes, hl.left⟩
      fun r hr1 hr2 => hr ⟨r, hr1, hr2⟩
    have hc := hw.serving (Option.isSome_iff_ne_none.1 hs)
    obtain ⟨m, hwithin, hk⟩ := List.countP_pos_iff.1 hc
    obtain ⟨hm, hmc⟩ := List.mem_filter.1 hwithin
    cases m with
    | cancel d =>
      obtain rfl : d = context := of_decide_eq_true hmc
      exact .inr hm
    | _ => cases of_decide_eq_true hk

/-- What is known of the token of a thread, said of the ports. -/
theorem custody_of_thread (h : (net.thread context).Custody) : net.Custody context := by
  have counted {p : Port η} {i : JobId} (hi : p.station.link.running.get? context = some i) :
      0 < p.tokens context := by
    have hc : p.station.link.running.contains context = true := by rw [Keyed.contains, hi]; rfl
    rw [Port.tokens, hc, if_pos rfl]
    omega
  have hle := tokens_le_one h
  exact {
    tokens_le := hle
    callee := fun r hr => by
      obtain ⟨s, hs, hl, ht⟩ := h.callee r hr
      obtain ⟨p, hp, rfl⟩ := Option.map_eq_some_iff.1 hs
      refine ⟨p, hp, hl, fun hlive => ?_⟩
      have h1 : p.tokens context = 1 := ht ⟨hlive.up, hlive.reads, hlive.writes, hlive.left⟩
      refine ⟨h1, Nat.le_antisymm hle ?_⟩
      have hmem := List.le_sum_of_mem (List.mem_map_of_mem
        (f := fun e => if e.2.left then 0 else Port.tokens context e.2) (Keyed.get?_eq_some_iff.1 hp))
      rw [tokens_eq]
      dsimp only at hmem
      rw [hlive.left, if_neg Bool.false_ne_true] at hmem
      omega
    others := fun r hr client p hp => h.others r hr client _ (strand_thread hp)
    serving := fun client p hp => withdrawn_of_serving h hp
    unique := fun a b p q i j hp hq hl hl' hi hj => by
      obtain rfl := h.tokens a b _ _ (strand_thread hp) (strand_thread hq) hl hl' (counted hi)
        (counted hj)
      obtain rfl := Option.some.inj (hp.symm.trans hq)
      exact ⟨rfl, Option.some.inj (hi.symm.trans hj)⟩
    drained := fun client p hp hl hr hd => by
      refine Option.not_isSome_iff_eq_none.1 fun hs => ?_
      rcases withdrawn_of_serving h hp hl hs with ⟨r, hr', _⟩ | hm
      · rw [hr] at hr'
        cases hr'
      · have hm' : Message.cancel context ∈ within context p.downlink :=
          List.mem_filter.2 ⟨hm, decide_eq_true rfl⟩
        rw [hd] at hm'
        cases hm'
    single := fun client p c hp hc hcc => by
      refine Bool.eq_false_iff.2 fun hs => ?_
      have h1 : p.tokens context ≤ 1 := h.token client _ (strand_thread hp)
      have h2 : 0 < count .call (within context p.downlink) :=
        List.countP_pos_iff.2 ⟨_, List.mem_filter.2 ⟨hc, decide_eq_true hcc⟩, rfl⟩
      rw [Port.tokens, hs, if_pos rfl] at h1
      omega }

end Custody

/-- In every network that can come about, as long as its contexts differ, the exchange and the
callees agree on who serves a call. -/
theorem custody_of_reachable [DecidableEq η] {net : Network η} (h : Reachable net)
    (hd : (ContextId.series net.serial).Nodup) (context : String) : net.Custody context := by
  obtain ⟨es, rfl⟩ := h.exists_run
  refine custody_of_thread ?_
  exact thread_induction (P := fun _ t => t.Custody)
    (fun t t' hb ho => Thread.custody_of_opens hb ho) (fun _ t _ t' h hs => h.step hs)
    (fun t hb => Thread.custody_of_blank hb) es hd

/-- The exchange has the call of the first participant at the second one, whose first job it is, and
there is the only token. -/
theorem custody_served :
    let net := ({} : Network Unit).run serving
    let context := ContextId.ofNat 1
    (∃ r, net.exchange.running.get? context = some r ∧ r.caller = 1 ∧ r.callee.value = ⟨2, 1⟩) ∧
    (∃ q, net.ports.get? 2 = some q ∧ q.station.link.running.get? context = some 0 ∧
      q.tokens context = 1) ∧
    net.tokens context = 1 ∧
    ∀ client p, client ≠ 2 → net.ports.get? client = some p → p.left = false →
      p.tokens context = 0 := by
  intro net context
  have hcustody : net.Custody context := custody_of_reachable (reachable_run _ .start)
    (ContextId.series_nodup (Nat.le_trans (serial_run_le ..) (by decide))) _
  obtain ⟨_, p, q, hleads, hserves⟩ := leads_serving
  obtain rfl : net = _ := hleads.run
  have hlive : q.Live :=
    ⟨hserves.calleeIdle.up, hserves.calleeIdle.reads, hserves.calleeIdle.writes, hserves.calleeThere⟩
  obtain ⟨q', hq', -, htokens⟩ := hcustody.callee _ hserves.running
  obtain rfl := Option.some.inj (hserves.callee.symm.trans hq')
  obtain ⟨hone, hall⟩ := htokens hlive
  refine ⟨⟨_, hserves.running, rfl, rfl⟩, ⟨q, hserves.callee, hserves.serves, hone⟩, hall, ?_⟩
  intro client p hclient hp hl
  exact Nat.eq_zero_of_not_pos fun h => hclient (hcustody.others _ hserves.running client p hp hl h)

end Network
end Switchboard
