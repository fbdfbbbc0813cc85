import Switchboard.Proofs.Network.Custody

/-! # Strands in order

Facts about one strand at a time that hold however the network has come about: what has become of a
link that is lost and of a client that has left, and who serves what is being served. -/

namespace Switchboard

open Message

namespace Strand

/-- A strand is in order. -/
structure Orderly (s : Strand) : Prop where
  /-- A link that is lost serves nothing, -/
  serving : s.up = false → s.serving = none
  /-- and nothing is left for it to obey. -/
  queue : s.up = false → s.queue = []
  /-- Nothing is written to a client that has left. -/
  left : s.left = true → s.writes = false
  /-- What is served is served by a handler that has not ended the call, or the end is in the
  queue. -/
  served : ∀ job, s.serving = some job → s.handlers job = some false ∨ 0 < count .result s.queue

/-- A strand with something in its queue has a link. -/
theorem Orderly.up {s : Strand} (h : s.Orderly) {m : Message} {q : List Message}
    (hq : s.queue = m :: q) : s.up = true := by
  cases hu : s.up with
  | true => rfl
  | false => rw [h.queue hu] at hq; cases hq

theorem orderly_move {context : String} {s s' : Strand} {acts : List Act}
    (h : s.Move context acts s') (hs : s.Orderly) : s'.Orderly := by
  obtain ⟨hl, hq₀, hleft, hv⟩ := hs
  -- an end that is in the queue stays there when something else is taken or added
  have stays {n : Nat} {q : List Message} (hq : count .result s.queue + n = count .result q)
      (job : JobId) (hj : s.serving = some job) : s.handlers job = some false ∨ 0 < count .result q := by
    rcases hv job hj with h | h
    · exact .inl h
    · exact .inr (by omega)
  cases h with
  | @givesUp k k' ms _ _ hm =>
    rcases hm with rfl | ⟨hu, rfl⟩
    · exact ⟨hl, by simpa using hq₀, hleft, by simpa using hv⟩
    · exact ⟨hl, fun hu' => Bool.noConfusion (hu.symm.trans hu'), hleft, by simpa [kind] using hv⟩
  | passes _ hu =>
    exact ⟨hl, fun hu' => Bool.noConfusion (hu.symm.trans hu'), hleft, by simpa [kind] using hv⟩
  | @ends job o hj =>
    refine ⟨hl, fun hu => ?_, hleft, fun i hi => ?_⟩
    · have hu' : s.up = false := hu
      simp [hu', hq₀ hu']
    · have hi' : s.serving = some i := hi
      have hu : s.up = true := Bool.of_not_eq_false fun hu => by rw [hl hu] at hi'; cases hi'
      exact .inr (by simp [hu, kind])
  | @forgets m q hq hm =>
    have hu := Orderly.up ⟨hl, hq₀, hleft, hv⟩ hq
    refine ⟨hl, fun hu' => Bool.noConfusion (hu.symm.trans hu'), hleft, fun job hj => ?_⟩
    have hj' : s.serving = some job := hj
    have hk : m.kind ≠ .result := fun hk => by simp [hk, hj'] at hm
    exact stays (n := 0) (by rw [hq, count_cons, if_neg hk]; rfl) job hj
  | asks hq | relays hq | withdraws hq =>
    have hu := Orderly.up ⟨hl, hq₀, hleft, hv⟩ hq
    refine ⟨hl, fun hu' => Bool.noConfusion (hu.symm.trans hu'), hleft, fun job hj => ?_⟩
    exact stays (n := 0) (by rw [hq, count_cons]; rfl) job hj
  | enrolls hq hm =>
    have hu := Orderly.up ⟨hl, hq₀, hleft, hv⟩ hq
    refine ⟨hl, fun hu' => Bool.noConfusion (hu.symm.trans hu'), hleft, fun job hj => ?_⟩
    exact stays (n := 0) (by rw [hq, count_cons, hm]; rfl) job hj
  | answers hq =>
    have hu := Orderly.up ⟨hl, hq₀, hleft, hv⟩ hq
    exact ⟨fun _ => rfl, fun hu' => Bool.noConfusion (hu.symm.trans hu'), hleft, by simp⟩
  | starts _ hu =>
    refine ⟨fun h => Bool.noConfusion (hu.symm.trans h),
      fun h => Bool.noConfusion (hu.symm.trans h), hleft, fun i hi => .inl ?_⟩
    obtain rfl := Option.some.inj hi
    exact if_pos rfl
  | stops => exact ⟨fun _ => rfl, hq₀, hleft, by simp⟩
  | lost => exact ⟨fun _ => rfl, fun _ => rfl, hleft, by rintro _ ⟨⟩⟩
  | closes => exact ⟨hl, hq₀, fun _ => rfl, hv⟩
  | _ => exact ⟨hl, hq₀, hleft, hv⟩

theorem Blank.orderly {s : Strand} (h : s.Blank) : s.Orderly :=
  ⟨fun _ => h.serving, fun _ => h.queue, h.left, fun job hj => by rw [h.serving] at hj; cases hj⟩

theorem Posted.orderly {ms : List Message} {s s' : Strand} (h : Posted ms s s') (hs : s.Orderly) :
    s'.Orderly := by
  obtain ⟨kept, writes, rfl, _, hw, _⟩ := h
  refine ⟨hs.serving, hs.queue, fun hl => ?_, hs.served⟩
  cases hb : writes with
  | false => rfl
  | true => exact Bool.noConfusion ((hw hb).1.symm.trans (hs.left hl))

end Strand

namespace Thread

/-- All strands are in order. -/
def Orderly (t : Thread) : Prop := ∀ a s, t.strand a = some s → s.Orderly

variable {t t' : Thread}

theorem Orderly.step {context : String} {ds : List Deed} (h : t.Orderly)
    (hstep : Step context t ds t') : t'.Orderly := by
  cases hstep with
  | moves hs hm =>
    intro b u hu
    obtain ⟨v, hv, hsw⟩ := of_strand_set hs hu
    exact hsw.rel (R := fun v w => v.Orderly → w.Orderly) (Strand.orderly_move hm) (fun _ => id)
      (h b v hv)
  | joins hnone =>
    intro b u hu
    rcases strand_of_join hu with hu | rfl
    · exact h b u hu
    · exact ⟨by simp, by simp, by simp, by simp⟩
  | passesBy hr hp =>
    intro b u hu
    obtain ⟨v, hv, hposted⟩ := hp.before b u hu
    exact hposted.orderly (h b v hv)
  | routes hs _ _ _ _ _ hp =>
    intro b u hu
    obtain ⟨v, w, hv, hsw, _, hposted⟩ := hp.of_set hs hu
    exact hposted.orderly (hsw.rel (R := fun v w => v.Orderly → w.Orderly)
      (fun hv => ⟨hv.serving, hv.queue, hv.left, hv.served⟩) (fun _ => id) (h b v hv))
  | leaves hs _ _ hw _ _ _ hp =>
    intro b u hu
    obtain ⟨v, w, hv, hsw, _, hposted⟩ := hp.of_set hs hu
    refine hposted.orderly ?_
    rcases hsw with ⟨_, rfl, rfl⟩ | ⟨_, rfl⟩
    · have ho := h b _ hv
      exact ⟨ho.serving, ho.queue, fun _ => hw, ho.served⟩
    · exact h b _ hv

theorem orderly_of_blank (h : t.Blank) : t.Orderly := fun a s hs =>
  (h.strand a s hs).orderly

theorem orderly_of_opens (h : t.Blank) (ho : t.Opens t') : t'.Orderly := by
  obtain ⟨client, s, s', hs, hos, rfl⟩ := ho
  intro b u hu
  obtain ⟨v, hv, hsw⟩ := of_strand_set hs hu
  have hb := h.strand b v hv
  rcases hsw with ⟨_, rfl, rfl⟩ | ⟨_, rfl⟩
  · have hserving (job : JobId) : v.serving ≠ some job := by rw [hb.serving]; nofun
    cases hos with
    | issues hup | requests hup =>
      exact ⟨fun _ => hb.serving, fun hu' => Bool.noConfusion (hup.symm.trans hu'), hb.left,
        fun job hj => (hserving job hj).elim⟩
  · exact hb.orderly

end Thread
end Switchboard
