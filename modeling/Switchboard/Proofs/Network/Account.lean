import Switchboard.Proofs.Network.Leg

/-! # Accounts of a call

What can be told of a call in the end: the handlers that it was offered to, what each of them has
given to its caller, and how it has ended.

* **Stream.** The legs of a call and its end make a stream of events (`stream`).
* **Account.** Legs and an end are an account of what has been told if they fit it (`Account`).
* **Cuts.** The account of a part of the stream (`Account.cut`). -/

namespace Switchboard

namespace Leg

/-- The client and the handler that the call was offered to. -/
def offer (l : Leg) : ClientId × Option HandlerId := (l.client, l.handler)

/-- The client and the job, if a handler was started. -/
def work (l : Leg) : Option (ClientId × JobId) := l.job.map (l.client, ·)

/-- The handler of a leg has been started, and what the leg has got is the first that it has
passed.  If none has been started, the leg has got nothing. -/
def Fits (ds : List Deed) (l : Leg) : Prop :=
  match l.job with
  | some job => (l.client, .started job l.handler) ∈ ds ∧ l.got <+: Deeds.passed l.client job ds
  | none => l.got = []

end Leg

/-- What the exchange passes on to the caller. -/
def stream (legs : List Leg) (verdict : Option Outcome) : List CallEvent :=
  events (legs.flatMap (·.got)) verdict.toList

/-- How a call has ended: declined by all, unknown before it was offered to anybody, or as the last
handler has ended it, of which everything has been passed on. -/
def Ends (ds : List Deed) (legs : List Leg) (o : Outcome) : Prop :=
  o = .declined ∨ (legs = [] ∧ ∃ f, o = .fault ⟨.unknownRpc, .obj [("function", .str f)]⟩) ∨
    ∃ before l job, legs = before ++ [l] ∧ l.job = some job ∧
      Deeds.ended l.client job ds = [o] ∧ l.got = Deeds.passed l.client job ds

/-- Legs and an end fit what has been told of a call. -/
structure Account (ds : List Deed) (legs : List Leg) (verdict : Option Outcome) : Prop where
  /-- The legs are the offers of the call, in order, -/
  offered : Deeds.offered ds = legs.map (·.offer)
  /-- each has got the first of what its handler has passed, -/
  fits : ∀ l ∈ legs, l.Fits ds
  /-- no handler works for two of them, -/
  works : (legs.filterMap (·.work)).Nodup
  /-- and the end is that of the last one, unless all have declined the call. -/
  ends : ∀ o, verdict = some o → Ends ds legs o

theorem plain_unknown (f : String) : (Json.obj [("function", .str f)]).Plain where
  floatFree := ⟨trivial, trivial⟩
  canonical := by simp [Json.canonical, Json.canonicalMembers, Json.insertMember]

theorem stream_snoc (legs : List Leg) (l : Leg) :
    stream (legs ++ [l]) none = stream legs none ++ l.passed := by
  simp [stream, events, Leg.passed]

theorem stream_some (legs : List Leg) (o : Outcome) :
    stream legs (some o) = stream legs none ++ [.finished o] := by
  simp [stream, events]

section Account

variable {ds ds' : List Deed} {legs : List Leg} {verdict : Option Outcome} {l : Leg}

theorem Leg.Fits.grow (h : l.Fits ds) (ds' : List Deed) : l.Fits (ds ++ ds') := by
  unfold Leg.Fits at h ⊢
  split
  · next job hj =>
    rw [hj] at h
    rw [Deeds.passed_append]
    exact ⟨List.mem_append_left _ h.1, h.2.trans (List.prefix_append ..)⟩
  · next hj =>
    rw [hj] at h
    exact h

/-- The events of an account are plain where handlers give what is plain. -/
theorem Account.plain (h : Account ds legs verdict) (hd : ∀ d ∈ ds, d.2.Plain) :
    ∀ e ∈ stream legs verdict, e.Plain := by
  intro e he
  rcases List.mem_append.1 he with he | he
  · obtain ⟨v, hv, rfl⟩ := List.mem_map.1 he
    obtain ⟨l, hl, hgot⟩ := List.mem_flatMap.1 hv
    have hfits := h.fits l hl
    unfold Leg.Fits at hfits
    split at hfits
    · next job _ =>
      refine Deeds.given_plain hd l.client job _ (List.mem_append_left _ ?_)
      exact List.mem_map_of_mem (hfits.2.subset hgot)
    · rw [hfits] at hgot
      cases hgot
  · obtain ⟨o, ho, rfl⟩ := List.mem_map.1 he
    rcases h.ends o (Option.mem_toList.1 ho) with rfl | ⟨_, f, rfl⟩ | ⟨before, l, job, _, _, ho, _⟩
    · trivial
    · exact plain_unknown f
    · refine Deeds.given_plain hd l.client job _ (List.mem_append_right _ ?_)
      rw [ho]
      exact List.mem_singleton_self _

/-! ### How an account grows -/

/-- What is told besides does not matter, as handlers that have ended the call tell nothing more. -/
theorem Account.grow (h : Account ds legs verdict) (ho : Deeds.offered ds' = [])
    (hs : ∀ a job, Deeds.ended a job ds ≠ [] →
      Deeds.passed a job ds' = [] ∧ Deeds.ended a job ds' = []) :
    Account (ds ++ ds') legs verdict where
  offered := by rw [Deeds.offered_append, ho, List.append_nil, h.offered]
  fits l hl := (h.fits l hl).grow ds'
  works := h.works
  ends o hv := by
    rcases h.ends o hv with hd | hu | ⟨before, l, job, hl, hj, he, hg⟩
    · exact .inl hd
    · exact .inr (.inl hu)
    · obtain ⟨hp', he'⟩ := hs l.client job (by rw [he]; nofun)
      refine .inr (.inr ⟨before, l, job, hl, hj, ?_, ?_⟩)
      · rw [Deeds.ended_append, he', List.append_nil, he]
      · rw [Deeds.passed_append, hp', List.append_nil, hg]

/-- Nothing has been offered. -/
theorem Account.empty (h : Deeds.offered ds = []) : Account ds [] none :=
  ⟨h, nofun, .nil, nofun⟩

/-- The call is offered to another handler. -/
theorem Account.offers (h : Account ds legs none) (ho : Deeds.offered ds' = [l.offer])
    (hl : l.job = none) (hg : l.got = []) : Account (ds ++ ds') (legs ++ [l]) none where
  offered := by rw [Deeds.offered_append, ho, h.offered, List.map_append]; rfl
  fits k hk := by
    rcases List.mem_append.1 hk with hk | hk
    · exact (h.fits k hk).grow ds'
    · obtain rfl := List.mem_singleton.1 hk
      unfold Leg.Fits
      rw [hl]
      exact hg
  works := by
    rw [List.filterMap_append]
    simpa [Leg.work, hl] using h.works
  ends := nofun

/-- A handler is started that has not been started before. -/
theorem Account.starts (h : Account ds (legs ++ [l]) none) (hl : l.job = none) {job : JobId}
    (hj : ∀ handler, (l.client, .started job handler) ∉ ds) :
    Account (ds ++ [(l.client, .started job l.handler)]) (legs ++ [{ l with job := some job }])
      none where
  offered := by
    rw [Deeds.offered_append, h.offered, List.map_append, List.map_append]
    exact List.append_nil _
  fits k hk := by
    rcases List.mem_append.1 hk with hk | hk
    · exact (h.fits k (List.mem_append_left _ hk)).grow _
    · obtain rfl := List.mem_singleton.1 hk
      have hg : l.got = [] := by
        have hfits := h.fits l (List.mem_append_right _ (List.mem_singleton_self _))
        unfold Leg.Fits at hfits
        rwa [hl] at hfits
      refine ⟨List.mem_append_right _ (List.mem_singleton_self _), ?_⟩
      rw [show ({ l with job := some job } : Leg).got = [] from hg]
      exact List.nil_prefix
  works := by
    have hworks := h.works
    rw [List.filterMap_append] at hworks ⊢
    refine List.nodup_append.2 ⟨(List.nodup_append.1 hworks).1, by simp [Leg.work], ?_⟩
    intro w hw w' hw' he
    obtain ⟨k, hk, hkw⟩ := List.mem_filterMap.1 hw
    obtain rfl : w' = (l.client, job) := by simpa [Leg.work] using hw'
    subst he
    obtain ⟨j, hkj, hjob⟩ := Option.map_eq_some_iff.1 hkw
    obtain ⟨hc, rfl⟩ := Prod.mk.inj hjob
    have hfits := h.fits k (List.mem_append_left _ hk)
    unfold Leg.Fits at hfits
    rw [hkj, hc] at hfits
    exact hj _ hfits.1
  ends := nofun

/-- An update is passed on. -/
theorem Account.passes (h : Account ds (legs ++ [l]) none) {job : JobId} (hj : l.job = some job)
    {v : Json} (hp : l.got ++ [v] <+: Deeds.passed l.client job ds) :
    Account ds (legs ++ [{ l with got := l.got ++ [v] }]) none where
  offered := by rw [h.offered, List.map_append, List.map_append]; rfl
  fits k hk := by
    rcases List.mem_append.1 hk with hk | hk
    · exact h.fits k (List.mem_append_left _ hk)
    · obtain rfl := List.mem_singleton.1 hk
      have hfits := h.fits l (List.mem_append_right _ (List.mem_singleton_self _))
      unfold Leg.Fits at hfits ⊢
      rw [hj] at hfits
      rw [show ({ l with got := l.got ++ [v] } : Leg).job = some job from hj]
      exact ⟨hfits.1, hp⟩
  works := by
    have hworks := h.works
    rw [List.filterMap_append] at hworks ⊢
    exact hworks
  ends := nofun

/-- The call has ended. -/
theorem Account.closes (h : Account ds legs none) {o : Outcome} (he : Ends ds legs o) :
    Account ds legs (some o) :=
  ⟨h.offered, h.fits, h.works, by rintro _ ⟨⟩; exact he⟩

/-! ### Parts of a stream -/

/-- Legs that have got the first of all that has been passed on. -/
def clip : Nat → List Leg → List Leg
  | _, [] => []
  | n, l :: legs => { l with got := l.got.take n } :: clip (n - l.got.length) legs

theorem clip_got (n : Nat) (legs : List Leg) :
    (clip n legs).flatMap (·.got) = (legs.flatMap (·.got)).take n := by
  induction legs generalizing n with
  | nil => simp [clip]
  | cons l legs ih => simp [clip, ih, List.take_append]

theorem clip_offers (n : Nat) (legs : List Leg) :
    (clip n legs).map (·.offer) = legs.map (·.offer) := by
  induction legs generalizing n with
  | nil => rfl
  | cons l legs ih => exact congrArg (l.offer :: ·) (ih _)

theorem clip_works (n : Nat) (legs : List Leg) :
    (clip n legs).filterMap (·.work) = legs.filterMap (·.work) := by
  induction legs generalizing n with
  | nil => rfl
  | cons l legs ih =>
    rw [clip, List.filterMap_cons, List.filterMap_cons, ih]
    rfl

theorem of_mem_clip {n : Nat} {legs : List Leg} {l : Leg} (h : l ∈ clip n legs) :
    ∃ k ∈ legs, ∃ m, l = { k with got := k.got.take m } := by
  induction legs generalizing n with
  | nil => cases h
  | cons k legs ih =>
    rcases List.mem_cons.1 h with rfl | h
    · exact ⟨k, List.mem_cons_self, n, rfl⟩
    · obtain ⟨k', hk', hm⟩ := ih h
      exact ⟨k', List.mem_cons_of_mem _ hk', hm⟩

/-- The first events of a stream have an account of their own. -/
theorem Account.cut (h : Account ds legs verdict) {es : List CallEvent}
    (he : es <+: stream legs verdict) :
    ∃ legs' verdict', Account ds legs' verdict' ∧ es = stream legs' verdict' := by
  have htake := List.prefix_iff_eq_take.1 he
  rw [stream, events, List.take_append, List.length_map] at htake
  by_cases hn : es.length ≤ (legs.flatMap (·.got)).length
  · refine ⟨clip es.length legs, none, ⟨?_, fun l hl => ?_, ?_, by simp⟩, ?_⟩
    · rw [clip_offers, h.offered]
    · obtain ⟨k, hk, m, rfl⟩ := of_mem_clip hl
      have hfits := h.fits k hk
      unfold Leg.Fits at hfits ⊢
      dsimp only
      split
      · next job hj =>
        rw [hj] at hfits
        exact ⟨hfits.1, (List.take_prefix ..).trans hfits.2⟩
      · next hj =>
        rw [hj] at hfits
        rw [show k.got = [] from hfits, List.take_nil]
    · rw [clip_works]
      exact h.works
    · rw [Nat.sub_eq_zero_of_le hn, List.take_zero, List.append_nil, ← List.map_take] at htake
      rw [htake, stream, clip_got]
      simp [events]
  · -- with an end among the events, they are the whole stream
    refine ⟨legs, verdict, h, he.eq_of_length_le ?_⟩
    have hv : verdict.toList.length ≤ 1 := by cases verdict <;> simp
    rw [stream, events, List.length_append, List.length_map, List.length_map]
    omega

end Account
end Switchboard
