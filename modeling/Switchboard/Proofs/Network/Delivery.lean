import Switchboard.Proofs.Network.Account
import Switchboard.Proofs.Network.Arrival

/-! # Delivery to the caller

What arrives at the caller of a call is what its handlers have given, one handler after the other
and each in order, with the end of the call behind it.

* **Phases.** A call is asked for, served for one leg after the other, and over (`Phase`).
* **Invariant.** There is always an account of the call of whose stream the caller has got a part
  (`Delivery`).
* **Main statement.** `Network.delivered_of_run`. -/

namespace Switchboard

open Message

/-! ### Serving a leg -/

theorem Strand.Fresh.coming {s : Strand} (h : s.Fresh) : s.Coming [] [] := by
  intro _
  rw [h.downlink]
  exact ⟨List.prefix_refl _, fun _ => rfl⟩

namespace Thread

/-- Nothing has come of the call yet. -/
def Fresh (t : Thread) : Prop := ∀ b s, t.strand b = some s → s.Fresh

/-- One client works for a leg of the call, and nobody else does. -/
structure Serves (done : List Deed) (l : Leg) (t : Thread) : Prop where
  works : ∀ s, t.strand l.client = some s → s.Works done l
  clean : ∀ b s, t.strand b = some s → b ≠ l.client → s.left = false → s.Clean

variable {t t' : Thread} {done : List Deed} {l l' : Leg} {client a b : ClientId} {s s₁ : Strand}
  {sents : List Sent}

theorem Fresh.set (h : t.Fresh) (hs : t.strand b = some s) (hf : s.Fresh → s₁.Fresh) :
    (t.set b s₁).Fresh := by
  intro c u hu
  obtain ⟨v, hv, hsw⟩ := of_strand_set hs hu
  exact hsw.rel (R := fun v w => v.Fresh → w.Fresh) hf (fun _ => id) (h c v hv)

theorem Fresh.posts (h : t.Fresh) (hp : Posts [] t t') : t'.Fresh := by
  intro c u hu
  obtain ⟨v, hv, hposted⟩ := hp.before c u hu
  exact (h c v hv).posted hposted rfl rfl

/-- The strand of one client changes, and it is known what becomes of the work. -/
theorem Serves.set {done' : List Deed} (h : t.Serves done l) (hs : t.strand b = some s)
    (hl : l'.client = l.client) (hw : b = l.client → s.Works done l → s₁.Works done' l')
    (hc : b ≠ l.client → s₁.left = false → s.left = false ∧ (s.Clean → s₁.Clean))
    (hg : b ≠ l.client → ∀ u : Strand, u.Works done l → u.Works done' l') :
    (t.set b s₁).Serves done' l' where
  works u hu := by
    rw [hl] at hu
    obtain ⟨v, hv, hsw⟩ := of_strand_set hs hu
    rcases hsw with ⟨rfl, rfl, rfl⟩ | ⟨hne, rfl⟩
    · exact hw rfl (h.works _ hv)
    · exact hg (Ne.symm hne) _ (h.works _ hv)
  clean c u hu hne hleft := by
    rw [hl] at hne
    obtain ⟨v, hv, hsw⟩ := of_strand_set hs hu
    rcases hsw with ⟨rfl, rfl, rfl⟩ | ⟨_, rfl⟩
    · obtain ⟨hleft', hclean⟩ := hc hne hleft
      exact hclean (h.clean _ _ hv hne hleft')
    · exact h.clean c _ hv hne hleft

theorem Serves.posts (h : t.Serves done l) (hp : Posts sents t t')
    (hm : ∀ a, count .call (reaching a sents) = 0) : t'.Serves done l where
  works u hu := by
    obtain ⟨v, hv, hposted⟩ := hp.before _ u hu
    exact (h.works v hv).posted hposted (hm _)
  clean c u hu hne hleft := by
    obtain ⟨v, hv, hposted⟩ := hp.before c u hu
    exact (h.clean c v hv hne (hposted.left ▸ hleft)).posted hposted

/-- Where nobody has anything to do with a call, it is offered to a client. -/
theorem serves_of_offer {c : Call} (hclean : ∀ b s, t.strand b = some s → s.left = false →
      s.Clean ∧ s.tokens = 0)
    (hreach : ∀ a, reaching a sents = if l.client = a then [.call c] else [])
    (hthere : ∃ s, t.strand l.client = some s ∧ s.left = false) (hp : Posts sents t t')
    (hl : l.job = none) (hg : l.got = []) (hh : l.handler = c.handler) : t'.Serves done l where
  works u hu := by
    obtain ⟨v, hv, hposted⟩ := hp.before _ u hu
    obtain ⟨w, hw, hleft⟩ := hthere
    obtain rfl := Option.some.inj (hv.symm.trans hw)
    rw [hreach, if_pos rfl] at hposted
    obtain ⟨h1, h2⟩ := hclean _ _ hv hleft
    exact h1.begins hposted h2 hl hg hh
  clean b u hu hne hleft := by
    obtain ⟨v, hv, hposted⟩ := hp.before b u hu
    exact (hclean b v hv (hposted.left ▸ hleft)).1.posted hposted

/-! ### Phases -/

/-- How far a call has come, in an account of it. -/
inductive Phase (done : List Deed) (t : Thread) : List Leg → Option Outcome → Prop
  | asking (hr : t.running = none) (hf : t.Fresh) : Phase done t [] none
  | serving (before : List Leg) (l : Leg) (r : Running) (hr : t.running = some r)
      (hl : l.client = r.callee.value.client) (hs : t.Serves done l) :
    Phase done t (before ++ [l]) none
  | closed {legs : List Leg} {verdict : Option Outcome} (hr : t.running = none)
      (ha : ∀ b s, t.strand b = some s → s.asks = 0) : Phase done t legs verdict

/-- There is an account of a call of which the caller has got a part, and the rest is on its way. -/
structure Delivery (a : ClientId) (done : List Deed) (legs : List Leg) (verdict : Option Outcome)
    (t : Thread) : Prop where
  account : Account done legs verdict
  arrived : Deeds.arrived done <+: stream legs verdict
  coming : ∀ s, t.strand a = some s → s.Coming (Deeds.arrived done) (stream legs verdict)
  phase : t.Phase done legs verdict

variable {context : String} {legs : List Leg} {verdict : Option Outcome} {r : Running}

theorem Custody.unasked (h : t.Custody) (hr : t.running = some r) (hs : t.strand b = some s) :
    s.asks = 0 := by
  refine Nat.eq_zero_of_not_pos fun ha => ?_
  have hn := (h.asked b s hs ha).2.1
  rw [hr] at hn
  cases hn

/-! ### Moves -/

theorem offered_moves {acts : List Act} (h : s.Tells s₁ acts) (client : ClientId) :
    Deeds.offered (acts.map (client, ·)) = [] := by
  cases h <;> rfl

theorem arrived_moves {acts : List Act} (h : s.Move context acts s₁) (hc : s.call = none)
    (client : ClientId) : Deeds.arrived (acts.map (client, ·)) = [] := by
  have ha : s.accepts = false := by rw [Strand.accepts, hc]; rfl
  cases h with
  | hearsUpdate | hearsResult => rw [ha]; rfl
  | _ => rfl

theorem Delivery.comes {acts : List Act} (h : Delivery a done legs verdict t)
    (ha : t.Attached a) (hp : ∀ d ∈ done, d.2.Plain) (hs : t.strand b = some s)
    (hm : s.Move context acts s₁) (hz : s.asks = 0) :
    Deeds.arrived (done ++ acts.map (b, ·)) <+: stream legs verdict ∧
      ∀ u, (t.set b s₁).strand a = some u →
        u.Coming (Deeds.arrived (done ++ acts.map (b, ·))) (stream legs verdict) := by
  rw [Deeds.arrived_append]
  by_cases hb : b = a
  · subst hb
    obtain ⟨h1, h2⟩ := Strand.coming_move hm b (h.coming s hs) h.arrived (h.account.plain hp) hz
      (ha.unregistered b s hs)
    refine ⟨h1, fun u hu => ?_⟩
    rw [strand_set] at hu
    obtain rfl := Option.some.inj hu
    exact h2
  · rw [arrived_moves hm (ha.only b s hs hb).1, List.append_nil]
    refine ⟨h.arrived, fun u hu => h.coming u ?_⟩
    rwa [strand_set_ne t s₁ (Ne.symm hb)] at hu

theorem Delivery.moves {acts : List Act} (h : Delivery a done legs verdict t) (hcust : t.Custody)
    (hord : t.Orderly) (hrec : t.Records done) (ha : t.Attached a) (hp : ∀ d ∈ done, d.2.Plain)
    (hs : t.strand b = some s) (hm : s.Move context acts s₁) :
    ∃ legs', Delivery a (done ++ acts.map (b, ·)) legs' verdict (t.set b s₁) := by
  have htells := Strand.tells_move hm
  have hgrow := h.account.grow (offered_moves htells b)
    fun c job he => hrec.settled (.moves hs hm) he
  have comes := h.comes ha hp hs hm
  obtain ⟨account, arrived, coming, phase⟩ := h
  cases phase with
  | asking hr hf =>
    obtain ⟨_, rfl⟩ := Strand.fresh_move hm (hf b s hs)
    have hf' := hf.set hs fun hfresh => (Strand.fresh_move hm hfresh).1
    have hnil : Deeds.arrived done = [] := List.prefix_nil.1 arrived
    rw [List.map_nil, List.append_nil] at hgrow ⊢
    refine ⟨[], hgrow, arrived, fun u hu => ?_, .asking hr hf'⟩
    rw [hnil]
    exact (hf' a u hu).coming
  | serving before l r hr hl hserves =>
    obtain ⟨h1, h2⟩ := comes (hcust.unasked hr hs)
    by_cases hb : b = l.client
    · subst hb
      obtain ⟨job, hworks, hjob⟩ := Strand.works_move hm (hserves.works s hs) (hrec.recorded hs)
        (hord _ s hs) (hcust.token _ s hs) (hcust.cancelled r hr _ s hs)
      have hserves' : (t.set l.client s₁).Serves (done ++ acts.map (l.client, ·)) { l with job } :=
        hserves.set hs rfl (fun _ _ => hworks) (fun hne => (hne rfl).elim)
          fun hne => (hne rfl).elim
      have hstream : stream (before ++ [{ l with job }]) none = stream (before ++ [l]) none := by
        rw [stream_snoc, stream_snoc]
        rfl
      refine ⟨before ++ [{ l with job }], ?_, hstream ▸ h1, hstream ▸ h2,
        .serving before _ r hr hl hserves'⟩
      rcases hjob with rfl | ⟨hnone, j, rfl, hj, rfl⟩
      · exact hgrow
      · exact account.starts hnone (hrec.unheard _ j ((handler_of_strand hs).trans hj)).2.2
    · refine ⟨before ++ [l], hgrow, h1, h2, .serving before l r hr hl (hserves.set hs rfl
        (fun he => (hb he).elim) (fun _ hleft => ?_) fun _ u hu => ?_)⟩
      · have hleft' : s.left = false := (Strand.left_move hm).symm.trans hleft
        refine ⟨hleft', fun hclean => Strand.clean_move hm hclean ?_⟩
        exact Nat.eq_zero_of_not_pos fun ht => hb ((hcust.others r hr b s hs hleft' ht).trans hl.symm)
      · exact hu.of_given fun job => Deeds.given_other (Ne.symm hb) job done acts
  | closed hr hz =>
    obtain ⟨h1, h2⟩ := comes (hz b s hs)
    refine ⟨legs, hgrow, h1, h2, .closed hr fun c u hu => ?_⟩
    obtain ⟨v, hv, hsw⟩ := of_strand_set hs hu
    have hasks := (hsw.rel (R := Strand.Stays) (Strand.stays_move hm) .refl).asks
    have := hz c v hv
    omega

theorem Delivery.joins (h : Delivery a done legs verdict t) (hcust : t.Custody) (ha : t.Attached a)
    (hnone : t.strand b = none) : Delivery a done legs verdict (t.set b {}) := by
  have there {c : ClientId} {u : Strand} (hu : t.strand c = some u) : c ≠ b := by
    rintro rfl
    rw [hnone] at hu
    cases hu
  have fresh : ({} : Strand).Fresh := ⟨rfl, rfl, rfl, rfl, rfl, fun _ => rfl⟩
  obtain ⟨account, arrived, coming, phase⟩ := h
  refine ⟨account, arrived, fun u hu => ?_, ?_⟩
  · obtain ⟨s, hs, _⟩ := ha.caller
    rw [strand_set_ne t {} (there hs)] at hu
    exact coming u hu
  · cases phase with
    | asking hr hf =>
      refine .asking hr fun c u hu => ?_
      rcases strand_of_join hu with hu | rfl
      · exact hf c u hu
      · exact fresh
    | serving before l r hr hl hserves =>
      refine .serving before l r hr hl ⟨fun u hu => ?_, fun c u hu hne hleft => ?_⟩
      · obtain ⟨s, hs, _⟩ := hcust.callee r hr
        rw [strand_set_ne t {} (hl ▸ there hs)] at hu
        exact hserves.works u hu
      · rcases strand_of_join hu with hu | rfl
        · exact hserves.clean c u hu hne hleft
        · exact fresh.clean
    | closed hr hz =>
      refine .closed hr fun c u hu => ?_
      rcases strand_of_join hu with hu | rfl
      · exact hz c u hu
      · rfl

theorem Delivery.passesBy (h : Delivery a done legs verdict t) (hr : t'.running = t.running)
    (hp : Posts [] t t') : Delivery a done legs verdict t' := by
  obtain ⟨account, arrived, coming, phase⟩ := h
  refine ⟨account, arrived, fun u hu => ?_, ?_⟩
  · obtain ⟨v, hv, hposted⟩ := hp.before a u hu
    have hc : u.Coming (Deeds.arrived done) (stream legs verdict ++ []) :=
      (coming v hv).posted hposted fun _ _ => rfl
    rwa [List.append_nil] at hc
  · cases phase with
    | asking hn hf => exact .asking (hr.trans hn) (hf.posts hp)
    | serving before l r hrun hl hserves =>
      exact .serving before l r (hr.trans hrun) hl (hserves.posts hp fun _ => rfl)
    | closed hn hz =>
      refine .closed (hr.trans hn) fun c u hu => ?_
      obtain ⟨v, hv, hposted⟩ := hp.before c u hu
      have := hposted.stays.asks
      have := hz c v hv
      omega

/-! ### What the exchange does -/

/-- A strand of which the exchange has taken a message, or whose client it hears to have left. -/
inductive Taken (context : String) (client : ClientId) (s : Strand) : ExchangeEvent → Strand → Prop
  | received {m m' : Message} {us : List Message} (hu : s.uplink = m :: us)
      (hm : m.transmitted = .ok m') (hc : m'.context = context) :
    Taken context client s (.received client m') { s with uplink := us }
  | left (hw : s.writes = false) : Taken context client s (.left client) { s with left := true }

variable {e : ExchangeEvent} {x : Exchange}

theorem Taken.fares (h : Taken context client s e s₁) : s.Fares s₁ ∧ s₁.cancels ≤ s.cancels := by
  cases h with
  | received hu => exact ⟨Strand.fares_uplink hu, Nat.le_refl _⟩
  | left => exact ⟨Strand.fares_left s, Nat.le_refl _⟩

/-- The exchange takes something from a strand, and what it sends then is put on its way. -/
structure Handled (context : String) (b : ClientId) (s s₁ : Strand) (e : ExchangeEvent)
    (x : Exchange) (sents : List Sent) (t t' : Thread) : Prop where
  strand : t.strand b = some s
  taken : Taken context b s e s₁
  attends : Attends x (t.set b s₁)
  posts : Posts sents (t.set b s₁) t'

/-- What the exchange passes on is on its way to the caller, as long as the caller can be reached. -/
theorem Handled.comes (h : Handled context b s s₁ e x sents t t') (hord : t.Orderly)
    {arrived str new : List CallEvent} (hc : ∀ u, t.strand a = some u → u.Coming arrived str)
    (hn : x.Reachable a → reports (reaching a sents) = new) :
    ∀ u, t'.strand a = some u → u.Coming arrived (str ++ new) := by
  intro u hu
  obtain ⟨v, w, hv, hsw, hw, hposted⟩ := h.posts.of_set h.strand hu
  have hvw : w.Coming arrived str ∧ (w.writes = true → w.left = false) := by
    have hleft : v.writes = true → v.left = false := fun hwrites => by
      cases hl : v.left with
      | false => rfl
      | true => cases hwrites.symm.trans ((hord a v hv).left hl)
    rcases hsw with ⟨rfl, rfl, rfl⟩ | ⟨_, rfl⟩
    · have hcv := hc _ hv
      cases h.taken with
      | received => exact ⟨hcv, hleft⟩
      | left hwrites => exact ⟨hcv, fun hw => Bool.noConfusion (hwrites.symm.trans hw)⟩
    · exact ⟨hc _ hv, hleft⟩
  exact hvw.1.posted hposted fun hup hwrites =>
    hn (h.attends.live a w hw (hvw.2 hwrites) hwrites hup)

/-- The account is brought up to date with what the exchange has sent. -/
theorem Delivery.sends (h : Delivery a done legs verdict t) (hord : t.Orderly)
    (hh : Handled context b s s₁ e x sents t t') {legs' : List Leg} {verdict' : Option Outcome}
    {new : List CallEvent} (hn : x.Reachable a → reports (reaching a sents) = new)
    (hstream : stream legs' verdict' = stream legs verdict ++ new)
    (hacc : Account (done ++ offers sents) legs' verdict')
    (hphase : t'.Phase (done ++ offers sents) legs' verdict') :
    Delivery a (done ++ offers sents) legs' verdict' t' := by
  have harrived : Deeds.arrived (done ++ offers sents) = Deeds.arrived done := by
    rw [Deeds.arrived_append, (Deeds.of_offers sents 0 0).2.2.1, List.append_nil]
  refine ⟨hacc, ?_, ?_, hphase⟩
  · rw [harrived, hstream]
    exact h.arrived.trans (List.prefix_append ..)
  · rw [harrived, hstream]
    exact hh.comes hord h.coming hn

theorem Delivery.notifies (h : Delivery a done legs verdict t) (hord : t.Orderly)
    (hh : Handled context b s s₁ e x sents t t') {legs' : List Leg} {verdict' : Option Outcome}
    {new : List CallEvent} (hn : x.Reachable a → reports (reaching a sents) = new)
    (hstream : stream legs' verdict' = stream legs verdict ++ new) (hoff : offers sents = [])
    (hacc : Account done legs' verdict') (hphase : t'.Phase done legs' verdict') :
    Delivery a (done ++ offers sents) legs' verdict' t' := by
  have hdone : done ++ offers sents = done := by rw [hoff, List.append_nil]
  exact h.sends hord hh hn hstream (by rwa [hdone]) (by rwa [hdone])

theorem unasked_posts (hz : ∀ c u, (t.set b s₁).strand c = some u → u.asks = 0)
    (hp : Posts sents (t.set b s₁) t') : ∀ c u, t'.strand c = some u → u.asks = 0 := by
  intro c u hu
  obtain ⟨v, hv, hposted⟩ := hp.before c u hu
  have := hposted.stays.asks
  have := hz c v hv
  omega

theorem Handled.unasked (h : Handled context b s s₁ e x sents t t')
    (hz : ∀ c u, t.strand c = some u → u.asks = 0) : ∀ c u, t'.strand c = some u → u.asks = 0 := by
  refine unasked_posts (fun c u hu => ?_) h.posts
  obtain ⟨v, hv, hsw⟩ := of_strand_set h.strand hu
  have := (hsw.rel (R := Strand.Fares) h.taken.fares.1 .refl).asks
  have := hz c v hv
  omega

theorem Taken.fresh (h : Taken context b s e s₁) (hf : s.Fresh) : s₁.Fresh := by
  cases h with
  | received hu =>
    exact ⟨hf.queue, (reports_cons_eq_nil (hu ▸ hf.uplink)).2, hf.downlink, hf.calls, hf.serving,
      hf.handler⟩
  | left => exact ⟨hf.queue, hf.uplink, hf.downlink, hf.calls, hf.serving, hf.handler⟩

theorem Taken.clean (h : Taken context b s e s₁) (hl : s₁.left = false) :
    s.left = false ∧ (s.Clean → s₁.Clean) := by
  cases h with
  | received hu => exact ⟨hl, fun hc => (hc.pops hu).2⟩
  | left => cases hl

/-- The exchange does nothing about the call. -/
theorem Delivery.elsewhere (h : Delivery a done legs verdict t) (hord : t.Orderly)
    (hh : Handled context b s s₁ e x [] t t') (hr : t'.running = t.running)
    (hne : ¬ e.Concerns context t.running) : Delivery a (done ++ offers []) legs verdict t' := by
  refine h.notifies hord hh (fun _ => rfl) (List.append_nil _).symm rfl h.account ?_
  obtain ⟨account, arrived, coming, phase⟩ := h
  have htaken := hh.taken
  cases phase with
  | asking hn hf => exact .asking (hr.trans hn) ((hf.set hh.strand htaken.fresh).posts hh.posts)
  | serving before l r hrun hl hserves =>
    refine .serving before l r (hr.trans hrun) hl (Serves.posts (hserves.set hh.strand rfl
      (fun hb hw => ?_) (fun _ => htaken.clean) fun _ _ => id) hh.posts fun _ => rfl)
    cases htaken with
    | @received m m' us hu hm hc =>
      refine hw.pops hu (event?_eq_none_iff.2 ?_)
      rw [kind_of_transmitted hm]
      cases m' with
      | update | result => exact (hne ⟨hc, r, hrun, (hb.trans hl).symm⟩).elim
      | _ => exact ⟨nofun, nofun⟩
    | left => exact (hne ⟨r, hrun, .inr (hb.trans hl).symm⟩).elim
  | closed hn hz => exact .closed (hr.trans hn) (hh.unasked hz)

/-- A call is taken that has been asked for: nothing has come of it before. -/
theorem Phase.of_asks {verdict : Option Outcome} (h : t.Phase done legs verdict)
    (hcust : t.Custody) (hs : t.strand b = some s) (ha : 0 < s.asks) :
    legs = [] ∧ verdict = none ∧ t.Fresh := by
  cases h with
  | asking _ hf => exact ⟨rfl, rfl, hf⟩
  | serving before l r hr =>
    have := hcust.unasked hr hs
    omega
  | closed _ hz =>
    have := hz b s hs
    omega

theorem Delivery.refused {o : Outcome} (h : Delivery a done legs verdict t) (hcust : t.Custody)
    (hord : t.Orderly) (hh : Handled context b s s₁ e x sents t t')
    (hasks : s.asks = s₁.asks + 1) (hr : t'.running = none)
    (ho : Ends (done ++ offers sents) [] o) (hoff : Deeds.offered (offers sents) = [])
    (hn : x.Reachable a → reports (reaching a sents) = [.finished o]) :
    Delivery a (done ++ offers sents) [] (some o) t' := by
  obtain ⟨rfl, rfl, _⟩ := h.phase.of_asks hcust hh.strand (by omega)
  have hacc : Account (done ++ offers sents) [] none := h.account.grow hoff fun c job _ =>
    ⟨(Deeds.of_offers sents c job).1, (Deeds.of_offers sents c job).2.1⟩
  refine h.sends hord hh hn (stream_some ..) (hacc.closes ho) (.closed hr ?_)
  exact unasked_posts (hcust.vacant_of_asked hh.strand hasks hh.taken.fares).asks hh.posts

theorem Delivery.accepted (h : Delivery a done legs verdict t) (hcust : t.Custody)
    (hord : t.Orderly) (hh : Handled context b s s₁ e x sents t t')
    (hasks : s.asks = s₁.asks + 1) (hr : t'.running = some r) {c : Call}
    (hreach : ∀ a, reaching a sents = if r.callee.value.client = a then [.call c] else [])
    (hoff : offers sents = [(r.callee.value.client, .offered c.handler)])
    (hlive : x.Reachable r.callee.value.client) :
    Delivery a (done ++ offers sents) [⟨r.callee.value.client, c.handler, none, []⟩] none t' := by
  obtain ⟨rfl, rfl, hf⟩ := h.phase.of_asks hcust hh.strand (by omega)
  have hv := hcust.vacant_of_asked hh.strand hasks hh.taken.fares
  have hf' := hf.set hh.strand hh.taken.fresh
  have hclean (d : ClientId) (u : Strand) (hu : (t.set b s₁).strand d = some u)
      (hl : u.left = false) : u.Clean ∧ u.tokens = 0 := ⟨(hf' d u hu).clean, hv.tokens d u hu hl⟩
  have hacc : Account (done ++ offers sents) ([] ++ [⟨r.callee.value.client, c.handler, none, []⟩])
      none := h.account.offers (by rw [hoff]; rfl) rfl rfl
  have hn (_ : x.Reachable a) : reports (reaching a sents) = [] := by
    rw [hreach]
    split <;> rfl
  exact h.sends hord hh hn rfl hacc (.serving [] _ r hr rfl
    (serves_of_offer hclean hreach (hh.attends.there _ hlive) hh.posts rfl rfl rfl))

theorem Phase.of_running {verdict : Option Outcome} (h : t.Phase done legs verdict)
    (hr : t.running = some r) : verdict = none ∧ ∃ before l, legs = before ++ [l] ∧
      l.client = r.callee.value.client ∧ t.Serves done l := by
  cases h with
  | asking hn => cases hr.symm.trans hn
  | serving before l r' hr' hl hserves =>
    obtain rfl := Option.some.inj (hr.symm.trans hr')
    exact ⟨rfl, before, l, rfl, hl, hserves⟩
  | closed hn => cases hr.symm.trans hn

theorem Delivery.relayed {v : Json} (h : Delivery a done legs verdict t) (hord : t.Orderly)
    (ha : ∀ r, t.running = some r → r.caller = a) (hd : ∀ d ∈ done, d.2.Plain)
    (hh : Handled context b s s₁ (.received r.callee.value.client (.update context v)) x
      [x.send r.caller (.updated context v)] t t') (hr : t.running = some r)
    (hr' : t'.running = some r) :
    ∃ legs', Delivery a (done ++ offers [x.send r.caller (.updated context v)]) legs' verdict t' := by
  obtain rfl := ha r hr
  obtain ⟨rfl, before, l, rfl, hl, hserves⟩ := h.phase.of_running hr
  cases hh.taken with
  | @received m _ us hu hm _ =>
    rw [← hl] at hh
    have hs := hh.strand
    have hw := hserves.works s hs
    obtain ⟨hworks, job, hjob, hgot⟩ := hw.passes hu (hw.event?_eq hd hu hm)
    have hserves' : (t.set l.client { s with uplink := us }).Serves done
        { l with got := l.got ++ [v] } :=
      hserves.set hs rfl (fun _ _ => hworks) (fun hne => (hne rfl).elim) fun hne => (hne rfl).elim
    have hn (hreach : x.Reachable r.caller) :
        reports (reaching r.caller [x.send r.caller (.updated context v)]) = [.update v] := by
      rw [reaching_send, if_pos ⟨hreach, rfl⟩]
      rfl
    have hstream : stream (before ++ [{ l with got := l.got ++ [v] }]) none =
        stream (before ++ [l]) none ++ [.update v] := by
      simp [stream_snoc, Leg.passed]
    have hcalls (c : ClientId) :
        count .call (reaching c [x.send r.caller (.updated context v)]) = 0 := by
      rw [reaching_send]
      split <;> rfl
    exact ⟨_, h.notifies hord hh hn hstream rfl (h.account.passes hjob hgot)
      (.serving before _ r hr' hl (hserves'.posts hh.posts hcalls))⟩

/-- A call comes back from its callee, who has nothing more to do with it then. -/
theorem Serves.returns (h : t.Serves done l) (hcust : t.Custody) (hrec : t.Records done)
    (hd : ∀ d ∈ done, d.2.Plain) (hs : t.strand b = some s) (htaken : Taken context b s e s₁)
    (hr : t.running = some r) (hl : l.client = r.callee.value.client)
    (he : (∃ o, e = .received r.callee.value.client (.result context o)) ∨
      e = .left r.callee.value.client) :
    (∀ c u, (t.set b s₁).strand c = some u → u.left = false → u.Clean ∧ u.tokens = 0) ∧
      ∀ o, e = .received r.callee.value.client (.result context o) → o ≠ .declined →
        ∃ job, l.job = some job ∧ Deeds.ended l.client job done = [o] ∧
          l.got = Deeds.passed l.client job done := by
  have hfares := htaken.fares
  have hb : b = r.callee.value.client := by
    rcases he with ⟨o, rfl⟩ | rfl <;> cases htaken <;> rfl
  obtain ⟨hreleased, hclean, hend⟩ : s₁.Released ∧ (s₁.left = false → s₁.Clean) ∧
      ∀ o, e = .received r.callee.value.client (.result context o) → o ≠ .declined →
        ∃ job, l.job = some job ∧ Deeds.ended l.client job done = [o] ∧
          l.got = Deeds.passed l.client job done := by
    cases htaken with
    | @received m m' us hu hm hc =>
      obtain ⟨o, ho⟩ : ∃ o, m' = .result context o := by
        rcases he with ⟨o, ho⟩ | ho
        · exact ⟨o, (ExchangeEvent.received.inj ho).2⟩
        · cases ho
      subst ho
      rw [hb, ← hl] at hs
      have hw := h.works s hs
      obtain ⟨h1, h2⟩ := hw.ends (hrec.recorded hs) (hcust.token _ s hs) hu
        (hw.event?_eq hd hu hm)
      refine ⟨Strand.released_uplink hu (kind_of_transmitted hm) (hcust.token _ s hs),
        fun _ => h1, fun o' ho' hne => ?_⟩
      obtain ⟨_, rfl⟩ := Message.result.inj (ExchangeEvent.received.inj ho').2
      exact h2 hne
    | left => exact ⟨nofun, nofun, nofun⟩
  refine ⟨fun c u hu hleft => ⟨?_, ?_⟩, hend⟩
  · obtain ⟨v, hv, hsw⟩ := of_strand_set hs hu
    rcases hsw with ⟨_, _, rfl⟩ | ⟨hne, rfl⟩
    · exact hclean hleft
    · exact h.clean c u hv (fun hc => hne (hc.trans (hl.trans hb.symm))) hleft
  · subst hb
    exact (hcust.vacant_of_frees hs hr hfares hreleased).tokens c u hu hleft

theorem Delivery.answered {o : Outcome} (h : Delivery a done legs verdict t) (hcust : t.Custody)
    (hord : t.Orderly) (hrec : t.Records done) (hd : ∀ d ∈ done, d.2.Plain)
    (hh : Handled context b s s₁ e x sents t t') (hr : t.running = some r)
    (hr' : t'.running = none)
    (he : e = .received r.callee.value.client (.result context o) ∨ o = .declined)
    (hoff : offers sents = [])
    (hn : x.Reachable a → reports (reaching a sents) = [.finished o]) :
    Delivery a (done ++ offers sents) legs (some o) t' := by
  obtain ⟨rfl, before, l, rfl, hl, hserves⟩ := h.phase.of_running hr
  have hz (c : ClientId) (u : Strand) (hu : t.strand c = some u) : u.asks = 0 := hcust.unasked hr hu
  have hends : Ends done (before ++ [l]) o := by
    by_cases ho : o = .declined
    · exact .inl ho
    · rcases he with he | he
      · obtain ⟨job, hj, hended, hgot⟩ :=
          (hserves.returns hcust hrec hd hh.strand hh.taken hr hl (.inl ⟨o, he⟩)).2 o he ho
        exact .inr (.inr ⟨before, l, job, rfl, hj, hended, hgot⟩)
      · exact (ho he).elim
  exact h.notifies hord hh hn (stream_some ..) hoff (h.account.closes hends)
    (.closed hr' (hh.unasked hz))

theorem Delivery.rerouted {r' : Running} {c : Call} (h : Delivery a done legs verdict t)
    (hcust : t.Custody) (hord : t.Orderly) (hrec : t.Records done) (hd : ∀ d ∈ done, d.2.Plain)
    (hh : Handled context b s s₁ e x sents t t') (hr : t.running = some r)
    (hr' : t'.running = some r')
    (he : (∃ o, e = .received r.callee.value.client (.result context o)) ∨
      e = .left r.callee.value.client)
    (hreach : ∀ a, reaching a sents = if r'.callee.value.client = a then [.call c] else [])
    (hoff : offers sents = [(r'.callee.value.client, .offered c.handler)])
    (hlive : x.Reachable r'.callee.value.client) :
    ∃ legs', Delivery a (done ++ offers sents) legs' verdict t' := by
  obtain ⟨rfl, before, l, rfl, hl, hserves⟩ := h.phase.of_running hr
  have hclean := (hserves.returns hcust hrec hd hh.strand hh.taken hr hl he).1
  have hacc : Account (done ++ offers sents)
      ((before ++ [l]) ++ [⟨r'.callee.value.client, c.handler, none, []⟩]) none :=
    h.account.offers (by rw [hoff]; rfl) rfl rfl
  have hn (_ : x.Reachable a) : reports (reaching a sents) = [] := by
    rw [hreach]
    split <;> rfl
  exact ⟨_, h.sends hord hh hn (stream_snoc ..) hacc (.serving _ _ r' hr' rfl
    (serves_of_offer hclean hreach (hh.attends.there _ hlive) hh.posts rfl rfl rfl))⟩

theorem Delivery.withdrawn (h : Delivery a done legs verdict t) (hcust : t.Custody)
    (hord : t.Orderly)
    (hh : Handled context b s s₁ e x [x.send r.callee.value.client (.withdrawn context)] t t')
    (hr : t.running = some r) (hr' : t'.running = none) :
    Delivery a (done ++ offers [x.send r.callee.value.client (.withdrawn context)]) legs verdict
      t' := by
  have hz (c : ClientId) (u : Strand) (hu : t.strand c = some u) : u.asks = 0 := hcust.unasked hr hu
  have hn (_ : x.Reachable a) :
      reports (reaching a [x.send r.callee.value.client (.withdrawn context)]) = [] := by
    rw [reaching_send]
    split <;> rfl
  exact h.notifies hord hh hn (List.append_nil _).symm rfl h.account (.closed hr' (hh.unasked hz))

/-- Whatever the exchange does about a call, there is an account of it. -/
theorem Delivery.turn (h : Delivery a done legs verdict t) (hcust : t.Custody) (hord : t.Orderly)
    (hrec : t.Records done) (hw : t.Waiting a) (hd : ∀ d ∈ done, d.2.Plain)
    (hh : Handled context b s s₁ e x sents t t')
    (ht : Exchange.Turn context x t.running e t'.running sents) :
    ∃ legs' verdict', Delivery a (done ++ offers sents) legs' verdict' t' := by
  have asked {client : ClientId} {c : Call} (he : e = .received client (.call c)) :
      client = a ∧ s.asks = s₁.asks + 1 := by
    subst he
    cases hh.taken with
    | received hu hm =>
      have hasks := Strand.asks_uplink hu (kind_of_transmitted hm)
      refine ⟨Decidable.byContradiction fun hne => ?_, hasks⟩
      have := (hw.attached.only b s hh.strand hne).2
      omega
  have told (o : Outcome) (hreach : x.Reachable a) :
      reports (reaching a [x.send a (.answered context o)]) = [.finished o] := by
    rw [reaching_send, if_pos ⟨hreach, rfl⟩]
    rfl
  generalize hr : t.running = r₀ at ht
  generalize hr' : t'.running = r₁ at ht
  cases ht with
  | elsewhere hne =>
    exact ⟨_, _, h.elsewhere hord hh (hr'.trans hr.symm) (hr.symm ▸ hne)⟩
  | registered client =>
    cases hh.taken with
    | @received m _ us hu hm =>
      have hz := (hw.attached.unregistered b s hh.strand).uplink
      rw [hu, count_cons, if_pos (show m.kind = .register from kind_of_transmitted hm)] at hz
      cases hz
  | refused r client c =>
    have := (asked rfl).2
    have := hcust.unasked hr hh.strand
    omega
  | unknown client c =>
    obtain ⟨rfl, hasks⟩ := asked rfl
    exact ⟨_, _, h.refused hcust hord hh hasks hr' (.inr (.inl ⟨rfl, _, rfl⟩)) rfl
      (told _)⟩
  | untaken client c hc missed _ hm =>
    obtain ⟨rfl, hasks⟩ := asked rfl
    refine ⟨_, _, h.refused hcust hord hh hasks hr' (.inl rfl) ?_ fun hreach => ?_⟩
    · rw [offers_append, offers_missed hm]
      rfl
    · rw [reaching_append, reaching_missed hm, List.nil_append]
      exact told _ hreach
  | accepted client c hc missed rest f _ hm hlive =>
    obtain ⟨rfl, hasks⟩ := asked rfl
    exact ⟨_, _, h.accepted hcust hord hh hasks hr' (reaching_offered hm hlive c)
      (offers_offered hm hlive c) hlive⟩
  | relayed r v =>
    obtain ⟨legs', h'⟩ := h.relayed hord hw.runs hd hh hr hr'
    exact ⟨_, _, h'⟩
  | answered r o =>
    obtain rfl := hw.runs r hr
    exact ⟨_, _, h.answered hcust hord hrec hd hh hr hr' (.inl rfl) rfl (told o)⟩
  | rerouted r _ hcause missed rest f _ hm hlive =>
    obtain ⟨legs', h'⟩ := h.rerouted hcust hord hrec hd hh hr hr'
      (hcause.imp (fun he => ⟨_, he⟩) And.left) (reaching_offered hm hlive r.call)
      (offers_offered hm hlive r.call) hlive
    exact ⟨_, _, h'⟩
  | exhausted r _ _ missed _ hm =>
    obtain rfl := hw.runs r hr
    refine ⟨_, _, h.answered hcust hord hrec hd hh hr hr' (.inr rfl) ?_ fun hreach => ?_⟩
    · rw [offers_append, offers_missed hm]
      rfl
    · rw [reaching_append, reaching_missed hm, List.nil_append]
      exact told _ hreach
  | withdrawn r => exact ⟨_, _, h.withdrawn hcust hord hh hr hr'⟩

theorem Delivery.step {ds : List Deed} (h : Delivery a done legs verdict t) (hcust : t.Custody)
    (hord : t.Orderly) (hrec : t.Records done) (hw : t.Waiting a) (hd : ∀ d ∈ done, d.2.Plain)
    (hstep : Step context t ds t') :
    ∃ legs' verdict', Delivery a (done ++ ds) legs' verdict' t' := by
  cases hstep with
  | moves hs hm =>
    obtain ⟨legs', h'⟩ := h.moves hcust hord hrec hw.attached hd hs hm
    exact ⟨_, _, h'⟩
  | joins hnone => exact ⟨_, _, (List.append_nil done).symm ▸ h.joins hcust hw.attached hnone⟩
  | passesBy hr hp => exact ⟨_, _, (List.append_nil done).symm ▸ h.passesBy hr hp⟩
  | routes hs hu hm hc ht hx hp =>
    exact h.turn hcust hord hrec hw hd ⟨hs, .received hu hm hc, hx, hp⟩ ht
  | leaves hs _ _ hwrites _ ht hx hp =>
    exact h.turn hcust hord hrec hw hd ⟨hs, .left hwrites, hx, hp⟩ ht

/-! ### Without a caller -/

/-- Nothing is told to a caller, nor offered for one, as long as there is none. -/
theorem Idle.silent {ds : List Deed} (h : t.Idle) (hstep : Step context t ds t') :
    Deeds.offered ds = [] ∧ Deeds.arrived ds = [] := by
  cases hstep with
  | moves hs hm =>
    exact ⟨offered_moves (Strand.tells_move hm) _, arrived_moves hm (h.strand _ _ hs).1 _⟩
  | joins | passesBy => exact ⟨rfl, rfl⟩
  | @routes _ client s m m' us x sents hs hu hm _ ht =>
    refine ⟨?_, (Deeds.of_offers sents 0 0).2.2.1⟩
    have hcall {c : Call} : m' ≠ .call c := fun hm' => by
      have hasks := Strand.asks_uplink hu ((kind_of_transmitted hm).trans (hm' ▸ rfl))
      have := (h.strand client s hs).2
      omega
    rw [h.running] at ht
    generalize t'.running = r₁ at ht
    cases ht with
    | elsewhere | registered => rfl
    | unknown | accepted | untaken => exact (hcall rfl).elim
  | leaves _ _ _ _ _ ht =>
    refine ⟨?_, (Deeds.of_offers _ 0 0).2.2.1⟩
    rw [h.running] at ht
    generalize t'.running = r₁ at ht
    cases ht with
    | elsewhere => rfl

/-! ### The caller's queue -/

/-- What is in the queue of a caller is the last of what has arrived. -/
def Queued (done : List Deed) (t : Thread) : Prop :=
  ∀ b s k, t.strand b = some s → s.call = some k → k.events <:+ Deeds.arrived done

theorem Queued.step {ds : List Deed} (h : t.Queued done) (ha : t.Attached a)
    (hstep : Step context t ds t') : t'.Queued (done ++ ds) := by
  have kept {s s' u : Strand} {b c : ClientId} {sents : List Sent} (hs : t.strand b = some s)
      (hp : Posts sents (t.set b s') t') (hs' : s'.call = s.call) (hu : t'.strand c = some u) :
      ∃ v, t.strand c = some v ∧ v.call = u.call := by
    obtain ⟨v, w, hv, hsw, _, kept, writes, rfl, _⟩ := hp.of_set hs hu
    rcases hsw with ⟨_, rfl, rfl⟩ | ⟨_, rfl⟩
    · exact ⟨v, hv, hs'.symm⟩
    · exact ⟨w, hv, rfl⟩
  intro c u k hu hk
  rw [Deeds.arrived_append]
  cases hstep with
  | @moves b s s' acts hs hm =>
    obtain ⟨v, hv, hsw⟩ := of_strand_set hs hu
    rcases hsw with ⟨rfl, rfl, rfl⟩ | ⟨hne, rfl⟩
    · exact Strand.queued_move hm c (fun k hk => h c v k hv hk) k hk
    · -- who has the call is its caller, so nothing has arrived elsewhere
      have hb : b ≠ a := fun hb => by
        have hn := (ha.only c u hv (fun hc => hne (hc.trans hb.symm))).1
        rw [hk] at hn
        cases hn
      rw [arrived_moves hm (ha.only b s hs hb).1, List.append_nil]
      exact h c u k hv hk
  | joins hnone =>
    rw [show Deeds.arrived [] = [] from rfl, List.append_nil]
    rcases strand_of_join hu with hu | rfl
    · exact h c u k hu hk
    · cases hk
  | passesBy hr hp =>
    rw [show Deeds.arrived [] = [] from rfl, List.append_nil]
    obtain ⟨v, hv, kept, writes, rfl, _⟩ := hp.before c u hu
    exact h c v k hv hk
  | routes hs _ _ _ _ _ hp | leaves hs _ _ _ _ _ _ hp =>
    rw [(Deeds.of_offers _ 0 0).2.2.1, List.append_nil]
    obtain ⟨v, hv, hcall⟩ := kept hs hp rfl hu
    exact h c v k hv (hcall.trans hk)

/-! ### All that can come about -/

/-- A call has a caller to whom it is delivered, or nobody has made it. -/
structure Delivered (done : List Deed) (t : Thread) : Prop where
  custody : t.Custody
  orderly : t.Orderly
  records : t.Records done
  caller : t.Idle ∧ Deeds.offered done = [] ∧ Deeds.arrived done = [] ∨
    ∃ a, t.Waiting a ∧ t.Queued done ∧ ((∀ d ∈ done, d.2.Plain) →
      ∃ legs verdict, Delivery a done legs verdict t)

theorem delivered_of_blank (h : t.Blank) : t.Delivered [] :=
  ⟨custody_of_blank h, orderly_of_blank h, .blank h, .inl ⟨idle_of_blank h, rfl, rfl⟩⟩

theorem Delivered.step {ds : List Deed} (h : t.Delivered done) (hstep : Step context t ds t') :
    t'.Delivered (done ++ ds) where
  custody := h.custody.step hstep
  orderly := h.orderly.step hstep
  records := h.records.step hstep
  caller := by
    rcases h.caller with ⟨hi, ho, ha⟩ | ⟨a, hw, hq, hd⟩
    · obtain ⟨ho', ha'⟩ := hi.silent hstep
      refine .inl ⟨hi.step hstep, ?_, ?_⟩
      · rw [Deeds.offered_append, ho, ho']
        rfl
      · rw [Deeds.arrived_append, ha, ha']
        rfl
    · refine .inr ⟨a, hw.step hstep, hq.step hw.attached hstep, fun hp => ?_⟩
      have hp' (d : Deed) (hd : d ∈ done) : d.2.Plain := hp d (List.mem_append_left _ hd)
      obtain ⟨legs, verdict, h'⟩ := hd hp'
      exact h'.step h.custody h.orderly h.records hw hp' hstep

theorem delivered_of_opens (h : t.Blank) (ho : t.Opens t') : t'.Delivered [] where
  custody := custody_of_opens h ho
  orderly := orderly_of_opens h ho
  records := by
    obtain ⟨client, s, s', hs, hos, rfl⟩ := ho
    refine (Records.blank h).quiet quiet_nil fun c job => ?_
    rw [handler_set]
    split
    · next e =>
      rw [e, handler_of_strand hs]
      cases hos <;> rfl
    · rfl
  caller := by
    rcases waiting_of_opens h ho with hi | ⟨a, hw⟩
    · exact .inl ⟨hi, rfl, rfl⟩
    have hr : t'.running = none := by
      obtain ⟨client, s, s', _, _, rfl⟩ := ho
      exact h.running
    have hf : t'.Fresh ∧ t'.Queued [] := by
      obtain ⟨client, s, s', hs, hos, rfl⟩ := ho
      have hb := (h.strand client s hs).fresh
      have hcall := (h.strand client s hs).call
      refine ⟨fun c u hu => ?_, fun c u k hu hk => ?_⟩
      · obtain ⟨v, hv, hsw⟩ := of_strand_set hs hu
        rcases hsw with ⟨_, rfl, rfl⟩ | ⟨_, rfl⟩
        · cases hos with
          | issues =>
            exact ⟨by simp [hb.queue, reports_cons, event?], hb.uplink, hb.downlink, hb.calls,
              hb.serving, hb.handler⟩
          | @requests m hu' hm =>
            have he : m.event? = none := event?_eq_none_iff.2 (by simp [hm])
            exact ⟨by simp [hb.queue, reports_cons, he], hb.uplink, hb.downlink, hb.calls,
              hb.serving, hb.handler⟩
        · exact (h.strand c u hv).fresh
      · obtain ⟨v, hv, hsw⟩ := of_strand_set hs hu
        rcases hsw with ⟨_, rfl, rfl⟩ | ⟨_, rfl⟩
        · cases hos with
          | issues _ _ he =>
            obtain rfl := Option.some.inj hk
            rw [he]
            exact List.nil_suffix
          | requests => cases hcall.symm.trans hk
        · cases (h.strand c u hv).call.symm.trans hk
    refine .inr ⟨a, hw, hf.2, fun _ => ⟨[], none, .empty rfl, List.prefix_refl _,
      fun s hs => (hf.1 a s hs).coming, .asking hr hf.1⟩⟩

end Thread

/-! ### Networks -/

variable {η : Type}

/-- The value that a handler passes or ends a call with is plain. -/
def Operation.Plain : Operation η → Prop
  | update _ v => v.Plain
  | finish _ o => o.Plain
  | _ => True

theorem Operation.acts_plain {o : Operation η} (h : o.Plain) (context : String) (s : Station η) :
    ∀ act ∈ o.acts context s, act.Plain := by
  intro act ha
  unfold Operation.acts at ha
  split at ha
  · split at ha
    · rw [List.mem_singleton.1 ha]
      exact h
    · cases ha
  · split at ha
    · rw [List.mem_singleton.1 ha]
      exact h
    · cases ha
  · split at ha
    · rw [List.mem_singleton.1 ha]
      trivial
    · cases ha
  · cases ha

theorem Effect.acts_plain (context : String) (accepts : Bool) (f : Effect η) :
    ∀ act ∈ f.acts context accepts, act.Plain := by
  intro act ha
  unfold Effect.acts at ha
  split at ha
  · split at ha
    · rw [List.mem_singleton.1 ha]
      trivial
    · cases ha
  · split at ha
    · rw [List.mem_singleton.1 ha]
      trivial
    · cases ha
  · cases ha

/-- A handler that does something does it with plain values. -/
def NetworkEvent.Plain : NetworkEvent η → Prop
  | act _ o => o.Plain
  | _ => True

namespace Network

/-- What has come of a call at its caller, as an account of the call has it. -/
structure Delivered (context : String) (ds : List Deed) (net : Network η) (legs : List Leg)
    (verdict : Option Outcome) : Prop extends Account ds legs verdict where
  /-- The handlers serve this call and no other. -/
  own : ∀ l ∈ legs, ∀ job, l.job = some job → ∃ p c, net.ports.get? l.client = some p ∧
    p.station.jobs[job]? = some c ∧ c.context = context
  /-- What has arrived is what the legs have got, one after the other, and the end of the call. -/
  arrived : Deeds.arrived ds = stream legs verdict
  /-- What is in the caller's queue is the last of it. -/
  queue : ∀ client p k, net.ports.get? client = some p → p.station.calls.get? context = some k →
    k.events <:+ stream legs verdict

theorem job_of_started {net : Network η} {context : String} {done : List Deed}
    (h : (net.thread context).Records done) {l : Leg} (hl : l.Fits done) {job : JobId}
    (hj : l.job = some job) : ∃ p c, net.ports.get? l.client = some p ∧
      p.station.jobs[job]? = some c ∧ c.context = context := by
  unfold Leg.Fits at hl
  rw [hj] at hl
  cases hh : (net.thread context).handler l.client job with
  | none => exact ((h.unheard _ _ hh).2.2 _ hl.1).elim
  | some b =>
    obtain ⟨s, hs, hb⟩ := Option.bind_eq_some_iff.1 hh
    obtain ⟨p, hp, rfl⟩ := Option.map_eq_some_iff.1 hs
    obtain ⟨c, hc, _⟩ := Option.map_eq_some_iff.1 hb
    obtain ⟨hc, hcontext⟩ := Option.filter_eq_some_iff.1 hc
    exact ⟨p, c, hp, hc, of_decide_eq_true hcontext⟩

variable [DecidableEq η]

theorem deeds_plain (context : String) (net : Network η) {e : NetworkEvent η} (h : e.Plain) :
    ∀ d ∈ net.deeds context e, d.2.Plain := by
  intro d hd
  unfold deeds at hd
  split at hd
  · cases hd
  · rcases List.mem_append.1 hd with hd | hd
    · obtain ⟨act, ha, rfl⟩ := List.mem_map.1 hd
      rcases List.mem_append.1 ha with ha | ha
      · cases e with
        | act _ o => exact Operation.acts_plain h _ _ act ha
        | _ => cases ha
      · obtain ⟨f, _, hf⟩ := List.mem_flatMap.1 ha
        exact f.acts_plain _ _ act hf
    · obtain ⟨s, _, hs⟩ := List.mem_filterMap.1 hd
      split at hs
      · rw [← Option.some.inj hs]
        trivial
      · cases hs

theorem history_plain (context : String) (net : Network η) {es : List (NetworkEvent η)}
    (h : ∀ e ∈ es, e.Plain) : ∀ d ∈ history context net es, d.2.Plain := by
  induction es generalizing net with
  | nil => nofun
  | cons e es ih =>
    have hes : ∀ e ∈ es, e.Plain := fun e he => h e (List.mem_cons_of_mem _ he)
    intro d hd
    rcases List.mem_append.1 hd with hd | hd
    · exact deeds_plain context net (h e List.mem_cons_self) d hd
    · exact ih _ hes d hd

/-- In every run in which the contexts differ, what arrives at the caller of a call is what its
handlers have passed, in order, if their values are plain. -/
theorem delivered_of_run (es : List (NetworkEvent η))
    (hd : (ContextId.series (run ({} : Network η) es).serial).Nodup) (context : String)
    (hp : ∀ d ∈ history context ({} : Network η) es, d.2.Plain) :
    ∃ legs verdict, Delivered context (history context ({} : Network η) es) (run {} es) legs
      verdict := by
  have h : ((run ({} : Network η) es).thread context).Delivered (history context {} es) :=
    thread_induction (P := fun done t => t.Delivered done)
      (fun t t' hb ho => Thread.delivered_of_opens hb ho) (fun _ t _ t' h hs => h.step hs)
      (fun t hb => Thread.delivered_of_blank hb) es hd
  rcases h.caller with ⟨hi, ho, ha⟩ | ⟨a, hw, hq, hdelivery⟩
  · refine ⟨[], none, .empty ho, nofun, ha, fun client p k hport hk => ?_⟩
    have hn : (p.strand context).call = none := (hi.strand client _ (strand_thread hport)).1
    have hcall : (p.strand context).call = some k.detach := congrArg (Option.map _) hk
    cases hcall.symm.trans hn
  · obtain ⟨legs, verdict, h'⟩ := hdelivery hp
    obtain ⟨legs', verdict', hacc, harrived⟩ := h'.account.cut h'.arrived
    refine ⟨legs', verdict', hacc, fun l hl job => job_of_started h.records (hacc.fits l hl),
      harrived, fun client p k hport hk => ?_⟩
    rw [← harrived]
    exact hq client _ k.detach (strand_thread hport) (congrArg (Option.map _) hk)

/-- A call that is served by a handler, which passes a partial result and ends it. -/
def served : List (NetworkEvent Unit) :=
  serving ++ (errand 2 (.update 0 (.bool true)) 1 ++ errand 2 (.finish 0 (.value .null)) 1)

theorem leads_served : ∃ net p, ({} : Network Unit).Leads served net
      (fun context => if ContextId.ofNat 1 = context then
        [(2, .offered (some 1)), (2, .started 0 (some 1)), (2, .passed 0 (.bool true)),
          (1, .arrived (.update (.bool true))), (2, .ended 0 (.value .null)),
          (1, .arrived (.finished (.value .null)))] else []) ∧
    net.ports.get? 1 = some p ∧ p.station.calls.get? (ContextId.ofNat 1) = some {
      context := ContextId.ofNat 1, function := "f", args := .null
      events := [.update (.bool true), .finished (.value .null)] } := by
  obtain ⟨net, p, q, hleads, h⟩ := leads_serving
  have hsize := ContextId.size_ofNat 1
  have hends := Message.travels_confirmed 1
  generalize ContextId.ofNat 1 = context at *
  let k : InboundCall := { context, args := .null, depth := 0 }
  have hk : q.station.jobs[0]? = some k := by rw [h.job]; rfl
  have hserving : q.station.link.running.contains k.context = true := by
    rw [Keyed.contains, h.serves]
    rfl
  have hpasses : (Message.update k.context (.bool true)).Travels :=
    Message.travels_update ⟨trivial, rfl⟩ (by decide) (by rw [hsize, Json.size_true]; decide)
  -- a partial result
  have hupdate := leads_update h.callee h.calleeIdle hk rfl hserving hpasses h.running rfl rfl
    h.line h.caller h.callerIdle h.waits h.call rfl
  let p₁ : Port Unit := p.receiving context (.update (.bool true))
  have hcall : p₁.station.calls.get? context = some {
      context, function := "f", args := .null, events := [.update (.bool true)] } := by
    show (Keyed.modify _ _ _).get? _ = _
    rw [Keyed.get?_modify, if_pos rfl, h.call]
    rfl
  have hcaller : (net.change 1 p₁).ports.get? 1 = some p₁ := get?_change_self h.caller p₁
  have hcallee : (net.change 1 p₁).ports.get? 2 = some q :=
    (get?_change h.caller p₁ 2).trans h.callee
  -- the outcome
  let net₁ : Network Unit := { net.change 1 p₁ with serial := net.serial + 1 }
  have hcallee₁ : net₁.ports.get? 2 = some q := hcallee
  have hfinish := leads_finish hcallee₁ h.calleeIdle hk rfl hserving hends rfl h.running rfl rfl
    h.line ((get?_change hcallee _ 1).trans hcaller) (h.callerIdle.receiving ..) h.waits hcall rfl
  have hall := hleads.trans (hupdate.trans hfinish)
  refine ⟨_, p₁.receiving context (.finished (.value .null)),
    ⟨hall.run, fun other => (hall.history other).trans ?_⟩, ?_, ?_⟩
  · by_cases hc : context = other <;> simp [hc, k]
  · exact get?_change_self ((get?_change hcallee _ 1).trans hcaller) _
  · show (Keyed.modify _ _ _).get? _ = _
    rw [Keyed.get?_modify, if_pos rfl, hcall]
    rfl

/-- One handler has been started, and what it has passed and how it has ended the call have come to
the caller. -/
theorem delivered_served : ∃ p k, (run {} served).ports.get? 1 = some p ∧
    p.station.calls.get? (ContextId.ofNat 1) = some k ∧
    k.events = [.update (.bool true), .finished (.value .null)] ∧
    Delivered (ContextId.ofNat 1) (history (ContextId.ofNat 1) {} served) (run {} served)
      [⟨2, some 1, some 0, [.bool true]⟩] (some (.value .null)) := by
  have hplain : ∀ e ∈ served, e.Plain := by
    simp [served, serving, offering, errand, NetworkEvent.Plain, Operation.Plain, Outcome.Plain]
    exact ⟨⟨trivial, rfl⟩, ⟨trivial, rfl⟩⟩
  obtain ⟨legs, verdict, h⟩ := delivered_of_run served
    (ContextId.series_nodup (Nat.le_trans (serial_run_le ..) (by decide))) (ContextId.ofNat 1)
    (history_plain _ _ hplain)
  obtain ⟨net, p, hleads, hp, hcall⟩ := leads_served
  have hhistory := hleads.history (ContextId.ofNat 1)
  rw [if_pos rfl] at hhistory
  -- there is one offer
  have hoffered := h.offered
  rw [hhistory] at hoffered
  obtain ⟨⟨client, handler, job, got⟩, rfl, hoffer⟩ := List.map_eq_singleton_iff.1 hoffered.symm
  obtain ⟨rfl, rfl⟩ := Prod.mk.inj hoffer
  -- one partial result and the end have arrived
  have harrived := h.arrived
  rw [hhistory] at harrived
  have hstream : [.bool true].map CallEvent.update ++ [.finished (.value .null)] =
      got.map CallEvent.update ++ verdict.toList.map CallEvent.finished := by
    simpa [stream, events, Deeds.arrived] using harrived
  obtain ⟨rfl, rfl⟩ : got = [.bool true] ∧ verdict = some (.value .null) := by
    cases verdict with
    | none =>
      have hmem : CallEvent.finished (.value .null) ∈ got.map CallEvent.update := by
        rw [← List.append_nil (got.map _)]
        exact hstream ▸ List.mem_append_right _ (List.mem_singleton.2 rfl)
      simp at hmem
    | some o =>
      obtain ⟨hgot, ho⟩ := List.append_inj' hstream rfl
      obtain rfl := CallEvent.finished.inj (List.singleton_inj.1 ho)
      have hinj : Function.Injective CallEvent.update := fun _ _ => CallEvent.update.inj
      exact ⟨(List.map_injective_iff.2 hinj hgot).symm, rfl⟩
  -- so a handler has been started
  have hjob : job = some 0 := by
    have hfits := h.fits _ (List.mem_singleton.2 rfl)
    rw [hhistory] at hfits
    cases job with
    | none => cases hfits
    | some i =>
      obtain rfl : i = 0 := by simpa using hfits.1
      rfl
  subst hjob
  refine ⟨p, _, ?_, hcall, rfl, h⟩
  rw [hleads.run]
  exact hp

end Network
end Switchboard
