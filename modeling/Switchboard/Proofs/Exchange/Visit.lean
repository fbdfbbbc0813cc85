import Switchboard.Exchange.Basic

/-! # Visiting calls one after the other

The exchange serves many calls at once, but what it does to one of them leaves the others alone.

* **Contexts.** Every notice is about one context (`Notice.context`), and `about` picks out of all
  that is sent what is about a given one.
* **Offers.** A call is offered to handlers in turn (`offering`), and all offers but the last have
  failed (`offer_cases`).
* **Visits.** A client that leaves may concern many calls, which are visited one after the other.
  `Local` says that a visit depends on one context and changes nothing else, so of all visits only
  its own counts for a context (`forEach_of_mem`, `forEach_of_not_mem`).  Withdrawing a call and
  handing it on are local. -/

namespace Switchboard

/-- The call or registration that a notice is about. -/
def Notice.context : Notice → String
  | registered context | answered context _ | updated context _ | withdrawn context => context
  | offered _ c => c.context

@[simp] theorem Notice.context_message (n : Notice) : n.message.context = n.context := by
  cases n <;> rfl

/-- What of all that is sent is about one context. -/
def about (context : String) (sents : List Sent) : List Sent :=
  sents.filter (·.notice.context = context)

@[simp] theorem about_nil (context : String) : about context [] = [] := rfl

@[simp] theorem about_append (context : String) (s t : List Sent) :
    about context (s ++ t) = about context s ++ about context t := List.filter_append ..

theorem about_eq_self {context : String} {sents : List Sent}
    (h : ∀ s ∈ sents, s.notice.context = context) : about context sents = sents :=
  List.filter_eq_self.2 (by simpa using h)

theorem about_eq_nil {context other : String} {sents : List Sent}
    (h : ∀ s ∈ sents, s.notice.context = other) (hne : other ≠ context) :
    about context sents = [] := by
  refine List.filter_eq_nil_iff.2 fun s hs => ?_
  rw [h s hs]
  simpa using hne

namespace Exchange

/-! ### Offers -/

/-- The offer of a call to a handler. -/
def offering (x : Exchange) (c : Call) (e : Entry Route) : Sent :=
  x.send e.value.client (.offered e.rank { c with handler := e.value.handler })

/-- Whether a client's line takes what is sent to it. -/
def Reachable (x : Exchange) (client : ClientId) : Prop := x.lines.get? client = some .live

instance (x : Exchange) (client : ClientId) : Decidable (x.Reachable client) :=
  inferInstanceAs (Decidable (_ = _))

/-- None of some handlers can be reached. -/
def Unreachable (x : Exchange) (es : List (Entry Route)) : Prop :=
  ∀ e ∈ es, ¬ x.Reachable e.value.client

@[simp] theorem send_client (x : Exchange) (client : ClientId) (n : Notice) :
    (x.send client n).client = client := rfl

@[simp] theorem send_notice (x : Exchange) (client : ClientId) (n : Notice) :
    (x.send client n).notice = n := rfl

theorem send_delivered (x : Exchange) (client : ClientId) (n : Notice) :
    (x.send client n).delivered = true ↔ x.Reachable client := decide_eq_true_iff

theorem send_congr {x y : Exchange} (h : x.lines = y.lines) : x.send = y.send := by
  funext client n
  simp only [send, h]

/-- A call is offered up to the first handler that can be reached. -/
theorem offer_cases (x : Exchange) (c : Call) (es : List (Entry Route)) :
    (x.offer c es = (es.map (x.offering c), none) ∧ x.Unreachable es) ∨
      ∃ missed e rest, es = missed ++ e :: rest ∧ x.Unreachable missed ∧
        x.Reachable e.value.client ∧
        x.offer c es = ((missed ++ [e]).map (x.offering c), some e) := by
  induction es with
  | nil => exact .inl ⟨rfl, by simp [Unreachable]⟩
  | cons e es ih =>
    rw [offer]
    by_cases h : x.Reachable e.value.client
    · rw [if_pos ((x.send_delivered ..).2 h)]
      exact .inr ⟨[], e, es, rfl, by simp [Unreachable], h, rfl⟩
    · rw [if_neg (mt (x.send_delivered ..).1 h)]
      rcases ih with ⟨ho, hu⟩ | ⟨missed, f, rest, rfl, hu, hf, ho⟩
      · rw [ho]
        exact .inl ⟨rfl, List.forall_mem_cons.2 ⟨h, hu⟩⟩
      · rw [ho]
        exact .inr ⟨e :: missed, f, rest, rfl, List.forall_mem_cons.2 ⟨h, hu⟩, hf, rfl⟩

theorem offer_congr {x y : Exchange} (h : x.lines = y.lines) (c : Call) (es : List (Entry Route)) :
    x.offer c es = y.offer c es := by
  induction es with
  | nil => rfl
  | cons e es ih => simp only [offer, send_congr h, ih]

theorem context_of_mem_offers {x : Exchange} {c : Call} {es : List (Entry Route)} {s : Sent}
    (h : s ∈ es.map (x.offering c)) : s.notice.context = c.context := by
  obtain ⟨e, _, rfl⟩ := List.mem_map.1 h
  rfl

/-! ### Coherence -/

/-- Every running call is filed under its own context. -/
def Coherent (x : Exchange) : Prop :=
  ∀ context r, x.running.get? context = some r → r.call.context = context

/-! ### Visiting calls one after the other -/

/-- Something that is done to one call and leaves all others alone. -/
structure Local (f : Exchange → String → Exchange × List Sent) : Prop where
  lines : ∀ x context, (f x context).1.lines = x.lines
  directory : ∀ x context, (f x context).1.directory = x.directory
  elsewhere : ∀ x context other, other ≠ context →
    (f x context).1.running.get? other = x.running.get? other
  coherent : ∀ x context, x.Coherent → (f x context).1.Coherent
  context : ∀ x context, x.Coherent → ∀ s ∈ (f x context).2, s.notice.context = context
  congr : ∀ x y context, x.lines = y.lines → x.directory = y.directory →
    x.running.get? context = y.running.get? context →
    (f x context).1.running.get? context = (f y context).1.running.get? context ∧
      (f x context).2 = (f y context).2

namespace Local

variable {f : Exchange → String → Exchange × List Sent}

theorem forEach_lines (hf : Local f) (x : Exchange) (cs : List String) :
    (forEach f x cs).1.lines = x.lines := by
  induction cs generalizing x with
  | nil => rfl
  | cons c cs ih => exact (ih (f x c).1).trans (hf.lines x c)

theorem forEach_directory (hf : Local f) (x : Exchange) (cs : List String) :
    (forEach f x cs).1.directory = x.directory := by
  induction cs generalizing x with
  | nil => rfl
  | cons c cs ih => exact (ih (f x c).1).trans (hf.directory x c)

theorem forEach_coherent (hf : Local f) {x : Exchange} (hx : x.Coherent) (cs : List String) :
    (forEach f x cs).1.Coherent := by
  induction cs generalizing x with
  | nil => exact hx
  | cons c cs ih => exact ih (hf.coherent x c hx)

/-- Calls that are not visited stay as they are, and nothing is sent about them. -/
theorem forEach_of_not_mem (hf : Local f) {x : Exchange} (hx : x.Coherent) {cs : List String}
    {context : String} (h : context ∉ cs) :
    (forEach f x cs).1.running.get? context = x.running.get? context ∧
      about context (forEach f x cs).2 = [] := by
  induction cs generalizing x with
  | nil => exact ⟨rfl, rfl⟩
  | cons c cs ih =>
    obtain ⟨hne, h⟩ := not_or.1 (mt List.mem_cons.2 h)
    obtain ⟨hr, ha⟩ := ih (hf.coherent x c hx) h
    refine ⟨hr.trans (hf.elsewhere x c context hne), ?_⟩
    rw [forEach, about_append, ha, about_eq_nil (hf.context x c hx) (Ne.symm hne)]
    rfl

/-- For a call that is visited once only its own visit counts. -/
theorem forEach_of_mem (hf : Local f) {x : Exchange} (hx : x.Coherent) {cs : List String}
    (hn : cs.Nodup) {context : String} (h : context ∈ cs) :
    (forEach f x cs).1.running.get? context = (f x context).1.running.get? context ∧
      about context (forEach f x cs).2 = (f x context).2 := by
  induction cs generalizing x with
  | nil => cases h
  | cons c cs ih =>
    obtain ⟨hc, hn⟩ := List.nodup_cons.1 hn
    rcases List.mem_cons.1 h with rfl | h
    · obtain ⟨hr, ha⟩ := hf.forEach_of_not_mem (hf.coherent x context hx) hc
      refine ⟨hr, ?_⟩
      rw [forEach, about_append, ha, about_eq_self (hf.context x context hx), List.append_nil]
    · have hne : context ≠ c := fun e => hc (e ▸ h)
      obtain ⟨hr, ha⟩ := ih (hf.coherent x c hx) hn h
      obtain ⟨hr', ha'⟩ := hf.congr (f x c).1 x context (hf.lines x c) (hf.directory x c)
        (hf.elsewhere x c context hne)
      refine ⟨hr.trans hr', ?_⟩
      rw [forEach, about_append, ha, about_eq_nil (hf.context x c hx) (Ne.symm hne), ha']
      rfl

end Local

/-! ### Withdrawing and going on -/

theorem Coherent.erase {x : Exchange} (h : x.Coherent) (context : String) :
    Coherent { x with running := x.running.erase context } := by
  intro d r hr
  simp only [Keyed.get?_erase] at hr
  split at hr
  · cases hr
  · exact h d r hr

theorem withdraw_none {x : Exchange} {context : String} (h : x.running.get? context = none) :
    x.withdraw context = (x, []) := by
  rw [withdraw, h]

theorem withdraw_some {x : Exchange} {context : String} {r : Running}
    (h : x.running.get? context = some r) :
    x.withdraw context = ({ x with running := x.running.erase context },
      [x.send r.callee.value.client (.withdrawn context)]) := by
  rw [withdraw, h]

theorem local_withdraw : Local withdraw where
  lines x c := by cases h : x.running.get? c <;> simp [withdraw, h]
  directory x c := by cases h : x.running.get? c <;> simp [withdraw, h]
  elsewhere x c d hd := by
    cases h : x.running.get? c <;> simp [withdraw, h, Keyed.get?_erase, hd]
  coherent x c hx := by
    cases h : x.running.get? c with
    | none => rw [withdraw_none h]; exact hx
    | some r => rw [withdraw_some h]; exact hx.erase c
  context x c _ s hs := by
    cases h : x.running.get? c with
    | none => rw [withdraw_none h] at hs; cases hs
    | some r => rw [withdraw_some h] at hs; rw [List.mem_singleton.1 hs]; rfl
  congr x y c hl _ hr := by
    cases h : x.running.get? c with
    | none =>
      rw [withdraw_none h, withdraw_none (hr ▸ h)]
      exact ⟨hr, rfl⟩
    | some r =>
      rw [withdraw_some h, withdraw_some (hr ▸ h)]
      exact ⟨by simp, by rw [send_congr hl]⟩

theorem reroute_none {x : Exchange} {context : String} (h : x.running.get? context = none) :
    x.reroute context = (x, []) := by
  rw [reroute, h]

/-- A call that goes on either finds a next handler or is answered as declined. -/
theorem reroute_cases {x : Exchange} {context : String} {r : Running}
    (h : x.running.get? context = some r) :
    (x.Unreachable (x.directory.after r.call.function r.callee.rank) ∧
      x.reroute context = ({ x with running := x.running.erase context },
        (x.directory.after r.call.function r.callee.rank).map (x.offering r.call) ++
          [x.send r.caller (.answered context .declined)])) ∨
      ∃ missed e rest,
        x.directory.after r.call.function r.callee.rank = missed ++ e :: rest ∧
        x.Unreachable missed ∧ x.Reachable e.value.client ∧
        x.reroute context = ({ x with
          running := x.running.modify context fun r =>
            { r with callee := e, call := { r.call with handler := e.value.handler } } },
          (missed ++ [e]).map (x.offering r.call)) := by
  rw [reroute, h]
  rcases x.offer_cases r.call (x.directory.after r.call.function r.callee.rank) with
    ⟨ho, hu⟩ | ⟨missed, e, rest, hd, hm, he, ho⟩
  · exact .inl ⟨hu, by simp only [ho]⟩
  · exact .inr ⟨missed, e, rest, hd, hm, he, by simp only [ho]⟩

theorem local_reroute : Local reroute where
  lines x c := by
    cases h : x.running.get? c with
    | none => rw [reroute_none h]
    | some r => rcases reroute_cases h with ⟨_, e⟩ | ⟨_, _, _, _, _, _, e⟩ <;> rw [e]
  directory x c := by
    cases h : x.running.get? c with
    | none => rw [reroute_none h]
    | some r => rcases reroute_cases h with ⟨_, e⟩ | ⟨_, _, _, _, _, _, e⟩ <;> rw [e]
  elsewhere x c d hd := by
    cases h : x.running.get? c with
    | none => rw [reroute_none h]
    | some r =>
      rcases reroute_cases h with ⟨_, e⟩ | ⟨_, _, _, _, _, _, e⟩ <;>
        simp [e, Keyed.get?_erase, Keyed.get?_modify, hd]
  coherent x c hx := by
    cases h : x.running.get? c with
    | none => rw [reroute_none h]; exact hx
    | some r =>
      rcases reroute_cases h with ⟨_, e⟩ | ⟨_, _, _, _, _, _, e⟩
      · rw [e]; exact hx.erase c
      · rw [e]
        intro d s hs
        simp only [Keyed.get?_modify] at hs
        split at hs
        · obtain ⟨t, ht, rfl⟩ := Option.map_eq_some_iff.1 hs
          exact hx d t ht
        · exact hx d s hs
  context x c hx s hs := by
    cases h : x.running.get? c with
    | none => rw [reroute_none h] at hs; cases hs
    | some r =>
      have hc := hx c r h
      rcases reroute_cases h with ⟨_, e⟩ | ⟨_, _, _, _, _, _, e⟩
      · rw [e] at hs
        rcases List.mem_append.1 hs with hs | hs
        · exact (context_of_mem_offers hs).trans hc
        · rw [List.mem_singleton.1 hs]; rfl
      · rw [e] at hs
        exact (context_of_mem_offers hs).trans hc
  congr x y c hl hd hr := by
    cases h : x.running.get? c with
    | none =>
      rw [reroute_none h, reroute_none (hr ▸ h)]
      exact ⟨hr, rfl⟩
    | some r =>
      have hy : y.running.get? c = some r := hr ▸ h
      simp only [reroute, h, hy, offer_congr hl, hd, send_congr hl]
      split
      · exact ⟨by simp only [Keyed.get?_modify, if_true, hr], rfl⟩
      · exact ⟨by simp only [Keyed.get?_erase_self], rfl⟩

/-! ### Lines and directory -/

/-- Messages do not change the lines, and of them only registrations change the directory. -/
theorem receive_frame (x : Exchange) (client : ClientId) (m : Message) :
    (x.receive client m).1.lines = x.lines ∧
      (x.receive client m).1.directory =
        match m with
        | .register _ f p h => x.directory.insert f p ⟨client, h⟩
        | _ => x.directory := by
  cases m with
  | register => exact ⟨rfl, rfl⟩
  | call c =>
    simp only [receive, call]
    repeat' split
    all_goals exact ⟨rfl, rfl⟩
  | update =>
    simp only [receive, update]
    repeat' split
    all_goals exact ⟨rfl, rfl⟩
  | result d o =>
    simp only [receive, result]
    repeat' split
    · exact ⟨local_reroute.lines x d, local_reroute.directory x d⟩
    all_goals exact ⟨rfl, rfl⟩
  | cancel d =>
    simp only [receive, cancel]
    repeat' split
    · exact ⟨local_withdraw.lines x d, local_withdraw.directory x d⟩
    all_goals exact ⟨rfl, rfl⟩

theorem receive_lines (x : Exchange) (client : ClientId) (m : Message) :
    (x.receive client m).1.lines = x.lines := (x.receive_frame client m).1

theorem receive_directory (x : Exchange) (client : ClientId) (m : Message) :
    (x.receive client m).1.directory =
      match m with
      | .register _ f p h => x.directory.insert f p ⟨client, h⟩
      | _ => x.directory := (x.receive_frame client m).2

theorem leave_lines (x : Exchange) (client : ClientId) :
    (x.leave client).1.lines = x.lines.erase client := by
  show (forEach reroute (forEach withdraw (x.forget client) _).1 _).1.lines = _
  rw [local_reroute.forEach_lines, local_withdraw.forEach_lines]
  rfl

theorem leave_directory (x : Exchange) (client : ClientId) :
    (x.leave client).1.directory = x.directory.retain fun _ r => r.client ≠ client := by
  show (forEach reroute (forEach withdraw (x.forget client) _).1 _).1.directory = _
  rw [local_reroute.forEach_directory, local_withdraw.forEach_directory]
  rfl

end Exchange
end Switchboard
