import Switchboard.Proofs.Directory.Registration
import Switchboard.Proofs.Participant.Arrivals

/-! # What a link has enlisted

A link puts a handler on its roster before the broker has answered, and takes it off again if the
broker rejects it.  In the meantime anything may happen.  The ledger is the history of that: it
lists all registrations that the link has made, rejected or not, with the answers.

* **Replaying.** `Roster.replay` is the roster on which some registrations have been made, and
  nothing else was ever done.  A roster with the same books is like it
  (`Roster.Books.alike_replay`).
* **Ledgers.** `Link.ledger` follows a link through its events.  What stands in a ledger are the
  registrations that have not been rejected.
* **Keeping.** `Link.Keeps` says that a link waits for the answers that are missing in the ledger
  and for no others, and that its roster has come about by the registrations in it.  Every event
  preserves that (`Link.Keeps.step`, `Link.keeps_run`).
* **Results.** The roster shows what stands (`Link.Keeps.books`), and no id is given out twice
  (`Link.Keeps.next_ne`). -/

namespace Switchboard

namespace Roster

variable {η : Type} [DecidableEq η] {r r' : Roster η} {gs : List (Registration η)}

/-! ### Replaying registrations -/

/-- Two rosters that find the same handlers, refuse the same ones and have the same size. -/
structure Alike (r r' : Roster η) : Prop where
  found : ∀ id, r.get? id = r'.get? id
  refused : ∀ name handler, r.serves name handler = r'.serves name handler
  size : r.size = r'.size

theorem Books.alike (h : r.Books gs) (h' : r'.Books gs) : r.Alike r' where
  found id := by
    have hhandlers : r.handlers = r'.handlers := Keyed.ext (h.handlers.trans h'.handlers.symm)
    rw [get?, get?, hhandlers]
  refused name handler := Bool.eq_iff_iff.2 (h.serves_iff.trans h'.serves_iff.symm)
  size := h.size_eq.trans h'.size_eq.symm

/-- Makes a registration that is given the id that it says. -/
def enter (r : Roster η) (g : Registration η) : Roster η :=
  match { r with issued := (g.id - 1).toNat }.register g.name g.priority g.handler with
  | .ok (_, r') => r'
  | .error _ => r

/-- The roster on which some registrations have been made and nothing else was done. -/
def replay (gs : List (Registration η)) : Roster η := gs.foldl enter {}

theorem Books.enter (h : r.Books gs) {g : Registration η} (hid : ∀ k ∈ gs, k.id ≠ g.id)
    (hnew : ∀ k ∈ gs, k.name = g.name → k.handler ≠ g.handler) : (r.enter g).Books (gs ++ [g]) := by
  have hbooks : { r with issued := (g.id - 1).toNat }.Books gs :=
    ⟨h.handlers, h.listed, h.recorded, h.distinct⟩
  have hno : ¬ { r with issued := (g.id - 1).toNat }.serves g.name g.handler = true := by
    rw [hbooks.serves_iff]
    rintro ⟨k, hk, hname, hhandler⟩
    exact hnew k hk hname hhandler
  obtain ⟨id, r', hreg⟩ := exists_register_of_not_serves hno g.priority
  have hsame : id = g.id := by
    rw [(register_eq hreg).1, nextId, UInt64.ofNat_add, UInt64.ofNat_toNat]
    exact UInt64.sub_add_cancel ..
  have hget : { r with issued := (g.id - 1).toNat }.get? id = none := by
    rw [Option.eq_none_iff_forall_not_mem]
    intro handler hget
    obtain ⟨k, hk, hkid, -⟩ := hbooks.get?_eq_some_iff.1 hget
    exact hid k hk (hkid.trans hsame)
  have hentered := hbooks.register hreg hget
  rw [hsame] at hentered
  rw [Roster.enter, hreg]
  exact hentered

omit [DecidableEq η] in
theorem Books.ids_nodup (h : r.Books gs) : (gs.map (·.id)).Nodup := by
  have hnodup := r.handlers.nodup
  rwa [h.handlers, List.map_map] at hnodup

theorem books_replay (hids : (gs.map (·.id)).Nodup)
    (hdistinct : ∀ g ∈ gs, ∀ g' ∈ gs, g.name = g'.name → g.handler = g'.handler → g = g') :
    (replay gs).Books gs := by
  induction gs using List.reverseRecOn with
  | nil => exact books_empty
  | append_singleton gs g ih =>
    rw [List.map_append, List.nodup_append] at hids
    obtain ⟨hids, -, hlast⟩ := hids
    have hid : ∀ k ∈ gs, k.id ≠ g.id := fun k hk =>
      hlast _ (List.mem_map_of_mem hk) _ (List.mem_singleton.2 rfl)
    have hbooks : (replay gs).Books gs := ih hids fun k hk k' hk' =>
      hdistinct k (List.mem_append_left _ hk) k' (List.mem_append_left _ hk')
    rw [replay, List.foldl_append]
    refine hbooks.enter hid fun k hk hname hhandler => hid k hk ?_
    have hg : g ∈ gs ++ [g] := List.mem_append_right _ (List.mem_singleton.2 rfl)
    rw [hdistinct k (List.mem_append_left _ hk) g hg hname hhandler]

/-- A roster is as it would be if the registrations that it shows had been made and no others. -/
theorem Books.alike_replay (h : r.Books gs) : r.Alike (replay gs) :=
  h.alike (books_replay h.ids_nodup h.distinct)

end Roster

variable {η : Type}

/-! ### Ledgers -/

/-- A registration that a link has made, with the broker's answer if there has been one. -/
structure Enlistment (η : Type) where
  context : String
  entry : Roster.Registration η
  answer : Option Outcome := none

namespace Enlistment

/-- Whether a registration stands: the broker has not rejected it. -/
def stands (b : Enlistment η) : Bool := b.answer.all (·.isValue)

/-- The first result under its context is the answer to a registration. -/
def hears (context : String) (o : Outcome) (b : Enlistment η) : Enlistment η :=
  if b.context = context ∧ b.answer = none then { b with answer := some o } else b

/-- The registrations that stand. -/
def standing (bs : List (Enlistment η)) : List (Roster.Registration η) :=
  (bs.filter (·.stands)).map (·.entry)

variable {b : Enlistment η} {bs : List (Enlistment η)} {context : String} {o : Outcome}

@[simp] theorem context_hears : (b.hears context o).context = b.context := by
  unfold hears
  split <;> rfl

@[simp] theorem entry_hears : (b.hears context o).entry = b.entry := by
  unfold hears
  split <;> rfl

theorem hears_of_waiting (hc : b.context = context) (ha : b.answer = none) :
    b.hears context o = { b with answer := some o } := if_pos ⟨hc, ha⟩

theorem hears_of_not (h : b.context = context → b.answer ≠ none) : b.hears context o = b :=
  if_neg fun ⟨hc, ha⟩ => h hc ha

/-- A registration that still waits has not heard anything. -/
theorem waits_of_hears (h : (b.hears context o).answer = none) :
    b.context ≠ context ∧ b.answer = none := by
  unfold hears at h
  split at h
  · cases h
  · next hn => exact ⟨fun hc => hn ⟨hc, h⟩, h⟩

theorem standing_append (bs cs : List (Enlistment η)) :
    standing (bs ++ cs) = standing bs ++ standing cs := by
  rw [standing, List.filter_append, List.map_append]
  rfl

theorem standing_map_hears (bs : List (Enlistment η)) (context : String) (o : Outcome) :
    standing (bs.map (hears context o)) =
      (bs.filter fun b => (b.hears context o).stands).map (·.entry) := by
  rw [standing, List.filter_map, List.map_map]
  exact List.map_congr_left fun b _ => entry_hears

theorem standing_of_value (ho : o.isValue = true) :
    standing (bs.map (hears context o)) = standing bs := by
  rw [standing_map_hears, standing]
  congr 1
  refine List.filter_congr fun b _ => ?_
  unfold hears
  split
  · next h => rw [stands, stands, h.2]; exact ho
  · rfl

/-- The one that hears anything else stands no more. -/
theorem standing_of_rejected (ho : o.isValue = false)
    (hwaits : ∀ b ∈ bs, b.context = context → b.answer = none) :
    standing (bs.map (hears context o)) = standing (bs.filter (·.context ≠ context)) := by
  rw [standing_map_hears, standing, List.filter_filter]
  congr 1
  refine List.filter_congr fun b hb => ?_
  by_cases hc : b.context = context
  · rw [hears_of_waiting hc (hwaits b hb hc)]
    simp [stands, ho, hc]
  · rw [hears_of_not fun h => (hc h).elim]
    simp [hc]

/-- Leaving out a context is leaving out the id that was given under it. -/
theorem standing_filter {id : HandlerId}
    (hid : ∀ b ∈ bs, b.context = context ↔ b.entry.id = id) :
    standing (bs.filter (·.context ≠ context)) = (standing bs).filter (·.id ≠ id) := by
  rw [standing, standing, List.filter_map, List.filter_filter, List.filter_filter]
  congr 1
  refine List.filter_congr fun b hb => ?_
  simp [hid b hb, Bool.and_comm]

theorem map_hears_of_not (h : ∀ b ∈ bs, b.context = context → b.answer ≠ none) :
    bs.map (hears context o) = bs := by
  rw [List.map_congr_left fun b hb => hears_of_not (h b hb), List.map_id']

end Enlistment

open Enlistment (hears standing)

namespace LinkEvent

/-- The context of a registration that is commanded. -/
def enrols? : LinkEvent η → Option String
  | .commanded (.register context ..) => some context
  | _ => none

theorem opens_of_enrols {e : LinkEvent η} {context : String} (h : e.enrols? = some context) :
    e.opens? = some context := by
  match e, h with
  | .commanded (.register ..), h => exact h

/-- Calls and registrations have different contexts, and no registration is withdrawn: nobody but
the link knows under which context it has asked for one. -/
structure Fresh [DecidableEq η] (es : List (LinkEvent η)) : Prop where
  distinct : (es.filterMap (·.opens?)).Nodup
  kept : ∀ context ∈ es.filterMap (·.enrols?), .commanded (.cancel context) ∉ es

theorem Fresh.of_append [DecidableEq η] {es fs : List (LinkEvent η)} (h : Fresh (es ++ fs)) :
    Fresh es where
  distinct := by
    have hd := h.distinct
    rw [List.filterMap_append] at hd
    exact hd.of_append_left
  kept context hc hmem := by
    refine h.kept context ?_ (List.mem_append_left _ hmem)
    rw [List.filterMap_append]
    exact List.mem_append_left _ hc

/-- A registration that is commanded has its context for itself. -/
theorem Fresh.sole [DecidableEq η] {before after : List (LinkEvent η)} {context name : String}
    {priority : UInt16} {handler : η}
    (h : Fresh (before ++ .commanded (.register context name priority handler) :: after)) :
    (∀ e ∈ before, e.opens? ≠ some context) ∧ (∀ e ∈ after, e.opens? ≠ some context) ∧
      .commanded (.cancel context) ∉ after := by
  let request : LinkEvent η := .commanded (.register context name priority handler)
  have hopens : request.opens? = some context := rfl
  have henrols : request.enrols? = some context := rfl
  have hd := h.distinct
  rw [List.filterMap_append, List.filterMap_cons_some hopens, List.nodup_append,
    List.nodup_cons] at hd
  obtain ⟨-, ⟨hlater, -⟩, hacross⟩ := hd
  refine ⟨fun e he ho => ?_, fun e he ho => ?_, fun hmem => ?_⟩
  · exact hacross _ (List.mem_filterMap.2 ⟨e, he, ho⟩) _ List.mem_cons_self rfl
  · exact hlater (List.mem_filterMap.2 ⟨e, he, ho⟩)
  · refine h.kept context ?_ (List.mem_append_right _ (List.mem_cons_of_mem _ hmem))
    rw [List.filterMap_append, List.filterMap_cons_some henrols]
    exact List.mem_append_right _ List.mem_cons_self

end LinkEvent

namespace Link

variable [DecidableEq η]

/-- What an event enters into the ledger of a link. -/
def enlist (l : Link η) (bs : List (Enlistment η)) : LinkEvent η → List (Enlistment η)
  | .commanded (.register context name priority handler) =>
    match l.roster.register name priority handler with
    | .ok (id, _) => bs ++ [Enlistment.mk context ⟨id, name, priority, handler⟩ none]
    | .error _ => bs
  | .heard (.result context o) => bs.map (hears context o)
  | _ => bs

/-- The ledger of a link after some events. -/
def ledger (l : Link η) (bs : List (Enlistment η)) : List (LinkEvent η) → List (Enlistment η)
  | [] => bs
  | e :: es => (l.step e).1.ledger (l.enlist bs e) es

variable {l l' : Link η} {bs : List (Enlistment η)} {e : LinkEvent η} {es : List (LinkEvent η)}

theorem ledger_snoc (l : Link η) (bs : List (Enlistment η)) (es : List (LinkEvent η))
    (e : LinkEvent η) : l.ledger bs (es ++ [e]) = (l.run es).1.enlist (l.ledger bs es) e := by
  induction es generalizing l bs with
  | nil => rfl
  | cons f es ih => exact ih (l.step f).1 (l.enlist bs f)

/-- What is in a ledger was there, or it was commanded. -/
theorem context_of_mem_ledger {b : Enlistment η} (h : b ∈ l.ledger bs es) :
    b.context ∈ bs.map (·.context) ∨ b.context ∈ es.filterMap (·.enrols?) := by
  induction es using List.reverseRecOn generalizing b with
  | nil => exact .inl (List.mem_map_of_mem h)
  | append_singleton es e ih =>
    rw [ledger_snoc] at h
    rw [List.filterMap_append, List.mem_append]
    have old {b' : Enlistment η} (hb' : b' ∈ l.ledger bs es) (hc : b'.context = b.context) :
        b.context ∈ bs.map (·.context) ∨ b.context ∈ es.filterMap (·.enrols?) ∨
          b.context ∈ [e].filterMap (·.enrols?) := by
      rw [← hc]
      exact (ih hb').imp_right .inl
    unfold enlist at h
    split at h
    · split at h
      · rcases List.mem_append.1 h with h | h
        · exact old h rfl
        · rw [List.mem_singleton.1 h]
          exact .inr (.inr (List.mem_singleton.2 rfl))
      · exact old h rfl
    · obtain ⟨b', hb', rfl⟩ := List.mem_map.1 h
      exact old hb' Enlistment.context_hears.symm
    · exact old h rfl

/-! ### Keeping a ledger -/

/-- A link waits for the answers that are missing in a ledger, and its roster has come about by the
registrations in it. -/
structure Keeps (l : Link η) (bs : List (Enlistment η)) : Prop where
  contexts : (bs.map (·.context)).Nodup
  waiting : ∀ b ∈ bs, b.answer = none →
    l.pending.get? b.context = some (.registration b.entry.id)
  known : ∀ context id, l.pending.get? context = some (.registration id) →
    ∃ b ∈ bs, b.context = context ∧ b.answer = none ∧ b.entry.id = id
  made : ∃ acts : List (Roster.Act η), l.roster = Roster.keeping.run {} acts ∧
    bs.map (·.entry) = Roster.keeping.created {} acts ∧
    (bs.length < 2 ^ 64 → standing bs = Roster.keeping.surviving {} acts)

theorem keeps_empty : ({} : Link η).Keeps [] where
  contexts := .nil
  waiting := by simp
  known _ _ h := by cases h
  made := ⟨[], rfl, rfl, fun _ => rfl⟩

namespace Keeps

section Reading

variable {acts : List (Roster.Act η)}

theorem created_length (h : bs.map (·.entry) = Roster.keeping.created {} acts) :
    (Roster.keeping.created ({} : Roster η) acts).length = bs.length := by
  rw [← h, List.length_map]

theorem books (h : l.Keeps bs) (hroom : bs.length < 2 ^ 64) : l.roster.Books (standing bs) := by
  obtain ⟨acts, hroster, hmade, hstanding⟩ := h.made
  rw [hroster, hstanding hroom]
  exact Roster.books_of_acts acts (created_length hmade ▸ hroom)

theorem next_ne (h : l.Keeps bs) (hroom : bs.length < 2 ^ 64) {b : Enlistment η} (hb : b ∈ bs) :
    b.entry.id ≠ l.roster.nextId := by
  obtain ⟨acts, hroster, hmade, -⟩ := h.made
  rw [hroster]
  exact Roster.next_ne_of_mem_created (created_length hmade ▸ hroom)
    (hmade ▸ List.mem_map_of_mem hb)

theorem ids_nodup (h : l.Keeps bs) (hroom : bs.length < 2 ^ 64) :
    (bs.map (·.entry.id)).Nodup := by
  obtain ⟨acts, -, hmade, -⟩ := h.made
  have hnodup := Roster.ids_nodup acts (created_length hmade ▸ hroom)
  rwa [← hmade, List.map_map] at hnodup

/-- A registration that a link waits for is the only one under its context. -/
theorem answer_of_pending (h : l.Keeps bs) {context : String} {id : HandlerId}
    (hp : l.pending.get? context = some (.registration id)) {b : Enlistment η} (hb : b ∈ bs)
    (hc : b.context = context) : b.answer = none ∧ b.entry.id = id := by
  obtain ⟨b', hb', hc', ha, hid⟩ := h.known context id hp
  obtain rfl := List.inj_on_of_nodup_map h.contexts hb hb' (hc.trans hc'.symm)
  exact ⟨ha, hid⟩

theorem context_iff (h : l.Keeps bs) (hroom : bs.length < 2 ^ 64) {context : String}
    {id : HandlerId} (hp : l.pending.get? context = some (.registration id)) :
    ∀ b ∈ bs, b.context = context ↔ b.entry.id = id := by
  intro b hb
  obtain ⟨b', hb', hc', -, hid'⟩ := h.known context id hp
  constructor
  · intro hc
    exact (h.answer_of_pending hp hb hc).2
  · intro hid
    rw [List.inj_on_of_nodup_map (h.ids_nodup hroom) hb hb' (hid.trans hid'.symm)]
    exact hc'

theorem map_hears (h : l.Keeps bs) {context : String}
    (hp : ∀ id, l.pending.get? context ≠ some (.registration id)) (o : Outcome) :
    bs.map (hears context o) = bs := by
  refine Enlistment.map_hears_of_not fun b hb hc ha => hp b.entry.id ?_
  rw [← hc]
  exact h.waiting b hb ha

end Reading

/-! ### What events do to it -/

/-- Only what waits for an answer and the roster matter. -/
theorem congr (h : l.Keeps bs)
    (hp : ∀ b ∈ bs, b.answer = none → l'.pending.get? b.context = l.pending.get? b.context)
    (hk : ∀ context id, l'.pending.get? context = some (.registration id) →
      l.pending.get? context = some (.registration id))
    (hr : l'.roster = l.roster) : l'.Keeps bs where
  contexts := h.contexts
  waiting b hb ha := (hp b hb ha).trans (h.waiting b hb ha)
  known context id hw := h.known context id (hk context id hw)
  made := hr ▸ h.made

theorem erase (h : l.Keeps bs) {context : String}
    (hc : ∀ b ∈ bs, b.answer = none → b.context ≠ context)
    (hp : l'.pending = l.pending.erase context) (hr : l'.roster = l.roster) : l'.Keeps bs := by
  refine h.congr (fun b hb ha => ?_) (fun other id hw => ?_) hr
  · rw [hp, Keyed.get?_erase_of_ne _ (hc b hb ha)]
  · rw [hp, Keyed.get?_erase] at hw
    split at hw
    · cases hw
    · exact hw

theorem calls (h : l.Keeps bs) {context : String} (hc : ∀ b ∈ bs, b.context ≠ context) :
    { l with pending := l.pending.insert context .call }.Keeps bs := by
  refine h.congr (fun b hb _ => ?_) (fun other id hw => ?_) rfl
  · exact Keyed.get?_insert_of_ne _ _ (hc b hb)
  · rw [Keyed.get?_insert] at hw
    split at hw
    · cases hw
    · exact hw

theorem registers (h : l.Keeps bs) {context name : String} {priority : UInt16} {handler : η}
    {id : HandlerId} {roster : Roster η} (hc : ∀ b ∈ bs, b.context ≠ context)
    (hr : l.roster.register name priority handler = .ok (id, roster)) :
    { l with roster, pending := l.pending.insert context (.registration id) }.Keeps
      (bs ++ [Enlistment.mk context ⟨id, name, priority, handler⟩ none]) where
  contexts := by
    rw [List.map_append, List.nodup_append]
    refine ⟨h.contexts, List.nodup_singleton _, ?_⟩
    intro k hk k' hk'
    obtain ⟨b, hb, rfl⟩ := List.mem_map.1 hk
    obtain rfl : k' = context := List.mem_singleton.1 hk'
    exact hc b hb
  waiting b hb ha := by
    show (l.pending.insert context (.registration id)).get? b.context = _
    rw [Keyed.get?_insert]
    rcases List.mem_append.1 hb with hb | hb
    · rw [if_neg (hc b hb)]
      exact h.waiting b hb ha
    · rw [List.mem_singleton.1 hb, if_pos rfl]
  known other id' hw := by
    change (l.pending.insert context (.registration id)).get? other = _ at hw
    rw [Keyed.get?_insert] at hw
    split at hw
    · next ho =>
      obtain rfl := Pending.registration.inj (Option.some.inj hw)
      exact ⟨_, List.mem_append_right _ (List.mem_singleton.2 rfl), ho.symm, rfl, rfl⟩
    · obtain ⟨b, hb, hw⟩ := h.known other id' hw
      exact ⟨b, List.mem_append_left _ hb, hw⟩
  made := by
    obtain ⟨acts, hroster, hmade, hstanding⟩ := h.made
    rw [hroster] at hr
    obtain ⟨hstep, hmakes⟩ := Roster.keeping_of_ok hr
    refine ⟨acts ++ [.register name priority handler], ?_, ?_, ?_⟩
    · rw [Making.run_snoc, hstep]
    · rw [Making.created_snoc, hmakes, List.map_append, hmade]
      rfl
    · intro hroom
      rw [List.length_append] at hroom
      have hspared : (Roster.keeping.surviving ({} : Roster η) acts).filter
          (Roster.keeping.spares (.register name priority handler)) =
            Roster.keeping.surviving {} acts := List.filter_eq_self.2 fun _ _ => rfl
      rw [Making.surviving_snoc, hmakes, hspared, Enlistment.standing_append,
        hstanding (Nat.lt_of_le_of_lt (Nat.le_add_right _ _) hroom)]
      rfl

theorem answered (h : l.Keeps bs) {context : String} {o : Outcome}
    (hl : l'.pending = l.pending.erase context)
    (hmade : ∃ acts : List (Roster.Act η), l'.roster = Roster.keeping.run {} acts ∧
      bs.map (·.entry) = Roster.keeping.created {} acts ∧
      (bs.length < 2 ^ 64 →
        standing (bs.map (hears context o)) = Roster.keeping.surviving {} acts)) :
    l'.Keeps (bs.map (hears context o)) where
  contexts := by
    have hsame : (bs.map (hears context o)).map (·.context) = bs.map (·.context) := by
      rw [List.map_map]
      exact List.map_congr_left fun _ _ => Enlistment.context_hears
    exact hsame ▸ h.contexts
  waiting b' hb' ha := by
    obtain ⟨b, hb, rfl⟩ := List.mem_map.1 hb'
    obtain ⟨hc, ha⟩ := Enlistment.waits_of_hears ha
    rw [hl, Enlistment.context_hears, Enlistment.entry_hears, Keyed.get?_erase_of_ne _ hc]
    exact h.waiting b hb ha
  known other id' hw := by
    rw [hl, Keyed.get?_erase] at hw
    split at hw
    · cases hw
    · next hother =>
      obtain ⟨b, hb, hc, hb'⟩ := h.known other id' hw
      refine ⟨b, List.mem_map.2 ⟨b, hb, ?_⟩, hc, hb'⟩
      exact Enlistment.hears_of_not fun h => (hother (hc.symm.trans h)).elim
  made := by
    obtain ⟨acts, hroster, hcreated, hstanding⟩ := hmade
    refine ⟨acts, hroster, ?_, fun hroom => hstanding (by rwa [List.length_map] at hroom)⟩
    rw [List.map_map, ← hcreated]
    exact List.map_congr_left fun _ _ => Enlistment.entry_hears

theorem confirms (h : l.Keeps bs) {context : String} {o : Outcome} (ho : o.isValue = true) :
    { l with pending := l.pending.erase context }.Keeps (bs.map (hears context o)) := by
  obtain ⟨acts, hroster, hmade, hstanding⟩ := h.made
  refine h.answered rfl ⟨acts, hroster, hmade, fun hroom => ?_⟩
  rw [Enlistment.standing_of_value ho]
  exact hstanding hroom

theorem rejects (h : l.Keeps bs) {context : String} {o : Outcome} {id : HandlerId}
    (hp : l.pending.get? context = some (.registration id)) (ho : o.isValue = false) :
    { l with pending := l.pending.erase context, roster := l.roster.remove id }.Keeps
      (bs.map (hears context o)) := by
  obtain ⟨acts, hroster, hmade, hstanding⟩ := h.made
  refine h.answered rfl ⟨acts ++ [.remove id], ?_, ?_, fun hroom => ?_⟩
  · rw [Making.run_snoc, ← hroster]
    rfl
  · rw [Making.created_snoc, hmade]
    exact (List.append_nil _).symm
  · rw [Enlistment.standing_of_rejected ho fun b hb hc => (h.answer_of_pending hp hb hc).1,
      Enlistment.standing_filter (h.context_iff hroom hp), hstanding hroom, Making.surviving_snoc]
    exact (List.append_nil _).symm

/-- The ledger is kept by every event that the link survives. -/
theorem step (h : l.Keeps bs) (hopens : ∀ b ∈ bs, e.opens? ≠ some b.context)
    (hcancel : ∀ b ∈ bs, e ≠ .commanded (.cancel b.context)) (hup : (l.step e).1.up = true) :
    (l.step e).1.Keeps (l.enlist bs e) := by
  have hreacts := l.reacts_step e
  generalize l.step e = r at hreacts hup ⊢
  cases hreacts with
  | skips hs =>
    cases hs with
    | lost hd => exact Bool.noConfusion (hd.symm.trans hup)
    | answered hp =>
      rw [enlist, h.map_hears (by rw [hp]; rintro _ ⟨⟩)]
      exact h
    | withdrawal | update | finish | served | updated | withdrawn | registered => exact h
  | notes _ hn =>
    cases hn with
    | refuses hr =>
      rw [enlist, hr]
      exact h
    | ends hp =>
      rw [enlist, h.map_hears (by rw [hp]; rintro _ ⟨⟩)]
      refine h.erase (fun b hb ha hc => ?_) rfl rfl
      have hw := h.waiting b hb ha
      rw [hc, hp] at hw
      cases hw
    | confirms _ ho => exact h.confirms ho
    | rejects hp ho => exact h.rejects hp ho
    | starts | passes | stops | deafens =>
      exact h.congr (fun _ _ _ => rfl) (fun _ _ hw => hw) rfl
  | wrote _ hw =>
    cases hw with
    | registers hr =>
      rw [enlist, hr]
      exact h.registers (fun b hb hc => hopens b hb (congrArg some hc.symm)) hr
    | calls c => exact h.calls fun b hb hc => hopens b hb (congrArg some hc.symm)
    | cancels => exact h.erase (fun b hb _ hc => hcancel b hb (by rw [hc])) rfl rfl
    | updates | finishes | declines => exact h.congr (fun _ _ _ => rfl) (fun _ _ hw => hw) rfl
  | breaks | falls => cases hup

end Keeps

theorem up_of_snoc (h : (l.run (es ++ [e])).1.up = true) : (l.run es).1.up = true := by
  cases hu : (l.run es).1.up with
  | true => rfl
  | false =>
    rw [run_append, run_of_lost hu] at h
    exact hu.symm.trans h

theorem keeps_run (hf : LinkEvent.Fresh es) (hup : (run ({} : Link η) es).1.up = true) :
    (run ({} : Link η) es).1.Keeps (ledger {} [] es) := by
  induction es using List.reverseRecOn with
  | nil => exact keeps_empty
  | append_singleton es e ih =>
    have hkeeps := ih hf.of_append (up_of_snoc hup)
    have hmember : ∀ b ∈ ledger ({} : Link η) [] es, b.context ∈ es.filterMap (·.enrols?) := by
      intro b hb
      rcases context_of_mem_ledger hb with h | h
      · cases h
      · exact h
    rw [ledger_snoc]
    rw [run_append] at hup ⊢
    refine hkeeps.step (fun b hb ho => ?_) (fun b hb he => ?_) hup
    · obtain ⟨f, hfmem, hfe⟩ := List.mem_filterMap.1 (hmember b hb)
      have hd := hf.distinct
      rw [List.filterMap_append, List.nodup_append] at hd
      refine hd.2.2 b.context (List.mem_filterMap.2 ⟨f, hfmem, LinkEvent.opens_of_enrols hfe⟩)
        b.context ?_ rfl
      exact List.mem_filterMap.2 ⟨e, List.mem_singleton.2 rfl, ho⟩
    · refine hf.kept b.context ?_ (List.mem_append_right _ (List.mem_singleton.2 he.symm))
      rw [List.filterMap_append]
      exact List.mem_append_left _ (hmember b hb)

end Link
end Switchboard
