import Mathlib.Data.List.Induction
import Switchboard.Proofs.Directory.Order
import Switchboard.Proofs.Exchange.Turn

/-! # What the exchange knows fits together

The running calls, the directory and the lines are three collections, and none of them says what
another one denies.

* **Directory.** It is in order in every state (`ordered_step`), an event makes at most one entry,
  of a rank that was never used before (`mem_entries_step`), and entries and lines go away with
  their client only (`mem_entries_stays`, `line_stays`).
* **Running calls.** Each stands at an entry of the directory whose client has a line
  (`Placed`), and goes back to a call that was accepted and has been served ever since
  (`Service`, `Origin`).
* **Main statement.** `running_consistent`: all of this holds of every running call after every run,
  and no name is listed without entries. -/

namespace Switchboard
namespace Exchange

/-! ### Runs -/

theorem run_append (x : Exchange) (es es' : List ExchangeEvent) :
    x.run (es ++ es') = (((x.run es).1.run es').1, (x.run es).2 ++ ((x.run es).1.run es').2) := by
  induction es generalizing x with
  | nil => rfl
  | cons e es ih =>
    simp only [List.cons_append, run, ih, List.append_assoc]

theorem run_snoc (x : Exchange) (es : List ExchangeEvent) (e : ExchangeEvent) :
    x.run (es ++ [e]) = (((x.run es).1.step e).1, (x.run es).2 ++ ((x.run es).1.step e).2) := by
  rw [run_append]
  simp [run]

theorem coherent_run (es : List ExchangeEvent) {x : Exchange} (hx : x.Coherent) :
    (x.run es).1.Coherent := by
  induction es generalizing x with
  | nil => exact hx
  | cons e es ih => exact ih (coherent_step hx e)

/-! ### The directory and the lines -/

theorem step_directory (x : Exchange) (e : ExchangeEvent) :
    (x.step e).1.directory =
      match e with
      | .received client (.register _ f p h) => x.directory.insert f p ⟨client, h⟩
      | .left client => x.directory.retain fun _ r => r.client ≠ client
      | _ => x.directory := by
  cases e with
  | connected | muted => rfl
  | received client m =>
    have h := x.receive_directory client m
    cases m <;> exact h
  | left client => exact x.leave_directory client

variable {x : Exchange}

theorem ordered_step (h : x.directory.Ordered) (e : ExchangeEvent) :
    (x.step e).1.directory.Ordered := by
  rw [step_directory]
  split
  · exact h.insert _ _ _
  · exact h.retain _
  · exact h

theorem ordered_run (es : List ExchangeEvent) {x : Exchange} (h : x.directory.Ordered) :
    (x.run es).1.directory.Ordered := by
  induction es generalizing x with
  | nil => exact h
  | cons e es ih => exact ih (ordered_step h e)

theorem next_le_step (x : Exchange) (e : ExchangeEvent) :
    x.directory.next ≤ (x.step e).1.directory.next := by
  rw [step_directory]
  split
  · exact Nat.le_succ _
  · exact Nat.le_refl _
  · exact Nat.le_refl _

/-- An entry was there before, or its rank is new. -/
theorem mem_entries_step {e : ExchangeEvent} {name : String} {f : Entry Route}
    (hf : f ∈ (x.step e).1.directory.entries name) :
    f ∈ x.directory.entries name ∨ x.directory.next ≤ f.rank.seq := by
  rw [step_directory] at hf
  split at hf
  · rcases Directory.mem_entries_insert.1 hf with ⟨_, rfl⟩ | hf
    · exact .inr (Nat.le_refl _)
    · exact .inl hf
  · exact .inl (Directory.mem_entries_retain.1 hf).1
  · exact .inl hf

theorem mem_entries_stays {e : ExchangeEvent} {name : String} {f : Entry Route}
    (hf : f ∈ x.directory.entries name) (he : e ≠ .left f.value.client) :
    f ∈ (x.step e).1.directory.entries name := by
  rw [step_directory]
  split
  · exact Directory.mem_entries_insert.2 (.inr hf)
  · next client =>
    refine Directory.mem_entries_retain.2 ⟨hf, ?_⟩
    rw [decide_eq_true_iff]
    rintro rfl
    exact he rfl
  · exact hf

/-- A line stays as long as its client, dead or alive. -/
theorem line_stays {e : ExchangeEvent} {client : ClientId} (h : client ∈ x.lines.keys)
    (he : e ≠ .left client) : client ∈ (x.step e).1.lines.keys := by
  rw [← Keyed.contains_iff, Keyed.contains] at h ⊢
  cases e with
  | connected other =>
    simp only [step, Keyed.get?_insert]
    split
    · rfl
    · exact h
  | received other m =>
    simp only [step, receive_lines]
    exact h
  | muted other =>
    simp only [step, Keyed.get?_modify]
    split
    · rwa [Option.isSome_map]
    · exact h
  | left other =>
    have hne : client ≠ other := fun h' => he (h' ▸ rfl)
    simp only [step, leave_lines, Keyed.get?_erase_of_ne _ hne]
    exact h

theorem Reachable.mem_keys {client : ClientId} (h : x.Reachable client) :
    client ∈ x.lines.keys := by
  rw [← Keyed.contains_iff, Keyed.contains, show x.lines.get? client = some .live from h]
  rfl

/-! ### Services -/

/-- Something runs under a context before each of some events. -/
def ServedThrough (context : String) : Exchange → List ExchangeEvent → Prop
  | _, [] => True
  | x, e :: es => (x.running.get? context).isSome ∧ ServedThrough context (x.step e).1 es

theorem servedThrough_snoc {context : String} {es : List ExchangeEvent} {e : ExchangeEvent}
    {x : Exchange} :
    ServedThrough context x (es ++ [e]) ↔
      ServedThrough context x es ∧ ((x.run es).1.running.get? context).isSome := by
  induction es generalizing x with
  | nil => simp [ServedThrough, run]
  | cons f es ih =>
    rw [List.cons_append, ServedThrough, ih, ServedThrough, run, and_assoc]

/-- The call `c` comes in from a client in the state `x` and is accepted, and `es` has happened
since, through which it has been under way; the last of `es` may have ended it. -/
structure Service (x : Exchange) (caller : ClientId) (c : Call) (es : List ExchangeEvent) :
    Prop where
  fresh : x.running.get? c.context = none
  known : x.directory.entries c.function ≠ []
  through : ServedThrough c.context (x.step (.received caller (.call c))).1 es

/-- What runs was running before, at the same handler or another one, or comes in now. -/
theorem Turn.origin {context : String} {r r' : Option Running} {e : ExchangeEvent}
    {sents : List Sent} (h : Turn context x r e r' sents) {t : Running} (ht : r' = some t) :
    (∃ s, r = some s ∧ t.caller = s.caller ∧
      t.call = { s.call with handler := t.call.handler }) ∨
    (r = none ∧ ∃ c, e = .received t.caller (.call c) ∧ c.context = context ∧
      x.directory.entries c.function ≠ [] ∧ t.call = { c with handler := t.call.handler }) := by
  cases h with
  | elsewhere | registered | refused | relayed => exact .inl ⟨t, ht, rfl, rfl⟩
  | accepted client c h missed rest f hd =>
    obtain rfl := Option.some.inj ht
    exact .inr ⟨rfl, c, rfl, h, by simp [hd], rfl⟩
  | rerouted r =>
    obtain rfl := Option.some.inj ht
    exact .inl ⟨r, rfl, rfl, rfl⟩
  | unknown | untaken | answered | exhausted | withdrawn => cases ht

/-- A running call goes back to a call that was accepted, and it has not changed but for its
handler. -/
def Origin (es : List ExchangeEvent) (context : String) (r : Running) : Prop :=
  ∃ past c later, es = past ++ .received r.caller (.call c) :: later ∧ c.context = context ∧
    Service (run {} past).1 r.caller c later ∧ r.call = { c with handler := r.call.handler }

theorem origin_of_run (es : List ExchangeEvent) {context : String} {r : Running}
    (hr : (run {} es).1.running.get? context = some r) : Origin es context r := by
  induction es using List.reverseRecOn generalizing r with
  | nil => cases hr
  | append_singleton es e ih =>
    have hturn := step_turn (coherent_run es coherent_empty) e context
    rw [run_snoc] at hr
    rcases hturn.origin hr with ⟨s, hs, hcaller, hcall⟩ | ⟨hn, c, rfl, hc, hd, hcall⟩
    · obtain ⟨past, c, later, rfl, hc, hservice, hsame⟩ := ih hs
      refine ⟨past, c, later ++ [e], ?_, hc, ?_, ?_⟩
      · rw [hcaller, List.append_assoc]
        rfl
      · rw [hcaller]
        refine ⟨hservice.fresh, hservice.known, servedThrough_snoc.2 ⟨hservice.through, ?_⟩⟩
        rw [run_append] at hs
        rw [hc]
        exact Option.isSome_of_eq_some hs
      · rw [hcall, hsame]
    · refine ⟨es, c, [], rfl, hc, ⟨hc ▸ hn, ?_, trivial⟩, hcall⟩
      rwa [step_directory] at hd

/-! ### Running calls -/

/-- A running call stands at an entry of the directory whose client has a line. -/
structure Placed (x : Exchange) (r : Running) : Prop where
  listed : r.callee ∈ x.directory.entries r.call.function
  connected : r.callee.value.client ∈ x.lines.keys
  handler : r.call.handler = some r.callee.value.handler

theorem Placed.stays {r : Running} (h : x.Placed r) {e : ExchangeEvent}
    (he : e ≠ .left r.callee.value.client) : (x.step e).1.Placed r :=
  ⟨mem_entries_stays h.listed he, line_stays h.connected he, h.handler⟩

/-- A call that goes on does so to a place of its own; others keep theirs, because their callee has
not left. -/
theorem Turn.placed {context : String} {r r' : Option Running} {e : ExchangeEvent}
    {sents : List Sent} (h : Turn context (x.step e).1 r e r' sents)
    (hr : ∀ t, r = some t → x.Placed t) : ∀ t, r' = some t → (x.step e).1.Placed t := by
  rintro t ht
  cases h with
  | elsewhere hc =>
    refine (hr t ht).stays ?_
    rintro rfl
    exact hc ⟨t, ht, .inr rfl⟩
  | registered | refused | relayed => exact (hr t ht).stays (by simp)
  | accepted client c h missed rest f hd _ hf =>
    obtain rfl := Option.some.inj ht
    exact ⟨by rw [hd]; simp, hf.mem_keys, rfl⟩
  | rerouted s _ _ missed rest f hd _ hf =>
    obtain rfl := Option.some.inj ht
    have hmem : f ∈ (x.step e).1.directory.after s.call.function s.callee.rank := by
      rw [hd]
      simp
    exact ⟨(Directory.mem_after.1 hmem).1, hf.mem_keys, rfl⟩
  | unknown | untaken | answered | exhausted | withdrawn => cases ht

theorem placed_of_run (es : List ExchangeEvent) {context : String} {r : Running}
    (hr : (run {} es).1.running.get? context = some r) : (run {} es).1.Placed r := by
  induction es using List.reverseRecOn generalizing r with
  | nil => cases hr
  | append_singleton es e ih =>
    rw [run_snoc] at hr ⊢
    exact (step_turn (coherent_run es coherent_empty) e context).placed (fun _ => ih) r hr

/-- **What the exchange knows fits together.**  After every run from the beginning, each running
call is filed under its own context, its callee is an entry of the directory under its function
with a client that has a line, it names the callee's handler, and but for that it is the call that
was accepted under its context and has been served since.  No name is listed without entries. -/
theorem running_consistent (es : List ExchangeEvent) :
    (∀ context r, (run {} es).1.running.get? context = some r →
      r.call.context = context ∧
      r.callee ∈ (run {} es).1.directory.entries r.call.function ∧
      r.callee.value.client ∈ (run {} es).1.lines.keys ∧
      r.call.handler = some r.callee.value.handler ∧
      ∃ past c later, es = past ++ .received r.caller (.call c) :: later ∧ c.context = context ∧
        Service (run {} past).1 r.caller c later ∧
        r.call = { c with handler := r.call.handler }) ∧
    ∀ name entries, (run {} es).1.directory.names.get? name = some entries → entries ≠ [] := by
  constructor
  · intro context r hr
    have hplaced := placed_of_run es hr
    exact ⟨coherent_run es coherent_empty context r hr, hplaced.listed, hplaced.connected,
      hplaced.handler, origin_of_run es hr⟩
  · exact (ordered_run es Directory.ordered_empty).inhabited

/-- A call that its first handler has declined stands at the second one. -/
theorem running_served :
    let es : List ExchangeEvent :=
      [.connected 1, .connected 2, .connected 3, .received 2 (.register "r2" "f" 5 0),
        .received 3 (.register "r3" "f" 7 4),
        .received 1 (.call { context := "c", function := "f" }),
        .received 3 (.result "c" .declined)]
    let r : Running :=
      ⟨1, ⟨⟨5, 0⟩, ⟨2, 0⟩⟩, { context := "c", function := "f", handler := some 0 }⟩
    (run {} es).1.running.get? "c" = some r ∧ r.callee ∈ (run {} es).1.directory.entries "f" ∧
      Origin es "c" r := by
  intro es r
  have hr : (run {} es).1.running.get? "c" = some r := by decide
  obtain ⟨_, hlisted, _, _, horigin⟩ := (running_consistent es).1 "c" r hr
  exact ⟨hr, hlisted, horigin⟩

end Exchange
end Switchboard
