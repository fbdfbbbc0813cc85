import Switchboard.Proofs.Exchange.Consistency
import Switchboard.Proofs.Frame.Boundaries
import Switchboard.Proofs.Message.Codec
import Switchboard.Proofs.Message.Size

/-! # What is sent against what was received

The exchange does not pass on the bytes that it received.  It writes every message anew, with a
handler in a call and with a context or a function in a fault, so what it sends can be longer than
what it was sent.

* **Growth.** Whatever is sent answers or passes on a message that was received under the same
  context (`Stems`), and exceeds it by no more than its `allowance` (`size_le_of_stems`): nothing,
  or the quoted context and 34 bytes for a call.
* **Room.** Where every message that is received leaves room for its allowance, all that is sent can
  be written (`writable_of_room`).
* **No room.** A frame that is allowed need not leave room: a call that fills a frame is handed to a
  handler in a message that cannot be written (`offer_of_full_call`), and an update may come in as
  an array that is shorter than the object it is passed on as (`update_outgrows_frame`). -/

namespace Switchboard

open Json (str)

/-- By how much what is sent may be longer than the message that it stems from. -/
def Message.allowance : Message → Nat
  | call c => (str c.context).size + 34
  | update .. | result .. | register .. | cancel _ => 0

/-- What is sent answers or passes on a message of the same context. -/
inductive Notice.Stems : Notice → Message → Prop
  | registered (context f : String) (p : UInt16) (h : HandlerId) :
    Stems (.registered context) (.register context f p h)
  | refused (c : Call) :
    Stems (.answered c.context (.fault ⟨.invalidArgs, .obj [("context", .str c.context)]⟩)) (.call c)
  | unknown (c : Call) :
    Stems (.answered c.context (.fault ⟨.unknownRpc, .obj [("function", .str c.function)]⟩))
      (.call c)
  | declined (c : Call) : Stems (.answered c.context .declined) (.call c)
  | offered (c : Call) (rank : Rank) (h : HandlerId) :
    Stems (.offered rank { c with handler := some h }) (.call c)
  | withdrawn (c : Call) : Stems (.withdrawn c.context) (.call c)
  | updated (context : String) (v : Json) : Stems (.updated context v) (.update context v)
  | answered (context : String) (o : Outcome) : Stems (.answered context o) (.result context o)

/-! ### Growth -/

theorem Message.size_call_ge (c : Call) :
    (str c.context).size + (str c.function).size + 57 ≤ (Message.call c).size := by
  have hargs := c.args.size_pos
  have hdepth := (Json.num (.ofUInt32 c.depth)).size_pos
  rw [size_call]
  omega

theorem Message.size_offer_le (c : Call) (h : HandlerId) :
    (Message.call { c with handler := some h }).size ≤ (Message.call c).size + 31 := by
  have hh := size_word h
  simp only [size_call, Option.elim_some]
  omega

theorem Notice.size_le_of_stems {n : Notice} {m : Message} (h : n.Stems m) :
    n.message.size ≤ m.size + m.allowance := by
  cases h with
  | registered context f p h =>
    have hf := Json.two_le_size_str f
    simp only [Notice.message, Message.size_result, Outcome.size_value, Json.size_null,
      Message.size_register]
    omega
  | refused c =>
    have hc := Message.size_call_ge c
    have hf := Json.two_le_size_str c.function
    simp only [Notice.message, Message.size_result, Outcome.size_fault, FaultKind.name,
      Message.size_names, Message.allowance]
    omega
  | unknown c =>
    have hc := Message.size_call_ge c
    have hcontext := Json.two_le_size_str c.context
    simp only [Notice.message, Message.size_result, Outcome.size_fault, FaultKind.name,
      Message.size_names, Message.allowance]
    omega
  | declined c =>
    have hc := Message.size_call_ge c
    have hf := Json.two_le_size_str c.function
    simp only [Notice.message, Message.size_result, Outcome.size_declined]
    omega
  | offered c rank h =>
    have hc := Message.size_offer_le c h
    simp only [Notice.message, Message.allowance]
    omega
  | withdrawn c =>
    have hc := Message.size_call_ge c
    simp only [Notice.message, Message.size_cancel]
    omega
  | updated | answered => exact Nat.le_refl _

namespace Exchange

variable {x : Exchange} {context : String}

theorem stems_of_mem_offers {c d : Call} {es : List (Entry Route)} {s : Sent}
    (hd : ∃ h, d = { c with handler := h }) (hs : s ∈ es.map (x.offering d)) :
    s.notice.Stems (.call c) := by
  obtain ⟨h, rfl⟩ := hd
  obtain ⟨e, _, rfl⟩ := List.mem_map.1 hs
  exact .offered c e.rank e.value.handler

/-- What an event makes the exchange send stems from the event, or from the call that is running. -/
theorem Turn.stems {r r' : Option Running} {e : ExchangeEvent} {sents : List Sent}
    (h : Turn context x r e r' sents) (hctx : ∀ t, r = some t → t.call.context = context) {s : Sent}
    (hs : s ∈ sents) :
    (∃ client m, e = .received client m ∧ s.notice.Stems m) ∨
      ∃ t, r = some t ∧ ∀ c, t.call = { c with handler := t.call.handler } →
        s.notice.Stems (.call c) := by
  have one {s' : Sent} (hs : s ∈ [s']) : s = s' := List.mem_singleton.1 hs
  cases h with
  | elsewhere => cases hs
  | registered client f p h => exact .inl ⟨client, _, rfl, one hs ▸ .registered context f p h⟩
  | refused r client c h =>
    subst h
    exact .inl ⟨client, _, rfl, one hs ▸ .refused c⟩
  | unknown client c h =>
    subst h
    exact .inl ⟨client, _, rfl, one hs ▸ .unknown c⟩
  | accepted client c => exact .inl ⟨client, _, rfl, stems_of_mem_offers ⟨c.handler, rfl⟩ hs⟩
  | untaken client c h missed =>
    subst h
    rcases List.mem_append.1 hs with hs | hs
    · exact .inl ⟨client, _, rfl, stems_of_mem_offers ⟨c.handler, rfl⟩ hs⟩
    · exact .inl ⟨client, _, rfl, one hs ▸ .declined c⟩
  | relayed r v => exact .inl ⟨_, _, rfl, one hs ▸ .updated context v⟩
  | answered r o => exact .inl ⟨_, _, rfl, one hs ▸ .answered context o⟩
  | rerouted r =>
    refine .inr ⟨r, rfl, ?_⟩
    intro c hc
    exact stems_of_mem_offers ⟨_, hc⟩ hs
  | exhausted r =>
    refine .inr ⟨r, rfl, ?_⟩
    intro c hc
    rcases List.mem_append.1 hs with hs | hs
    · exact stems_of_mem_offers ⟨_, hc⟩ hs
    · obtain rfl : c.context = context := (congrArg Call.context hc).symm.trans (hctx r rfl)
      exact one hs ▸ .declined c
  | withdrawn r =>
    refine .inr ⟨r, rfl, ?_⟩
    intro c hc
    obtain rfl : c.context = context := (congrArg Call.context hc).symm.trans (hctx r rfl)
    exact one hs ▸ .withdrawn c

theorem stems_of_run (es : List ExchangeEvent) {s : Sent} (hs : s ∈ (run {} es).2) :
    ∃ client m, .received client m ∈ es ∧ s.notice.Stems m := by
  induction es using List.reverseRecOn with
  | nil => cases hs
  | append_singleton es e ih =>
    rw [run_snoc] at hs
    rcases List.mem_append.1 hs with hs | hs
    · obtain ⟨client, m, hm, h⟩ := ih hs
      exact ⟨client, m, List.mem_append_left _ hm, h⟩
    · have hx : (run {} es).1.Coherent := coherent_run es coherent_empty
      have hturn := step_turn hx e s.notice.context
      have habout : s ∈ about s.notice.context ((run {} es).1.step e).2 :=
        List.mem_filter.2 ⟨hs, by simp⟩
      rcases hturn.stems (hx _) habout with ⟨client, m, rfl, h⟩ | ⟨r, hr, h⟩
      · exact ⟨client, m, by simp, h⟩
      · obtain ⟨past, c, later, rfl, _, _, hc⟩ := origin_of_run es hr
        exact ⟨r.caller, .call c, by simp, h c hc⟩

/-! ### Room -/

/-- **What is sent is hardly longer than what was received.**  In every run from the beginning,
whatever is sent stems from a message that was received, and is longer by no more than the message's
allowance.  So if every message that is received, as the exchange writes it, leaves room for its
allowance in a frame, then all that is sent can be written. -/
theorem writable_of_room (es : List ExchangeEvent) :
    (∀ s ∈ (run {} es).2, ∃ client m, .received client m ∈ es ∧ s.notice.Stems m ∧
      s.notice.message.size ≤ m.size + m.allowance) ∧
    ((∀ client m, .received client m ∈ es → m.size + m.allowance ≤ maxFrameSize) →
      ∀ s ∈ (run {} es).2, ∃ f, s.notice.message.encode = .ok f) := by
  have hgrowth : ∀ s ∈ (run {} es).2, ∃ client m, .received client m ∈ es ∧ s.notice.Stems m ∧
      s.notice.message.size ≤ m.size + m.allowance := by
    intro s hs
    obtain ⟨client, m, hm, hstems⟩ := stems_of_run es hs
    exact ⟨client, m, hm, hstems, Notice.size_le_of_stems hstems⟩
  refine ⟨hgrowth, ?_⟩
  intro hroom s hs
  obtain ⟨client, m, hm, _, hsize⟩ := hgrowth s hs
  apply (Message.encode_eq _).1
  exact Nat.le_trans hsize (hroom client m hm)

/-- A handler is registered and a call is handed to it. -/
def served : List ExchangeEvent :=
  [.connected 1, .connected 2, .received 2 (.register "r" "f" 5 0),
    .received 1 (.call { context := "c", function := "f" })]

/-- A call without arguments leaves room, and so it is written with its handler. -/
theorem writable_served : ∀ s ∈ (run {} served).2, ∃ f, s.notice.message.encode = .ok f := by
  apply (writable_of_room served).2
  have hr : (Message.register "r" "f" 5 0).size = 73 := by cbv
  have hc : (Message.call { context := "c", function := "f" }).size = 66 := by cbv
  have hq : (str "c").size = 3 := by cbv
  intro client m hm
  simp only [served, List.mem_cons, reduceCtorEq, ExchangeEvent.received.injEq, false_or,
    List.not_mem_nil, or_false] at hm
  rcases hm with ⟨_, rfl⟩ | ⟨_, rfl⟩
  · rw [hr]
    decide
  · rw [hc, Message.allowance, hq]
    decide

/-! ### No room -/

/-- A call that fills a frame, but for eleven bytes at most, is handed to the first handler in a
message that cannot be written.  The exchange takes the call for delivered and keeps it running. -/
theorem offer_of_full_call {c : Call} {e : Entry Route} {rest : List (Entry Route)}
    (hfresh : x.running.get? c.context = none) (hd : x.directory.entries c.function = e :: rest)
    (he : x.Reachable e.value.client) (hc : c.handler = none)
    (hfull : maxFrameSize < (Message.call c).size + 12) (client : ClientId) :
    ∃ s, (x.receive client (.call c)).2 = [s] ∧ s.client = e.value.client ∧ s.delivered = true ∧
      s.notice.message.encode = .error (.frameTooLarge s.notice.message.size maxFrameSize) ∧
      ((x.receive client (.call c)).1.running.get? c.context).isSome := by
  have hsent : (x.offering c e).delivered = true := (x.send_delivered ..).2 he
  have hoffer : x.offer c (e :: rest) = ([x.offering c e], some e) := by
    rw [offer]
    exact if_pos hsent
  have hsize : maxFrameSize < (Message.call { c with handler := some e.value.handler }).size := by
    have hh := (Json.num (.ofUInt64 e.value.handler)).size_pos
    simp only [Message.size_call, hc, Option.elim_none, Option.elim_some] at hfull ⊢
    omega
  refine ⟨x.offering c e, ?_, rfl, hsent, (Message.encode_eq _).2 hsize, ?_⟩
  · simp only [receive, call, Keyed.contains, hfresh, hd, hoffer, Option.isSome_none,
      Bool.false_eq_true, if_false]
  · simp only [receive, call, Keyed.contains, hfresh, hd, hoffer, Option.isSome_none,
      Bool.false_eq_true, if_false, Keyed.get?_insert, if_true, Option.isSome_some]

/-- A message is what some frame of allowed size says. -/
def Allowed (m : Message) : Prop :=
  ∃ payload : Bytes, payload.length ≤ maxFrameSize ∧ Message.decode payload = .ok m

theorem allowed_of_plain {m : Message} (hv : ∀ v ∈ m.values, v.Plain)
    (hd : m.toJson.depth ≤ Json.maxDepth) (hs : m.size ≤ maxFrameSize) : Allowed m := by
  refine ⟨m.toJson.render.toUTF8.toList, ?_, Message.decode_of_plain hv hd⟩
  rw [length_toUTF8]
  exact hs

/-- An update may come in as an array of its kind, its context and its value, which is shorter than
its own text by 25 bytes. -/
theorem allowed_update {context : String} {v : Json} (hv : v.Plain) (hd : v.depth < Json.maxDepth)
    (hs : (Message.update context v).size ≤ maxFrameSize + 25) : Allowed (.update context v) := by
  let row : Json := .arr [.str "update", .str context, v]
  have hsize : row.size + 25 = (Message.update context v).size := by
    simp only [row, Json.size_arr, List.map_cons, List.map_nil, List.sum_cons, List.sum_nil,
      Message.size_names, Message.size_update]
    omega
  have hfree : row.FloatFree := Json.floatFree_arr.2 (by simp [hv.floatFree])
  have hdepth : row.depth ≤ Json.maxDepth := by
    simp only [row, Json.depth, Json.depthElems]
    omega
  have hread : Message.ofJson? row = some (.update context v) := by
    have hkind : Message.Kind.ofName? "update" = some .update := by decide
    simp [row, Message.ofJson?, hkind, Json.record?, Message.Kind.fields, Message.ofMembers?,
      Message.text?, Message.free?, Json.required?, Json.field?, Json.under, Json.str?, hv.canonical]
  refine ⟨row.render.toUTF8.toList, ?_, ?_⟩
  · rw [length_toUTF8, ← Json.size]
    omega
  · rw [Message.decode_toUTF8, Message.ofText, Json.parse?_render, Json.reread?_of_floatFree hfree,
      Option.bind_some, if_pos hdepth, Option.bind_eq_bind, Option.bind_some, hread]

theorem updated_of_served (v : Json) :
    ⟨1, .updated "c" v, true⟩ ∈ (run {} (served ++ [.received 2 (.update "c" v)])).2 := by
  have hr : (run {} served).1.running.get? "c" =
      some ⟨1, ⟨⟨5, 0⟩, ⟨2, 0⟩⟩, { context := "c", function := "f", handler := some 0 }⟩ := by
    decide
  have hline : (run {} served).1.lines.get? 1 = some .live := by decide
  have hsend : (run {} served).1.send 1 (.updated "c" v) = ⟨1, .updated "c" v, true⟩ := by
    simp only [send, hline, decide_true]
  rw [run_snoc]
  apply List.mem_append_right
  simp only [step, receive, update, hr, if_true, hsend, List.mem_singleton]

theorem outgrown_of_size {v : Json} (hv : v.Plain) (hd : v.depth < Json.maxDepth)
    (hfits : (Message.update "c" v).size ≤ maxFrameSize + 25)
    (hfull : maxFrameSize < (Message.update "c" v).size) :
    let es := served ++ [.received 2 (.update "c" v)]
    (∀ client m, .received client m ∈ es → Allowed m) ∧
      ∃ s ∈ (run {} es).2, s.client = 1 ∧ s.delivered = true ∧
        s.notice.message.encode =
          .error (.frameTooLarge (Message.update "c" v).size maxFrameSize) := by
  intro es
  constructor
  · intro client m hm
    simp only [es, served, List.mem_append, List.mem_cons, reduceCtorEq,
      ExchangeEvent.received.injEq, false_or, List.not_mem_nil, or_false] at hm
    rcases hm with (⟨_, rfl⟩ | ⟨_, rfl⟩) | ⟨_, rfl⟩
    · have hsize : (Message.register "r" "f" 5 0).size = 73 := by cbv
      exact allowed_of_plain (List.forall_mem_nil _) (by decide) (hsize ▸ by decide)
    · have hsize : (Message.call { context := "c", function := "f" }).size = 66 := by cbv
      refine allowed_of_plain ?_ (by decide) (hsize ▸ by decide)
      exact List.forall_mem_singleton.2 ⟨trivial, rfl⟩
    · exact allowed_update hv hd hfits
  · exact ⟨_, updated_of_served v, rfl, rfl, (Message.encode_eq _).2 hfull⟩

/-- A text of one letter repeated. -/
def repeated (n : Nat) : Json := .str (String.ofList (List.replicate n 'a'))

theorem size_repeated (n : Nat) : (repeated n).size = n + 2 := by
  have hletter : (Token.escaped 'a').utf8ByteSize = 1 := by decide
  rw [repeated, Json.size_str, String.toList_ofList, List.map_replicate, hletter, List.sum_replicate]
  simp

/-- Every message comes from a frame of allowed size, the last one from the largest that there is,
and what the caller is to be told cannot be written. -/
theorem update_outgrows_frame :
    let es := served ++ [.received 2 (.update "c" (repeated 16777199))]
    (∀ client m, .received client m ∈ es → Allowed m) ∧
      ∃ s ∈ (run {} es).2, s.client = 1 ∧ s.delivered = true ∧
        s.notice.message.encode = .error (.frameTooLarge 16777241 maxFrameSize) := by
  have hsize : (Message.update "c" (repeated 16777199)).size = 16777241 := by
    have hc : (str "c").size = 3 := by cbv
    rw [Message.size_update, hc, size_repeated]
  have hdepth : (repeated 16777199).depth < Json.maxDepth := by
    rw [repeated, Json.depth_str]
    decide
  have hplain : (repeated 16777199).Plain := ⟨trivial, rfl⟩
  rw [← hsize]
  apply outgrown_of_size hplain hdepth
  · rw [hsize]
    decide
  · rw [hsize]
    decide

end Exchange
end Switchboard
