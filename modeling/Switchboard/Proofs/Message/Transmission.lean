import Switchboard.Frame
import Switchboard.Proofs.Json.RoundTrip

/-! # Messages that arrive

A message that arrives is the message that was sent, but for its free-form values: each arrives in
canonical form and with its numbers read again (`Json.arriving?`, `Message.eq_of_transmitted`).

* **Names.** What the kind of a message is and which call it is about never changes on the way.
* **Plain values.** A value without binary64 numbers that is in canonical form arrives as it is, and
  so does a message with such values (`Message.eq_of_transmitted_of_plain`). -/

namespace Switchboard

/-! ### Payloads -/

theorem toList_loop (bs : ByteArray) (i : Nat) (r : List UInt8) :
    ByteArray.toList.loop bs i r = r.reverse ++ bs.data.toList.drop i := by
  fun_induction ByteArray.toList.loop bs i r with
  | case1 i r hi ih =>
    have hd : i < bs.data.toList.length := by simpa using hi
    have hget : bs.get! i = bs.data.toList[i] := by
      rw [Array.getElem_toList]
      exact getElem!_pos bs.data i hi
    rw [ih, List.drop_eq_getElem_cons hd, hget]
    simp
  | case2 i r hi =>
    have hd : bs.data.toList.length ≤ i := by simpa using hi
    rw [List.drop_eq_nil_of_le hd, List.append_nil]

theorem fromUTF8?_toUTF8 (s : String) : String.fromUTF8? ⟨s.toUTF8.toList.toArray⟩ = some s := by
  have hbytes : (⟨s.toUTF8.toList.toArray⟩ : ByteArray) = s.toByteArray := by
    rw [ByteArray.toList, toList_loop]
    simp
  rw [hbytes, String.fromUTF8?, dif_pos s.isValidUTF8]
  rfl

/-! ### Values -/

namespace Json

/-- What a free-form value arrives as. -/
def arriving? (v : Json) : Option Json := v.reread?.map canonical

mutual

/-- A value has no binary64 number in it. -/
def FloatFree : Json → Prop
  | num (.float _) => False
  | arr elems => FloatFreeElems elems
  | obj members => FloatFreeMembers members
  | _ => True

/-- No element has a binary64 number in it. -/
def FloatFreeElems : List Json → Prop
  | [] => True
  | v :: vs => v.FloatFree ∧ FloatFreeElems vs

/-- No member has a binary64 number in it. -/
def FloatFreeMembers : List (String × Json) → Prop
  | [] => True
  | (_, v) :: ms => v.FloatFree ∧ FloatFreeMembers ms

end

mutual

theorem reread?_of_floatFree {v : Json} (h : v.FloatFree) : v.reread? = some v := by
  match v with
  | null | bool _ | str _ => rfl
  | num (.int n w) => rw [reread?, Number.reread?_int]; rfl
  | num (.float _) => exact h.elim
  | arr elems => rw [reread?, rereadElems?_of_floatFree (by simpa [FloatFree] using h)]; rfl
  | obj members => rw [reread?, rereadMembers?_of_floatFree (by simpa [FloatFree] using h)]; rfl

theorem rereadElems?_of_floatFree {vs : List Json} (h : FloatFreeElems vs) :
    rereadElems? vs = some vs := by
  match vs with
  | [] => rfl
  | v :: vs => rw [rereadElems?, reread?_of_floatFree h.1, rereadElems?_of_floatFree h.2]; rfl

theorem rereadMembers?_of_floatFree {ms : List (String × Json)} (h : FloatFreeMembers ms) :
    rereadMembers? ms = some ms := by
  match ms with
  | [] => rfl
  | (k, v) :: ms => rw [rereadMembers?, reread?_of_floatFree h.1, rereadMembers?_of_floatFree h.2]; rfl

end

/-- A free-form value without binary64 numbers.  Its objects have their members in order, as those
of all values that callers and handlers hold. -/
structure Plain (v : Json) : Prop where
  floatFree : v.FloatFree
  canonical : v.canonical = v

theorem Plain.arriving? {v : Json} (h : v.Plain) : v.arriving? = some v := by
  rw [Json.arriving?, reread?_of_floatFree h.floatFree, Option.map_some, h.canonical]

end Json

/-! ### Messages -/

namespace Outcome

/-- Replaces the free-form values of an outcome. -/
def traverse? (f : Json → Option Json) : Outcome → Option Outcome
  | value v => (f v).map value
  | fault e => (f e.details).map fun details => fault ⟨e.kind, details⟩
  | declined => some declined

end Outcome

namespace Message

/-- Replaces the free-form values of a message. -/
def traverse? (f : Json → Option Json) : Message → Option Message
  | call c => (f c.args).map fun args => call { c with args }
  | update context v => (f v).map (update context)
  | result context o => (o.traverse? f).map (result context)
  | m => some m

/-! ### Reading what was written -/

theorem below?_num {x : Number} {n bound : Nat} (hx : x.int? = some (n : Int)) (h : n < bound) :
    (Json.num x).below? bound = some n := by
  have hn : (0 : Int) ≤ n ∧ (n : Int) < bound := by omega
  rw [Json.below?, Json.int?, hx, Option.bind_eq_bind, Option.bind_some, if_pos hn,
    Int.toNat_natCast]

theorem ofJson?_toJson_outcome (o : Outcome) :
    Outcome.ofJson? o.toJson = o.traverse? fun v => some v.canonical := by
  cases o with
  | value v => rfl
  | fault e =>
    obtain ⟨kind, details⟩ := e
    simp [Outcome.ofJson?, Outcome.toJson, Fault.toJson, Fault.ofJson?, Json.record?,
      Json.required?, Json.field?, Json.under, Json.str?, Outcome.traverse?]
  | declined => rfl

theorem depth?_eq {members : List (String × Json)} {d : UInt32}
    (h : Json.field? "depth" members = some (some (.num (.ofUInt32 d)))) :
    depth? members = some d := by
  have hd : (Json.num (.ofUInt32 d)).below? 0x100000000 = some d.toNat :=
    below?_num rfl (by have := d.toNat_lt; omega)
  unfold depth?
  rw [h, Option.bind_eq_bind, Option.bind_some]
  dsimp only
  rw [hd, Option.map_some, UInt32.ofNat_toNat]

theorem handler?_eq {members : List (String × Json)} {handler : Option HandlerId}
    (h : Json.field? "handler" members = some (handler.map fun h => .num (.ofUInt64 h))) :
    handler? members = some handler := by
  unfold handler?
  rw [h, Option.bind_eq_bind, Option.bind_some]
  cases handler with
  | none => rfl
  | some id =>
    have hid : (Json.num (.ofUInt64 id)).below? 0x10000000000000000 = some id.toNat :=
      below?_num rfl (by have := id.toNat_lt; omega)
    rw [Option.map_some]
    dsimp only
    rw [hid, Option.map_some, UInt64.ofNat_toNat]

theorem word?_eq {members : List (String × Json)} {key : String} {x : Number} {n bound : Nat}
    (h : Json.field? key members = some (some (.num x))) (hx : x.int? = some (n : Int))
    (hn : n < bound) : word? bound key members = some n := by
  rw [word?, Json.required?, h, Option.join, Option.bind_some, Option.bind_eq_bind, id,
    Option.bind_some]
  exact below?_num hx hn

theorem ofMembers?_register {members : List (String × Json)} {context function : String}
    {priority : UInt16} {handler : HandlerId} (hc : text? "context" members = some context)
    (hf : text? "function" members = some function)
    (hp : word? 0x10000 "priority" members = some priority.toNat)
    (hh : word? 0x10000000000000000 "handler" members = some handler.toNat) :
    ofMembers? members .register = some (register context function priority handler) := by
  unfold ofMembers?
  dsimp only
  rw [hc, hf, hp, hh]
  simp only [Option.bind_eq_bind, Option.bind_some, UInt16.ofNat_toNat, UInt64.ofNat_toNat]

theorem ofJson?_obj {members : List (String × Json)} {name : String} {kind : Kind}
    (ht : text? "type" members = some name) (hk : Kind.ofName? name = some kind) :
    ofJson? (.obj members) = ofMembers? members kind := by
  rw [ofJson?, ht, Option.bind_eq_bind, Option.bind_some, hk, Option.bind_eq_bind,
    Option.bind_some]

/-- A message is read as itself with its free-form values in canonical form. -/
theorem ofJson?_toJson (m : Message) :
    ofJson? m.toJson = m.traverse? fun v => some v.canonical := by
  have kind (k : Kind) : Kind.ofName? k.name = some k := by cases k <;> decide
  cases m with
  | call c =>
    have hd : depth? (("type", .str Kind.call.name) :: members (call c)) = some c.depth :=
      depth?_eq (by cases h : c.handler <;> simp [members, Json.field?, Json.under, h])
    have hh : handler? (("type", .str Kind.call.name) :: members (call c)) = some c.handler :=
      handler?_eq (by cases h : c.handler <;> simp [members, Json.field?, Json.under, h])
    cases h : c.handler <;>
      simp_all [ofJson?, toJson, members, ofMembers?, Message.kind, text?, free?, Json.required?,
        Json.field?, Json.under, Json.str?, traverse?]
  | update context v =>
    simp [ofJson?, toJson, members, ofMembers?, kind, Message.kind, text?, free?,
      Json.required?, Json.field?, Json.under, Json.str?, traverse?]
  | result context o =>
    have ho := ofJson?_toJson_outcome o
    cases h : o.traverse? fun v => some v.canonical <;>
      simp_all [ofJson?, toJson, members, ofMembers?, Message.kind, text?,
        Json.required?, Json.field?, Json.under, Json.str?, traverse?]
  | register context function priority handler =>
    have hm : ofMembers? (("type", .str Kind.register.name) ::
        members (register context function priority handler)) .register =
          some (register context function priority handler) := by
      refine ofMembers?_register ?_ ?_ (word?_eq (x := .ofUInt16 priority) ?_ rfl ?_)
        (word?_eq (x := .ofUInt64 handler) ?_ rfl ?_)
      · simp [text?, members, Json.required?, Json.field?, Json.under, Json.str?]
      · simp [text?, members, Json.required?, Json.field?, Json.under, Json.str?]
      · simp [members, Json.field?, Json.under]
      · have := priority.toNat_lt
        omega
      · simp [members, Json.field?, Json.under]
      · have := handler.toNat_lt
        omega
    have ht : text? "type" (("type", .str Kind.register.name) ::
        members (register context function priority handler)) = some Kind.register.name := by
      simp [text?, members, Json.required?, Json.field?, Json.under, Json.str?]
    exact (ofJson?_obj ht (kind _)).trans hm
  | cancel context =>
    simp [ofJson?, toJson, members, ofMembers?, kind, Message.kind, text?,
      Json.required?, Json.field?, Json.under, Json.str?, traverse?]

/-! ### Arriving -/

theorem reread?_toJson_outcome (o : Outcome) :
    o.toJson.reread? = (o.traverse? Json.reread?).map Outcome.toJson := by
  cases o with
  | value v =>
    cases h : v.reread? <;>
      simp [Outcome.toJson, Json.reread?, Json.rereadMembers?, Outcome.traverse?, h]
  | fault e =>
    cases h : e.details.reread? <;>
      simp [Outcome.toJson, Fault.toJson, Json.reread?, Json.rereadMembers?, Outcome.traverse?, h]
  | declined => rfl

theorem reread?_toJson (m : Message) :
    m.toJson.reread? = (m.traverse? Json.reread?).map toJson := by
  cases m with
  | call c =>
    obtain ⟨context, function, args, depth, handler⟩ := c
    cases handler <;> cases h : args.reread? <;>
      simp [toJson, members, Message.kind, Json.reread?, Json.rereadMembers?, traverse?, h,
        Number.ofUInt32, Number.ofUInt64, Number.reread?_int]
  | update context v =>
    cases h : v.reread? <;>
      simp [toJson, members, Message.kind, Json.reread?, Json.rereadMembers?, traverse?, h]
  | result context o =>
    have ho := reread?_toJson_outcome o
    cases h : o.traverse? Json.reread? <;>
      simp_all [toJson, members, Message.kind, Json.reread?, Json.rereadMembers?, traverse?]
  | register context function priority handler =>
    simp [toJson, members, Message.kind, Json.reread?, Json.rereadMembers?, traverse?,
      Number.ofUInt16, Number.ofUInt64, Number.reread?_int]
  | cancel context =>
    simp [toJson, members, Message.kind, Json.reread?, Json.rereadMembers?, traverse?]

theorem traverse?_bind (f g : Json → Option Json) (m : Message) :
    (m.traverse? f).bind (traverse? g) = m.traverse? fun v => (f v).bind g := by
  cases m with
  | call c => cases h : f c.args <;> simp [traverse?, h]
  | update context v => cases h : f v <;> simp [traverse?, h]
  | result context o =>
    cases o with
    | value v => cases h : f v <;> simp [traverse?, Outcome.traverse?, h]
    | fault e => cases h : f e.details <;> simp [traverse?, Outcome.traverse?, h]
    | declined => rfl
  | register | cancel => rfl

/-- What arrives is what was sent, with its free-form values as they arrive. -/
theorem eq_of_transmitted {m m' : Message} (h : m.transmitted = .ok m') :
    m.traverse? Json.arriving? = some m' := by
  have hp := Json.parse?_render m.toJson
  unfold transmitted encode at h
  dsimp only at h
  split at h
  · simp only [bind, Except.bind, decode, Frame.payload, fromUTF8?_toUTF8, ofText, hp,
      reread?_toJson] at h
    cases hw : m.traverse? Json.reread? with
    | none => simp [hw] at h
    | some w =>
      have hb := traverse?_bind Json.reread? (fun v => some v.canonical) m
      simp only [hw, Option.map_some, Option.bind_some] at h hb
      by_cases hd : w.toJson.depth ≤ Json.maxDepth
      · simp only [hd, if_true, Option.bind_some, ofJson?_toJson, hb] at h
        split at h
        · next h' =>
          obtain rfl := Except.ok.inj h
          rw [← h']
          exact congrArg (traverse? · m) (funext fun v => Option.map_eq_bind)
        · cases h
      · simp [hd] at h
  · cases h

/-- A message without free-form values other than plain ones. -/
def Plain : Message → Prop
  | call c => c.args.Plain
  | update _ v => v.Plain
  | result _ (.value v) => v.Plain
  | result _ (.fault e) => e.details.Plain
  | _ => True

theorem eq_of_transmitted_of_plain {m m' : Message} (hm : m.Plain) (h : m.transmitted = .ok m') :
    m' = m := by
  have h := eq_of_transmitted h
  refine (Option.some.inj (Eq.trans ?_ h)).symm
  cases m with
  | call c => rw [traverse?, Json.Plain.arriving? hm]; rfl
  | update context v => rw [traverse?, Json.Plain.arriving? hm]; rfl
  | result context o =>
    cases o with
    | value v => rw [traverse?, Outcome.traverse?, Json.Plain.arriving? hm]; rfl
    | fault e => rw [traverse?, Outcome.traverse?, Json.Plain.arriving? hm]; rfl
    | declined => rfl
  | register | cancel => rfl

/-- A message arrives as one of its kind, about the same call. -/
inductive Alike : Message → Message → Prop where
  | call (c : Call) (args : Json) : Alike (.call c) (.call { c with args })
  | update (context : String) (v v' : Json) : Alike (.update context v) (.update context v')
  | result (context : String) {o o' : Outcome} (h : o' = .declined ↔ o = .declined) :
    Alike (.result context o) (.result context o')
  | register (context f : String) (p : UInt16) (h : HandlerId) :
    Alike (.register context f p h) (.register context f p h)
  | cancel (context : String) : Alike (.cancel context) (.cancel context)

theorem alike_of_transmitted {m m' : Message} (h : m.transmitted = .ok m') : Alike m m' := by
  have h := eq_of_transmitted h
  cases m with
  | call c =>
    obtain ⟨args, _, rfl⟩ := Option.map_eq_some_iff.1 h
    exact .call c args
  | update context v =>
    obtain ⟨v', _, rfl⟩ := Option.map_eq_some_iff.1 h
    exact .update context v v'
  | result context o =>
    obtain ⟨o', ho, rfl⟩ := Option.map_eq_some_iff.1 h
    refine .result context ?_
    cases o with
    | value v =>
      obtain ⟨v', _, rfl⟩ := Option.map_eq_some_iff.1 ho
      simp
    | fault e =>
      obtain ⟨d, _, rfl⟩ := Option.map_eq_some_iff.1 ho
      simp
    | declined =>
      obtain rfl := Option.some.inj ho
      simp
  | register context f p id =>
    obtain rfl := Option.some.inj h
    exact .register context f p id
  | cancel context =>
    obtain rfl := Option.some.inj h
    exact .cancel context

theorem Alike.context {m m' : Message} (h : Alike m m') : m'.context = m.context := by
  cases h <;> rfl

end Message
end Switchboard
