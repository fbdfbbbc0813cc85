import Switchboard.Proofs.Json.Spelling
import Switchboard.Proofs.Message.Codec

/-! # The layouts of a message

Peers may lay a message out in many ways, and all of them are read alike.

* **Records.** `Json.Record` says when a value has given fields: an object in which they come in any
  order, among whatever members have other keys, or an array that begins with them, and from which a
  run of absent ones at the end is left out.
* **Forms.** A `Form` says how one field may be written, and whether it may be absent.
  `Message.forms` are those of a message, in the order of the fields of its kind.
* **Layouts.** `Message.LaidOut` puts the two together: the type and the fields of the message make
  a record.
* **Main statement.** `decode_of_layout`: however a message is laid out and spelled, it is read, and
  an object in which the type or a field of its kind comes twice is refused.  Members that its kind
  does not have may have any values, but they have to have values (`decode_overflowing_member`). -/

namespace Switchboard

/-! ### Records -/

namespace Json

/-- The members of those fields that are there. -/
def given (keys : List String) (vs : List (Option Json)) : List (String × Json) :=
  (keys.zip vs).filterMap fun (k, v) => v.map (k, ·)

/-- A value has these fields under these keys, as a record may have them. -/
inductive Record (keys : List String) (vs : List (Option Json)) : Json → Prop
  /-- Those that are there are members, in any order.  There may be members under other keys. -/
  | obj {members : List (String × Json)}
      (h : (members.filter (·.1 ∈ keys)).Perm (given keys vs)) : Record keys vs (.obj members)
  /-- Those that are there come first, in order. -/
  | arr {elems : List Json} {n : Nat} (h : vs = elems.map some ++ List.replicate n none) :
    Record keys vs (.arr elems)

variable {key : String} {keys : List String} {v : Option Json} {vs : List (Option Json)}
  {members : List (String × Json)}

theorem given_cons (key : String) (keys : List String) (v : Option Json) (vs : List (Option Json)) :
    given (key :: keys) (v :: vs) = (v.map (key, ·)).toList ++ given keys vs := by
  cases v <;> rfl

theorem under_append (key : String) (ms ns : List (String × Json)) :
    under key (ms ++ ns) = under key ms ++ under key ns := List.filterMap_append

theorem under_eq_nil (h : key ∉ members.map (·.1)) : under key members = [] := by
  refine List.filterMap_eq_nil_iff.2 fun m hm => if_neg ?_
  rintro rfl
  exact h (List.mem_map_of_mem hm)

theorem mem_keys_of_given {m : String × Json} (h : m ∈ given keys vs) : m.1 ∈ keys := by
  obtain ⟨⟨k, v⟩, hkv, hm⟩ := List.mem_filterMap.1 h
  obtain ⟨w, _, rfl⟩ := Option.map_eq_some_iff.1 hm
  exact (List.of_mem_zip hkv).1

theorem under_given (hk : keys.Nodup) (h : (key, v) ∈ keys.zip vs) :
    under key (given keys vs) = v.toList := by
  induction keys generalizing vs with
  | nil => cases h
  | cons k keys ih =>
    obtain ⟨hnew, hk⟩ := List.nodup_cons.1 hk
    cases vs with
    | nil => cases h
    | cons w vs =>
      rw [given_cons, under_append]
      rcases List.mem_cons.1 h with h | h
      · obtain ⟨rfl, rfl⟩ := Prod.mk.inj h
        have hnil : under key (given keys vs) = [] := under_eq_nil fun hmem => by
          obtain ⟨m, hm, rfl⟩ := List.mem_map.1 hmem
          exact hnew (mem_keys_of_given hm)
        rw [hnil, List.append_nil]
        cases v <;> simp [under]
      · have hne : k ≠ key := by
          rintro rfl
          exact hnew (List.of_mem_zip h).1
        rw [ih hk h]
        cases w <;> simp [under, hne]

/-- Members under other keys do not count. -/
theorem under_filter (h : key ∈ keys) :
    under key (members.filter (·.1 ∈ keys)) = under key members := by
  rw [under, under, List.filterMap_filter]
  refine List.filterMap_congr fun m _ => ?_
  dsimp only
  split
  · rfl
  · next hm =>
    refine (if_neg ?_).symm
    rintro rfl
    exact hm (by simpa using h)

theorem field?_eq (h : under key members = v.toList) : field? key members = some v := by
  rw [field?, h]
  cases v <;> rfl

theorem field?_of_perm (hk : keys.Nodup) (hperm : (members.filter (·.1 ∈ keys)).Perm (given keys vs))
    (h : (key, v) ∈ keys.zip vs) : field? key members = some v := by
  have hunder : (under key members).Perm v.toList := by
    rw [← under_given hk h, ← under_filter (List.of_mem_zip h).1]
    exact hperm.filterMap _
  refine field?_eq ?_
  cases v with
  | none => exact hunder.eq_nil
  | some v => exact List.perm_singleton.1 hunder

theorem length_under (key : String) (members : List (String × Json)) :
    (under key members).length = (members.map (·.1)).count key := by
  induction members with
  | nil => rfl
  | cons m members ih =>
    by_cases h : m.1 = key <;> simp_all [under]

theorem field?_of_repeated (h : 2 ≤ (members.map (·.1)).count key) :
    field? key members = none := by
  rw [← length_under] at h
  unfold field?
  split
  · next hu => simp [hu] at h
  · next hu => simp [hu] at h
  · rfl

theorem given_elems (keys : List String) (elems : List Json) (n : Nat) :
    given keys (elems.map some ++ List.replicate n none) = keys.zip elems := by
  induction keys generalizing elems n with
  | nil => rfl
  | cons k keys ih =>
    cases elems with
    | nil =>
      cases n with
      | zero => rfl
      | succ n => exact (given_cons ..).trans ((ih [] n).trans List.zip_nil_right)
    | cons e elems => exact (given_cons ..).trans (congrArg (List.cons _) (ih elems n))

theorem Record.fields {j : Json} (h : Record keys vs j) (hk : keys.Nodup)
    (hlen : vs.length ≤ keys.length) :
    ∃ members, j.record? keys = some members ∧
      ∀ key v, (key, v) ∈ keys.zip vs → field? key members = some v := by
  cases h with
  | @obj members h => exact ⟨members, rfl, fun key v hv => field?_of_perm hk h hv⟩
  | @arr elems n h =>
    have hfits : elems.length ≤ keys.length := by
      rw [h, List.length_append, List.length_map] at hlen
      omega
    refine ⟨keys.zip elems, if_pos hfits, fun key v hv => field?_eq ?_⟩
    rw [← given_elems keys elems n, ← h, under_given hk hv]

end Json

/-! ### Forms of fields -/

/-- How a field may be written; nothing stands for a field that is left out. -/
abbrev Form := Option Json → Prop

namespace Form

/-- A field that has to be there. -/
def required (written : Json → Prop) : Form
  | none => False
  | some v => written v

/-- A field that may be left out when it has its default. -/
def defaulted (default : Prop) (written : Json → Prop) : Form
  | none => default
  | some v => written v

/-- A text. -/
def text (s : String) : Form := required (· = .str s)

/-- A free-form value, the members of its objects being in any order. -/
def free (v : Json) : Form := defaulted (v = .null) (·.canonical = v)

/-- The depth of a call. -/
def depth (n : UInt32) : Form := defaulted (n = 0) (· = .num (.ofUInt32 n))

/-- The handler of a call, left out or null while there is none. -/
def handler (h : Option HandlerId) : Form :=
  defaulted (h = none) (· = h.elim .null fun id => .num (.ofUInt64 id))

end Form

/-- Fields are written in these forms. -/
def Fills (forms : List Form) (vs : List (Option Json)) : Prop :=
  List.Forall₂ (fun form v => form v) forms vs

namespace Fault

/-- The forms of the members of a fault. -/
def forms (f : Fault) : List Form := [.text f.kind.name, .free f.details]

/-- A value is a fault as it may be laid out. -/
def LaidOut (f : Fault) (j : Json) : Prop := ∃ vs, Fills f.forms vs ∧ Json.Record keys vs j

end Fault

/-- A value is an outcome as it may be laid out. -/
inductive Outcome.LaidOut : Outcome → Json → Prop
  | value {v w : Json} (h : w.canonical = v) : LaidOut (.value v) (.obj [("ok", w)])
  | fault {f : Fault} {j : Json} (h : f.LaidOut j) : LaidOut (.fault f) (.obj [("error", j)])
  | declined : LaidOut .declined (.obj [("not_handled", .bool true)])

namespace Message

/-- The forms of the fields of a message, in order. -/
def forms : Message → List Form
  | call c =>
    [.text c.context, .text c.function, .free c.args, .depth c.depth, .handler c.handler]
  | update context v => [.text context, .free v]
  | result context o => [.text context, .required o.LaidOut]
  | register context function priority handler =>
    [.text context, .text function, .required (· = .num (.ofUInt16 priority)),
      .required (· = .num (.ofUInt64 handler))]
  | cancel context => [.text context]

/-- A value is a message as it may be laid out. -/
def LaidOut (m : Message) (j : Json) : Prop :=
  ∃ vs, Fills m.forms vs ∧
    Json.Record ("type" :: m.kind.fields) (some (.str m.kind.name) :: vs) j

end Message

/-! ### Reading -/

section

open Json (field? required?)

variable {key : String} {members : List (String × Json)} {v : Option Json}

theorem Form.required.read {written : Json → Prop} (h : required written v)
    (hf : field? key members = some v) : ∃ w, required? key members = some w ∧ written w := by
  cases v with
  | none => exact h.elim
  | some w => exact ⟨w, by rw [required?, hf]; rfl, h⟩

theorem Form.free.read {u : Json} (h : free u v) : (v.getD .null).canonical = u := by
  cases v with
  | none =>
    obtain rfl : u = .null := h
    rfl
  | some w => exact h

theorem Fault.ofJson?_of_laidOut {f : Fault} {j : Json} (h : f.LaidOut j) : ofJson? j = some f := by
  obtain ⟨vs, hf, hrecord⟩ := h
  rcases hf with _ | ⟨hkind, _ | ⟨hdetails, _ | _⟩⟩
  obtain ⟨members, hmembers, hfields⟩ := hrecord.fields (by decide) (Nat.le_refl _)
  have hfield := hfields "details" _ (.tail _ (.head _))
  obtain ⟨_, hread, rfl⟩ := hkind.read (hfields "kind" _ (.head _))
  rw [ofJson?, hmembers]
  simp only [Option.bind_eq_bind, Option.bind_some, hread, Json.str?, hfield,
    FaultKind.ofName_name, hdetails.read]

theorem Outcome.ofJson?_of_laidOut {o : Outcome} {j : Json} (h : o.LaidOut j) :
    ofJson? j = some o := by
  cases h with
  | value h => rw [← h]; rfl
  | fault h => exact congrArg (Option.map fault) (Fault.ofJson?_of_laidOut h)
  | declined => rfl

namespace Message

theorem text?_of_form {s : String} (h : Form.text s v) (hf : field? key members = some v) :
    text? key members = some s := by
  obtain ⟨_, hread, rfl⟩ := h.read hf
  rw [text?, hread]
  rfl

theorem free?_of_form {u : Json} (h : Form.free u v) (hf : field? key members = some v) :
    free? key members = some u := by
  rw [free?, hf, Option.bind_eq_bind, Option.bind_some, h.read]

theorem word?_of_form {x : Number} {n bound : Nat} (h : Form.required (· = .num x) v)
    (hx : x.int? = some (n : Int)) (hn : n < bound) (hf : field? key members = some v) :
    word? bound key members = some n := by
  cases v with
  | none => exact h.elim
  | some w => exact word?_eq (h ▸ hf) hx hn

theorem depth?_of_form {n : UInt32} (h : Form.depth n v) (hf : field? "depth" members = some v) :
    depth? members = some n := by
  cases v with
  | none =>
    obtain rfl : n = 0 := h
    rw [depth?, hf]
    rfl
  | some w => exact depth?_eq (hf.trans (congrArg (some ∘ some) h))

theorem handler?_of_form {h : Option HandlerId} (hv : Form.handler h v)
    (hf : field? "handler" members = some v) : handler? members = some h := by
  cases v with
  | none =>
    obtain rfl : h = none := hv
    exact handler?_eq hf
  | some w =>
    obtain rfl : w = h.elim .null fun id => .num (.ofUInt64 id) := hv
    cases h with
    | none =>
      rw [handler?, hf]
      rfl
    | some id => exact handler?_eq hf

/-- A message is read from its fields. -/
theorem ofMembers?_of_fields {m : Message} {vs : List (Option Json)} (hf : Fills m.forms vs)
    (h : ∀ key v, (key, v) ∈ m.kind.fields.zip vs → field? key members = some v) :
    ofMembers? members m.kind = some m := by
  cases m with
  | call c =>
    rcases hf with _ | ⟨hcontext, _ | ⟨hfunction, _ | ⟨hargs, _ | ⟨hdepth, _ | ⟨hhandler, _ | _⟩⟩⟩⟩⟩
    have hcontext := text?_of_form hcontext (h "context" _ (by simp [kind, Kind.fields]))
    have hfunction := text?_of_form hfunction (h "function" _ (by simp [kind, Kind.fields]))
    have hargs := free?_of_form hargs (h "args" _ (by simp [kind, Kind.fields]))
    have hdepth := depth?_of_form hdepth (h "depth" _ (by simp [kind, Kind.fields]))
    have hhandler := handler?_of_form hhandler (h "handler" _ (by simp [kind, Kind.fields]))
    simp only [kind, ofMembers?, hcontext, hfunction, hargs, hdepth, hhandler,
      Option.bind_eq_bind, Option.bind_some]
  | update context value =>
    rcases hf with _ | ⟨hcontext, _ | ⟨hvalue, _ | _⟩⟩
    have hcontext := text?_of_form hcontext (h "context" _ (by simp [kind, Kind.fields]))
    have hvalue := free?_of_form hvalue (h "value" _ (by simp [kind, Kind.fields]))
    simp only [kind, ofMembers?, hcontext, hvalue, Option.bind_eq_bind, Option.bind_some]
  | result context o =>
    rcases hf with _ | ⟨hcontext, _ | ⟨hresult, _ | _⟩⟩
    have hcontext := text?_of_form hcontext (h "context" _ (by simp [kind, Kind.fields]))
    obtain ⟨j, hread, hj⟩ := hresult.read (h "result" _ (by simp [kind, Kind.fields]))
    simp only [kind, ofMembers?, hcontext, hread, Outcome.ofJson?_of_laidOut hj,
      Option.bind_eq_bind, Option.bind_some]
  | register context function priority handler =>
    rcases hf with _ | ⟨hcontext, _ | ⟨hfunction, _ | ⟨hpriority, _ | ⟨hhandler, _ | _⟩⟩⟩⟩
    exact ofMembers?_register
      (text?_of_form hcontext (h "context" _ (by simp [kind, Kind.fields])))
      (text?_of_form hfunction (h "function" _ (by simp [kind, Kind.fields])))
      (word?_of_form hpriority rfl priority.toNat_lt (h "priority" _ (by simp [kind, Kind.fields])))
      (word?_of_form hhandler rfl handler.toNat_lt (h "handler" _ (by simp [kind, Kind.fields])))
  | cancel context =>
    rcases hf with _ | ⟨hcontext, _ | _⟩
    have hcontext := text?_of_form hcontext (h "context" _ (by simp [kind, Kind.fields]))
    simp only [kind, ofMembers?, hcontext, Option.bind_eq_bind, Option.bind_some]

/-- However a message is laid out, it is read. -/
theorem ofJson?_of_laidOut {m : Message} {j : Json} (h : m.LaidOut j) : ofJson? j = some m := by
  obtain ⟨vs, hf, hrecord⟩ := h
  have hname : Kind.ofName? m.kind.name = some m.kind := by cases m.kind <;> decide
  have hkeys : ("type" :: m.kind.fields).Nodup := by cases m.kind <;> decide
  have hlen : m.kind.fields.length = vs.length := by
    rw [← hf.length_eq]
    cases m <;> rfl
  cases hrecord with
  | @obj members hperm =>
    have hfields (key : String) (v : Option Json)
        (hv : (key, v) ∈ ("type" :: m.kind.fields).zip (some (.str m.kind.name) :: vs)) :
        field? key members = some v := Json.field?_of_perm hkeys hperm hv
    have htype : text? "type" members = some m.kind.name :=
      text?_of_form (v := some (.str m.kind.name)) rfl (hfields _ _ List.mem_cons_self)
    rw [ofJson?_obj htype hname]
    exact ofMembers?_of_fields hf fun key v hv => hfields key v (List.mem_cons_of_mem _ hv)
  | @arr elems n helems =>
    cases elems with
    | nil => cases n <;> cases helems
    | cons e elems =>
      obtain ⟨hname', hrest⟩ := List.cons.inj helems
      obtain rfl := Option.some.inj hname'
      have hrecord : Json.Record m.kind.fields vs (.arr elems) := .arr hrest
      obtain ⟨members, hmembers, hfields⟩ :=
        hrecord.fields (List.nodup_cons.1 hkeys).2 hlen.ge
      rw [ofJson?]
      simp only [hname, hmembers, Option.bind_eq_bind, Option.bind_some]
      exact ofMembers?_of_fields hf hfields

theorem laidOut_toJson {m : Message} (h : ∀ v ∈ m.values, v.canonical = v) :
    m.LaidOut m.toJson := by
  cases m with
  | call c =>
    refine ⟨[some (.str c.context), some (.str c.function), some c.args,
      some (.num (.ofUInt32 c.depth)), c.handler.map fun id => .num (.ofUInt64 id)],
      .cons rfl (.cons rfl (.cons (h c.args (.head _)) (.cons rfl (.cons ?_ .nil)))), .obj ?_⟩
    · cases hc : c.handler <;> simp [Form.handler, Form.defaulted]
    · cases hc : c.handler <;> simp [kind, Kind.fields, members, Json.given, hc]
  | update context v =>
    refine ⟨[some (.str context), some v], .cons rfl (.cons (h v (.head _)) .nil), .obj ?_⟩
    simp [kind, Kind.fields, members, Json.given]
  | result context o =>
    have ho : o.LaidOut o.toJson := by
      cases o with
      | value v => exact .value (h v (.head _))
      | fault f =>
        refine .fault ⟨[some (.str f.kind.name), some f.details],
          .cons rfl (.cons (h f.details (.head _)) .nil), .obj ?_⟩
        simp [Fault.keys, Json.given]
      | declined => exact .declined
    refine ⟨[some (.str context), some o.toJson], .cons rfl (.cons ho .nil), .obj ?_⟩
    simp [kind, Kind.fields, members, Json.given]
  | register context function priority handler =>
    refine ⟨[some (.str context), some (.str function), some (.num (.ofUInt16 priority)),
      some (.num (.ofUInt64 handler))], .cons rfl (.cons rfl (.cons rfl (.cons rfl .nil))), .obj ?_⟩
    simp [kind, Kind.fields, members, Json.given]
  | cancel context =>
    refine ⟨[some (.str context)], .cons rfl .nil, .obj ?_⟩
    simp [kind, Kind.fields, members, Json.given]

/-! ### Fields that come twice -/

/-- A kind has no message in which one of its fields comes twice. -/
theorem ofMembers?_of_repeated {k : Kind} (hkey : key ∈ k.fields) (h : field? key members = none) :
    ofMembers? members k = none := by
  cases k <;> simp only [Kind.fields, List.mem_cons, List.not_mem_nil, or_false] at hkey
  case call =>
    rcases hkey with rfl | rfl | rfl | rfl | rfl <;>
      simp [ofMembers?, text?, free?, depth?, handler?, required?, h]
  case update =>
    rcases hkey with rfl | rfl <;> simp [ofMembers?, text?, free?, required?, h]
  case result =>
    rcases hkey with rfl | rfl <;> simp [ofMembers?, text?, required?, h]
  case register =>
    rcases hkey with rfl | rfl | rfl | rfl <;> simp [ofMembers?, text?, word?, required?, h]
  case cancel =>
    obtain rfl := hkey
    simp [ofMembers?, text?, required?, h]

theorem ofJson?_of_repeated {k : Kind} (ht : ("type", .str k.name) ∈ members)
    (hkey : key ∈ "type" :: k.fields) (h : 2 ≤ (members.map (·.1)).count key) :
    ofJson? (.obj members) = none := by
  have hfield := Json.field?_of_repeated h
  by_cases htwice : 2 ≤ (members.map (·.1)).count "type"
  · simp [ofJson?, text?, required?, Json.field?_of_repeated htwice]
  · have hmem : .str k.name ∈ Json.under "type" members :=
      List.mem_filterMap.2 ⟨_, ht, if_pos rfl⟩
    have hone : Json.under "type" members = [.str k.name] := by
      rw [← Json.length_under] at htwice
      obtain ⟨v, hv⟩ := List.length_eq_one_iff.1
        (Nat.le_antisymm (Nat.le_of_lt_succ (Nat.lt_of_not_le htwice))
          (List.length_pos_of_mem hmem))
      rw [hv] at hmem ⊢
      rw [List.mem_singleton.1 hmem]
    have htype : text? "type" members = some k.name := by
      simp [text?, required?, field?, hone, Json.str?]
    have hname : Kind.ofName? k.name = some k := by cases k <;> decide
    rw [ofJson?_obj htype hname]
    rcases List.mem_cons.1 hkey with rfl | hkey
    · exact (htwice h).elim
    · exact ofMembers?_of_repeated hkey hfield

/-! ### Main statement -/

/-- **However a message is laid out and spelled, it is read.**  Members come in any order, with
blanks anywhere between the tokens, with members that its kind does not have, repeated or not, and
without those that have their defaults; or the type and the fields are the elements of an array, of
which a run that have their defaults may be missing at the end.  An object in which the type or a
field of its kind comes twice is refused. -/
theorem decode_of_layout :
    (∀ (m : Message) (j : Json) (s : String), m.LaidOut j → j.depth ≤ Json.maxDepth →
      j.SpelledBy s → decode s.toUTF8.toList = .ok m) ∧
    ∀ (k : Kind) (members : List (String × Json)) (key : String) (s : String),
      ("type", .str k.name) ∈ members → key ∈ "type" :: k.fields →
      2 ≤ (members.map (·.1)).count key → (Json.obj members).SpelledBy s →
      decode s.toUTF8.toList = .error .malformed := by
  constructor
  · intro m j s hj hd hs
    rw [decode_toUTF8, ofText, Json.parse?_of_spelled hs, if_pos hd, Option.bind_eq_bind,
      Option.bind_some, ofJson?_of_laidOut hj]
  · intro k members key s ht hkey hcount hs
    rw [decode_toUTF8, ofText, Json.parse?_of_spelled hs]
    split
    · next m hm =>
      obtain ⟨j, hj, hm⟩ := Option.bind_eq_some_iff.1 hm
      split at hj
      · obtain rfl := Option.some.inj hj
        rw [ofJson?_of_repeated ht hkey hcount] at hm
        cases hm
      · cases hj
    · rfl

/-- A call without its defaults, among members that no call has; the elements of an array with blanks
and an escape between them; and an object that has a context twice. -/
theorem decode_of_layout_variants :
    let j : Json := .obj [("function", .str "f"), ("value", .null), ("type", .str "call"),
      ("value", .bool true), ("context", .str "c")]
    let twice : List (String × Json) :=
      [("context", .str "c"), ("type", .str "cancel"), ("context", .str "c")]
    decode j.render.toUTF8.toList = .ok (.call { context := "c", function := "f" }) ∧
      decode "[ \"cancel\"\n,\"\\u0063\"]".toUTF8.toList = .ok (.cancel "c") ∧
      decode (Json.obj twice).render.toUTF8.toList = .error .malformed := by
  intro j twice
  refine ⟨decode_of_layout.1 _ j _ ?_ (by decide) (Json.spelledBy_render rfl),
    decode_of_layout.1 _ (.arr [.str "cancel", .str "c"]) _ ?_ (by decide) ?_,
    decode_of_layout.2 .cancel twice "context" _ (by decide) (by decide) (by decide)
      (Json.spelledBy_render rfl)⟩
  · exact ⟨[some (.str "c"), some (.str "f"), none, none, none],
      .cons rfl (.cons rfl (.cons rfl (.cons rfl (.cons rfl .nil)))), .obj (by decide)⟩
  · exact ⟨[some (.str "c")], .cons rfl .nil, .arr (n := 0) rfl⟩
  · have htext : "[ \"cancel\"\n,\"\\u0063\"]".toList =
        Token.openArr.text.toList ++ ([' '] ++ ((Token.str "cancel").text.toList ++ (['\n'] ++
          (Token.comma.text.toList ++ ('"' :: ('\\' :: 'u' :: ['0', '0', '6', '3'] ++ []) ++ ['"'] ++
            (Token.closeArr.text.toList ++ [])))))) := by
      simp [Token.text, Token.toList_quoted, Token.escaped]
    have hc : Text.Spelled "c".toList ('\\' :: 'u' :: ['0', '0', '6', '3'] ++ []) :=
      .cons (.unit ⟨_, _, _, _, 0, 0, 6, 3, rfl, rfl, rfl, rfl, rfl, rfl⟩) .nil
    have hnone : ∀ c ∈ [], Lexeme.isBlank c = true := List.forall_mem_nil _
    rw [Json.SpelledBy, htext]
    exact .cons [] hnone (Token.spelled_text rfl) <|
      .cons [' '] (List.forall_mem_singleton.2 rfl) (Token.spelled_text rfl) <|
      .cons ['\n'] (List.forall_mem_singleton.2 rfl) (Token.spelled_text rfl) <|
      .cons [] hnone (.str hc) <| .cons [] hnone (Token.spelled_text rfl) (.nil hnone)

/-- A member that no kind has is refused with its message if its value denotes nothing, although that
has the form of a value: a number beyond binary64. -/
theorem decode_overflowing_member :
    let s := "\x7b\"type\":\"cancel\",\"context\":\"c\",\"x\":1e400\x7d"
    Json.FormedWithin 126 "1e400" ∧ decode s.toUTF8.toList = .error .malformed := by
  intro s
  let l : Literal := ⟨false, ['1'], [], some 400⟩
  let ts : List Token := [.openObj, .str "type", .colon, .str "cancel", .comma, .str "context",
    .colon, .str "c", .comma, .str "x", .colon]
  have hdigits : ∀ c ∈ ['4', '0', '0'], isDigit c = true := by simp [isDigit]
  have hpower : Literal.PowerSpelled (some 400) ('e' :: ['4', '0', '0']) :=
    .bare (.inl rfl) hdigits (by simp)
  have hwhole : Literal.WholeDigits ['1'] := .inr ⟨by simp, by simp, by simp [isDigit]⟩
  have hl : l.Spelled ['1', 'e', '4', '0', '0'] := ⟨⟨hwhole, nofun⟩, _, hpower, rfl⟩
  have hscan (read : List Lexeme) {r : List Char} (hr : Literal.Ends r) :
      Lexeme.scanFrom? read (['1', 'e', '4', '0', '0'] ++ r) =
        Lexeme.scanFrom? (.number l :: read) r := by
    apply Lexeme.scanFrom?_of_first?
    show Lexeme.first? ('1' :: (['e', '4', '0', '0'] ++ r)) = _
    rw [Lexeme.first?_of_digit (.inl rfl)]
    exact congrArg (Option.map _) (Lexeme.literal?_spelled hl hr)
  constructor
  · refine ⟨[.number l], .null, (hscan [] (by simp [Literal.Ends])).trans ?_, rfl⟩
    rw [Lexeme.scanFrom?]
    rfl
  · have htext : s.toList =
        Token.chars ts ++ (['1', 'e', '4', '0', '0'] ++ (Token.chars [.closeObj] ++ [])) := by
      simp [s, ts, Token.chars, Token.text, Token.toList_quoted, Token.escaped]
    have hxs : Lexeme.scan? s = some (ts.map Token.lexeme ++ [.number l, .mark .closeObj]) := by
      rw [Lexeme.scan?, htext, Json.scanFrom?_chars [] (by simp [ts, Token.IsNum]),
        hscan _ (Json.ends_chars id _ _), Json.scanFrom?_chars _ (by simp [Token.IsNum]),
        Lexeme.scanFrom?]
      simp [Token.lexeme]
    have hnothing : (Lexeme.number l).token? = none := by cbv
    rw [decode_toUTF8, ofText, Json.parse?_of_unreadable hxs (by simp) hnothing]
    rfl

end Message
end
end Switchboard
