import Switchboard.Proofs.Json.Canonical
import Switchboard.Proofs.Json.Reading
import Switchboard.Proofs.Message.Transmission

/-! # Messages written and read

* **Writing first.** Without binary64 numbers a message is read back from its text with its
  free-form values in canonical form, unless the text is nested too deeply (`ofText_render`).
* **Reading first.** Where all number literals of a payload are integers, what is read has no
  binary64 numbers, is nested no deeper than the payload, and has its free-form values in canonical
  form (`ofJson?_within`), whatever the members were that it was read from.
* **Main statement.** `decode_encode` puts the two together. -/

namespace Switchboard

/-! ### Values without binary64 numbers -/

namespace Json

theorem floatFree_arr {vs : List Json} : (arr vs).FloatFree ↔ ∀ v ∈ vs, v.FloatFree := by
  rw [FloatFree]
  induction vs with
  | nil => simp [FloatFreeElems]
  | cons v vs ih => rw [FloatFreeElems, ih, List.forall_mem_cons]

theorem floatFree_obj {ms : List (String × Json)} :
    (obj ms).FloatFree ↔ ∀ m ∈ ms, m.2.FloatFree := by
  rw [FloatFree]
  induction ms with
  | nil => simp [FloatFreeMembers]
  | cons m ms ih => rw [FloatFreeMembers, ih, List.forall_mem_cons]

@[simp] theorem floatFree_bool (b : Bool) : (bool b).FloatFree := trivial

@[simp] theorem floatFree_str (s : String) : (str s).FloatFree := trivial

@[simp] theorem floatFree_int {i : Int} (w : -0x8000000000000000 ≤ i ∧ i < 0x10000000000000000) :
    (num (.int i w)).FloatFree := trivial

theorem FloatFree.canonical {v : Json} (h : v.FloatFree) : v.canonical.FloatFree := by
  induction v using induction with
  | null | bool | num | str => exact h
  | arr vs ih =>
    rw [floatFree_arr] at h
    rw [Json.canonical, canonicalElems_eq_map, floatFree_arr]
    intro w hw
    obtain ⟨v, hv, rfl⟩ := List.mem_map.1 hw
    exact ih v hv (h v hv)
  | obj ms ih =>
    rw [floatFree_obj] at h
    rw [Json.canonical, floatFree_obj]
    intro m hm
    obtain ⟨v, hv, hmv⟩ := mem_canonicalMembers hm
    rw [hmv]
    exact ih _ hv (h _ hv)

/-- A value without binary64 numbers that is nested so deep at most. -/
structure Within (n : Nat) (v : Json) : Prop where
  floatFree : v.FloatFree
  depth : v.depth ≤ n

theorem within_arr {n : Nat} {vs : List Json} :
    (arr vs).Within n ↔ 0 < n ∧ ∀ v ∈ vs, v.Within (n - 1) := by
  constructor
  · rintro ⟨hf, hd⟩
    rw [floatFree_arr] at hf
    rw [depth] at hd
    have hd' := depthElems_le_iff.1 (Nat.le_sub_of_add_le hd)
    exact ⟨by omega, fun v hv => ⟨hf v hv, hd' v hv⟩⟩
  · rintro ⟨hn, h⟩
    refine ⟨floatFree_arr.2 fun v hv => (h v hv).floatFree, ?_⟩
    have hd := depthElems_le_iff.2 fun v hv => (h v hv).depth
    rw [depth]
    omega

theorem within_obj {n : Nat} {ms : List (String × Json)} :
    (obj ms).Within n ↔ 0 < n ∧ ∀ m ∈ ms, m.2.Within (n - 1) := by
  constructor
  · rintro ⟨hf, hd⟩
    rw [floatFree_obj] at hf
    rw [depth] at hd
    have hd' := depthMembers_le_iff.1 (Nat.le_sub_of_add_le hd)
    exact ⟨by omega, fun m hm => ⟨hf m hm, hd' m hm⟩⟩
  · rintro ⟨hn, h⟩
    refine ⟨floatFree_obj.2 fun m hm => (h m hm).floatFree, ?_⟩
    have hd := depthMembers_le_iff.2 fun m hm => (h m hm).depth
    rw [depth]
    omega

@[simp] theorem within_null (n : Nat) : null.Within n := ⟨trivial, by simp⟩

@[simp] theorem within_bool (n : Nat) (b : Bool) : (bool b).Within n := ⟨trivial, by simp⟩

@[simp] theorem within_str (n : Nat) (s : String) : (str s).Within n := ⟨trivial, by simp⟩

@[simp] theorem within_int (n : Nat) {i : Int}
    (w : -0x8000000000000000 ≤ i ∧ i < 0x10000000000000000) :
    (num (.int i w)).Within n := ⟨trivial, by simp⟩

theorem Within.canonical {n : Nat} {v : Json} (h : v.Within n) : v.canonical.Within n :=
  ⟨h.floatFree.canonical, Nat.le_trans (depth_canonical_le v) h.depth⟩

theorem closed_within : Closed Within where
  null := within_null
  bool := within_bool
  str := within_str
  arr _ _ h := within_arr.2 ⟨Nat.succ_pos _, h⟩
  obj _ _ h := within_obj.2 ⟨Nat.succ_pos _, h⟩

/-! ### Members that are read -/

theorem mem_of_field? {key : String} {members : List (String × Json)} {v : Json}
    (h : field? key members = some (some v)) : (key, v) ∈ members := by
  have hv : v ∈ under key members := by
    unfold field? at h
    split at h
    · cases h
    · next hu =>
      obtain rfl := Option.some.inj (Option.some.inj h)
      rw [hu]
      exact List.mem_singleton.2 rfl
    · cases h
  obtain ⟨⟨k, w⟩, hm, hk⟩ := List.mem_filterMap.1 hv
  dsimp only at hk
  split at hk
  · next he =>
    obtain rfl := Option.some.inj hk
    exact he ▸ hm
  · cases hk

theorem mem_of_required? {key : String} {members : List (String × Json)} {v : Json}
    (h : required? key members = some v) : (key, v) ∈ members :=
  mem_of_field? (Option.join_eq_some_iff.1 h)

/-- The members of a record are nested less deep than the record. -/
theorem within_record? {n : Nat} {keys : List String} {v : Json} {members : List (String × Json)}
    (h : v.record? keys = some members) (hv : v.Within n) :
    0 < n ∧ ∀ m ∈ members, m.2.Within (n - 1) := by
  unfold record? at h
  split at h
  · obtain rfl := Option.some.inj h
    exact within_obj.1 hv
  · split at h
    · obtain rfl := Option.some.inj h
      obtain ⟨hn, hvs⟩ := within_arr.1 hv
      exact ⟨hn, fun m hm => hvs m.2 (List.of_mem_zip hm).2⟩
    · cases h
  · cases h

end Json

/-! ### Free-form values -/

namespace Outcome

/-- The free-form values of an outcome. -/
def values : Outcome → List Json
  | value v => [v]
  | fault f => [f.details]
  | declined => []

/-- Changes the free-form values of an outcome. -/
def map (f : Json → Json) : Outcome → Outcome
  | value v => value (f v)
  | fault e => fault ⟨e.kind, f e.details⟩
  | declined => declined

theorem traverse?_some (f : Json → Json) (o : Outcome) :
    o.traverse? (fun v => some (f v)) = some (o.map f) := by
  cases o <;> rfl

theorem map_eq_self {f : Json → Json} {o : Outcome} (h : ∀ v ∈ o.values, f v = v) :
    o.map f = o := by
  cases o with
  | value v => rw [map, h v (List.mem_singleton.2 rfl)]
  | fault e => rw [map, h e.details (List.mem_singleton.2 rfl)]
  | declined => rfl

theorem floatFree_toJson {o : Outcome} :
    o.toJson.FloatFree ↔ ∀ v ∈ o.values, v.FloatFree := by
  cases o with
  | value v => simp [toJson, values, Json.floatFree_obj]
  | fault e => simp [toJson, Fault.toJson, values, Json.floatFree_obj]
  | declined => simp [toJson, values, Json.floatFree_obj]

end Outcome

namespace Message

/-- The free-form values of a message. -/
def values : Message → List Json
  | call c => [c.args]
  | update _ v => [v]
  | result _ o => o.values
  | register .. | cancel _ => []

/-- Changes the free-form values of a message. -/
def map (f : Json → Json) : Message → Message
  | call c => call { c with args := f c.args }
  | update context v => update context (f v)
  | result context o => result context (o.map f)
  | register context function priority handler => register context function priority handler
  | cancel context => cancel context

theorem traverse?_some (f : Json → Json) (m : Message) :
    m.traverse? (fun v => some (f v)) = some (m.map f) := by
  cases m with
  | result context o => rw [traverse?, Outcome.traverse?_some]; rfl
  | call | update | register | cancel => rfl

theorem map_eq_self {f : Json → Json} {m : Message} (h : ∀ v ∈ m.values, f v = v) :
    m.map f = m := by
  cases m with
  | call c => rw [map, h c.args (List.mem_singleton.2 rfl)]
  | update context v => rw [map, h v (List.mem_singleton.2 rfl)]
  | result context o => rw [map, Outcome.map_eq_self h]
  | register | cancel => rfl

/-! ### Writing and reading -/

theorem floatFree_toJson {m : Message} :
    m.toJson.FloatFree ↔ ∀ v ∈ m.values, v.FloatFree := by
  rw [toJson, Json.floatFree_obj, List.forall_mem_cons, and_iff_right (Json.floatFree_str _)]
  cases m with
  | call c =>
    obtain ⟨context, function, args, depth, handler⟩ := c
    cases handler <;> simp [members, values, Number.ofUInt32, Number.ofUInt64]
  | update context v => simp [members, values]
  | result context o => simp [members, values, Outcome.floatFree_toJson]
  | register => simp [members, values, Number.ofUInt16, Number.ofUInt64]
  | cancel => simp [members, values]

/-- A message without binary64 numbers is read back from its text, unless that is nested too
deeply. -/
theorem ofText_render {m : Message} (h : ∀ v ∈ m.values, v.FloatFree) :
    ofText m.toJson.render =
      if m.toJson.depth ≤ Json.maxDepth then .ok (m.map Json.canonical) else .error .malformed := by
  unfold ofText
  rw [Json.parse?_render, Json.reread?_of_floatFree (floatFree_toJson.2 h), Option.bind_some]
  by_cases hd : m.toJson.depth ≤ Json.maxDepth
  · rw [if_pos hd, if_pos hd, Option.bind_eq_bind, Option.bind_some, ofJson?_toJson,
      traverse?_some]
  · rw [if_neg hd, if_neg hd]
    rfl

theorem decode_toUTF8 (s : String) : decode s.toUTF8.toList = ofText s := by
  unfold decode
  rw [fromUTF8?_toUTF8]

/-- What says nothing in two ways is read back as it is. -/
theorem decode_of_plain {m : Message} (hv : ∀ v ∈ m.values, v.Plain)
    (hd : m.toJson.depth ≤ Json.maxDepth) : decode m.toJson.render.toUTF8.toList = .ok m := by
  rw [decode_toUTF8, ofText_render fun v h => (hv v h).floatFree, if_pos hd,
    map_eq_self fun v h => (hv v h).canonical]

theorem encode_of_fits {m : Message} (h : m.toJson.render.utf8ByteSize ≤ maxFrameSize) :
    m.encode = .ok ⟨m.toJson.render, h⟩ := by
  unfold encode
  exact dif_pos h

theorem payload_of_encode {m : Message} {f : Frame} (h : m.encode = .ok f) :
    f.payload = m.toJson.render.toUTF8.toList := by
  unfold encode at h
  dsimp only at h
  split at h
  · obtain rfl := Except.ok.inj h
    rfl
  · cases h

end Message

/-! ### Reading and writing -/

section

variable {n : Nat}

theorem Fault.ofJson?_within {v : Json} {f : Fault} (h : ofJson? v = some f) (hv : v.Within n) :
    f.toJson.Within n ∧ f.details.Sorted := by
  obtain ⟨members, hm, h⟩ := Option.bind_eq_some_iff.1 h
  obtain ⟨k, _, h⟩ := Option.bind_eq_some_iff.1 h
  obtain ⟨kind, _, h⟩ := Option.bind_eq_some_iff.1 h
  obtain ⟨details, hd, h⟩ := Option.bind_eq_some_iff.1 h
  obtain rfl := Option.some.inj h
  obtain ⟨hn, hmembers⟩ := Json.within_record? hm hv
  have hdetails : (details.getD .null).Within (n - 1) := by
    cases details with
    | none => exact Json.within_null _
    | some d => exact hmembers _ (Json.mem_of_field? hd)
  refine ⟨Json.within_obj.2 ⟨hn, ?_⟩, Json.sorted_canonical _⟩
  exact List.forall_mem_cons.2 ⟨Json.within_str _ _,
    List.forall_mem_singleton.2 hdetails.canonical⟩

theorem Outcome.ofJson?_within {v : Json} {o : Outcome} (h : ofJson? v = some o)
    (hv : v.Within n) : o.toJson.Within n ∧ ∀ w ∈ o.values, w.Sorted := by
  unfold ofJson? at h
  split at h
  · next key v =>
    obtain ⟨hn, hv⟩ := Json.within_obj.1 hv
    have hv : v.Within (n - 1) := hv _ List.mem_cons_self
    split at h
    · obtain rfl := Option.some.inj h
      refine ⟨Json.within_obj.2 ⟨hn, List.forall_mem_singleton.2 hv.canonical⟩, ?_⟩
      exact List.forall_mem_singleton.2 (Json.sorted_canonical v)
    · split at h
      · obtain ⟨f, hf, rfl⟩ := Option.map_eq_some_iff.1 h
        obtain ⟨hw, hs⟩ := Fault.ofJson?_within hf hv
        exact ⟨Json.within_obj.2 ⟨hn, List.forall_mem_singleton.2 hw⟩,
          List.forall_mem_singleton.2 hs⟩
      · split at h
        · obtain ⟨_, _, rfl⟩ := Option.map_eq_some_iff.1 h
          exact ⟨Json.within_obj.2 ⟨hn, List.forall_mem_singleton.2 (Json.within_bool _ _)⟩,
            List.forall_mem_nil _⟩
        · cases h
  · cases h

namespace Message

theorem free?_within {key : String} {members : List (String × Json)} {v : Json}
    (h : free? key members = some v) (hm : ∀ m ∈ members, m.2.Within n) :
    v.Within n ∧ v.Sorted := by
  obtain ⟨w, hw, h⟩ := Option.bind_eq_some_iff.1 h
  obtain rfl := Option.some.inj h
  have hwithin : (w.getD .null).Within n := by
    cases w with
    | none => exact Json.within_null _
    | some u => exact hm _ (Json.mem_of_field? hw)
  exact ⟨hwithin.canonical, Json.sorted_canonical _⟩

theorem within_toJson {m : Message} (h : ∀ p ∈ m.members, p.2.Within n) :
    m.toJson.Within (n + 1) :=
  Json.within_obj.2 ⟨Nat.succ_pos n, List.forall_mem_cons.2 ⟨Json.within_str n _, h⟩⟩

/-- What is read from members is nested one deeper than they are. -/
theorem ofMembers?_within {members : List (String × Json)} {kind : Kind} {m : Message}
    (h : ofMembers? members kind = some m) (hm : ∀ p ∈ members, p.2.Within n) :
    m.toJson.Within (n + 1) ∧ ∀ v ∈ m.values, v.Sorted := by
  cases kind with
  | call =>
    obtain ⟨context, _, h⟩ := Option.bind_eq_some_iff.1 h
    obtain ⟨function, _, h⟩ := Option.bind_eq_some_iff.1 h
    obtain ⟨args, ha, h⟩ := Option.bind_eq_some_iff.1 h
    obtain ⟨depth, _, h⟩ := Option.bind_eq_some_iff.1 h
    obtain ⟨handler, _, h⟩ := Option.bind_eq_some_iff.1 h
    obtain rfl := Option.some.inj h
    obtain ⟨hw, hs⟩ := free?_within ha hm
    refine ⟨within_toJson ?_, List.forall_mem_singleton.2 hs⟩
    cases handler <;> simp [Message.members, Number.ofUInt32, Number.ofUInt64, hw]
  | update =>
    obtain ⟨context, _, h⟩ := Option.bind_eq_some_iff.1 h
    obtain ⟨v, hv, h⟩ := Option.bind_eq_some_iff.1 h
    obtain rfl := Option.some.inj h
    obtain ⟨hw, hs⟩ := free?_within hv hm
    refine ⟨within_toJson ?_, List.forall_mem_singleton.2 hs⟩
    simp [Message.members, hw]
  | result =>
    obtain ⟨context, _, h⟩ := Option.bind_eq_some_iff.1 h
    obtain ⟨v, hv, h⟩ := Option.bind_eq_some_iff.1 h
    obtain ⟨o, ho, h⟩ := Option.bind_eq_some_iff.1 h
    obtain rfl := Option.some.inj h
    obtain ⟨hw, hs⟩ := Outcome.ofJson?_within ho (hm _ (Json.mem_of_required? hv))
    refine ⟨within_toJson ?_, hs⟩
    simp [Message.members, hw]
  | register =>
    obtain ⟨context, _, h⟩ := Option.bind_eq_some_iff.1 h
    obtain ⟨function, _, h⟩ := Option.bind_eq_some_iff.1 h
    obtain ⟨priority, _, h⟩ := Option.bind_eq_some_iff.1 h
    obtain ⟨handler, _, h⟩ := Option.bind_eq_some_iff.1 h
    obtain rfl := Option.some.inj h
    refine ⟨within_toJson ?_, List.forall_mem_nil _⟩
    simp [Message.members, Number.ofUInt16, Number.ofUInt64]
  | cancel =>
    obtain ⟨context, _, h⟩ := Option.bind_eq_some_iff.1 h
    obtain rfl := Option.some.inj h
    refine ⟨within_toJson ?_, List.forall_mem_nil _⟩
    simp [Message.members]

theorem ofJson?_within {j : Json} {m : Message} (h : ofJson? j = some m) (hj : j.Within n) :
    m.toJson.Within n ∧ ∀ v ∈ m.values, v.Sorted := by
  unfold ofJson? at h
  split at h
  · next members =>
    obtain ⟨hn, hmembers⟩ := Json.within_obj.1 hj
    obtain ⟨_, _, h⟩ := Option.bind_eq_some_iff.1 h
    obtain ⟨kind, _, h⟩ := Option.bind_eq_some_iff.1 h
    have hm := ofMembers?_within h hmembers
    rwa [Nat.sub_add_cancel hn] at hm
  · next name elems =>
    obtain ⟨hn, helems⟩ := Json.within_arr.1 hj
    obtain ⟨kind, _, h⟩ := Option.bind_eq_some_iff.1 h
    obtain ⟨members, hr, h⟩ := Option.bind_eq_some_iff.1 h
    have helems : (Json.arr elems).Within n :=
      Json.within_arr.2 ⟨hn, fun v hv => helems v (List.mem_cons_of_mem _ hv)⟩
    have hm := ofMembers?_within h (Json.within_record? hr helems).2
    rwa [Nat.sub_add_cancel hn] at hm
  · cases h

end Message

end

/-! ### Both ways -/

namespace Message

/-- The number literals of a payload. -/
def literals (payload : Bytes) : List Literal :=
  (((String.fromUTF8? ⟨payload.toArray⟩).bind Lexeme.scan?).getD []).filterMap fun
    | .number l => some l
    | _ => none

theorem within_of_decode {payload : Bytes} {m : Message} (h : decode payload = .ok m)
    (hl : ∀ l ∈ literals payload, l.Integral) :
    m.toJson.Within Json.maxDepth ∧ ∀ v ∈ m.values, v.Sorted := by
  unfold decode at h
  split at h
  · next s hs =>
    have hscan (xs : List Lexeme) (hxs : Lexeme.scan? s = some xs) (l : Literal)
        (hmem : .number l ∈ xs) : l.Integral := by
      refine hl l (List.mem_filterMap.2 ⟨.number l, ?_, rfl⟩)
      rwa [hs, Option.bind_some, hxs]
    unfold ofText at h
    split at h
    · next m' hm =>
      obtain rfl := Except.ok.inj h
      obtain ⟨j, hj, hm⟩ := Option.bind_eq_some_iff.1 hm
      refine ofJson?_within hm (Json.holds_of_parse? Json.closed_within ?_ hj)
      intro ts hts x n hx
      obtain ⟨i, w, rfl⟩ := Token.integral_of_scan? hts hscan hx
      exact Json.within_int n w
    · cases h
  · cases h

/-- **Reading undoes writing, and writing keeps what was read.**  Take a message whose free-form
values have no binary64 numbers and no key twice in an object.  If its text is not nested too
deeply, its frame is read as the message itself: as its free-form values with the members in
order, which changes nothing where they are in order already.  If the text is nested more deeply,
the frame is refused as malformed.  In return, what is read from a payload whose number literals
are integers is such a message, not nested too deeply, and it is what is read from its own text. -/
theorem decode_encode :
    (∀ (m : Message) (f : Frame), (∀ v ∈ m.values, v.FloatFree ∧ v.DistinctKeys) →
      m.encode = .ok f →
      (m.toJson.depth ≤ Json.maxDepth →
        decode f.payload = .ok (m.map Json.canonical) ∧
        (∀ v ∈ m.values, Json.Reordered v v.canonical) ∧
        ((∀ v ∈ m.values, v.Sorted) → decode f.payload = .ok m)) ∧
      (Json.maxDepth < m.toJson.depth → decode f.payload = .error .malformed)) ∧
    ∀ (payload : Bytes) (m : Message), (∀ l ∈ literals payload, l.Integral) →
      decode payload = .ok m →
      (∀ v ∈ m.values, v.FloatFree ∧ v.DistinctKeys) ∧ m.toJson.depth ≤ Json.maxDepth ∧
      decode m.toJson.render.toUTF8.toList = .ok m := by
  constructor
  · intro m f hvalues hf
    have hdecode : decode f.payload = if m.toJson.depth ≤ Json.maxDepth then
        .ok (m.map Json.canonical) else .error .malformed := by
      rw [payload_of_encode hf, decode_toUTF8, ofText_render fun v hv => (hvalues v hv).1]
    constructor
    · intro hd
      rw [if_pos hd] at hdecode
      refine ⟨hdecode, fun v hv => Json.reordered_canonical (hvalues v hv).2, ?_⟩
      intro hs
      rw [hdecode, map_eq_self fun v hv => Json.canonical_of_sorted (hs v hv)]
    · intro hd
      rw [hdecode, if_neg (Nat.not_le.2 hd)]
  · intro payload m hl h
    obtain ⟨⟨hfree, hdepth⟩, hs⟩ := within_of_decode h hl
    have hfree := floatFree_toJson.1 hfree
    refine ⟨fun v hv => ⟨hfree v hv, (hs v hv).distinctKeys⟩, hdepth, ?_⟩
    rw [decode_toUTF8, ofText_render hfree, if_pos hdepth,
      map_eq_self fun v hv => Json.canonical_of_sorted (hs v hv)]

/-- Members come in any order, one of them twice and one that no message has, and the message that
they are read as is read again from its frame. -/
theorem decode_update :
    let two : Json := .num (.int 2 (by decide))
    let three : Json := .num (.int (-3) (by decide))
    let j : Json := .obj [("value", .obj [("b", .null), ("a", two), ("b", three)]),
      ("extra", .arr []), ("context", .str "c"), ("type", .str "update")]
    let m : Message := .update "c" (.obj [("a", two), ("b", three)])
    decode j.render.toUTF8.toList = .ok m ∧
      ∃ f, m.encode = .ok f ∧ decode f.payload = .ok m := by
  intro two three j m
  have hfree : j.FloatFree :=
    ⟨⟨trivial, trivial, trivial, trivial⟩, trivial, trivial, trivial, trivial⟩
  have hnests : j.depth ≤ Json.maxDepth := by decide
  have hj : ofJson? j = some m := by decide
  have hread : decode j.render.toUTF8.toList = .ok m := by
    rw [decode_toUTF8, ofText, Json.parse?_render, Json.reread?_of_floatFree hfree,
      Option.bind_some, if_pos hnests, Option.bind_eq_bind, Option.bind_some, hj]
  have hintegral : ∀ l ∈ literals j.render.toUTF8.toList, l.Integral := by
    rw [literals, fromUTF8?_toUTF8, Option.bind_some, Json.scan?_render]
    exact List.forall_mem_cons.2 ⟨Number.integral_literal 2 (by decide),
      List.forall_mem_singleton.2 (Number.integral_literal (-3) (by decide))⟩
  have htext : m.toJson.render =
      "\x7b\"type\":\"update\",\"context\":\"c\",\"value\":\x7b\"a\":2,\"b\":-3\x7d\x7d" := by
    cbv
  have hsize : m.toJson.render.utf8ByteSize ≤ maxFrameSize := by
    rw [htext]
    decide
  have hsorted : ∀ v ∈ m.values, v.Sorted :=
    List.forall_mem_singleton.2 ⟨by decide, trivial, trivial, trivial⟩
  obtain ⟨hvalues, hdepth, _⟩ := decode_encode.2 _ _ hintegral hread
  obtain ⟨_, _, hsame⟩ := (decode_encode.1 m _ hvalues (encode_of_fits hsize)).1 hdepth
  exact ⟨hread, ⟨m.toJson.render, hsize⟩, encode_of_fits hsize, hsame hsorted⟩

end Message
end Switchboard
