import Switchboard.Broker.Reception
import Switchboard.Proofs.Exchange.Departure
import Switchboard.Proofs.Frame.Messages

/-! # What the exchange hears of a session

The reception serves many sessions, and the steps of different sessions come in any order.  What the
exchange hears of one of them depends on the bytes of its own client, and on what ends it.

* **Inputs.** `Does` lists what an input can do.  It leaves the sessions that it is not about alone
  (`Does.undisturbed`).
* **Audible bytes.** `audible` are the bytes that a session gets to read: those of its client, until
  the client ends its side or the session notices that the broker shuts down.
* **Course.** `told` is what the exchange hears of one client.  A session that is over stays so, and
  nothing is heard of it (`Past.run`).  One that reads hands on what its bytes say, and ends with
  them, or when they cannot be read on (`Reading.run`).
* **Main statement.** `told_of_announced`: after its announcement a session hands on what the audible
  bytes say, and the exchange hears once that the client left, if they cannot be read on or have come
  to an end. -/

namespace Switchboard.Reception

variable {r : Reception} {client : ClientId} {i : Input} {is : List Input}
  {p : Reception × List ExchangeEvent}

/-- The client whose session an input is about. -/
def Input.client? : Input → Option ClientId
  | announce client | bytes client _ | hangUp client | dismiss client | release client => some client
  | arrive | shutdown => none

/-- An input that ends a session from outside: its client ends its side, or the session notices that
the broker shuts down. -/
def Input.Closes (client : ClientId) (listening : Bool) : Input → Prop
  | hangUp c => c = client
  | dismiss c => c = client ∧ listening = false
  | arrive | announce _ | bytes .. | shutdown | release _ => False

instance (client : ClientId) (listening : Bool) : DecidablePred (Input.Closes client listening) :=
  fun i => by cases i <;> unfold Input.Closes <;> infer_instance

/-! ### What an input does -/

/-- What an input does. -/
inductive Does (r : Reception) : Input → Reception × List ExchangeEvent → Prop
  | ignores (i : Input) (h : i ≠ .shutdown) : Does r i (r, [])
  | admits (h : r.admits = true) :
    Does r .arrive
      ({ r with
          sessions := r.sessions.insert (r.last + 1) .admitted
          active := r.active + 1
          last := r.last + 1 }, [])
  | announces (client : ClientId) (h : r.sessions.get? client = some .admitted) :
    Does r (.announce client)
      ({ r with sessions := r.sessions.insert client (.reading {}) }, [.connected client])
  | reads (client : ClientId) (s : Bytes) (reader : Reader)
      (h : r.sessions.get? client = some (.reading reader))
      (hb : (reader.feed s).1.broken = false) :
    Does r (.bytes client s)
      ({ r with sessions := r.sessions.insert client (.reading (reader.feed s).1) },
        (reader.feed s).2.map (.received client))
  | breaks (client : ClientId) (s : Bytes) (reader : Reader)
      (h : r.sessions.get? client = some (.reading reader))
      (hb : (reader.feed s).1.broken = true) :
    Does r (.bytes client s)
      ((r.finish client).1, (reader.feed s).2.map (.received client) ++ [.left client])
  | closes (client : ClientId) (i : Input) (reader : Reader)
      (h : r.sessions.get? client = some (.reading reader)) (hi : i.Closes client r.listening)
      (hc : i.client? = some client) :
    Does r i (r.finish client)
  | shuts : Does r .shutdown ({ r with listening := false }, [])
  | releases (client : ClientId) (h : r.sessions.get? client = some .ending) :
    Does r (.release client)
      ({ r with sessions := r.sessions.erase client, active := r.active - 1 }, [])

theorem does_step (r : Reception) (i : Input) : r.Does i (r.step i) := by
  cases i with
  | arrive =>
    rw [step]
    split
    · next h => exact .admits h
    · exact .ignores _ (by simp)
  | announce c =>
    simp only [step]
    split
    · next h => exact .announces c h
    · exact .ignores _ (by simp)
  | bytes c s =>
    simp only [step]
    split
    · next reader h =>
      split
      · next hb => exact .breaks c s reader h hb
      · next hb => exact .reads c s reader h (Bool.eq_false_iff.2 hb)
    · exact .ignores _ (by simp)
  | hangUp c =>
    simp only [step]
    split
    · next reader h => exact .closes c _ reader h rfl rfl
    · exact .ignores _ (by simp)
  | shutdown => exact .shuts
  | dismiss c =>
    simp only [step]
    split
    · next reader h =>
      split
      · exact .ignores _ (by simp)
      · next hl => exact .closes c _ reader h ⟨rfl, Bool.eq_false_iff.2 hl⟩ rfl
    · exact .ignores _ (by simp)
  | release c =>
    simp only [step]
    split
    · next h => exact .releases c h
    · exact .ignores _ (by simp)

theorem Does.listening (h : r.Does i p) : p.1.listening = (r.listening && i ≠ .shutdown) := by
  cases h with
  | ignores i hi => simp [hi]
  | closes c i reader h hi hc =>
    have hne : i ≠ .shutdown := by
      rintro rfl
      cases hc
    simp [finish, hne]
  | admits | announces | reads | breaks | shuts | releases => simp [finish]

/-- Client ids only grow. -/
theorem Does.last_le (h : r.Does i p) : r.last ≤ p.1.last := by
  cases h with
  | admits => exact Nat.le_succ _
  | ignores | announces | reads | breaks | closes | shuts | releases => exact Nat.le_refl _

theorem Does.client_of_mem (h : r.Does i p) : ∀ e ∈ p.2, i.client? = some e.client := by
  intro e he
  cases h with
  | ignores | admits | shuts | releases => cases he
  | announces =>
    rw [List.mem_singleton.1 he]
    rfl
  | closes _ _ _ _ _ hc =>
    rw [List.mem_singleton.1 he, hc]
    rfl
  | reads =>
    obtain ⟨m, _, rfl⟩ := List.mem_map.1 he
    rfl
  | breaks =>
    rcases List.mem_append.1 he with he | he
    · obtain ⟨m, _, rfl⟩ := List.mem_map.1 he
      rfl
    · rw [List.mem_singleton.1 he]
      rfl

/-- What the exchange hears of one client. -/
def told (client : ClientId) (es : List ExchangeEvent) : List ExchangeEvent :=
  es.filter (·.client = client)

theorem told_append (client : ClientId) (es fs : List ExchangeEvent) :
    told client (es ++ fs) = told client es ++ told client fs := List.filter_append ..

theorem told_eq_self {es : List ExchangeEvent} (h : ∀ e ∈ es, e.client = client) :
    told client es = es := List.filter_eq_self.2 (by simpa using h)

theorem told_received (client : ClientId) (ms : List Message) :
    told client (ms.map (.received client)) = ms.map (.received client) := by
  refine told_eq_self fun e he => ?_
  obtain ⟨m, _, rfl⟩ := List.mem_map.1 he
  rfl

theorem told_left (client : ClientId) : told client [.left client] = [.left client] :=
  told_eq_self (by simp [ExchangeEvent.client])

/-- Nothing is heard of the clients that an input is not about. -/
theorem Does.untold (h : r.Does i p) (hi : i.client? ≠ some client) : told client p.2 = [] := by
  refine List.filter_eq_nil_iff.2 fun e he => ?_
  have hclient := h.client_of_mem e he
  simp only [decide_eq_true_eq]
  exact fun h => hi (h ▸ hclient)

theorem Does.elsewhere (h : r.Does i p) (hi : i.client? ≠ some client) :
    p.1.sessions.get? client = r.sessions.get? client ∨
      r.last < client ∧ p.1.sessions.get? client = some .admitted := by
  have other {c : ClientId} (h : some c ≠ some client) : client ≠ c := fun hc => h (hc ▸ rfl)
  cases h with
  | ignores | shuts => exact .inl rfl
  | admits =>
    by_cases hnew : client = r.last + 1
    · subst hnew
      exact .inr ⟨Nat.lt_succ_self _, Keyed.get?_insert_self ..⟩
    · exact .inl (Keyed.get?_insert_of_ne _ _ hnew)
  | announces | reads | breaks => exact .inl (Keyed.get?_insert_of_ne _ _ (other hi))
  | closes c i reader h _ hc =>
    rw [hc] at hi
    exact .inl (Keyed.get?_insert_of_ne _ _ (other hi))
  | releases => exact .inl (Keyed.get?_erase_of_ne _ (other hi))

theorem Does.undisturbed (h : r.Does i p) (hi : i.client? ≠ some client) (hl : client ≤ r.last) :
    p.1.sessions.get? client = r.sessions.get? client :=
  (h.elsewhere hi).resolve_right fun hnew => Nat.not_lt_of_le hl hnew.1

/-! ### Ids and sessions that are over -/

/-- Every session has an id that has been given out. -/
def Bounded (r : Reception) : Prop :=
  ∀ client session, r.sessions.get? client = some session → client ≤ r.last

theorem bounded_empty : Bounded {} := by
  intro client session h
  cases h

theorem Bounded.step (h : r.Bounded) (i : Input) : (r.step i).1.Bounded := by
  have inserted {c : ClientId} {s t : Session} (hc : r.sessions.get? c = some s) :
      ∀ d u, (r.sessions.insert c t).get? d = some u → d ≤ r.last := by
    intro d u hd
    rw [Keyed.get?_insert] at hd
    split at hd
    · next he =>
      subst he
      exact h d s hc
    · exact h d u hd
  have hdoes := r.does_step i
  generalize r.step i = p at hdoes
  cases hdoes with
  | ignores | shuts => exact h
  | admits =>
    intro d u hd
    simp only [Keyed.get?_insert] at hd
    split at hd
    · next he => exact Nat.le_of_eq he
    · exact Nat.le_succ_of_le (h d u hd)
  | announces _ hc | reads _ _ _ hc | breaks _ _ _ hc | closes _ _ _ hc => exact inserted hc
  | releases =>
    intro d u hd
    simp only [Keyed.get?_erase] at hd
    split at hd
    · cases hd
    · exact h d u hd

theorem Bounded.run (h : r.Bounded) (is : List Input) : (r.run is).1.Bounded := by
  induction is generalizing r with
  | nil => exact h
  | cons i is ih => exact ih (h.step i)

/-- The client's session is over. -/
structure Past (r : Reception) (client : ClientId) : Prop where
  issued : client ≤ r.last
  gone : r.sessions.get? client = none ∨ r.sessions.get? client = some .ending

/-- A session that is over stays so, and nothing is heard of it. -/
theorem Past.step (h : r.Past client) (i : Input) :
    (r.step i).1.Past client ∧ told client (r.step i).2 = [] := by
  have hdoes := r.does_step i
  have hlast := Nat.le_trans h.issued hdoes.last_le
  by_cases hi : i.client? = some client
  · have hno {s : Session} (hs : r.sessions.get? client = some s) (hne : s ≠ .ending) : False := by
      rcases h.gone with hgone | hgone
      · cases hs.symm.trans hgone
      · exact hne (Option.some.inj (hs.symm.trans hgone))
    generalize r.step i = p at hdoes hlast
    cases hdoes with
    | ignores => exact ⟨h, rfl⟩
    | admits | shuts => cases hi
    | announces _ hc =>
      obtain rfl := Option.some.inj hi
      exact (hno hc (by simp)).elim
    | reads _ _ _ hc | breaks _ _ _ hc =>
      obtain rfl := Option.some.inj hi
      exact (hno hc (by simp)).elim
    | closes _ _ _ hc _ hclient =>
      obtain rfl := Option.some.inj (hclient.symm.trans hi)
      exact (hno hc (by simp)).elim
    | releases =>
      obtain rfl := Option.some.inj hi
      exact ⟨⟨hlast, .inl (by simp)⟩, rfl⟩
  · exact ⟨⟨hlast, by rw [hdoes.undisturbed hi h.issued]; exact h.gone⟩, hdoes.untold hi⟩

theorem Past.run (h : r.Past client) (is : List Input) :
    (r.run is).1.Past client ∧ told client (r.run is).2 = [] := by
  induction is generalizing r with
  | nil => exact ⟨h, rfl⟩
  | cons i is ih =>
    obtain ⟨hpast, htold⟩ := h.step i
    obtain ⟨hpast', htold'⟩ := ih hpast
    refine ⟨hpast', ?_⟩
    rw [Reception.run, told_append, htold, htold']
    rfl

theorem past_finish (hl : client ≤ r.last) : (r.finish client).1.Past client :=
  ⟨hl, .inr (by simp [finish])⟩

/-! ### Sessions that read -/

/-- The bytes that an input brings from a client. -/
def Input.bytesOf (client : ClientId) : Input → Bytes
  | bytes c s => if c = client then s else []
  | arrive | announce _ | hangUp _ | shutdown | dismiss _ | release _ => []

/-- The bytes that a session gets to read, and whether it is ended from outside after them. -/
def audible (client : ClientId) : Bool → List Input → Bytes × Bool
  | _, [] => ([], false)
  | listening, i :: is =>
    if i.Closes client listening then ([], true)
    else
      let (s, closed) := audible client (listening && i ≠ .shutdown) is
      (i.bytesOf client ++ s, closed)

/-- A session reads, and has read this. -/
structure Reading (r : Reception) (client : ClientId) (s : Bytes) : Prop where
  issued : client ≤ r.last
  reading : ∃ reader, r.sessions.get? client = some (.reading reader) ∧ reader.Tracks s
  sound : ¬ Spoilt s

/-- What one input does to a session that reads. -/
inductive Goes (r : Reception) (client : ClientId) (s : Bytes) (i : Input)
    (p : Reception × List ExchangeEvent) : Prop
  | on (ms : List Message) (hc : ¬ i.Closes client r.listening)
      (hms : said (s ++ i.bytesOf client) = said s ++ ms)
      (hr : p.1.Reading client (s ++ i.bytesOf client))
      (ht : told client p.2 = ms.map (.received client))
  | breaks (ms : List Message) (hc : ¬ i.Closes client r.listening)
      (hms : said (s ++ i.bytesOf client) = said s ++ ms)
      (hs : Spoilt (s ++ i.bytesOf client)) (hp : p.1.Past client)
      (ht : told client p.2 = ms.map (.received client) ++ [.left client])
  | closed (hc : i.Closes client r.listening) (hp : p.1.Past client)
      (ht : told client p.2 = [.left client])

theorem Reading.step {s : Bytes} (h : r.Reading client s) (i : Input) :
    r.Goes client s i (r.step i) := by
  obtain ⟨reader, hreader, htracks⟩ := h.reading
  have hlast := Nat.le_trans h.issued (r.does_step i).last_le
  have stays (hc : ¬ i.Closes client r.listening) (hb : i.bytesOf client = [])
      (hs : (r.step i).1.sessions.get? client = r.sessions.get? client)
      (ht : told client (r.step i).2 = []) : r.Goes client s i (r.step i) := by
    refine .on [] hc ?_ ?_ ht
    · rw [hb, List.append_nil, List.append_nil]
    · rw [hb, List.append_nil]
      exact ⟨hlast, ⟨reader, hs.trans hreader, htracks⟩, h.sound⟩
  by_cases hi : i.client? = some client
  · cases i with
    | arrive | shutdown => cases hi
    | announce c | release c =>
      obtain rfl := Option.some.inj hi
      refine stays id rfl ?_ ?_ <;> simp only [Reception.step, hreader]
      rfl
    | bytes c t =>
      obtain rfl := Option.some.inj hi
      have hbytes : (Input.bytes c t).bytesOf c = t := if_pos rfl
      obtain ⟨htracks', hsaid⟩ := htracks.feed t
      cases hb : (reader.feed t).1.broken with
      | true =>
        have hspoilt := htracks'.broken.1 hb
        refine .breaks (reader.feed t).2 id ?_ ?_ ?_ ?_
        · rw [hbytes, hsaid]
        · rwa [hbytes]
        · simp only [Reception.step, hreader, hb, if_true]
          exact past_finish h.issued
        · simp only [Reception.step, hreader, hb, if_true]
          rw [told_append, told_received]
          exact congrArg _ (told_left c)
      | false =>
        have hsound : ¬ Spoilt (s ++ t) := fun hs => by
          rw [htracks'.broken.2 hs] at hb
          cases hb
        refine .on (reader.feed t).2 id ?_ ?_ ?_
        · rw [hbytes, hsaid]
        · rw [hbytes]
          simp only [Reception.step, hreader, hb, Bool.false_eq_true, if_false]
          exact ⟨h.issued, ⟨_, by simp, htracks'⟩, hsound⟩
        · simp only [Reception.step, hreader, hb, Bool.false_eq_true, if_false]
          exact told_received c _
    | hangUp c =>
      obtain rfl := Option.some.inj hi
      refine .closed rfl ?_ ?_ <;> simp only [Reception.step, hreader]
      · exact past_finish h.issued
      · exact told_left c
    | dismiss c =>
      obtain rfl := Option.some.inj hi
      by_cases hl : r.listening = true
      · refine stays (by simp [Input.Closes, hl]) rfl ?_ ?_ <;>
          simp only [Reception.step, hreader, hl, if_true]
        rfl
      · refine .closed ⟨rfl, Bool.eq_false_iff.2 hl⟩ ?_ ?_ <;>
          simp only [Reception.step, hreader, if_neg hl]
        · exact past_finish h.issued
        · exact told_left c
  · have hsame := (r.does_step i).undisturbed hi h.issued
    have htold := (r.does_step i).untold hi
    have other {c : ClientId} (h : some c ≠ some client) : c ≠ client := fun hc => h (hc ▸ rfl)
    have hc : ¬ i.Closes client r.listening := by
      cases i with
      | hangUp => exact other hi
      | dismiss => exact fun hc => other hi hc.1
      | arrive | announce | bytes | shutdown | release => exact id
    have hb : i.bytesOf client = [] := by
      cases i with
      | bytes => exact if_neg (other hi)
      | arrive | announce | hangUp | shutdown | dismiss | release => rfl
    exact stays hc hb hsame htold

/-- What the exchange hears of a session that reads, and has read this: what its audible bytes say in
addition, and that the client left, if they cannot be read on or have come to an end.  Then the
session is over. -/
theorem Reading.run {s : Bytes} (h : r.Reading client s) (is : List Input) :
    let a := audible client r.listening is
    ∃ ms, said (s ++ a.1) = said s ++ ms ∧
      told client (r.run is).2 = ms.map (.received client) ++
        (if a.2 = true ∨ Spoilt (s ++ a.1) then [.left client] else []) ∧
      (a.2 = true ∨ Spoilt (s ++ a.1) → (r.run is).1.Past client) := by
  induction is generalizing r s with
  | nil =>
    refine ⟨[], by simp [audible], ?_, ?_⟩
    · simp [audible, h.sound, Reception.run, told]
    · simp [audible, h.sound]
  | cons i is ih =>
    have hgoes := h.step i
    rw [Reception.run, told_append]
    simp only [audible]
    cases hgoes with
    | closed hc hp ht =>
      rw [if_pos hc, ht, (hp.run is).2]
      exact ⟨[], by simp, by simp, fun _ => (hp.run is).1⟩
    | breaks ms hc hms hs hp ht =>
      rw [if_neg hc, ht, (hp.run is).2]
      dsimp only
      rw [← List.append_assoc]
      obtain ⟨hsaid, hspoilt⟩ := said_append_of_spoilt hs
        (audible client (r.listening && i ≠ .shutdown) is).1
      refine ⟨ms, hsaid.trans hms, ?_, fun _ => (hp.run is).1⟩
      rw [if_pos (.inr hspoilt), List.append_nil]
    | on ms hc hms hr ht =>
      obtain ⟨ms', hms', ht', hp'⟩ := ih hr
      rw [(r.does_step i).listening] at hms' ht' hp'
      rw [if_neg hc, ht, ht']
      dsimp only
      rw [← List.append_assoc]
      exact ⟨ms ++ ms', by rw [hms', hms, List.append_assoc], by simp, hp'⟩

/-! ### Announcements -/

theorem run_append (r : Reception) (is js : List Input) :
    r.run (is ++ js) =
      (((r.run is).1.run js).1, (r.run is).2 ++ ((r.run is).1.run js).2) := by
  induction is generalizing r with
  | nil => rfl
  | cons i is ih => simp only [List.cons_append, run, ih, List.append_assoc]

/-- A session that has been announced is not announced again. -/
def Announced (r : Reception) (client : ClientId) : Prop :=
  client ≤ r.last ∧ r.sessions.get? client ≠ some .admitted

theorem Announced.step (h : r.Announced client) (i : Input) : (r.step i).1.Announced client := by
  have hdoes := r.does_step i
  refine ⟨Nat.le_trans h.1 hdoes.last_le, ?_⟩
  by_cases hi : i.client? = some client
  · generalize r.step i = p at hdoes
    cases hdoes with
    | ignores => exact h.2
    | admits | shuts => cases hi
    | announces | reads | breaks =>
      obtain rfl := Option.some.inj hi
      simp [finish]
    | closes _ _ _ _ _ hclient =>
      obtain rfl := Option.some.inj (hclient.symm.trans hi)
      simp [finish]
    | releases =>
      obtain rfl := Option.some.inj hi
      simp
  · rw [hdoes.undisturbed hi h.1]
    exact h.2

theorem Announced.run (h : r.Announced client) (is : List Input) :
    (r.run is).1.Announced client := by
  induction is generalizing r with
  | nil => exact h
  | cons i is ih => exact ih (h.step i)

theorem Does.announced (h : r.Does i p) (hb : r.Bounded) (ht : told client p.2 ≠ []) :
    p.1.Announced client := by
  obtain ⟨e, he⟩ := List.exists_mem_of_ne_nil _ ht
  obtain ⟨he, hclient⟩ := List.mem_filter.1 he
  have hi := h.client_of_mem e he
  rw [of_decide_eq_true hclient] at hi
  cases h with
  | ignores | admits | shuts | releases => cases he
  | announces _ hc | reads _ _ _ hc | breaks _ _ _ hc =>
    obtain rfl := Option.some.inj hi
    exact ⟨hb _ _ hc, by simp [finish]⟩
  | closes _ _ _ hc _ hown =>
    obtain rfl := Option.some.inj (hown.symm.trans hi)
    exact ⟨hb _ _ hc, by simp [finish]⟩

theorem announced_of_told (hb : r.Bounded) (ht : told client (r.run is).2 ≠ []) :
    (r.run is).1.Announced client := by
  induction is generalizing r with
  | nil => exact absurd rfl ht
  | cons i is ih =>
    rw [run, told_append] at ht
    by_cases hstep : told client (r.step i).2 = []
    · rw [hstep] at ht
      exact ih (hb.step i) ht
    · exact ((r.does_step i).announced hb hstep).run is

/-- A session has been announced, and is still counted. -/
def Begun (r : Reception) (client : ClientId) : Prop :=
  ∃ session, r.sessions.get? client = some session ∧ session ≠ .admitted

/-- A session begins with its announcement only, and nothing is heard of it before. -/
theorem Does.begun (h : r.Does i p) (hp : p.1.Begun client ∨ told client p.2 ≠ []) :
    r.Begun client ∨ i = .announce client ∧ r.sessions.get? client = some .admitted := by
  by_cases hi : i.client? = some client
  · cases h with
    | ignores => exact .inl (hp.resolve_right (fun h => h rfl))
    | admits | shuts => cases hi
    | announces _ hc =>
      obtain rfl := Option.some.inj hi
      exact .inr ⟨rfl, hc⟩
    | reads _ _ _ hc | breaks _ _ _ hc =>
      obtain rfl := Option.some.inj hi
      exact .inl ⟨_, hc, by simp⟩
    | closes _ _ _ hc _ hown =>
      obtain rfl := Option.some.inj (hown.symm.trans hi)
      exact .inl ⟨_, hc, by simp⟩
    | releases _ hc =>
      obtain rfl := Option.some.inj hi
      exact .inl ⟨_, hc, by simp⟩
  · obtain ⟨session, hs, hne⟩ := hp.resolve_right (fun ht => ht (h.untold hi))
    rcases h.elsewhere hi with hsame | ⟨_, hnew⟩
    · exact .inl ⟨session, hsame ▸ hs, hne⟩
    · exact absurd (Option.some.inj (hs.symm.trans hnew)) hne

theorem exists_announcement (hr : ¬ r.Begun client) (ht : told client (r.run is).2 ≠ []) :
    ∃ before after, is = before ++ .announce client :: after ∧
      (r.run before).1.sessions.get? client = some .admitted := by
  induction is generalizing r with
  | nil => exact absurd rfl ht
  | cons i is ih =>
    by_cases hstep : (r.step i).1.Begun client ∨ told client (r.step i).2 ≠ []
    · obtain ⟨rfl, hc⟩ := ((r.does_step i).begun hstep).resolve_left hr
      exact ⟨[], is, rfl, hc⟩
    · obtain ⟨hbegun, htold⟩ := not_or.1 hstep
      rw [run, told_append, not_not.1 htold, List.nil_append] at ht
      obtain ⟨before, after, rfl, hc⟩ := ih hbegun ht
      exact ⟨i :: before, after, rfl, hc⟩

/-! ### Audible bytes -/

/-- The bytes that a client sends before it ends its side. -/
def sentBy (client : ClientId) (is : List Input) : Bytes :=
  (is.takeWhile (· ≠ .hangUp client)).flatMap (·.bytesOf client)

/-- A shutdown can only make fewer bytes audible. -/
theorem audible_prefix (client : ClientId) (listening : Bool) (is : List Input) :
    (audible client listening is).1 <+: sentBy client is := by
  induction is generalizing listening with
  | nil => exact List.prefix_refl _
  | cons i is ih =>
    rw [audible]
    split
    · exact List.nil_prefix
    · next hc =>
      have hne : i ≠ .hangUp client := by
        rintro rfl
        exact hc rfl
      rw [sentBy, List.takeWhile_cons_of_pos (by simpa using hne), List.flatMap_cons]
      exact (List.prefix_append_right_inj _).2 (ih _)

theorem listening_run (h : .shutdown ∉ is) : (r.run is).1.listening = r.listening := by
  induction is generalizing r with
  | nil => rfl
  | cons i is ih =>
    obtain ⟨hi, h⟩ := not_or.1 (mt List.mem_cons.2 h)
    have hstep := (r.does_step i).listening
    rw [decide_eq_true (Ne.symm hi), Bool.and_true] at hstep
    exact (ih h).trans hstep

/-- Without a shutdown everything is audible. -/
theorem audible_of_listening (client : ClientId) (h : .shutdown ∉ is) :
    audible client true is = (sentBy client is, decide (.hangUp client ∈ is)) := by
  induction is with
  | nil => rfl
  | cons i is ih =>
    obtain ⟨hi, h⟩ := not_or.1 (mt List.mem_cons.2 h)
    rw [audible]
    by_cases hc : i = .hangUp client
    · subst hc
      rw [if_pos (show Input.Closes client true (.hangUp client) from rfl)]
      simp [sentBy]
    · have hopen : ¬ i.Closes client true := by
        cases i with
        | hangUp c => exact fun h => hc (congrArg _ h)
        | dismiss c => exact fun h => Bool.noConfusion h.2
        | arrive | announce | bytes | shutdown | release => exact id
      have hlistening : (true && decide (i ≠ .shutdown)) = true := by simp [Ne.symm hi]
      rw [if_neg hopen, hlistening, ih h]
      simp [sentBy, hc, Ne.symm hc]

/-! ### Main statement -/

/-- **What the exchange hears of a session.**  After its announcement it hears what the audible bytes
say, and once that the client left, if they cannot be read on or have come to an end.  After that it
hears nothing of the session, whatever happens. -/
theorem told_of_announced {before after : List Input}
    (h : (run {} before).1.sessions.get? client = some .admitted) :
    let a := audible client (run {} before).1.listening after
    told client (run {} (before ++ .announce client :: after)).2 =
      .connected client :: (said a.1).map (.received client) ++
        (if a.2 = true ∨ Spoilt a.1 then [.left client] else []) ∧
      (a.2 = true ∨ Spoilt a.1 → ∀ more,
        told client (run {} (before ++ .announce client :: after ++ more)).2 =
          told client (run {} (before ++ .announce client :: after)).2) := by
  intro a
  have hbounded := bounded_empty.run before
  have hbefore : told client (run {} before).2 = [] := by
    by_contra ht
    exact (announced_of_told bounded_empty ht).2 h
  have hstep : (run {} before).1.step (.announce client) =
      ({ (run {} before).1 with
          sessions := (run {} before).1.sessions.insert client (.reading {}) },
        [.connected client]) := by
    simp only [step, h]
  have hreading : ((run {} before).1.step (.announce client)).1.Reading client [] := by
    rw [hstep]
    exact ⟨hbounded _ _ h, ⟨{}, by simp, .nil⟩, not_spoilt_nil⟩
  obtain ⟨ms, hms, ht, hpast⟩ := hreading.run after
  have hlistening : ((run {} before).1.step (.announce client)).1.listening =
      (run {} before).1.listening := by
    rw [hstep]
  rw [hlistening] at hms ht hpast
  constructor
  · rw [run_append, told_append, hbefore, run, told_append, ht, List.nil_append]
    rw [List.nil_append, said_nil, List.nil_append] at hms
    rw [hstep, ← hms]
    simp only [List.nil_append]
    exact congrArg (· ++ _) (told_eq_self (by simp [ExchangeEvent.client]))
  · intro hover more
    have hgone : (run {} (before ++ .announce client :: after)).1.Past client := by
      rw [run_append]
      exact hpast hover
    rw [run_append _ (before ++ _) more, told_append, (hgone.run more).2, List.append_nil]

end Switchboard.Reception
