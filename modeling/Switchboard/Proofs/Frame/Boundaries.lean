import Switchboard.Proofs.Message.Transmission
import Switchboard.Stream

/-! # The boundaries of frames

A stream is cut into frames in one way only, and what is read off it depends on its bytes and not on
the pieces in which they arrive.

* **One frame.** `cut` is exact in both directions: it takes a payload off a framed one, whatever
  follows (`cut_framed`), and takes off nothing else (`eq_of_cut`).  What it calls short is the
  proper beginning of a frame (`cut_eq_short_iff`).
* **Pieces.** `readFrame` does to pieces what `cut` does to their bytes (`readFrame_cases`), so
  reading on yields the payloads of the bytes, with the ending that what is left calls for
  (`readAll_eq`).
* **Main statement.** `stream_eq_frames`: the payloads, the rest and the ending of every stream;
  what frames that were written are read as, also when the stream ends in the middle of them; and
  that a payload that is no message leaves the frames after it where they are. -/

namespace Switchboard

/-! ### Sizes -/

/-- Four bytes are the only spelling of the number they spell. -/
theorem le32_ofLe32 (a b c d : UInt8) : le32 (ofLe32 a b c d) = [a, b, c, d] := by
  have ha := a.toNat_lt
  have hb := b.toNat_lt
  have hc := c.toNat_lt
  have hd := d.toNat_lt
  simp only [le32, ofLe32, List.cons.injEq, ← UInt8.toNat_inj, UInt8.toNat_ofNat', and_true]
  omega

theorem length_toUTF8 (s : String) : s.toUTF8.toList.length = s.utf8ByteSize := by
  rw [ByteArray.toList, toList_loop]
  simp

theorem Frame.length_payload (f : Frame) : f.payload.length = f.text.utf8ByteSize :=
  length_toUTF8 f.text

theorem Frame.bytes_eq_framed (f : Frame) : f.bytes = framed f.payload := by
  rw [framed, f.length_payload]
  rfl

theorem Frame.payload_fits (f : Frame) : f.payload.length ≤ maxFrameSize := by
  rw [f.length_payload]
  exact f.fits

theorem Frame.flatten_bytes (fs : List Frame) :
    (fs.map bytes).flatten = ((fs.map payload).map framed).flatten := by
  rw [List.map_map]
  exact congrArg List.flatten (List.map_congr_left fun f _ => f.bytes_eq_framed)

/-! ### One frame -/

theorem length_framed (p : Bytes) : (framed p).length = 4 + p.length := by
  rw [framed, List.length_append]
  rfl

theorem cut_framed {p : Bytes} (h : p.length ≤ maxFrameSize) (r : Bytes) :
    cut (framed p ++ r) = .payload p r := by
  have hn : p.length < 0x100000000 := by
    unfold maxFrameSize at h
    omega
  unfold framed le32
  simp only [List.cons_append, List.nil_append, cut, ofLe32_of_le32 hn]
  rw [if_neg (by omega), if_pos (by rw [List.length_append]; omega), List.take_left, List.drop_left]

theorem eq_of_cut {s p r : Bytes} (h : cut s = .payload p r) :
    s = framed p ++ r ∧ p.length ≤ maxFrameSize := by
  unfold cut at h
  split at h
  · next a b c d t =>
    dsimp only at h
    split at h
    · cases h
    · split at h
      · next hmax ht =>
        obtain ⟨rfl, rfl⟩ := Cut.payload.inj h
        have hp : (t.take (ofLe32 a b c d)).length = ofLe32 a b c d := by
          rw [List.length_take]
          omega
        constructor
        · rw [framed, hp, le32_ofLe32, List.append_assoc, List.take_append_drop]
          rfl
        · omega
      · cases h
  · cases h

theorem cut_eq_tooLarge_iff {s : Bytes} {n : Nat} :
    cut s = .tooLarge n ↔
      maxFrameSize < n ∧ ∃ a b c d t, s = a :: b :: c :: d :: t ∧ ofLe32 a b c d = n := by
  constructor
  · intro h
    unfold cut at h
    split at h
    · next a b c d t =>
      dsimp only at h
      split at h
      · next hmax =>
        obtain rfl := Cut.tooLarge.inj h
        exact ⟨hmax, a, b, c, d, t, rfl, rfl⟩
      · split at h <;> cases h
    · cases h
  · rintro ⟨hmax, a, b, c, d, t, rfl, rfl⟩
    exact if_pos hmax

/-- A proper beginning of a frame that is not too large. -/
def Unfinished (r : Bytes) : Prop :=
  ∃ p : Bytes, p.length ≤ maxFrameSize ∧ r <+: framed p ∧ r ≠ framed p

/-- Up to three bytes can always be gone on with: a fourth that is zero makes a size that is
allowed. -/
theorem unfinished_of_three (a b c : UInt8) : Unfinished [a, b, c] := by
  have ha := a.toNat_lt
  have hb := b.toNat_lt
  have hc := c.toNat_lt
  have hsize : le32 (ofLe32 a b c 0) = [a, b, c, 0] := le32_ofLe32 a b c 0
  have hn : ofLe32 a b c 0 ≤ maxFrameSize := by
    simp only [ofLe32, UInt8.toNat_zero, maxFrameSize]
    omega
  refine ⟨List.replicate (ofLe32 a b c 0) 0, by rwa [List.length_replicate], ?_, ?_⟩
  · rw [framed, List.length_replicate, hsize]
    exact ⟨0 :: List.replicate (ofLe32 a b c 0) 0, rfl⟩
  · intro h
    have := congrArg List.length h
    rw [length_framed] at this
    simp only [List.length_cons, List.length_nil] at this
    omega

theorem Unfinished.of_beginning {r t : Bytes} (h : Unfinished t) (hr : r <+: t) : Unfinished r := by
  obtain ⟨p, hp, ht, hne⟩ := h
  refine ⟨p, hp, hr.trans ht, ?_⟩
  rintro rfl
  exact hne (ht.eq_of_length (Nat.le_antisymm ht.length_le hr.length_le))

/-- What is short is the proper beginning of a frame. -/
theorem cut_eq_short_iff {s : Bytes} : cut s = .short ↔ Unfinished s := by
  constructor
  · intro h
    match s with
    | [] => exact (unfinished_of_three 0 0 0).of_beginning (List.nil_prefix)
    | [a] => exact (unfinished_of_three a 0 0).of_beginning ⟨[0, 0], rfl⟩
    | [a, b] => exact (unfinished_of_three a b 0).of_beginning ⟨[0], rfl⟩
    | [a, b, c] => exact unfinished_of_three a b c
    | a :: b :: c :: d :: t =>
      simp only [cut] at h
      split at h
      · cases h
      · split at h
        · cases h
        · next hmax ht =>
          have hp : (t ++ List.replicate (ofLe32 a b c d - t.length) 0).length =
              ofLe32 a b c d := by
            rw [List.length_append, List.length_replicate]
            omega
          refine ⟨t ++ List.replicate (ofLe32 a b c d - t.length) 0, by omega, ?_, ?_⟩
          · rw [framed, hp, le32_ofLe32]
            exact ⟨List.replicate (ofLe32 a b c d - t.length) 0, by simp⟩
          · intro h
            have := congrArg List.length h
            rw [length_framed, hp] at this
            simp only [List.length_cons] at this
            omega
  · rintro ⟨p, hp, ⟨q, hq⟩, hne⟩
    have hlt : s.length < 4 + p.length := by
      have hl := congrArg List.length hq
      rw [List.length_append, length_framed] at hl
      have : q.length ≠ 0 := by
        intro h0
        rw [List.length_eq_zero_iff.1 h0, List.append_nil] at hq
        exact hne hq
      omega
    have hn : p.length < 0x100000000 := by
      unfold maxFrameSize at hp
      omega
    match s with
    | [] | [_] | [_, _] | [_, _, _] => rfl
    | a :: b :: c :: d :: t =>
      unfold framed le32 at hq
      simp only [List.cons_append, List.nil_append, List.cons.injEq] at hq
      obtain ⟨rfl, rfl, rfl, rfl, _⟩ := hq
      simp only [List.length_cons] at hlt
      simp only [cut, ofLe32_of_le32 hn]
      rw [if_neg (by omega), if_neg (by omega)]

/-! ### Rows of frames -/

theorem payloads_framed {p : Bytes} (h : p.length ≤ maxFrameSize) (r : Bytes) :
    payloads (framed p ++ r) = (p :: (payloads r).1, (payloads r).2) := by
  have hc := cut_framed h r
  rw [payloads]
  split
  · next h' =>
    rw [hc] at h'
    obtain ⟨rfl, rfl⟩ := Cut.payload.inj h'
    rfl
  · next h' => exact (h' p r hc).elim

theorem payloads_of_no_frame {s : Bytes} (h : ∀ p r, cut s ≠ .payload p r) :
    payloads s = ([], s) := by
  rw [payloads]
  split
  · next p r h' => exact (h p r h').elim
  · rfl

/-- Frames are taken off one after the other, whatever they hold. -/
theorem payloads_append {ps : List Bytes} (h : ∀ p ∈ ps, p.length ≤ maxFrameSize) (r : Bytes) :
    payloads ((ps.map framed).flatten ++ r) = (ps ++ (payloads r).1, (payloads r).2) := by
  induction ps with
  | nil => rfl
  | cons p ps ih =>
    obtain ⟨hp, hps⟩ := List.forall_mem_cons.1 h
    rw [List.map_cons, List.flatten_cons, List.append_assoc, payloads_framed hp, ih hps]
    rfl

theorem eq_of_payloads (s : Bytes) :
    s = ((payloads s).1.map framed).flatten ++ (payloads s).2 ∧
      (∀ p ∈ (payloads s).1, p.length ≤ maxFrameSize) ∧
      ∀ p r, cut (payloads s).2 ≠ .payload p r := by
  fun_induction payloads s with
  | case1 s p r hc ps rest hr ih =>
    obtain ⟨hs, hp⟩ := eq_of_cut hc
    rw [hr] at ih
    obtain ⟨ih, hps, hrest⟩ := ih
    refine ⟨?_, List.forall_mem_cons.2 ⟨hp, hps⟩, hrest⟩
    rw [List.map_cons, List.flatten_cons, List.append_assoc, ← ih]
    exact hs
  | case2 s hc => exact ⟨rfl, by simp, fun p r h => hc p r h⟩

/-! ### Pieces -/

namespace Pieces

theorem take?_eq_none {n : Nat} {s : Pieces} (h : s.take? n = none) : s.flatten.length < n := by
  induction s generalizing n with
  | nil =>
    unfold take? at h
    split at h
    · cases h
    · simp only [List.flatten_nil, List.length_nil]
      omega
  | cons p s ih =>
    unfold take? at h
    split at h
    · cases h
    · have := ih (Option.map_eq_none_iff.1 h)
      rw [List.flatten_cons, List.length_append]
      omega

/-- Reading a frame does to pieces what cutting does to their bytes; of what is short only nothing
at all is a clean end. -/
theorem readFrame_cases (s : Pieces) :
    (∃ p r, s.readFrame = .payload p r ∧ cut s.flatten = .payload p r.flatten) ∨
      (∃ n, s.readFrame = .ended (.failed (.frameTooLarge n maxFrameSize)) ∧
        cut s.flatten = .tooLarge n) ∨
      (s.readFrame = .ended (if s.flatten = [] then .clean else .failed (.io .truncated)) ∧
        cut s.flatten = .short) := by
  unfold readFrame
  cases h₁ : s.take? 1 with
  | none =>
    have hs : s.flatten = [] := by
      have := take?_eq_none h₁
      exact List.length_eq_zero_iff.1 (by omega)
    refine .inr (.inr ⟨by rw [hs]; rfl, by rw [hs]; rfl⟩)
  | some q₁ =>
    obtain ⟨p₁, s₁⟩ := q₁
    obtain ⟨hs, hl⟩ := flatten_of_take? h₁
    obtain ⟨a, rfl⟩ := List.length_eq_one_iff.1 hl
    rw [hs]
    dsimp only
    cases h₂ : s₁.take? 3 with
    | none =>
      have hshort := take?_eq_none h₂
      refine .inr (.inr ⟨by simp, ?_⟩)
      match s₁.flatten, hshort with
      | [], _ | [_], _ | [_, _], _ => rfl
    | some q₂ =>
      obtain ⟨p₂, s₂⟩ := q₂
      obtain ⟨hs₂, hl₂⟩ := flatten_of_take? h₂
      obtain ⟨b, c, d, rfl⟩ := List.length_eq_three.1 hl₂
      rw [hs₂]
      simp only [List.cons_append, List.nil_append, cut]
      by_cases hmax : maxFrameSize < ofLe32 a b c d
      · rw [if_pos hmax, if_pos hmax]
        exact .inr (.inl ⟨_, rfl, rfl⟩)
      · rw [if_neg hmax, if_neg hmax]
        cases h₃ : s₂.take? (ofLe32 a b c d) with
        | none =>
          have hshort := take?_eq_none h₃
          rw [if_neg (by omega)]
          exact .inr (.inr ⟨by simp, rfl⟩)
        | some q₃ =>
          obtain ⟨p, r⟩ := q₃
          obtain ⟨hs₃, hl₃⟩ := flatten_of_take? h₃
          rw [hs₃, ← hl₃, if_pos (by rw [List.length_append]; omega), List.take_left,
            List.drop_left]
          exact .inl ⟨p, r, rfl, rfl⟩

/-- How the reading ends when this is left. -/
def ending (r : Bytes) : StreamEnd :=
  match r, cut r with
  | [], _ => .clean
  | _, .tooLarge n => .failed (.frameTooLarge n maxFrameSize)
  | _, _ => .failed (.io .truncated)

theorem ending_of_short {r : Bytes} (h : cut r = .short) :
    ending r = if r = [] then .clean else .failed (.io .truncated) := by
  unfold ending
  rw [h]
  cases r <;> rfl

theorem ending_of_tooLarge {r : Bytes} {n : Nat} (h : cut r = .tooLarge n) :
    ending r = .failed (.frameTooLarge n maxFrameSize) := by
  unfold ending
  rw [h]
  cases r with
  | nil => cases h
  | cons => rfl

theorem readAll_of_payload {s r : Pieces} {p : Bytes} (h : s.readFrame = .payload p r) :
    s.readAll = (p :: r.readAll.1, r.readAll.2) := by
  rw [readAll]
  split
  · next h' =>
    obtain ⟨rfl, rfl⟩ := FrameRead.payload.inj (h.symm.trans h')
    rfl
  · next h' => cases h.symm.trans h'

theorem readAll_of_ended {s : Pieces} {e : StreamEnd} (h : s.readFrame = .ended e) :
    s.readAll = ([], e) := by
  rw [readAll]
  split
  · next h' => cases h.symm.trans h'
  · next h' =>
    obtain rfl := FrameRead.ended.inj (h.symm.trans h')
    rfl

theorem readAll_eq (s : Pieces) :
    s.readAll = ((payloads s.flatten).1, ending (payloads s.flatten).2) := by
  have ended {s : Pieces} {e : StreamEnd} (h : s.readFrame = .ended e)
      (hc : ∀ p r, cut s.flatten ≠ .payload p r) (he : ending s.flatten = e) :
      s.readAll = ((payloads s.flatten).1, ending (payloads s.flatten).2) := by
    rw [readAll_of_ended h, payloads_of_no_frame hc, he]
  rcases s.readFrame_cases with ⟨p, r, h, hc⟩ | ⟨n, h, hc⟩ | ⟨h, hc⟩
  · obtain ⟨hs, hp⟩ := eq_of_cut hc
    rw [readAll_of_payload h, readAll_eq r, hs, payloads_framed hp]
  · exact ended h (by simp [hc]) (ending_of_tooLarge hc)
  · exact ended h (by simp [hc]) (ending_of_short hc)
termination_by s.flatten.length
decreasing_by exact length_lt_of_readFrame h

/-- Reading messages is reading frames, and no payload has a say in what comes after it. -/
theorem readMessages_eq (s : Pieces) :
    s.readMessages = (s.readAll.1.map Message.decode, s.readAll.2) := by
  fun_induction readMessages s with
  | case1 s p r hr ms e he ih =>
    rw [readAll_of_payload hr]
    obtain ⟨rfl, rfl⟩ := Prod.mk.inj (he.symm.trans ih)
    rfl
  | case2 s e hr =>
    rw [readAll_of_ended hr]
    rfl

end Pieces

/-! ### Endings -/

/-- What is left of a stream when the reading ends, and the ending. -/
structure LeftOver (r : Bytes) (e : StreamEnd) : Prop where
  /-- There are no other endings. -/
  kind : e = .clean ∨ (∃ n, e = .failed (.frameTooLarge n maxFrameSize)) ∨
    e = .failed (.io .truncated)
  clean : e = .clean ↔ r = []
  tooLarge : ∀ n m, e = .failed (.frameTooLarge n m) ↔
    m = maxFrameSize ∧ maxFrameSize < n ∧
      ∃ a b c d t, r = a :: b :: c :: d :: t ∧ ofLe32 a b c d = n
  truncated : ∀ cause, e = .failed (.io cause) ↔ cause = .truncated ∧ r ≠ [] ∧ Unfinished r

theorem leftOver_ending {r : Bytes} (h : ∀ p t, cut r ≠ .payload p t) :
    LeftOver r (Pieces.ending r) := by
  cases hc : cut r with
  | payload p t => exact (h p t hc).elim
  | tooLarge n =>
    have hne : r ≠ [] := by
      rintro rfl
      cases hc
    have hn : ¬ Unfinished r := by
      rw [← cut_eq_short_iff, hc]
      simp
    rw [Pieces.ending_of_tooLarge hc]
    refine ⟨.inr (.inl ⟨n, rfl⟩), by simp [hne], fun k m => ?_, by simp [hn]⟩
    rw [← cut_eq_tooLarge_iff, hc]
    simp [eq_comm, and_comm]
  | short =>
    have hs : Unfinished r := cut_eq_short_iff.1 hc
    rw [Pieces.ending_of_short hc]
    by_cases hr : r = []
    · rw [if_pos hr]
      refine ⟨.inl rfl, by simp [hr], fun k m => ?_, by simp [hr]⟩
      rw [← cut_eq_tooLarge_iff, hc]
      simp
    · rw [if_neg hr]
      refine ⟨.inr (.inr rfl), by simp [hr], fun k m => ?_, by simp [hr, hs, eq_comm]⟩
      rw [← cut_eq_tooLarge_iff, hc]
      simp

/-! ### Streams -/

theorem readAll_append {s t : Pieces} {ps : List Bytes} (h : ∀ p ∈ ps, p.length ≤ maxFrameSize)
    (hs : s.flatten = (ps.map framed).flatten ++ t.flatten) :
    s.readAll = (ps ++ t.readAll.1, t.readAll.2) := by
  rw [s.readAll_eq, t.readAll_eq, hs, payloads_append h]

/-- The beginning of a row of frames is made of frames and the proper beginning of the next one. -/
theorem frames_of_beginning {fs : List Frame} {s : Bytes} (h : s <+: (fs.map Frame.bytes).flatten) :
    ∃ done rest r, fs = done ++ rest ∧ s = (done.map Frame.bytes).flatten ++ r ∧
      (r = [] ∨ ∃ f ∈ rest.head?, r <+: f.bytes ∧ r ≠ f.bytes) := by
  induction fs generalizing s with
  | nil => exact ⟨[], [], s, rfl, rfl, .inl (List.prefix_nil.1 h)⟩
  | cons f fs ih =>
    rw [List.map_cons, List.flatten_cons] at h
    by_cases hf : f.bytes <+: s
    · obtain ⟨t, rfl⟩ := hf
      obtain ⟨done, rest, r, rfl, rfl, hr⟩ := ih ((List.prefix_append_right_inj _).1 h)
      exact ⟨f :: done, rest, r, rfl, by simp, hr⟩
    · have hs : s <+: f.bytes := by
        rcases List.prefix_or_prefix_of_prefix h (List.prefix_append ..) with hs | hs
        · exact hs
        · exact (hf hs).elim
      refine ⟨[], f :: fs, s, rfl, rfl, .inr ⟨f, rfl, hs, ?_⟩⟩
      rintro rfl
      exact hf (List.prefix_refl _)

theorem Unfinished.of_frame {f : Frame} {r : Bytes} (h : r <+: f.bytes) (hne : r ≠ f.bytes) :
    Unfinished r := by
  rw [f.bytes_eq_framed] at h hne
  exact ⟨f.payload, f.payload_fits, h, hne⟩

/-- Frames that were written are read back, and then what is left decides, if it is less than a
frame. -/
theorem readAll_frames {s : Pieces} {fs : List Frame} {r : Bytes}
    (hs : s.flatten = (fs.map Frame.bytes).flatten ++ r) (hr : cut r = .short) :
    s.readAll =
      (fs.map Frame.payload, if r = [] then .clean else .failed (.io .truncated)) := by
  have hfits : ∀ p ∈ fs.map Frame.payload, p.length ≤ maxFrameSize := by
    intro p hp
    obtain ⟨f, _, rfl⟩ := List.mem_map.1 hp
    exact f.payload_fits
  have hrest := payloads_of_no_frame (s := r) (by simp [hr])
  rw [s.readAll_eq, hs, Frame.flatten_bytes, payloads_append hfits, hrest, List.append_nil,
    Pieces.ending_of_short hr]

/-- **A stream is a row of frames, read without loss.**  However its bytes are divided into pieces,
a stream is the frames of the payloads that are read off it and a rest that decides how the reading
ends.  So frames that were written are read back as they are; where they break off, those that are
complete are read and then the end is clean or not; and whatever stands in some frames, also if it
is no message, the frames after them are read as if they stood alone. -/
theorem stream_eq_frames :
    (∀ s : Pieces, ∃ r, s.flatten = (s.readAll.1.map framed).flatten ++ r ∧
      (∀ p ∈ s.readAll.1, p.length ≤ maxFrameSize) ∧ LeftOver r s.readAll.2) ∧
    (∀ (fs : List Frame) (s : Pieces), s.flatten = (fs.map Frame.bytes).flatten →
      s.readAll = (fs.map Frame.payload, .clean)) ∧
    (∀ (fs : List Frame) (s : Pieces), s.flatten <+: (fs.map Frame.bytes).flatten →
      ∃ done rest r, fs = done ++ rest ∧ s.flatten = (done.map Frame.bytes).flatten ++ r ∧
        (r = [] ∨ ∃ f ∈ rest.head?, r <+: f.bytes ∧ r ≠ f.bytes) ∧
        s.readAll =
          (done.map Frame.payload, if r = [] then .clean else .failed (.io .truncated))) ∧
    (∀ (ps : List Bytes) (s t : Pieces), (∀ p ∈ ps, p.length ≤ maxFrameSize) →
      s.flatten = (ps.map framed).flatten ++ t.flatten →
      s.readAll = (ps ++ t.readAll.1, t.readAll.2) ∧
      s.readMessages = (ps.map Message.decode ++ t.readMessages.1, t.readMessages.2)) := by
  refine ⟨?_, ?_, ?_, ?_⟩
  · intro s
    obtain ⟨hs, hfits, hrest⟩ := eq_of_payloads s.flatten
    rw [s.readAll_eq]
    exact ⟨(payloads s.flatten).2, hs, hfits, leftOver_ending hrest⟩
  · intro fs s hs
    exact readAll_frames (r := []) (by rw [hs, List.append_nil]) rfl
  · intro fs s hs
    obtain ⟨done, rest, r, hfs, hr, hcut⟩ := frames_of_beginning hs
    refine ⟨done, rest, r, hfs, hr, hcut, readAll_frames hr ?_⟩
    rcases hcut with rfl | ⟨f, _, hp, hne⟩
    · rfl
    · exact cut_eq_short_iff.2 (.of_frame hp hne)
  · intro ps s t hps hs
    have hread := readAll_append hps hs
    constructor
    · exact hread
    · rw [s.readMessages_eq, t.readMessages_eq, hread, List.map_append]

/-- A frame that arrives in three pieces, and the first byte of another one. -/
theorem stream_broken_off :
    Pieces.readAll [[2, 0], [0, 0, 0x7b], [0x7d, 1]] =
      ([[0x7b, 0x7d]], .failed (.io .truncated)) := by
  obtain ⟨_, _, _, hjoin⟩ := stream_eq_frames
  have htail : Pieces.readAll [[1]] = ([], .failed (.io .truncated)) := by cbv
  obtain ⟨hread, _⟩ := hjoin [[0x7b, 0x7d]] [[2, 0], [0, 0, 0x7b], [0x7d, 1]] [[1]]
    (by decide) (by decide)
  rw [hread, htail]
  rfl

end Switchboard
