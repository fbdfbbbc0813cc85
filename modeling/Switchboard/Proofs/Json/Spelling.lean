import Switchboard.Proofs.Json.RoundTrip

/-! # The spellings of a value

A value may be spelled in many ways: with blanks between its tokens, with its texts escaped, with its
numbers in any notation.

* **Texts.** `Text.Spelled` says how the characters between quotes may be spelled: as they are, by an
  escape of one letter, or by one or two code units in hexadecimal digits.
* **Tokens.** `Token.Spelled` says how a token may be spelled, and `Token.Row` how a row of tokens may
  be: each after any number of blanks.
* **Scanning.** A row in which no two numbers stand side by side is scanned into its tokens
  (`Token.Row.scanned`), and the tokens of a value are such a row (`Json.apart_tokens`).
* **Main statement.** `Json.parse?_of_spelled`: however a value is spelled, it is read, unless it is
  nested too deeply. -/

namespace Switchboard

/-! ### Texts -/

namespace Text

/-- The characters that have an escape of one letter, with that letter. -/
def escapes : List (Char × Char) :=
  [('"', '"'), ('\\', '\\'), ('/', '/'), ('b', '\x08'), ('f', '\x0c'), ('n', '\n'), ('r', '\r'),
    ('t', '\t')]

/-- A code unit in four hexadecimal digits of either case. -/
def UnitSpelled (u : Nat) (cs : List Char) : Prop :=
  ∃ a b c d i j k l, cs = [a, b, c, d] ∧ Token.hexValue? a = some i ∧ Token.hexValue? b = some j ∧
    Token.hexValue? c = some k ∧ Token.hexValue? d = some l ∧ u = ((i * 16 + j) * 16 + k) * 16 + l

/-- A character as it may stand between quotes. -/
inductive CharSpelled : Char → List Char → Prop
  | raw {c : Char} (hq : c ≠ '"') (hb : c ≠ '\\') (hc : 0x20 ≤ c.toNat) : CharSpelled c [c]
  | escape {e c : Char} (h : (e, c) ∈ escapes) : CharSpelled c ['\\', e]
  | unit {c : Char} {cs : List Char} (h : UnitSpelled c.toNat cs) : CharSpelled c ('\\' :: 'u' :: cs)
  /-- A character beyond U+FFFF takes two units, ten bits in each. -/
  | pair {c : Char} {high low : Nat} {cs ds : List Char} (hhigh : high < 0x400) (hlow : low < 0x400)
      (hc : c.toNat = 0x10000 + high * 0x400 + low) (hcs : UnitSpelled (0xd800 + high) cs)
      (hds : UnitSpelled (0xdc00 + low) ds) :
      CharSpelled c ('\\' :: 'u' :: cs ++ '\\' :: 'u' :: ds)

/-- A text as it may stand between quotes. -/
inductive Spelled : List Char → List Char → Prop
  | nil : Spelled [] []
  | cons {c : Char} {cs s ds : List Char} (hc : CharSpelled c cs) (hs : Spelled s ds) :
    Spelled (c :: s) (cs ++ ds)

end Text

namespace Lexeme

open Text

theorem unit?_spelled {u : Nat} {cs : List Char} (h : UnitSpelled u cs) (r : List Char) :
    unit? (cs ++ r) = some (u, r) := by
  obtain ⟨a, b, c, d, i, j, k, l, rfl, ha, hb, hc, hd, rfl⟩ := h
  simp only [List.cons_append, List.nil_append, unit?, ha, hb, hc, hd, Option.bind_eq_bind,
    Option.bind_some, Option.some.injEq, Prod.mk.injEq, and_true]
  omega

theorem body?_unit {u : Nat} {cs : List Char} (h : UnitSpelled u cs) (read : List Nat)
    (r : List Char) : body? read ('\\' :: 'u' :: (cs ++ r)) = body? (u :: read) r :=
  body?_backslash (unit?_spelled h r)

/-- A character is read as one or two code units, which join to it again. -/
theorem exists_units {c : Char} {cs : List Char} (h : CharSpelled c cs) :
    ∃ us, (∀ read r, body? read (cs ++ r) = body? (us.reverse ++ read) r) ∧
      ∀ read vs, joined? read (us ++ vs) = joined? (c :: read) vs := by
  have single (read : List Char) (vs : List Nat) :
      joined? read ([c.toNat] ++ vs) = joined? (c :: read) vs := joined?_char read c vs
  cases h with
  | raw hq hb hc =>
    refine ⟨[c.toNat], fun read r => ?_, single⟩
    rw [List.singleton_append, body?, if_neg hq, if_neg hb, if_neg (Nat.not_lt.2 hc)]
    rfl
  | @escape e c h =>
    refine ⟨[c.toNat], fun read r => body?_backslash ?_, single⟩
    simp only [escapes, List.mem_cons, Prod.mk.injEq, List.not_mem_nil, or_false] at h
    rcases h with ⟨rfl, rfl⟩ | ⟨rfl, rfl⟩ | ⟨rfl, rfl⟩ | ⟨rfl, rfl⟩ | ⟨rfl, rfl⟩ | ⟨rfl, rfl⟩ |
      ⟨rfl, rfl⟩ | ⟨rfl, rfl⟩ <;> rfl
  | unit h => exact ⟨[c.toNat], fun read r => body?_unit h read r, single⟩
  | @pair c high low cs ds hhigh hlow hc hcs hds =>
    refine ⟨[0xd800 + high, 0xdc00 + low], fun read r => ?_, fun read vs => ?_⟩
    · have htext : '\\' :: 'u' :: cs ++ '\\' :: 'u' :: ds ++ r =
          '\\' :: 'u' :: (cs ++ '\\' :: 'u' :: (ds ++ r)) := by simp
      rw [htext, body?_unit hcs, body?_unit hds]
      rfl
    · have hjoined : Char.ofNat (0x10000 + (0xd800 + high - 0xd800) * 0x400 +
          (0xdc00 + low - 0xdc00)) = c := by
        rw [Nat.add_sub_cancel_left, Nat.add_sub_cancel_left, ← hc, Char.ofNat_toNat]
      rw [List.cons_append, List.singleton_append, joined?.eq_def]
      simp only
      rw [if_neg (by omega), if_neg (by omega), if_pos (by omega), hjoined]

theorem exists_body {s cs : List Char} (h : Text.Spelled s cs) :
    ∃ us, (∀ read r, body? read (cs ++ '"' :: r) = some (read.reverse ++ us, r)) ∧
      ∀ read, joined? read us = some (read.reverse ++ s) := by
  induction h with
  | nil =>
    refine ⟨[], fun read r => ?_, fun read => ?_⟩
    · rw [List.nil_append, body?, if_pos rfl, List.append_nil]
    · rw [joined?, List.append_nil]
  | cons hc _ ih =>
    obtain ⟨us, hbody, hjoined⟩ := exists_units hc
    obtain ⟨vs, hbody', hjoined'⟩ := ih
    refine ⟨us ++ vs, fun read r => ?_, fun read => ?_⟩
    · rw [List.append_assoc, hbody, hbody']
      simp
    · rw [hjoined, hjoined']
      simp

end Lexeme

/-! ### Tokens -/

namespace Token

open Literal

/-- A token as it may be spelled. -/
inductive Spelled : Token → List Char → Prop
  | num {n : Number} {l : Literal} {cs : List Char} (hl : l.Spelled cs) (hn : l.number? = some n) :
    Spelled (num n) cs
  | str {s : String} {cs : List Char} (hs : Text.Spelled s.toList cs) :
    Spelled (str s) ('"' :: cs ++ ['"'])
  /-- Marks and words have one spelling only. -/
  | mark {t : Token} (hn : ¬ t.IsNum) (hs : ∀ s, t ≠ str s) : Spelled t t.text.toList

/-- A row of tokens as it may be spelled: with blanks before each of them, and at the end. -/
inductive Row : List Token → List Char → Prop
  | nil {ws : List Char} (hw : ∀ c ∈ ws, Lexeme.isBlank c = true) : Row [] ws
  | cons {t : Token} {ts : List Token} (ws : List Char) {cs ds : List Char}
      (hw : ∀ c ∈ ws, Lexeme.isBlank c = true) (ht : t.Spelled cs) (hts : Row ts ds) :
      Row (t :: ts) (ws ++ (cs ++ ds))

/-- No two numbers stand side by side. -/
abbrev Apart (ts : List Token) : Prop := ts.IsChain fun t u => t.IsNum → ¬ u.IsNum

theorem Spelled.first? {t : Token} {cs r : List Char} (h : t.Spelled cs) (hr : t.IsNum → Ends r) :
    ∃ x, Lexeme.first? (cs ++ r) = some (x, r) ∧ x.token? = some t := by
  cases h with
  | @num n l _ hl hn =>
    have hread := Lexeme.literal?_spelled hl (hr trivial)
    obtain ⟨c, ds, hc, hd⟩ := Lexeme.head?_literal hl r
    refine ⟨.number l, ?_, by rw [Lexeme.token?, hn]; rfl⟩
    rw [hc, Lexeme.first?_of_digit hd, ← hc, hread]
    rfl
  | @str s cs hs =>
    obtain ⟨us, hbody, hjoined⟩ := Lexeme.exists_body hs
    refine ⟨.quoted us, ?_, ?_⟩
    · have hread := hbody [] r
      rw [List.append_assoc, List.cons_append, List.singleton_append, Lexeme.first?]
      simp [Lexeme.mark?, hread]
    · simp [Lexeme.token?, hjoined]
  | mark hn hs =>
    refine ⟨t.lexeme, Lexeme.first?_text t fun h => (hn h).elim, ?_⟩
    cases t with
    | num n => exact (hn trivial).elim
    | str s => exact (hs s rfl).elim
    | openObj | closeObj | openArr | closeArr | colon | comma | null | bool => rfl

/-! ### Scanning -/

theorem ends_of_blank {c : Char} (h : Lexeme.isBlank c = true) (r : List Char) : Ends (c :: r) := by
  simp only [Lexeme.isBlank, Bool.or_eq_true, beq_iff_eq] at h
  rintro d ⟨⟩
  rcases h with ((rfl | rfl) | rfl) | rfl <;> decide

/-- A token that is no number ends a number before it, however it is spelled. -/
theorem Spelled.ends {t : Token} {cs : List Char} (h : t.Spelled cs) (hn : ¬ t.IsNum)
    (r : List Char) : Ends (cs ++ r) := by
  cases h with
  | num => exact (hn trivial).elim
  | str =>
    rintro d ⟨⟩
    decide
  | mark => simpa [chars] using Json.ends_chars hn [] r

theorem Row.ends {ts : List Token} {cs : List Char} (h : Row ts cs)
    (hn : ∀ t ∈ ts.head?, ¬ t.IsNum) : Ends cs := by
  cases h with
  | nil hw =>
    cases cs with
    | nil => rintro c ⟨⟩
    | cons c cs => exact ends_of_blank (hw c List.mem_cons_self) cs
  | @cons t ts ws cs ds hw ht hts =>
    cases ws with
    | nil => exact ht.ends (hn t rfl) ds
    | cons c ws => exact ends_of_blank (hw c List.mem_cons_self) _

theorem scanFrom?_blanks (read : List Lexeme) {ws : List Char}
    (hw : ∀ c ∈ ws, Lexeme.isBlank c = true) (r : List Char) :
    Lexeme.scanFrom? read (ws ++ r) = Lexeme.scanFrom? read r := by
  induction ws with
  | nil => rfl
  | cons c ws ih =>
    obtain ⟨hc, hw⟩ := List.forall_mem_cons.1 hw
    rw [List.cons_append, Lexeme.scanFrom?, if_pos hc, ih hw]

/-- However a row of tokens is spelled, it is scanned into them. -/
theorem Row.scanned {ts : List Token} {cs : List Char} (h : Row ts cs) (ha : Apart ts)
    (read : List Lexeme) :
    ∃ xs, Lexeme.scanFrom? read cs = some (read.reverse ++ xs) ∧ xs.mapM Lexeme.token? = some ts := by
  induction h generalizing read with
  | @nil ws hw =>
    refine ⟨[], ?_, rfl⟩
    have hblanks := scanFrom?_blanks read hw []
    rwa [List.append_nil, Lexeme.scanFrom?, ← List.append_nil read.reverse] at hblanks
  | @cons t ts ws cs ds hw ht hts ih =>
    obtain ⟨hhead, htail⟩ := List.isChain_cons.1 ha
    obtain ⟨x, hfirst, hx⟩ := ht.first? fun hn => hts.ends fun u hu => hhead u hu hn
    obtain ⟨xs, hscan, hxs⟩ := ih htail (x :: read)
    refine ⟨x :: xs, ?_, ?_⟩
    · rw [scanFrom?_blanks read hw, Lexeme.scanFrom?_of_first? read hfirst, hscan]
      simp
    · simp [List.mapM_cons, hx, hxs]

end Token

/-! ### Values -/

namespace Json

open Token

/-- A text that spells a value. -/
def SpelledBy (v : Json) (s : String) : Prop := Row v.tokens s.toList

theorem apart_cons {t : Token} {ts : List Token} (ht : ¬ t.IsNum) (h : Apart ts) :
    Apart (t :: ts) :=
  List.isChain_cons.2 ⟨fun _ _ hn => (ht hn).elim, h⟩

mutual

theorem apart_tokens (v : Json) {ts : List Token} (h : Apart ts)
    (hn : ∀ t ∈ ts.head?, ¬ t.IsNum) : Apart (v.tokens ++ ts) := by
  match v with
  | null | bool _ | str _ => exact apart_cons id h
  | num n => exact List.isChain_cons.2 ⟨fun t ht _ => hn t ht, h⟩
  | arr [] | obj [] => exact apart_cons id (apart_cons id h)
  | arr (v :: vs) =>
    rw [tokens, List.cons_append, List.cons_append, List.append_assoc]
    obtain ⟨hvs, hv⟩ := apart_tokensElems vs h
    exact apart_cons id (apart_tokens v hvs hv)
  | obj ((k, v) :: ms) =>
    rw [tokens, List.cons_append, List.cons_append, List.cons_append, List.cons_append,
      List.cons_append, List.cons_append, List.append_assoc]
    obtain ⟨hms, hv⟩ := apart_tokensMembers ms h
    exact apart_cons id (apart_cons id (apart_cons id (apart_tokens v hms hv)))

theorem apart_tokensElems (vs : List Json) {ts : List Token} (h : Apart ts) :
    Apart (tokensElems vs ++ ts) ∧ ∀ t ∈ (tokensElems vs ++ ts).head?, ¬ t.IsNum := by
  match vs with
  | [] => exact ⟨apart_cons id h, by rintro t ⟨⟩; exact id⟩
  | v :: vs =>
    rw [tokensElems, List.cons_append, List.cons_append, List.append_assoc]
    obtain ⟨hvs, hv⟩ := apart_tokensElems vs h
    exact ⟨apart_cons id (apart_tokens v hvs hv), by rintro t ⟨⟩; exact id⟩

theorem apart_tokensMembers (ms : List (String × Json)) {ts : List Token} (h : Apart ts) :
    Apart (tokensMembers ms ++ ts) ∧ ∀ t ∈ (tokensMembers ms ++ ts).head?, ¬ t.IsNum := by
  match ms with
  | [] => exact ⟨apart_cons id h, by rintro t ⟨⟩; exact id⟩
  | (k, v) :: ms =>
    rw [tokensMembers, List.cons_append, List.cons_append, List.cons_append, List.cons_append,
      List.cons_append, List.cons_append, List.append_assoc]
    obtain ⟨hms, hv⟩ := apart_tokensMembers ms h
    exact ⟨apart_cons id (apart_cons id (apart_cons id (apart_tokens v hms hv))),
      by rintro t ⟨⟩; exact id⟩

end

/-- **However a value is spelled, it is read**, unless it is nested too deeply. -/
theorem parse?_of_spelled {v : Json} {s : String} (h : v.SpelledBy s) :
    parse? s = if v.depth ≤ maxDepth then some v else none := by
  have hapart := apart_tokens v (.nil : Apart []) (by rintro t ⟨⟩)
  rw [List.append_nil] at hapart
  obtain ⟨xs, hscan, hxs⟩ := h.scanned hapart []
  rw [parse?, parseWithin?, Token.scan?, Lexeme.scan?, hscan]
  simp only [List.reverse_nil, List.nil_append, Option.bind_eq_bind, Option.bind_some, hxs,
    ofTokens?, Builder.start, Builder.run?_tokens]
  by_cases hd : v.depth ≤ maxDepth <;> simp [hd, Builder.value]

end Json

/-! ### What is written -/

theorem Text.charSpelled_escaped (c : Char) : CharSpelled c (Token.escaped c).toList := by
  unfold Token.escaped
  split
  · next h => exact .escape (h ▸ by decide)
  split
  · next h => exact .escape (h ▸ by decide)
  split
  · next h => exact .escape (h ▸ by decide)
  split
  · next h => exact .escape (h ▸ by decide)
  split
  · next h => exact .escape (h ▸ by decide)
  split
  · next h => exact .escape (h ▸ by decide)
  split
  · next h => exact .escape (h ▸ by decide)
  split
  · next h =>
    have hhigh := Token.hexValue?_hexDigit (d := c.toNat / 16) (by omega)
    have hlow := Token.hexValue?_hexDigit (d := c.toNat % 16) (by omega)
    have htext : ("\\u00" ++ String.ofList [Token.hexDigit (c.toNat / 16),
        Token.hexDigit (c.toNat % 16)]).toList = '\\' :: 'u' ::
          ['0', '0', Token.hexDigit (c.toNat / 16), Token.hexDigit (c.toNat % 16)] := by simp
    rw [htext]
    exact .unit ⟨'0', '0', _, _, 0, 0, _, _, rfl, by decide, by decide, hhigh, hlow, by omega⟩
  · next hq hb _ _ _ _ _ hc =>
    have htext : c.toString.toList = [c] := by simp
    rw [htext]
    exact .raw hq hb (Nat.not_lt.1 hc)

theorem Text.spelled_escaped (s : List Char) :
    Spelled s (s.flatMap fun c => (Token.escaped c).toList) := by
  induction s with
  | nil => exact .nil
  | cons c s ih => exact .cons (charSpelled_escaped c) ih

theorem Token.spelled_text {t : Token} (h : t.reread? = some t) : t.Spelled t.text.toList := by
  cases t with
  | num n =>
    obtain ⟨k, hk, hkn⟩ := Option.map_eq_some_iff.1 h
    obtain rfl := num.inj hkn
    rw [text, String.toList_ofList, k.text_eq]
    exact .num (Lexeme.spelled_text k.literal_wellFormed) hk
  | str s =>
    rw [text, toList_quoted]
    exact .str (Text.spelled_escaped s.toList)
  | openObj | closeObj | openArr | closeArr | colon | comma | null | bool =>
    exact .mark id (by simp)

theorem Token.row_chars {ts : List Token} (h : ts.mapM reread? = some ts) : Row ts (chars ts) := by
  induction ts with
  | nil => exact .nil (List.forall_mem_nil _)
  | cons t ts ih =>
    rw [List.mapM_cons] at h
    obtain ⟨u, hu, h⟩ := Option.bind_eq_some_iff.1 h
    obtain ⟨us, hus, h⟩ := Option.bind_eq_some_iff.1 h
    obtain ⟨rfl, rfl⟩ := List.cons.inj (Option.some.inj h)
    exact .cons [] (List.forall_mem_nil _) (spelled_text hu) (ih hus)

theorem Json.spelledBy_render {v : Json} (h : v.reread? = some v) : v.SpelledBy v.render := by
  rw [SpelledBy, render, Token.toList_spell]
  exact Token.row_chars (by rw [mapM_tokens, h]; rfl)

end Switchboard
