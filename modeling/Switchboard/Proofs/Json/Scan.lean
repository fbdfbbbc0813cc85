import Switchboard.Json.Text
import Switchboard.Proofs.Json.Literal

/-! # Tokens read back

The text of a value is cut into lexemes where its tokens meet.

* **Texts.** Every character between quotes is read as one code unit (`body?_escaped`), and the
  units of a text join to the text again (`joined?_units`).
* **Lexemes.** `Token.lexeme` is the lexeme that a token is spelled as.  It is read off the front of
  any text that starts with the token and does not go on with a number after a number
  (`first?_text`).
* **Scanning.** The tokens of a value never put two numbers side by side, so its text is scanned
  into the lexemes of its tokens (`scan?_render`). -/

namespace Switchboard

/-! ### Texts in quotes -/

namespace Token

theorem toList_foldl_append {α : Type} (f : α → String) (xs : List α) (s : String) :
    (xs.foldl (fun t x => t ++ f x) s).toList = s.toList ++ xs.flatMap fun x => (f x).toList := by
  induction xs generalizing s with
  | nil => simp
  | cons x xs ih => rw [List.foldl_cons, ih]; simp

theorem toList_spell (ts : List Token) : (spell ts).toList = ts.flatMap fun t => t.text.toList := by
  rw [spell, toList_foldl_append]
  rfl

theorem toList_quoted (s : String) :
    (quoted s).toList = '"' :: (s.toList.flatMap fun c => (escaped c).toList) ++ ['"'] := by
  rw [quoted, String.foldl_eq_foldl_toList, String.toList_append, toList_foldl_append]
  rfl

theorem hexValue?_hexDigit {d : Nat} (h : d < 16) : hexValue? (hexDigit d) = some d := by
  have : ∀ d, d < 16 → hexValue? (hexDigit d) = some d := by decide
  exact this d h

end Token

namespace Lexeme

open Token

theorem body?_backslash {read : List Nat} {cs r : List Char} {u : Nat}
    (h : escape? cs = some (u, r)) : body? read ('\\' :: cs) = body? (u :: read) r := by
  rw [body?]
  simp only [show ('\\' : Char) ≠ '"' by decide, if_false, if_true]
  split
  · next h' => rw [h] at h'; obtain ⟨rfl, rfl⟩ := Prod.mk.inj (Option.some.inj h'); rfl
  · next h' => rw [h] at h'; cases h'

/-- A character is read as one code unit, whether it is escaped or not. -/
theorem body?_escaped (read : List Nat) (c : Char) (r : List Char) :
    body? read ((escaped c).toList ++ r) = body? (c.toNat :: read) r := by
  unfold escaped
  split
  · next h => subst h; exact body?_backslash rfl
  split
  · next h => subst h; exact body?_backslash rfl
  split
  · next h => subst h; exact body?_backslash rfl
  split
  · next h => subst h; exact body?_backslash rfl
  split
  · next h => subst h; exact body?_backslash rfl
  split
  · next h => subst h; exact body?_backslash rfl
  split
  · next h => subst h; exact body?_backslash rfl
  split
  · next h =>
    have hhigh := hexValue?_hexDigit (d := c.toNat / 16) (by omega)
    have hlow := hexValue?_hexDigit (d := c.toNat % 16) (by omega)
    have hu : unit? ('0' :: '0' :: hexDigit (c.toNat / 16) :: hexDigit (c.toNat % 16) :: r) =
        some (c.toNat, r) := by
      have hz : hexValue? '0' = some 0 := by decide
      simp only [unit?, hz, hhigh, hlow, Option.bind_eq_bind, Option.bind_some, Option.some.injEq,
        Prod.mk.injEq, and_true]
      omega
    have htext : ("\\u00" ++ String.ofList [hexDigit (c.toNat / 16), hexDigit (c.toNat % 16)]).toList
        ++ r =
        '\\' :: 'u' :: '0' :: '0' :: hexDigit (c.toNat / 16) :: hexDigit (c.toNat % 16) :: r := by
      simp
    rw [htext]
    exact body?_backslash hu
  · next hq hb _ _ _ _ _ hc =>
    have htext : c.toString.toList ++ r = c :: r := by simp
    rw [htext, body?]
    simp [hq, hb, hc]

theorem body?_flatMap_escaped (read : List Nat) (cs r : List Char) :
    body? read ((cs.flatMap fun c => (escaped c).toList) ++ '"' :: r) =
      some (read.reverse ++ cs.map Char.toNat, r) := by
  induction cs generalizing read with
  | nil => rw [List.flatMap_nil, List.nil_append, body?]; simp
  | cons c cs ih => rw [List.flatMap_cons, List.append_assoc, body?_escaped, ih]; simp

/-- A code unit that is no surrogate stands for a character of its own. -/
theorem joined?_char (read : List Char) (c : Char) (us : List Nat) :
    joined? read (c.toNat :: us) = joined? (c :: read) us := by
  have hc : c.toNat < 0xd800 ∨ 0xe000 ≤ c.toNat := c.valid.imp id (·.1)
  rw [joined?.eq_def]
  simp only [if_pos hc, Char.ofNat_toNat]

theorem joined?_units (read cs : List Char) :
    joined? read (cs.map Char.toNat) = some (read.reverse ++ cs) := by
  induction cs generalizing read with
  | nil => simp [joined?]
  | cons c cs ih => rw [List.map_cons, joined?_char, ih, List.reverse_cons, List.append_assoc,
      List.singleton_append]

end Lexeme

/-! ### Lexemes of tokens -/

/-- The lexeme that a token is spelled as. -/
def Token.lexeme : Token → Lexeme
  | num n => .number n.literal
  | str s => .quoted (s.toList.map Char.toNat)
  | t => .mark t

/-- A token is a number. -/
def Token.IsNum : Token → Prop
  | num _ => True
  | _ => False

namespace Lexeme

open Literal

theorem after?_append (ws r : List Char) : after? ws (ws ++ r) = some r := by
  induction ws with
  | nil => rfl
  | cons w ws ih => rw [List.cons_append, after?, if_pos rfl, ih]

theorem head?_literal {l : Literal} {ds : List Char} (h : l.Spelled ds) (r : List Char) :
    ∃ c cs, ds ++ r = c :: cs ∧ (isDigit c = true ∨ c = '-') := by
  obtain ⟨⟨hwhole, -⟩, p, -, rfl⟩ := h
  obtain ⟨negative, whole, fraction, power⟩ := l
  cases negative with
  | true => exact ⟨'-', _, rfl, .inr rfl⟩
  | false =>
    rcases hwhole with hz | ⟨_, hne, hd⟩
    · obtain rfl : whole = ['0'] := hz
      exact ⟨'0', _, rfl, .inl rfl⟩
    · cases whole with
      | nil => exact (hne rfl).elim
      | cons c cs => exact ⟨c, _, rfl, .inl (hd c List.mem_cons_self)⟩

theorem first?_of_digit {c : Char} {r : List Char} (h : isDigit c = true ∨ c = '-') :
    first? (c :: r) = (literal? (c :: r)).map fun (l, r) => (number l, r) := by
  have hne : ∀ d : Char, isDigit d = false → d ≠ '-' → c ≠ d := by
    rintro d hd hm rfl
    rcases h with h | h
    · rw [hd] at h; cases h
    · exact hm h
  have hm : mark? c = none := by
    simp [mark?, hne '{' (by decide) (by decide), hne '}' (by decide) (by decide),
      hne '[' (by decide) (by decide), hne ']' (by decide) (by decide),
      hne ':' (by decide) (by decide), hne ',' (by decide) (by decide)]
  simp [first?, hm, hne '"' (by decide) (by decide), hne 'n' (by decide) (by decide),
    hne 't' (by decide) (by decide), hne 'f' (by decide) (by decide)]

theorem first?_text (t : Token) {r : List Char} (hr : t.IsNum → Ends r) :
    first? (t.text.toList ++ r) = some (t.lexeme, r) := by
  cases t with
  | openObj | closeObj | openArr | closeArr | colon | comma => rfl
  | null =>
    have := after?_append ['u', 'l', 'l'] r
    exact congrArg (Option.map _) this
  | bool b =>
    cases b
    · have := after?_append ['a', 'l', 's', 'e'] r
      exact congrArg (Option.map _) this
    · have := after?_append ['r', 'u', 'e'] r
      exact congrArg (Option.map _) this
  | num n =>
    have hl := n.literal_wellFormed
    have htext : (Token.num n).text.toList = n.literal.text := by
      rw [← n.text_eq]
      simp [Token.text]
    obtain ⟨c, cs, hc, hd⟩ := head?_literal (spelled_text hl) r
    have hread := literal?_text hl (hr trivial)
    rw [htext, hc, first?_of_digit hd, ← hc, hread]
    rfl
  | str s =>
    have htext : (Token.str s).text.toList ++ r =
        '"' :: ((s.toList.flatMap fun c => (Token.escaped c).toList) ++ '"' :: r) := by
      simp [Token.text, Token.toList_quoted]
    have hread := body?_flatMap_escaped [] s.toList r
    rw [htext, first?]
    simp [mark?, hread, Token.lexeme]

theorem first?_blank {c : Char} (h : isBlank c = true) (r : List Char) : first? (c :: r) = none := by
  simp only [isBlank, Bool.or_eq_true, beq_iff_eq] at h
  rcases h with ((rfl | rfl) | rfl) | rfl <;> rfl

theorem scanFrom?_of_first? (read : List Lexeme) {cs r : List Char} {x : Lexeme}
    (h : first? cs = some (x, r)) : scanFrom? read cs = scanFrom? (x :: read) r := by
  cases cs with
  | nil => cases h
  | cons c cs =>
    have hb : ¬ isBlank c = true := fun hb => by rw [first?_blank hb] at h; cases h
    rw [scanFrom?, if_neg hb]
    split
    · next h' =>
      rw [h] at h'
      obtain ⟨rfl, rfl⟩ := Prod.mk.inj (Option.some.inj h')
      rfl
    · next h' => rw [h] at h'; cases h'

theorem scanFrom?_text (read : List Lexeme) (t : Token) {r : List Char} (hr : t.IsNum → Ends r) :
    scanFrom? read (t.text.toList ++ r) = scanFrom? (t.lexeme :: read) r :=
  scanFrom?_of_first? read (first?_text t hr)

end Lexeme

/-! ### Scanning values -/

/-- The text of a row of tokens. -/
def Token.chars (ts : List Token) : List Char := ts.flatMap fun t => t.text.toList

namespace Json

open Lexeme Literal Token

theorem chars_append (ts us : List Token) : chars (ts ++ us) = chars ts ++ chars us :=
  List.flatMap_append

/-- A token that is no number ends a number before it. -/
theorem ends_chars {t : Token} (h : ¬ t.IsNum) (ts : List Token) (r : List Char) :
    Ends (chars (t :: ts) ++ r) := by
  have ends (c : Char) (cs : List Char) (hc : isDigit c = false ∧ c ≠ '.' ∧ c ≠ 'e' ∧ c ≠ 'E') :
      Ends (c :: cs) := by
    rintro d ⟨⟩
    exact hc
  cases t with
  | num n => exact (h trivial).elim
  | str s =>
    simp only [chars, List.flatMap_cons, Token.text, Token.toList_quoted, List.cons_append]
    exact ends _ _ (by decide)
  | bool b => cases b <;> exact ends _ _ (by decide)
  | openObj | closeObj | openArr | closeArr | colon | comma | null => exact ends _ _ (by decide)

theorem ends_elems (vs : List Json) (r : List Char) : Ends (chars (tokensElems vs) ++ r) := by
  cases vs <;> exact ends_chars id _ _

theorem ends_members (ms : List (String × Json)) (r : List Char) :
    Ends (chars (tokensMembers ms) ++ r) := by
  cases ms <;> exact ends_chars id _ _

theorem scanFrom?_cons (read : List Lexeme) {t : Token} (h : ¬ t.IsNum) (ts : List Token)
    (r : List Char) :
    scanFrom? read (chars (t :: ts) ++ r) = scanFrom? (t.lexeme :: read) (chars ts ++ r) := by
  rw [chars, List.flatMap_cons, List.append_assoc]
  exact scanFrom?_text read t fun hn => (h hn).elim

theorem scanFrom?_chars (read : List Lexeme) {ts : List Token} (h : ∀ t ∈ ts, ¬ t.IsNum)
    (r : List Char) :
    scanFrom? read (chars ts ++ r) = scanFrom? ((ts.map lexeme).reverse ++ read) r := by
  induction ts generalizing read with
  | nil => rfl
  | cons t ts ih =>
    obtain ⟨ht, hts⟩ := List.forall_mem_cons.1 h
    rw [scanFrom?_cons read ht, ih _ hts]
    simp

mutual

/-- The text of a value is scanned into the lexemes of its tokens. -/
theorem scanFrom?_tokens (v : Json) (read : List Lexeme) {r : List Char} (hr : Ends r) :
    scanFrom? read (chars v.tokens ++ r) =
      scanFrom? ((v.tokens.map lexeme).reverse ++ read) r := by
  match v with
  | null | bool _ | str _ => exact scanFrom?_cons read id [] r
  | num n =>
    have h := scanFrom?_text read (.num n) (r := r) fun _ => hr
    simpa [tokens, chars] using h
  | arr [] | obj [] =>
    rw [tokens, scanFrom?_cons read id, scanFrom?_cons _ id]
    rfl
  | arr (v :: vs) =>
    rw [tokens, List.cons_append, scanFrom?_cons read id, chars_append, List.append_assoc,
      scanFrom?_tokens v _ (ends_elems vs r), scanFrom?_elems vs]
    simp
  | obj ((k, v) :: ms) =>
    rw [tokens, List.cons_append, List.cons_append, List.cons_append, scanFrom?_cons read id,
      scanFrom?_cons _ id, scanFrom?_cons _ id, chars_append, List.append_assoc,
      scanFrom?_tokens v _ (ends_members ms r), scanFrom?_members ms]
    simp

theorem scanFrom?_elems (vs : List Json) (read : List Lexeme) (r : List Char) :
    scanFrom? read (chars (tokensElems vs) ++ r) =
      scanFrom? (((tokensElems vs).map lexeme).reverse ++ read) r := by
  match vs with
  | [] => exact scanFrom?_cons read id [] r
  | v :: vs =>
    rw [tokensElems, List.cons_append, scanFrom?_cons read id, chars_append, List.append_assoc,
      scanFrom?_tokens v _ (ends_elems vs r), scanFrom?_elems vs]
    simp

theorem scanFrom?_members (ms : List (String × Json)) (read : List Lexeme) (r : List Char) :
    scanFrom? read (chars (tokensMembers ms) ++ r) =
      scanFrom? (((tokensMembers ms).map lexeme).reverse ++ read) r := by
  match ms with
  | [] => exact scanFrom?_cons read id [] r
  | (k, v) :: ms =>
    rw [tokensMembers, List.cons_append, List.cons_append, List.cons_append,
      scanFrom?_cons read id, scanFrom?_cons _ id, scanFrom?_cons _ id, chars_append,
      List.append_assoc, scanFrom?_tokens v _ (ends_members ms r), scanFrom?_members ms]
    simp

end

theorem scan?_render (v : Json) : Lexeme.scan? v.render = some (v.tokens.map lexeme) := by
  have h := scanFrom?_tokens v [] (r := []) (by rintro c ⟨⟩)
  rw [List.append_nil, scanFrom?] at h
  rw [Lexeme.scan?, render, toList_spell]
  simpa [chars] using h

end Json
end Switchboard
