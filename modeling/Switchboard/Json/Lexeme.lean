import Switchboard.Json.Token

/-! # The lexemes of JSON texts

A lexeme is a piece of a text that has the form of a token.  `Lexeme.scan?` cuts a text into
lexemes, and `Lexeme.token?` says what a lexeme denotes, if anything.

* **Blanks** are space, tab, line feed and carriage return; a byte order mark is no blank.
* **Texts** stand in quotes.  Every escape of the standard is accepted and raw characters below
  U+0020 are refused.  A text with half a surrogate pair has the right form and denotes nothing.
* **Numbers** are read as far as they go; whether the next lexeme may stand there is not the concern
  of this level.  A number that is too large has the right form and denotes nothing. -/

namespace Switchboard

/-- A piece of a JSON text that has the form of a token. -/
inductive Lexeme where
  /-- A bracket, a brace, a colon, a comma or a word, which denotes itself. -/
  | mark (t : Token)
  | number (l : Literal)
  /-- A text in quotes: every character by its number, every escaped code unit as it is. -/
  | quoted (units : List Nat)
deriving DecidableEq, Repr

namespace Lexeme

/-! ### Quoted texts -/

/-- Four hexadecimal digits. -/
def unit? : List Char → Option (Nat × List Char)
  | a :: b :: c :: d :: r => do
    let high := (← Token.hexValue? a) * 16 + (← Token.hexValue? b)
    let low := (← Token.hexValue? c) * 16 + (← Token.hexValue? d)
    some (high * 256 + low, r)
  | _ => none

/-- The code unit after a backslash. -/
def escape? : List Char → Option (Nat × List Char)
  | [] => none
  | c :: r =>
    if c = '"' ∨ c = '\\' ∨ c = '/' then some (c.toNat, r)
    else if c = 'b' then some (0x08, r)
    else if c = 'f' then some (0x0c, r)
    else if c = 'n' then some (0x0a, r)
    else if c = 'r' then some (0x0d, r)
    else if c = 't' then some (0x09, r)
    else if c = 'u' then unit? r
    else none

theorem unit?_length {cs r : List Char} {n : Nat} (h : unit? cs = some (n, r)) :
    r.length < cs.length := by
  unfold unit? at h
  split at h
  · simp only [bind, Option.bind_eq_some_iff, Option.some.injEq, Prod.mk.injEq] at h
    obtain ⟨_, _, _, _, _, _, _, _, _, rfl⟩ := h
    simp only [List.length_cons]; omega
  · simp at h

theorem escape?_length {cs r : List Char} {u : Nat} (h : escape? cs = some (u, r)) :
    r.length < cs.length := by
  cases cs with
  | nil => simp [escape?] at h
  | cons d r' =>
    have step : r = r' ∨ unit? r' = some (u, r) := by
      simp only [escape?] at h
      repeat' split at h
      all_goals simp_all
    rcases step with rfl | h
    · simp
    · have := unit?_length h
      simp only [List.length_cons]
      omega

/-- The text after an opening quote, given the code units read so far, the last one first: its code
units, and what follows the closing quote. -/
def body? (read : List Nat) : List Char → Option (List Nat × List Char)
  | [] => none
  | c :: r =>
    if c = '"' then some (read.reverse, r)
    else if c = '\\' then
      match _h : escape? r with
      | some (u, r') => body? (u :: read) r'
      | none => none
    else if c.toNat < 0x20 then none
    else body? (c.toNat :: read) r
termination_by cs => cs.length
decreasing_by
  · have := escape?_length _h
    simp only [List.length_cons]; omega
  · simp

theorem body?_length {read us : List Nat} {cs r : List Char} (h : body? read cs = some (us, r)) :
    r.length < cs.length := by
  fun_induction body? read cs with
  | case1 => simp at h
  | case2 read r' => simp at h; simp [h]
  | case3 read r' d r'' hd _ ih =>
    have := escape?_length hd; have := ih h; simp only [List.length_cons]; omega
  | case4 => simp at h
  | case5 => simp at h
  | case6 read c r' _ _ _ ih => have := ih h; simp only [List.length_cons]; omega

/-- The characters that code units denote, given those before them, the last one first.  Surrogates
stand in pairs only. -/
def joined? (read : List Char) : List Nat → Option (List Char)
  | [] => some read.reverse
  | u :: us =>
    if u < 0xd800 ∨ 0xe000 ≤ u then joined? (Char.ofNat u :: read) us
    else if 0xdc00 ≤ u then none
    else
      match us with
      | [] => none
      | v :: us =>
        if 0xdc00 ≤ v ∧ v < 0xe000 then
          joined? (Char.ofNat (0x10000 + (u - 0xd800) * 0x400 + (v - 0xdc00)) :: read) us
        else none

/-! ### Numbers -/

/-- A run of digits and what follows it. -/
def digits (cs : List Char) : List Char × List Char :=
  (cs.takeWhile isDigit, cs.dropWhile isDigit)

/-- A run of at least one digit. -/
def digits? (cs : List Char) : Option (List Char × List Char) :=
  match digits cs with
  | ([], _) => none
  | run => some run

/-- The digits after a point, if there is one. -/
def fraction? : List Char → Option (List Char × List Char)
  | '.' :: r => digits? r
  | r => some ([], r)

/-- The exponent, if there is one. -/
def power? : List Char → Option (Option Int × List Char)
  | c :: r =>
    if c = 'e' ∨ c = 'E' then do
      let (negative, r) := match r with
        | '-' :: r => (true, r)
        | '+' :: r => (false, r)
        | r => (false, r)
      let (ds, r) ← digits? r
      some (some (if negative then -Int.ofNat (ofDecimal ds) else ofDecimal ds), r)
    else some (none, c :: r)
  | [] => some (none, [])

/-- The digits before the point: a zero, or a run that does not start with one. -/
def whole? : List Char → Option (List Char × List Char)
  | '0' :: r => some (['0'], r)
  | cs => digits? cs

/-- A number as it is spelled, and what follows it. -/
def literal? (cs : List Char) : Option (Literal × List Char) := do
  let (negative, cs) := match cs with
    | '-' :: r => (true, r)
    | r => (false, r)
  let (whole, r) ← whole? cs
  let (fraction, r) ← fraction? r
  let (power, r) ← power? r
  some (⟨negative, whole, fraction, power⟩, r)

theorem digits_length (cs : List Char) :
    (digits cs).1.length + (digits cs).2.length = cs.length := by
  rw [← List.length_append, digits, List.takeWhile_append_dropWhile]

theorem digits?_length {cs ds r : List Char} (h : digits? cs = some (ds, r)) :
    r.length < cs.length := by
  have := digits_length cs
  unfold digits? at h
  split at h
  · simp at h
  · next hne =>
    rw [Option.some.inj h] at this hne
    cases ds with
    | nil => exact absurd rfl (hne r)
    | cons d ds => simp only [List.length_cons] at this; omega

theorem fraction?_length {cs ds r : List Char} (h : fraction? cs = some (ds, r)) :
    r.length ≤ cs.length := by
  unfold fraction? at h
  split at h
  · have := digits?_length h
    simp only [List.length_cons]; omega
  · simp at h; simp [h]

theorem power?_length {cs r : List Char} {p : Option Int} (h : power? cs = some (p, r)) :
    r.length ≤ cs.length := by
  unfold power? at h
  split at h
  · split at h
    · simp only [bind, Option.bind_eq_some_iff] at h
      obtain ⟨⟨ds, r'⟩, h', h⟩ := h
      have := digits?_length h'
      simp only [Option.some.injEq, Prod.mk.injEq] at h
      obtain ⟨_, rfl⟩ := h
      simp only [List.length_cons]
      split at this <;> simp_all <;> omega
    · simp at h; simp [← h.2]
  · simp at h; simp [← h.2]

theorem whole?_length {cs ds r : List Char} (h : whole? cs = some (ds, r)) :
    r.length < cs.length := by
  unfold whole? at h
  split at h
  · simp at h; simp [h]
  · exact digits?_length h

theorem literal?_length {cs r : List Char} {l : Literal} (h : literal? cs = some (l, r)) :
    r.length < cs.length := by
  simp only [literal?, bind, Option.bind_eq_some_iff] at h
  obtain ⟨⟨w, r₁⟩, h₁, ⟨f, r₂⟩, h₂, ⟨p, r₃⟩, h₃, h⟩ := h
  have h₁ := whole?_length h₁
  have h₂ := fraction?_length h₂
  have h₃ := power?_length h₃
  simp only [Option.some.injEq, Prod.mk.injEq] at h
  obtain ⟨_, rfl⟩ := h
  split at h₁ <;> simp_all <;> omega

/-! ### Scanning -/

/-- The characters that may stand between tokens. -/
def isBlank (c : Char) : Bool := c == ' ' || c == '\t' || c == '\n' || c == '\r'

/-- The tokens that are one character. -/
def mark? (c : Char) : Option Token :=
  if c = '{' then some .openObj
  else if c = '}' then some .closeObj
  else if c = '[' then some .openArr
  else if c = ']' then some .closeArr
  else if c = ':' then some .colon
  else if c = ',' then some .comma
  else none

/-- What follows a word that the text has to start with. -/
def after? : List Char → List Char → Option (List Char)
  | [], cs => some cs
  | _ :: _, [] => none
  | w :: ws, c :: cs => if w = c then after? ws cs else none

/-- The lexeme at the start of a text that starts with none of the blanks. -/
def first? : List Char → Option (Lexeme × List Char)
  | [] => none
  | c :: r =>
    match mark? c with
    | some t => some (mark t, r)
    | none =>
      if c = '"' then (body? [] r).map fun (us, r) => (quoted us, r)
      else if c = 'n' then (after? ['u', 'l', 'l'] r).map (mark .null, ·)
      else if c = 't' then (after? ['r', 'u', 'e'] r).map (mark (.bool true), ·)
      else if c = 'f' then (after? ['a', 'l', 's', 'e'] r).map (mark (.bool false), ·)
      else (literal? (c :: r)).map fun (l, r) => (number l, r)

theorem after?_length {ws cs r : List Char} (h : after? ws cs = some r) :
    r.length ≤ cs.length := by
  fun_induction after? ws cs with
  | case1 => simp at h; simp [h]
  | case2 => simp at h
  | case3 ws c cs ih => have := ih h; simp only [List.length_cons]; omega
  | case4 => simp at h

theorem first?_length {cs r : List Char} {x : Lexeme} (h : first? cs = some (x, r)) :
    r.length < cs.length := by
  cases cs with
  | nil => cases h
  | cons c cs =>
    have word : ∀ {w : List Char} {y : Lexeme}, (after? w cs).map (y, ·) = some (x, r) →
        r.length < (c :: cs).length := by
      intro w y h
      obtain ⟨r', hr, e⟩ := Option.map_eq_some_iff.1 h
      obtain rfl := (Prod.mk.inj e).2
      exact Nat.lt_succ_of_le (after?_length hr)
    rw [first?] at h
    split at h
    · obtain rfl := (Prod.mk.inj (Option.some.inj h)).2
      exact Nat.lt_succ_self _
    · split at h
      · obtain ⟨⟨us, r'⟩, hs, e⟩ := Option.map_eq_some_iff.1 h
        obtain rfl := (Prod.mk.inj e).2
        exact Nat.lt_succ_of_le (Nat.le_of_lt (body?_length hs))
      · split at h
        · exact word h
        · split at h
          · exact word h
          · split at h
            · exact word h
            · obtain ⟨⟨l, r'⟩, hl, e⟩ := Option.map_eq_some_iff.1 h
              obtain rfl := (Prod.mk.inj e).2
              exact literal?_length hl

/-- The lexemes of a text, given those read so far, the last one first. -/
def scanFrom? (read : List Lexeme) : List Char → Option (List Lexeme)
  | [] => some read.reverse
  | c :: r =>
    if isBlank c then scanFrom? read r
    else
      match _h : first? (c :: r) with
      | some (x, r') => scanFrom? (x :: read) r'
      | none => none
termination_by cs => cs.length
decreasing_by
  · simp
  · exact first?_length _h

/-- The lexemes of a text; nothing if some part of it has the form of no token. -/
def scan? (s : String) : Option (List Lexeme) := scanFrom? [] s.toList

/-! ### Meaning -/

/-- The token that a lexeme denotes. -/
def token? : Lexeme → Option Token
  | mark t => some t
  | number l => l.number?.map .num
  | quoted us => (joined? [] us).map fun cs => .str (String.ofList cs)

/-- A token of the same form: a text for a text, and some scalar for a number. -/
def outline : Lexeme → Token
  | mark t => t
  | number _ => .null
  | quoted _ => .str ""

end Lexeme

/-- The tokens of a text; nothing if some part of it denotes no token. -/
def Token.scan? (s : String) : Option (List Token) := do (← Lexeme.scan? s).mapM Lexeme.token?

end Switchboard
