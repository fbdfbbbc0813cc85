import Switchboard.Json.Lexeme
import Switchboard.Proofs.Decimal.Shortest

/-! # Numbers read back

A number is written as a literal, and the literal is read off the text again, whatever follows it,
as long as that does not go on with the number.

* **Spelling.** `Literal.text` spells a literal, and `Literal.Spelled` says how else it may be
  spelled.  `literal?_spelled` reads it back.  For that the digits before the point must not start
  with a zero, unless there is only one (`Literal.WellFormed`).
* **Numbers.** Every number is written as the text of a well-formed literal (`Number.text_eq`,
  `Number.literal_wellFormed`).  For binary64 numbers this rests on the search for the shortest
  decimal: a decimal without digits would be spelled as a row of zeros. -/

namespace Switchboard

namespace Literal

/-! ### Spelling -/

/-- The power of ten as it is spelled. -/
def powerText : Option Int → List Char
  | none => []
  | some p => 'e' :: (if p < 0 then '-' else '+') :: decimal p.natAbs

/-- The digits after the point as they are spelled. -/
def fractionText (fraction : List Char) : List Char :=
  if fraction = [] then [] else '.' :: fraction

/-- The spelling of a literal. -/
def text (l : Literal) : List Char :=
  (if l.negative then ['-'] else []) ++ (l.whole ++ (fractionText l.fraction ++ powerText l.power))

/-- The digits before the point: a zero, or a run that does not start with one. -/
def WholeDigits (ds : List Char) : Prop :=
  ds = ['0'] ∨ ds.head? ≠ some '0' ∧ ds ≠ [] ∧ ∀ c ∈ ds, isDigit c = true

/-- A literal that is spelled as literals are. -/
structure WellFormed (l : Literal) : Prop where
  whole : WholeDigits l.whole
  fraction : ∀ c ∈ l.fraction, isDigit c = true

/-- A power of ten as it may be spelled: with either letter, with a sign or without one, and with
any zeros in front. -/
inductive PowerSpelled : Option Int → List Char → Prop
  | none : PowerSpelled none []
  | bare {e : Char} {ds : List Char} (he : e = 'e' ∨ e = 'E') (hd : ∀ c ∈ ds, isDigit c = true)
      (hne : ds ≠ []) : PowerSpelled (some (ofDecimal ds)) (e :: ds)
  | plus {e : Char} {ds : List Char} (he : e = 'e' ∨ e = 'E') (hd : ∀ c ∈ ds, isDigit c = true)
      (hne : ds ≠ []) : PowerSpelled (some (ofDecimal ds)) (e :: '+' :: ds)
  | minus {e : Char} {ds : List Char} (he : e = 'e' ∨ e = 'E') (hd : ∀ c ∈ ds, isDigit c = true)
      (hne : ds ≠ []) : PowerSpelled (some (-Int.ofNat (ofDecimal ds))) (e :: '-' :: ds)

/-- A literal as it may be spelled. -/
structure Spelled (l : Literal) (cs : List Char) : Prop where
  wellFormed : l.WellFormed
  spelled : ∃ p, PowerSpelled l.power p ∧
    cs = (if l.negative then ['-'] else []) ++ (l.whole ++ (fractionText l.fraction ++ p))

/-- A text does not go on with a number. -/
def Ends (r : List Char) : Prop :=
  ∀ c ∈ r.head?, isDigit c = false ∧ c ≠ '.' ∧ c ≠ 'e' ∧ c ≠ 'E'

end Literal

namespace Lexeme

open Literal

/-! ### Reading back -/

/-- A text does not go on with a digit. -/
def NoDigit (r : List Char) : Prop := ∀ c ∈ r.head?, isDigit c = false

theorem digits_append {ds r : List Char} (hd : ∀ c ∈ ds, isDigit c = true) (hr : NoDigit r) :
    digits (ds ++ r) = (ds, r) := by
  induction ds with
  | nil =>
    cases r with
    | nil => rfl
    | cons c r => simp [digits, hr c rfl]
  | cons c ds ih =>
    have hc := hd c List.mem_cons_self
    have := ih fun x hx => hd x (List.mem_cons_of_mem _ hx)
    simp only [digits, Prod.mk.injEq] at this
    simp [digits, hc, this]

theorem digits?_append {ds r : List Char} (hd : ∀ c ∈ ds, isDigit c = true) (hne : ds ≠ [])
    (hr : NoDigit r) : digits? (ds ++ r) = some (ds, r) := by
  rw [digits?, digits_append hd hr]
  cases ds with
  | nil => exact (hne rfl).elim
  | cons c ds => rfl

theorem whole?_append {ds r : List Char} (hd : WholeDigits ds) (hr : NoDigit r) :
    whole? (ds ++ r) = some (ds, r) := by
  rcases hd with rfl | ⟨h0, hne, hd⟩
  · rfl
  · cases ds with
    | nil => exact (hne rfl).elim
    | cons c ds =>
      have hc : c ≠ '0' := fun h => h0 (h ▸ rfl)
      rw [whole?]
      · exact digits?_append hd hne hr
      · rintro r' h
        exact hc (List.cons.inj h).1

theorem fraction?_append {ds r : List Char} (hd : ∀ c ∈ ds, isDigit c = true)
    (hr : ∀ c ∈ r.head?, isDigit c = false ∧ c ≠ '.') :
    fraction? (fractionText ds ++ r) = some (ds, r) := by
  unfold fractionText
  split
  · next h =>
    subst h
    cases r with
    | nil => rfl
    | cons c r =>
      rw [List.nil_append, fraction?]
      rintro r' h
      exact (hr c rfl).2 (List.cons.inj h).1
  · next h => exact digits?_append hd h fun c hc => (hr c hc).1

/-- However a power of ten is spelled, it is read. -/
theorem power?_spelled {p : Option Int} {cs r : List Char} (h : PowerSpelled p cs) (hr : Ends r) :
    power? (cs ++ r) = some (p, r) := by
  have hn : NoDigit r := fun c hc => (hr c hc).1
  cases h with
  | none =>
    cases r with
    | nil => rfl
    | cons c r => simp [power?, hr c rfl]
  | @bare e ds he hd hne =>
    have hread := digits?_append hd hne hn
    cases ds with
    | nil => exact (hne rfl).elim
    | cons c ds =>
      -- A digit is no sign, so the digits are read from where they start.
      have hsign (d : Char) (h : isDigit d = false) : c ≠ d := by
        rintro rfl
        rw [hd c List.mem_cons_self] at h
        cases h
      simp only [List.cons_append] at hread ⊢
      rw [power?, if_pos he]
      · simp [hread]
      · exact fun _ h => hsign '-' (by decide) (List.cons.inj h).1
      · exact fun _ h => hsign '+' (by decide) (List.cons.inj h).1
  | plus he hd hne => simp [power?, he, digits?_append hd hne hn]
  | minus he hd hne => simp [power?, he, digits?_append hd hne hn]

theorem powerSpelled_text (p : Option Int) : PowerSpelled p (powerText p) := by
  cases p with
  | none => exact .none
  | some p =>
    have hd := isDigit_of_mem_decimal p.natAbs
    have hne := decimal_ne_nil p.natAbs
    rw [powerText]
    split
    · next hp =>
      have h := PowerSpelled.minus (.inl rfl) hd hne
      rwa [ofDecimal_decimal, show -Int.ofNat p.natAbs = p by rw [Int.ofNat_eq_natCast]; omega] at h
    · next hp =>
      have h := PowerSpelled.plus (.inl rfl) hd hne
      rwa [ofDecimal_decimal, show ((p.natAbs : Nat) : Int) = p by omega] at h

/-- What a power of ten starts with is no digit and no point. -/
theorem head?_spelled {p : Option Int} {cs r : List Char} (h : PowerSpelled p cs) (hr : Ends r) :
    ∀ c ∈ (cs ++ r).head?, isDigit c = false ∧ c ≠ '.' := by
  cases h with
  | none => exact fun c hc => ⟨(hr c hc).1, (hr c hc).2.1⟩
  | bare he | plus he | minus he =>
    rintro c ⟨⟩
    rcases he with rfl | rfl <;> decide

theorem noDigit_fractionText (ds : List Char) {r : List Char} (hr : NoDigit r) :
    NoDigit (fractionText ds ++ r) := by
  unfold fractionText
  split
  · exact hr
  · rintro c ⟨⟩
    decide

/-- A text without a sign is read as it is. -/
theorem literal?_unsigned {cs : List Char} (h : cs.head? ≠ some '-') :
    literal? cs = (whole? cs).bind fun (whole, r) => (fraction? r).bind fun (fraction, r) =>
      (power? r).bind fun (power, r) => some (⟨false, whole, fraction, power⟩, r) := by
  unfold literal?
  split
  next _ negative r hs =>
  split at hs
  · exact (h rfl).elim
  · obtain ⟨rfl, rfl⟩ := Prod.mk.inj hs
    rfl

theorem head?_wholeDigits {ds : List Char} (hd : WholeDigits ds) (r : List Char) :
    (ds ++ r).head? ≠ some '-' := by
  rcases hd with rfl | ⟨_, hne, hd⟩
  · simp
  · cases ds with
    | nil => exact (hne rfl).elim
    | cons c ds =>
      have hc := hd c List.mem_cons_self
      rintro h
      obtain rfl := Option.some.inj h
      exact absurd hc (by decide)

/-- However a literal is spelled, it is read. -/
theorem literal?_spelled {l : Literal} {cs r : List Char} (hl : l.Spelled cs) (hr : Ends r) :
    literal? (cs ++ r) = some (l, r) := by
  obtain ⟨⟨hwhole, hfraction⟩, p, hpower, rfl⟩ := hl
  have hp := power?_spelled hpower hr
  have hf := fraction?_append hfraction (head?_spelled hpower hr)
  have hw := whole?_append hwhole
    (noDigit_fractionText l.fraction fun c hc => (head?_spelled hpower hr c hc).1)
  obtain ⟨negative, whole, fraction, power⟩ := l
  cases negative with
  | true =>
    simp only [literal?, if_true, List.append_assoc, List.cons_append, List.nil_append] at *
    simp [hw, hf, hp]
  | false =>
    simp only [Bool.false_eq_true, if_false, List.append_assoc, List.nil_append] at *
    rw [literal?_unsigned (head?_wholeDigits hwhole _)]
    simp [hw, hf, hp]

theorem spelled_text {l : Literal} (hl : l.WellFormed) : l.Spelled l.text :=
  ⟨hl, _, powerSpelled_text l.power, rfl⟩

/-- Reading undoes spelling. -/
theorem literal?_text {l : Literal} (hl : l.WellFormed) {r : List Char} (hr : Ends r) :
    literal? (l.text ++ r) = some (l, r) := literal?_spelled (spelled_text hl) hr

end Lexeme

/-! ### The literals of numbers -/

open Literal

theorem digitChar_ne_zero {d : Nat} (h : d < 10) (hd : d ≠ 0) : digitChar d ≠ '0' := by
  have : ∀ d, d < 10 → d ≠ 0 → digitChar d ≠ '0' := by decide
  exact this d h hd

theorem head?_append_decimal (n : Nat) (r : List Char) :
    (decimal n ++ r).head? = (decimal n).head? := by
  cases h : decimal n with
  | nil => exact (decimal_ne_nil n h).elim
  | cons c cs => rfl

/-- No number but zero is written with a zero in front. -/
theorem head?_decimal {n : Nat} (h : n ≠ 0) : (decimal n).head? ≠ some '0' := by
  rw [decimal]
  split
  · next hn => simpa using digitChar_ne_zero hn h
  · next hn =>
    have ih := head?_decimal (n := n / 10) (by omega)
    rw [head?_append_decimal]
    exact ih
termination_by n
decreasing_by omega

theorem wholeDigits_decimal (n : Nat) : WholeDigits (decimal n) := by
  by_cases h : n = 0
  · subst h
    exact .inl (by rw [decimal]; rfl)
  · exact .inr ⟨head?_decimal h, decimal_ne_nil n, isDigit_of_mem_decimal n⟩

theorem isDigit_of_mem_zeros {n : Nat} {c : Char} (h : c ∈ Decimal.zeros n) : isDigit c = true := by
  rw [(List.mem_replicate.1 h).2]
  decide

namespace Decimal

/-- The digits of a decimal with at least one digit before the point. -/
def padded (d : Decimal) : List Char :=
  zeros ((-d.exponent).toNat + 1 - (decimal d.digits).length) ++ decimal d.digits

/-- The number of digits before the point. -/
def wholeLength (d : Decimal) : Nat := d.padded.length - (-d.exponent).toNat

/-- A decimal in positional notation. -/
def positionalLiteral (d : Decimal) (negative : Bool) : Literal :=
  if d.exponent < 0 then
    ⟨negative, d.padded.take d.wholeLength, d.padded.drop d.wholeLength, none⟩
  else ⟨negative, decimal d.digits ++ zeros d.exponent.toNat, ['0'], none⟩

/-- A decimal in scientific notation. -/
def scientificLiteral (d : Decimal) (negative : Bool) : Literal :=
  ⟨negative, (decimal d.digits).take 1, (decimal d.digits).drop 1, some d.magnitude⟩

theorem isDigit_of_mem_padded {d : Decimal} {c : Char} (h : c ∈ d.padded) : isDigit c = true := by
  rcases List.mem_append.1 h with h | h
  · exact isDigit_of_mem_zeros h
  · exact isDigit_of_mem_decimal _ c h

theorem length_padded (d : Decimal) : (-d.exponent).toNat + 1 ≤ d.padded.length := by
  rw [padded, List.length_append, zeros, List.length_replicate]
  omega

theorem wholeDigits_take_padded {d : Decimal} (h : d.digits ≠ 0) :
    WholeDigits (d.padded.take d.wholeLength) := by
  have hlen := length_padded d
  by_cases hz : (-d.exponent).toNat + 1 - (decimal d.digits).length = 0
  · -- all digits are needed, so the first is the first of the number
    have hp : d.padded = decimal d.digits := by rw [padded, hz]; rfl
    refine .inr ⟨?_, ?_, fun c hc => isDigit_of_mem_padded (List.mem_of_mem_take hc)⟩
    · rw [List.head?_take, if_neg (by unfold wholeLength; omega), hp]
      exact head?_decimal h
    · rw [ne_eq, List.take_eq_nil_iff, not_or]
      refine ⟨by unfold wholeLength; omega, ?_⟩
      rw [hp]
      exact decimal_ne_nil _
  · -- zeros were put in front, and just one of them stands before the point
    have hw : d.wholeLength = 1 := by
      rw [wholeLength, padded, List.length_append, zeros, List.length_replicate]
      omega
    obtain ⟨n, hn⟩ := Nat.exists_eq_succ_of_ne_zero hz
    rw [hw, padded, hn]
    exact .inl rfl

theorem positionalLiteral_wellFormed {d : Decimal} (h : d.digits = 0 → d.exponent = 0)
    (negative : Bool) : (d.positionalLiteral negative).WellFormed := by
  unfold positionalLiteral
  split
  · next he =>
    exact ⟨wholeDigits_take_padded fun h0 => by have := h h0; omega,
      fun c hc => isDigit_of_mem_padded (List.mem_of_mem_drop hc)⟩
  · refine ⟨?_, by simp; decide⟩
    by_cases h0 : d.digits = 0
    · rw [h h0, h0]
      exact .inl (by rw [decimal]; rfl)
    · refine .inr ⟨?_, by simp [decimal_ne_nil], fun c hc => ?_⟩
      · rw [head?_append_decimal]
        exact head?_decimal h0
      · rcases List.mem_append.1 hc with hc | hc
        · exact isDigit_of_mem_decimal _ c hc
        · exact isDigit_of_mem_zeros hc

theorem scientificLiteral_wellFormed (d : Decimal) (negative : Bool) :
    (d.scientificLiteral negative).WellFormed := by
  have hd := isDigit_of_mem_decimal d.digits
  refine ⟨?_, fun c hc => hd c (List.mem_of_mem_drop hc)⟩
  show WholeDigits ((decimal d.digits).take 1)
  cases hds : decimal d.digits with
  | nil => exact (decimal_ne_nil _ hds).elim
  | cons c cs =>
    by_cases hc : c = '0'
    · subst hc
      exact .inl rfl
    · rw [hds] at hd
      exact .inr ⟨by simpa using hc, by simp, by simpa using hd c List.mem_cons_self⟩

theorem text_positionalLiteral (d : Decimal) :
    d.positional = (d.positionalLiteral false).text := by
  unfold positional positionalLiteral
  split
  · have hlen := length_padded d
    have hne : d.padded.drop d.wholeLength ≠ [] := by
      rw [ne_eq, List.drop_eq_nil_iff]
      unfold wholeLength
      omega
    simp only [text, fractionText, powerText, if_neg hne, List.append_nil, Bool.false_eq_true,
      if_false, List.nil_append]
    rfl
  · simp [text, fractionText, powerText]

theorem text_scientificLiteral (d : Decimal) :
    d.scientific = (d.scientificLiteral false).text := by
  have hne := decimal_ne_nil d.digits
  unfold scientific scientificLiteral
  cases hd : decimal d.digits with
  | nil => exact (hne hd).elim
  | cons c cs => cases cs <;> simp [text, fractionText, powerText]

end Decimal

/-- The literal of a binary64 number. -/
def Binary64.literal (x : Binary64) : Literal :=
  if -5 ≤ x.shortest.magnitude ∧ x.shortest.magnitude < 16 then
    x.shortest.positionalLiteral x.negative
  else x.shortest.scientificLiteral x.negative

/-- The literal of a number. -/
def Number.literal : Number → Literal
  | int n _ => ⟨n < 0, decimal n.natAbs, [], none⟩
  | float x => x.literal

/-- A number is written as the text of its literal. -/
theorem Number.text_eq (n : Number) : n.text = n.literal.text := by
  cases n with
  | int n _ =>
    by_cases h : n < 0 <;>
      simp [Number.text, signed, Number.literal, Literal.text, fractionText, powerText, h]
  | float x =>
    have sign (whole fraction : List Char) (power : Option Int) :
        x.sign ++ Literal.text ⟨false, whole, fraction, power⟩ =
          Literal.text ⟨x.negative, whole, fraction, power⟩ := by
      simp [Binary64.sign, Literal.text]
    simp only [Number.text, Binary64.text, Number.literal, Binary64.literal]
    split
    · rw [Decimal.text_positionalLiteral]
      unfold Decimal.positionalLiteral
      split
      · exact sign ..
      · exact sign ..
    · rw [Decimal.text_scientificLiteral]
      exact sign ..

theorem Number.literal_wellFormed (n : Number) : n.literal.WellFormed := by
  cases n with
  | int n _ => exact ⟨wholeDigits_decimal _, by simp [Number.literal]⟩
  | float x =>
    simp only [Number.literal, Binary64.literal]
    split
    · refine Decimal.positionalLiteral_wellFormed (fun h => ?_) _
      cases hz : x.isZero with
      | true => rw [Binary64.shortest_of_isZero hz]
      | false => exact (Binary64.shortest_digits_ne_zero hz h).elim
    · exact Decimal.scientificLiteral_wellFormed _ _

end Switchboard
