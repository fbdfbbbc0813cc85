import Switchboard.Decimal.Digits
import Switchboard.Decimal.Shortest

/-! # JSON numbers

* **Values.** A number is an integer of at most sixty-four bits, signed or unsigned, or else a
  finite binary64 number.
* **Reading.** A literal without point and exponent is an integer if it fits; minus zero and all
  other literals are binary64.  Their digits are gathered into a significand below `2 ^ 64`, which
  is rounded and then multiplied or divided by a rounded power of ten (`Literal.number?`).
* **Writing.** Binary64 numbers have the fewest digits that read back, positional from `1e-5` up to
  `1e16` and scientific elsewhere (`Number.text`). -/

namespace Switchboard

/-- A number as JSON texts hold it. -/
inductive Number where
  | int (n : Int) (word : -0x8000000000000000 ≤ n ∧ n < 0x10000000000000000)
  | float (x : Binary64)
deriving DecidableEq, Repr

namespace Number

/-- An unsigned word as a number. -/
def ofUInt64 (w : UInt64) : Number :=
  .int w.toNat ⟨by omega, by have := w.toNat_lt; omega⟩

/-- An unsigned half word as a number. -/
def ofUInt32 (w : UInt32) : Number :=
  .int w.toNat ⟨by omega, by have := w.toNat_lt; omega⟩

/-- An unsigned quarter word as a number. -/
def ofUInt16 (w : UInt16) : Number :=
  .int w.toNat ⟨by omega, by have := w.toNat_lt; omega⟩

/-- A signed word as a number. -/
def ofInt64 (w : Int64) : Number :=
  .int w.toInt ⟨by have := w.le_toInt; omega, by have := w.toInt_lt; omega⟩

/-- The integer, if the number is one. -/
def int? : Number → Option Int
  | int n _ => some n
  | float _ => none

end Number

/-- An integer in decimal digits. -/
def signed (n : Int) : List Char :=
  if n < 0 then '-' :: decimal n.natAbs else decimal n.natAbs

/-! ### Writing -/

namespace Decimal

/-- Zeros in a row. -/
def zeros (n : Nat) : List Char := List.replicate n '0'

/-- Positional notation with a point and at least one digit on either side of it. -/
def positional (d : Decimal) : List Char :=
  let ds := decimal d.digits
  if d.exponent < 0 then
    let places := (-d.exponent).toNat
    let ds := zeros (places + 1 - ds.length) ++ ds
    ds.take (ds.length - places) ++ '.' :: ds.drop (ds.length - places)
  else ds ++ zeros d.exponent.toNat ++ ['.', '0']

/-- The power of ten of the leading digit. -/
def magnitude (d : Decimal) : Int := d.exponent + ((decimal d.digits).length - 1 : Nat)

/-- Scientific notation: one digit before the point, which is left out when nothing follows it,
and a signed exponent. -/
def scientific (d : Decimal) : List Char :=
  let power := 'e' :: (if d.magnitude < 0 then '-' else '+') :: decimal d.magnitude.natAbs
  match decimal d.digits with
  | [] => power
  | [c] => c :: power
  | c :: cs => c :: '.' :: cs ++ power

end Decimal

namespace Binary64

/-- The sign as it is written, minus zero included. -/
def sign (x : Binary64) : List Char := if x.negative then ['-'] else []

/-- The text of a number in JSON. -/
def text (x : Binary64) : List Char :=
  let d := x.shortest
  x.sign ++ if -5 ≤ d.magnitude ∧ d.magnitude < 16 then d.positional else d.scientific

end Binary64

/-- The text of a number in JSON. -/
def Number.text : Number → List Char
  | .int n _ => signed n
  | .float x => x.text

/-! ### Reading -/

/-- A number as it is spelled: sign, digits before and after the point, power of ten. -/
structure Literal where
  negative : Bool
  whole : List Char
  fraction : List Char
  power : Option Int
deriving DecidableEq, Repr

namespace Literal

/-- Takes digits into a significand while it stays below `2 ^ 64`, and returns it with the number
of digits taken. -/
def gather : Nat → List Char → Nat × Nat
  | s, [] => (s, 0)
  | s, c :: cs =>
    if 10 * s + digitValue c < 0x10000000000000000 then
      let (t, n) := gather (10 * s + digitValue c) cs
      (t, n + 1)
    else (s, 0)

/-- `x · 10 ^ power`, by one rounded power of ten; a power below `10 ^ -308` is divided out in
steps of `10 ^ 308`.  Nothing is returned when the product is too large. -/
def scale? (x : Binary64) (power : Int) : Option Binary64 :=
  if x.isZero then some x
  else if 0 ≤ power then
    if power ≤ 308 then do x.mul? (← Binary64.ofNat? (Nat.pow 10 power.toNat)) else none
  else if -308 ≤ power then do x.div? (← Binary64.ofNat? (Nat.pow 10 (-power).toNat))
  else do scale? (← x.div? (← Binary64.ofNat? (Nat.pow 10 308))) (power + 308)
termination_by (-power).toNat
decreasing_by omega

/-- The binary64 number that a literal denotes. -/
def float? (l : Literal) : Option Binary64 := do
  let (s, taken) := gather 0 l.whole
  let (s, places) := gather s l.fraction
  let power := Int.ofNat (l.whole.length - taken) - Int.ofNat places + l.power.getD 0
  let x ← scale? (← Binary64.ofNat? s) power
  pure (if l.negative then x.neg else x)

/-- The number that a literal denotes; nothing if it is too large for binary64. -/
def number? (l : Literal) : Option Number :=
  let n : Int := if l.negative then -Int.ofNat (ofDecimal l.whole) else ofDecimal l.whole
  if h : (l.fraction = [] ∧ l.power = none ∧ (l.negative → n ≠ 0)) ∧
      -0x8000000000000000 ≤ n ∧ n < 0x10000000000000000 then
    some (.int n h.2)
  else l.float?.map .float

end Literal

end Switchboard
