/-! # Finite binary64 numbers

A finite binary64 number is a sign and its place on the grid of magnitudes.

* **Place.** `ordinal` counts the magnitudes from zero upwards: `0` is zero, `1` the least
  subnormal, `2 ^ 52 = 0x10000000000000` the least normal number.  Read as sixty-three bits it is
  the exponent field followed by the fraction field, and infinity would be the first ordinal that
  is too large.
* **Value.** `mantissa · 2 ^ exponent`.
* **Arithmetic.** Every operation computes the exact ratio of two natural numbers and rounds it
  once, to the nearest number on the grid, a half going to the even mantissa (`ofRatio?`). -/

namespace Switchboard

/-- `num / den` rounded to the nearest natural number, a half going to the even one. -/
def roundHalfEven (num den : Nat) : Nat :=
  let q := num / den
  match compare (2 * (num % den)) den with
  | .lt => q
  | .eq => q + q % 2
  | .gt => q + 1

/-- A finite binary64 number: a sign, and the place of its magnitude on the grid. -/
structure Binary64 where
  negative : Bool
  ordinal : Nat
  finite : ordinal < 2047 * 0x10000000000000
deriving DecidableEq, Repr

namespace Binary64

/-- Positive zero. -/
def zero : Binary64 := ⟨false, 0, by decide⟩

instance : Inhabited Binary64 := ⟨zero⟩

/-- The integer that is scaled by a power of two. -/
def mantissa (x : Binary64) : Nat :=
  if x.ordinal < 0x10000000000000 then x.ordinal
  else 0x10000000000000 + x.ordinal % 0x10000000000000

/-- The power of two that scales the mantissa. -/
def exponent (x : Binary64) : Int :=
  Int.ofNat (max 1 (x.ordinal / 0x10000000000000)) - 1075

/-- The same magnitude with the sign turned. -/
def neg (x : Binary64) : Binary64 := { x with negative := !x.negative }

/-- Both zeros. -/
def isZero (x : Binary64) : Bool := x.ordinal == 0

/-- The exponent of the last place of a positive ratio: fifty-two places below its leading bit,
but never below the grid of the subnormal numbers. -/
def lastPlace (num den : Nat) : Int :=
  let guess : Int := Int.ofNat num.log2 - Int.ofNat den.log2
  let reached : Bool := den <<< guess.toNat ≤ num <<< (-guess).toNat
  max ((if reached then guess else guess - 1) - 52) (-1074)

/-- The ordinal nearest to a ratio.  A mantissa that rounds up to `2 ^ 53` is the next binade's
first place, so the carry needs no case of its own. -/
def nearest (num den : Nat) : Nat :=
  if num = 0 then 0 else
    let q := lastPlace num den
    (q + 1074).toNat * 0x10000000000000 + roundHalfEven (num <<< (-q).toNat) (den <<< q.toNat)

/-- The number nearest to `num / den`, unless that is beyond the largest one. -/
def ofRatio? (negative : Bool) (num den : Nat) : Option Binary64 :=
  if h : nearest num den < 2047 * 0x10000000000000 then some ⟨negative, nearest num den, h⟩
  else none

/-- The number nearest to a natural number. -/
def ofNat? (n : Nat) : Option Binary64 := ofRatio? false n 1

/-- The product, rounded once. -/
def mul? (x y : Binary64) : Option Binary64 :=
  let q := x.exponent + y.exponent
  ofRatio? (x.negative != y.negative)
    ((x.mantissa * y.mantissa) <<< q.toNat) (1 <<< (-q).toNat)

/-- The quotient by a number other than zero, rounded once. -/
def div? (x y : Binary64) : Option Binary64 :=
  let q := x.exponent - y.exponent
  ofRatio? (x.negative != y.negative)
    (x.mantissa <<< q.toNat) (y.mantissa <<< (-q).toNat)

end Binary64

end Switchboard
