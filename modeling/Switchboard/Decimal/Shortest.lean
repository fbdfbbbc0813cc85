import Switchboard.Binary64

/-! # The shortest decimal that reads back

Of all decimals that lie closer to a binary64 number than to any of its neighbours, `shortest`
takes those with the fewest digits and of these the one nearest to the number; of two equally near
ones it takes the one whose last digit is even.

The search goes over the grids of multiples of `10 ^ k`, the coarsest first.  If any multiple
lies in the rounding interval then so does one of the two next to the number itself, so only these
two are looked at.  All comparisons are between natural numbers: the number, the ends of its
interval and the step of the grid are multiplied by one common power of two and of ten. -/

namespace Switchboard

/-- The decimal `digits · 10 ^ exponent`. -/
structure Decimal where
  digits : Nat
  exponent : Int
deriving DecidableEq, Repr

/-- A positive number with the ends of the interval that rounds to it, all in one unit. -/
structure Interval where
  low : Nat
  value : Nat
  high : Nat
  /-- Whether the ends themselves still round to the number. -/
  closed : Bool
deriving DecidableEq, Repr

namespace Interval

/-- Whether a magnitude rounds to the number. -/
def contains (i : Interval) (v : Nat) : Bool :=
  if i.closed then decide (i.low ≤ v ∧ v ≤ i.high) else decide (i.low < v ∧ v < i.high)

/-- The multiple of `step` inside the interval that is nearest to the number, the even one of two
that are equally near. -/
def multiple? (i : Interval) (step : Nat) : Option Nat :=
  let below := i.value / step
  let above := below + 1
  match i.contains (below * step), i.contains (above * step) with
  | true, true =>
    match compare (i.value - below * step) (above * step - i.value) with
    | .lt => some below
    | .gt => some above
    | .eq => some (if below % 2 = 0 then below else above)
  | true, false => some below
  | false, true => some above
  | false, false => none

end Interval

namespace Binary64

/-- The interval that rounds to `x`, in units of a quarter of its last place times `unit`.  Below
the first number of a binade the neighbour is only half as far away. -/
def interval (x : Binary64) (unit : Nat) : Interval :=
  let below := if x.mantissa = 0x10000000000000 ∧ x.exponent > -1074 then 1 else 2
  { low := (4 * x.mantissa - below) * unit
    value := 4 * x.mantissa * unit
    high := (4 * x.mantissa + 2) * unit
    closed := x.mantissa % 2 == 0 }

/-- The multiple of `10 ^ k` that reads back as `x`, if there is one. -/
def onGrid? (x : Binary64) (k : Int) : Option Nat :=
  let q := x.exponent - 2
  (x.interval ((1 <<< q.toNat) * Nat.pow 10 (-k).toNat)).multiple?
    (Nat.pow 10 k.toNat <<< (-q).toNat)

/-- Looks at the grids `10 ^ k`, `10 ^ (k - 1)`, … in turn. -/
def coarsest (x : Binary64) : Nat → Int → Decimal
  | 0, k => ⟨0, k⟩
  | n + 1, k =>
    match x.onGrid? k with
    | some d => ⟨d, k⟩
    | none => x.coarsest n (k - 1)

/-- The shortest decimal that reads back as the magnitude of `x`.  The first grid is one that is
coarser than the number itself, and seventeen digits always suffice. -/
def shortest (x : Binary64) : Decimal :=
  if x.isZero then ⟨0, 0⟩ else
    let lead := Int.ofNat x.mantissa.log2 + x.exponent + 1
    x.coarsest 20 (lead * 30103 / 100000 + 1)

end Binary64

end Switchboard
