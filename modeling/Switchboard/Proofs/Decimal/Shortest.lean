import Mathlib
import Switchboard.Decimal.Shortest

/-! # The search for the shortest decimal finds one

`Binary64.shortest` looks at twenty grids.  The last of them is finer than half of the last place
of the number, so a multiple of it lies in the rounding interval, and the search does not run out
(`shortest_digits_ne_zero`).  A multiple inside the interval is never zero, because the interval of
a number other than zero is positive. -/

namespace Switchboard

/-! ### Multiples inside an interval -/

namespace Interval

theorem contains_zero {i : Interval} (h : 0 < i.low) : i.contains 0 = false := by
  unfold contains
  split <;> simp only [decide_eq_false_iff_not] <;> omega

theorem multiple?_ne_zero {i : Interval} (h : 0 < i.low) {step d : Nat}
    (hd : i.multiple? step = some d) : d ≠ 0 := by
  rintro rfl
  unfold multiple? at hd
  generalize i.value / step = below at hd
  have hb : i.contains (below * step) = true → below ≠ 0 := by
    rintro hc rfl
    rw [Nat.zero_mul, contains_zero h] at hc
    cases hc
  dsimp only at hd
  repeat' split at hd
  all_goals simp_all

/-- The multiple next above the number lies inside when the step is smaller than what is left. -/
theorem multiple?_isSome {i : Interval} {step : Nat} (hs : 0 < step) (hl : i.low < i.value)
    (hh : i.value + step < i.high) : (i.multiple? step).isSome := by
  have hle : i.value / step * step ≤ i.value := Nat.div_mul_le_self _ _
  have hlt : i.value < (i.value / step + 1) * step := by
    rw [Nat.add_mul, Nat.one_mul]
    exact Nat.lt_div_mul_add hs
  have habove : i.contains ((i.value / step + 1) * step) = true := by
    have : (i.value / step + 1) * step = i.value / step * step + step := by
      rw [Nat.add_mul, Nat.one_mul]
    unfold contains
    split <;> simp only [decide_eq_true_eq] <;> omega
  unfold multiple?
  dsimp only
  rw [habove]
  repeat' split
  all_goals simp_all

end Interval

namespace Binary64

/-! ### The interval of a number -/

theorem mantissa_pos {x : Binary64} (h : x.isZero = false) : 0 < x.mantissa := by
  have hne : x.ordinal ≠ 0 := by simpa [isZero] using h
  unfold mantissa
  split <;> omega

theorem mantissa_log2_le (x : Binary64) : x.mantissa.log2 ≤ 52 := by
  have hlt : x.mantissa < 2 ^ 53 := by
    unfold mantissa
    split <;> omega
  by_cases h : x.mantissa = 0
  · rw [h]; decide
  · exact Nat.le_of_lt_succ ((Nat.log2_lt h).2 hlt)

theorem exponent_ge (x : Binary64) : -1074 ≤ x.exponent := by
  rw [exponent, Int.ofNat_eq_natCast]
  omega

theorem exponent_le (x : Binary64) : x.exponent ≤ 971 := by
  have := x.finite
  rw [exponent, Int.ofNat_eq_natCast]
  omega

theorem interval_low_pos {x : Binary64} (h : x.isZero = false) {unit : Nat} (hu : 0 < unit) :
    0 < (x.interval unit).low := by
  have hm := mantissa_pos h
  refine Nat.mul_pos ?_ hu
  split <;> omega

theorem interval_low_lt {x : Binary64} (h : x.isZero = false) {unit : Nat} (hu : 0 < unit) :
    (x.interval unit).low < (x.interval unit).value := by
  have hm := mantissa_pos h
  refine Nat.mul_lt_mul_of_pos_right ?_ hu
  split <;> omega

/-! ### Fine grids -/

/-- A grid is fine for an exponent when its step is less than half of a last place. -/
def Fine (e k : Int) : Prop :=
  10 ^ k.toNat * 2 ^ (-(e - 2)).toNat < 2 * (2 ^ (e - 2).toNat * 10 ^ (-k).toNat)

theorem Fine.mono {e k l : Int} (h : Fine e k) (hl : l ≤ k) : Fine e l := by
  have h1 : 10 ^ l.toNat ≤ 10 ^ k.toNat := Nat.pow_le_pow_right (by decide) (by omega)
  have h2 : 10 ^ (-k).toNat ≤ 10 ^ (-l).toNat := Nat.pow_le_pow_right (by decide) (by omega)
  calc 10 ^ l.toNat * 2 ^ (-(e - 2)).toNat
      ≤ 10 ^ k.toNat * 2 ^ (-(e - 2)).toNat := Nat.mul_le_mul_right _ h1
    _ < 2 * (2 ^ (e - 2).toNat * 10 ^ (-k).toNat) := h
    _ ≤ 2 * (2 ^ (e - 2).toNat * 10 ^ (-l).toNat) :=
      Nat.mul_le_mul_left _ (Nat.mul_le_mul_left _ h2)

theorem onGrid?_isSome {x : Binary64} (h : x.isZero = false) {k : Int} (hk : Fine x.exponent k) :
    (x.onGrid? k).isSome := by
  have hu : 0 < 2 ^ (x.exponent - 2).toNat * 10 ^ (-k).toNat :=
    Nat.mul_pos (Nat.pow_pos (by decide)) (Nat.pow_pos (by decide))
  unfold onGrid?
  simp only [Nat.shiftLeft_eq, Nat.one_mul, Nat.pow_eq]
  refine Interval.multiple?_isSome (Nat.mul_pos (Nat.pow_pos (by decide)) (Nat.pow_pos (by decide)))
    (interval_low_lt h hu) ?_
  simp only [interval, Nat.add_mul]
  exact Nat.add_lt_add_left hk _

theorem onGrid?_ne_zero {x : Binary64} (h : x.isZero = false) {k : Int} {d : Nat}
    (hd : x.onGrid? k = some d) : d ≠ 0 := by
  refine Interval.multiple?_ne_zero (interval_low_pos h ?_) hd
  rw [Nat.shiftLeft_eq, Nat.one_mul]
  exact Nat.mul_pos (Nat.pow_pos (by decide)) (Nat.pow_pos (by decide))

/-- The search ends with a multiple if it comes to a fine grid. -/
theorem coarsest_digits_ne_zero {x : Binary64} (h : x.isZero = false) (n : Nat) {k : Int}
    (hk : Fine x.exponent (k - n)) : (x.coarsest (n + 1) k).digits ≠ 0 := by
  induction n generalizing k with
  | zero =>
    rw [coarsest]
    split
    · next d hd => exact onGrid?_ne_zero h hd
    · next hd =>
      have := onGrid?_isSome h (by simpa using hk)
      rw [hd] at this
      cases this
  | succ n ih =>
    rw [coarsest]
    split
    · next d hd => exact onGrid?_ne_zero h hd
    · exact ih (by rw [show k - 1 - (n : Int) = k - (n + 1 : Nat) by omega]; exact hk)

/-- The twentieth grid is fine for every exponent, even if the mantissa has all its bits. -/
theorem fine_last : ∀ i : Nat, i < 2046 →
    Fine ((i : Int) - 1074) ((((i : Int) - 1074) + 53) * 30103 / 100000 - 18) := by
  unfold Fine
  decide +kernel

theorem shortest_digits_ne_zero {x : Binary64} (h : x.isZero = false) : x.shortest.digits ≠ 0 := by
  have hlog := mantissa_log2_le x
  have hge := exponent_ge x
  have hle := exponent_le x
  have hfine := fine_last (x.exponent + 1074).toNat (by omega)
  rw [show ((x.exponent + 1074).toNat : Int) - 1074 = x.exponent by omega] at hfine
  simp only [shortest, h, Bool.false_eq_true, if_false]
  refine coarsest_digits_ne_zero h 19 (hfine.mono ?_)
  rw [Int.ofNat_eq_natCast]
  omega

theorem shortest_of_isZero {x : Binary64} (h : x.isZero = true) : x.shortest = ⟨0, 0⟩ := by
  rw [shortest, if_pos h]

end Binary64
end Switchboard
