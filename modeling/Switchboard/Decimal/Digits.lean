/-! # Decimal digits of natural numbers

`Nat.decimal n` writes `n` without leading zeros and `Nat.ofDecimal` reads a run of digits back.
`ofDecimal_decimal` says that reading undoes writing. -/

namespace Switchboard

/-- One of the ten digits. -/
def isDigit (c : Char) : Bool := '0' ≤ c && c ≤ '9'

/-- The number a digit stands for. -/
def digitValue (c : Char) : Nat := c.toNat - '0'.toNat

/-- The digit that stands for a number below ten. -/
def digitChar (d : Nat) : Char := Char.ofNat ('0'.toNat + d)

/-- A natural number in decimal digits, without leading zeros. -/
def decimal (n : Nat) : List Char :=
  if n < 10 then [digitChar n] else decimal (n / 10) ++ [digitChar (n % 10)]

/-- A natural number as a text. -/
def decimalText (n : Nat) : String := String.ofList (decimal n)

/-- The number that a run of digits denotes. -/
def ofDecimal (ds : List Char) : Nat :=
  ds.foldl (fun n c => 10 * n + digitValue c) 0

theorem digitValue_digitChar {d : Nat} (h : d < 10) : digitValue (digitChar d) = d := by
  have : ∀ d, d < 10 → digitValue (digitChar d) = d := by decide
  exact this d h

theorem isDigit_digitChar {d : Nat} (h : d < 10) : isDigit (digitChar d) = true := by
  have : ∀ d, d < 10 → isDigit (digitChar d) = true := by decide
  exact this d h

theorem decimal_ne_nil (n : Nat) : decimal n ≠ [] := by
  rw [decimal]; split <;> simp

theorem isDigit_of_mem_decimal (n : Nat) : ∀ c ∈ decimal n, isDigit c = true := by
  rw [decimal]
  split
  · simpa using isDigit_digitChar (by assumption)
  · intro c hc
    rcases List.mem_append.1 hc with hc | hc
    · exact isDigit_of_mem_decimal (n / 10) c hc
    · obtain rfl := List.mem_singleton.1 hc
      exact isDigit_digitChar (by omega)
termination_by n
decreasing_by omega

theorem ofDecimal_decimal (n : Nat) : ofDecimal (decimal n) = n := by
  rw [decimal]
  split
  · simp [ofDecimal, digitValue_digitChar (by assumption)]
  · have ih := ofDecimal_decimal (n / 10)
    simp only [ofDecimal, List.foldl_append, List.foldl_cons, List.foldl_nil] at ih ⊢
    rw [ih, digitValue_digitChar (by omega)]
    omega
termination_by n
decreasing_by omega

end Switchboard
