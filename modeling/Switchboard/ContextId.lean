import Switchboard.Json.Token

/-! # Context ids

Calls and registrations are named by universally unique ids of version 4: thirty-two hexadecimal
digits in lower case, in groups of 8, 4, 4, 4 and 12, of which the thirteenth is the version and
the top bits of the seventeenth are the variant.  The other 122 bits are `serial`; ids of different
serials differ. -/

namespace Switchboard.ContextId

/-- The lowest `count` hexadecimal digits of a number, the most significant first. -/
def hexDigits : Nat → Nat → List Char
  | 0, _ => []
  | count + 1, n => hexDigits count (n / 16) ++ [Token.hexDigit (n % 16)]

/-- The id of a serial number below `2 ^ 122`. -/
def ofNat (serial : Nat) : String :=
  let low := serial % 0x4000000000000000
  let high := serial / 0x4000000000000000
  String.ofList <|
    hexDigits 8 (high / 0x10000000) ++ '-' :: hexDigits 4 (high / 0x1000) ++
    '-' :: '4' :: hexDigits 3 high ++
    '-' :: hexDigits 4 (0x8000 + low / 0x1000000000000) ++ '-' :: hexDigits 12 low

/-- The form of an id: `x` is any digit, `y` one with the bits of the variant. -/
def form : List Char := "xxxxxxxx-xxxx-4xxx-yxxx-xxxxxxxxxxxx".toList

/-- Whether a character may stand at a place of the form. -/
def fits (place c : Char) : Bool :=
  if place = 'x' then isDigit c || ('a' ≤ c && c ≤ 'f')
  else if place = 'y' then ['8', '9', 'a', 'b'].contains c
  else c = place

/-- Whether a text has the form of an id. -/
def isForm (s : String) : Bool :=
  s.length == form.length && (form.zip s.toList).all fun (place, c) => fits place c

/-- The ids of the first serial numbers. -/
def series (count : Nat) : List String := (List.range count).map ofNat

end Switchboard.ContextId
