import Switchboard.Decimal.Digits
import Switchboard.Text.Hidden

/-! # Texts quoted inside a sentence

Messages show a text between double quotes, with a backslash before quotes and backslashes, short
escapes for tab, line feed, carriage return and NUL, and the number of every other character that
shows nothing of its own. -/

namespace Switchboard.Text

/-- A number in lower-case hexadecimal digits, without leading zeros. -/
def hex (n : Nat) : List Char :=
  let digit (d : Nat) : Char := if d < 10 then digitChar d else Char.ofNat ('a'.toNat + (d - 10))
  if n < 16 then [digit n] else hex (n / 16) ++ [digit (n % 16)]

/-- A character as it stands between the quotes. -/
def shown (c : Char) : String :=
  if c = '"' then "\\\""
  else if c = '\\' then "\\\\"
  else if c = '\t' then "\\t"
  else if c = '\n' then "\\n"
  else if c = '\r' then "\\r"
  else if c = '\x00' then "\\0"
  else if isHidden c then "\\u\x7b" ++ String.ofList (hex c.toNat) ++ "\x7d"
  else c.toString

/-- A text in quotes, as messages show it. -/
def quoted (s : String) : String := s.foldl (fun t c => t ++ shown c) "\"" ++ "\""

end Switchboard.Text
