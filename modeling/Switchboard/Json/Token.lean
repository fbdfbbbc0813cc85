import Switchboard.Json.Number

/-! # The tokens of JSON texts

A JSON text is a row of tokens, and `Token.text` spells each of them.  Texts stand in quotes, and
quotes, backslashes and the characters below U+0020 are escaped in them. -/

namespace Switchboard

/-- A token of a JSON text. -/
inductive Token where
  | openObj
  | closeObj
  | openArr
  | closeArr
  | colon
  | comma
  | null
  | bool (b : Bool)
  | num (n : Number)
  | str (s : String)
deriving DecidableEq, Repr

namespace Token

/-! ### Spelling -/

/-- The hexadecimal digit of a number below sixteen, in lower case. -/
def hexDigit (d : Nat) : Char := if d < 10 then digitChar d else Char.ofNat ('a'.toNat + (d - 10))

/-- The number that a hexadecimal digit of either case stands for. -/
def hexValue? (c : Char) : Option Nat :=
  if isDigit c then some (digitValue c)
  else if 'a' ≤ c ∧ c ≤ 'f' then some (c.toNat - 'a'.toNat + 10)
  else if 'A' ≤ c ∧ c ≤ 'F' then some (c.toNat - 'A'.toNat + 10)
  else none

/-- A character as it stands in a quoted text. -/
def escaped (c : Char) : String :=
  if c = '"' then "\\\""
  else if c = '\\' then "\\\\"
  else if c = '\x08' then "\\b"
  else if c = '\x0c' then "\\f"
  else if c = '\n' then "\\n"
  else if c = '\r' then "\\r"
  else if c = '\t' then "\\t"
  else if c.toNat < 0x20 then
    "\\u00" ++ String.ofList [hexDigit (c.toNat / 16), hexDigit (c.toNat % 16)]
  else c.toString

/-- A text in quotes. -/
def quoted (s : String) : String :=
  s.foldl (fun t c => t ++ escaped c) "\"" ++ "\""

/-- The spelling of a token. -/
def text : Token → String
  | openObj => "\x7b"
  | closeObj => "\x7d"
  | openArr => "["
  | closeArr => "]"
  | colon => ":"
  | comma => ","
  | null => "null"
  | bool true => "true"
  | bool false => "false"
  | num n => String.ofList n.text
  | str s => quoted s

/-- The spelling of a row of tokens, without anything between them. -/
def spell (ts : List Token) : String := ts.foldl (fun t x => t ++ x.text) ""

end Token

end Switchboard
