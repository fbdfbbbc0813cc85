import Switchboard.Json.Basic
import Switchboard.Text.Quoted

/-! # Values described in a sentence

Messages name the constructor of every part of a value, with members in canonical order:
`Array [Number(1), Null]`, `Object {"a": Bool(true)}`. -/

namespace Switchboard.Json

mutual

/-- A value as messages describe it. -/
def describe : Json → String
  | null => "Null"
  | bool true => "Bool(true)"
  | bool false => "Bool(false)"
  | num n => "Number(" ++ String.ofList n.text ++ ")"
  | str s => "String(" ++ Text.quoted s ++ ")"
  | arr elems => "Array [" ++ ", ".intercalate (describeElems elems) ++ "]"
  | obj members => "Object \x7b" ++ ", ".intercalate (describeMembers members) ++ "\x7d"

/-- The elements of an array, described one by one. -/
def describeElems : List Json → List String
  | [] => []
  | v :: vs => v.describe :: describeElems vs

/-- The members of an object, described one by one. -/
def describeMembers : List (String × Json) → List String
  | [] => []
  | (k, v) :: ms => (Text.quoted k ++ ": " ++ v.describe) :: describeMembers ms

end

end Switchboard.Json
