import Switchboard.Failure

/-! # Values of a wanted shape

A caller or a handler may want a value of a certain shape: a word, a text, a list, a record.
`Shape.read` checks a value against a shape and yields the part of it that the shape speaks of; a
record may be given as an array of exactly its fields, and members that it does not have are left
out.

A value that does not fit is answered by the first `Mismatch` that is met: the fields that are
there are looked at in the order of their keys, and then the missing ones in the order of the
record. -/

namespace Switchboard

/-- The shape of a value. -/
inductive Shape where
  | int64
  | uint32
  | bool
  | text
  | list (item : Shape)
  | record (name : String) (fields : List (String × Shape))
  | any
deriving Repr

/-- Why a value does not have the wanted shape. -/
inductive Mismatch where
  | wrongType (found : Json) (wanted : String)
  | outOfRange (n : Int) (wanted : String)
  | missing (field : String)
  | tooShort (length : Nat) (name : String) (fields : Nat)
  | tooLong (length : Nat)
deriving DecidableEq, Repr

namespace Mismatch

/-- A value named by its type, with its content if it is a scalar. -/
def found : Json → String
  | .null => "null"
  | .bool b => "boolean `" ++ (if b then "true" else "false") ++ "`"
  | .num (.int n _) => "integer `" ++ String.ofList (signed n) ++ "`"
  | .num (.float x) => "floating point `" ++ String.ofList x.text ++ "`"
  | .str s => "string " ++ Text.quoted s
  | .arr _ => "sequence"
  | .obj _ => "map"

/-- The mismatch in words. -/
def message : Mismatch → String
  | wrongType v wanted => "invalid type: " ++ found v ++ ", expected " ++ wanted
  | outOfRange n wanted =>
    "invalid value: integer `" ++ String.ofList (signed n) ++ "`, expected " ++ wanted
  | missing field => "missing field `" ++ field ++ "`"
  | tooShort length name fields =>
    "invalid length " ++ decimalText length ++ ", expected struct " ++ name ++ " with " ++
      decimalText fields ++ if fields = 1 then " element" else " elements"
  | tooLong length =>
    "invalid length " ++ decimalText length ++ ", expected fewer elements in array"

/-- The fault that a handler answers when its arguments have the wrong shape. -/
def toFault (m : Mismatch) : Fault := ⟨.invalidArgs, .str m.message⟩

end Mismatch

namespace Shape

/-- The name of a shape in messages. -/
def wanted : Shape → String
  | int64 => "i64"
  | uint32 => "u32"
  | bool => "a boolean"
  | text => "a string"
  | list _ => "a sequence"
  | record name _ => "struct " ++ name
  | any => "any value"

/-- An integer from `low` up to but not including `high`. -/
def readInt (s : Shape) (low high : Int) : Json → Except Mismatch Json
  | .num (.int n h) =>
    if low ≤ n ∧ n < high then .ok (.num (.int n h)) else .error (.outOfRange n s.wanted)
  | v => .error (.wrongType v s.wanted)

mutual

/-- The part of a value that the shape speaks of. -/
def read : Shape → Json → Except Mismatch Json
  | int64, v => readInt int64 (-0x8000000000000000) 0x8000000000000000 v
  | uint32, v => readInt uint32 0 0x100000000 v
  | bool, .bool b => .ok (.bool b)
  | text, .str s => .ok (.str s)
  | list item, .arr vs => do .ok (.arr (← vs.mapM (read item)))
  | record name fields, .arr vs => do
    let found ← readElems name fields vs 0
    if fields.length < vs.length then .error (.tooLong vs.length) else .ok (.obj found)
  | record _ fields, .obj members => do
    members.forM fun (k, v) => readKnown fields k v
    .ok (.obj (← readFields fields members))
  | any, v => .ok v
  | s, v => .error (.wrongType v s.wanted)

/-- The fields of a record from the elements of an array. -/
def readElems (name : String) :
    List (String × Shape) → List Json → Nat → Except Mismatch (List (String × Json))
  | [], _, _ => .ok []
  | _ :: fields, [], n => .error (.tooShort n name (n + fields.length + 1))
  | (k, s) :: fields, v :: vs, n => do
    let w ← read s v
    .ok ((k, w) :: (← readElems name fields vs (n + 1)))

/-- Checks a member against the field of its key, if the record has one. -/
def readKnown : List (String × Shape) → String → Json → Except Mismatch Unit
  | [], _, _ => .ok ()
  | (k, s) :: fields, key, v =>
    if k = key then do discard (read s v) else readKnown fields key v

/-- The fields of a record from the members of an object. -/
def readFields :
    List (String × Shape) → List (String × Json) → Except Mismatch (List (String × Json))
  | [], _ => .ok []
  | (k, s) :: fields, members => do
    match (Json.obj members).get? k with
    | none => .error (.missing k)
    | some v =>
      let w ← read s v
      .ok ((k, w) :: (← readFields fields members))

end

/-- The shape as a decoder, which says in words why a value does not fit. -/
def decode (s : Shape) (v : Json) : Except String Json := (s.read v).mapError (·.message)

/-- Two summands. -/
def addArgs : Shape := .record "AddArgs" [("a", .int64), ("b", .int64)]

/-- A sum. -/
def sum : Shape := .record "Sum" [("sum", .int64)]

end Shape

end Switchboard
