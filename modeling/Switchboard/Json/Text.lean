import Switchboard.Json.Basic
import Switchboard.Json.Lexeme

/-! # JSON texts

* **Writing.** `Json.tokens` lays a value out as a row of tokens and `Json.render` spells it without
  blanks.
* **Reading.** `Builder.step?` takes one token after the other, with the arrays and objects that are
  still open on a stack.  An array or object that would be nested deeper than the limit is refused
  at its opening token (`Json.parse?`).
* **Passing over.** A reader that wants only some members of an object checks the form of the others
  and no more (`Json.wantedTokens?`). -/

namespace Switchboard

namespace Json

/-! ### Writing -/

mutual

/-- The tokens of a value. -/
def tokens : Json → List Token
  | null => [.null]
  | bool b => [.bool b]
  | num n => [.num n]
  | str s => [.str s]
  | arr [] => [.openArr, .closeArr]
  | arr (v :: vs) => .openArr :: v.tokens ++ tokensElems vs
  | obj [] => [.openObj, .closeObj]
  | obj ((k, v) :: ms) => .openObj :: .str k :: .colon :: v.tokens ++ tokensMembers ms

/-- The tokens after the first element of an array. -/
def tokensElems : List Json → List Token
  | [] => [.closeArr]
  | v :: vs => .comma :: v.tokens ++ tokensElems vs

/-- The tokens after the first member of an object. -/
def tokensMembers : List (String × Json) → List Token
  | [] => [.closeObj]
  | (k, v) :: ms => .comma :: .str k :: .colon :: v.tokens ++ tokensMembers ms

end

/-- The text of a value, without blanks. -/
def render (v : Json) : String := Token.spell v.tokens

/-! ### Reading -/

/-- An array or object that is not closed yet, with what it holds so far, the last first. -/
inductive Opened where
  | arr (done : List Json)
  | obj (done : List (String × Json)) (key : String)
deriving DecidableEq, Repr

/-- What may stand next. -/
inductive Expect where
  /-- A value. -/
  | value
  /-- The first element of an array, or its end. -/
  | element
  /-- The first key of an object, or its end. -/
  | member
  /-- A further key of an object. -/
  | key (done : List (String × Json))
  /-- The colon after a key. -/
  | colon (done : List (String × Json)) (key : String)
  /-- A comma or the end of what is open, or the end of the text. -/
  | next (v : Json)
deriving DecidableEq, Repr

/-- The state of a reader: what is open around the place it has reached, the innermost first, what
may stand there, and how many more arrays and objects may be opened inside. -/
structure Builder where
  stack : List Opened
  expect : Expect
  room : Nat
deriving DecidableEq, Repr

namespace Builder

/-- Before the first token. -/
def start (room : Nat) : Builder := ⟨[], .value, room⟩

/-- A value has to start with this token. -/
def value? (stack : List Opened) (room : Nat) : Token → Option Builder
  | .null => some ⟨stack, .next null, room⟩
  | .bool b => some ⟨stack, .next (bool b), room⟩
  | .num n => some ⟨stack, .next (num n), room⟩
  | .str s => some ⟨stack, .next (str s), room⟩
  | .openArr => if room = 0 then none else some ⟨.arr [] :: stack, .element, room - 1⟩
  | .openObj => if room = 0 then none else some ⟨.obj [] "" :: stack, .member, room - 1⟩
  | _ => none

/-- One token. -/
def step? : Builder → Token → Option Builder
  | ⟨stack, .value, room⟩, t => value? stack room t
  | ⟨.arr [] :: stack, .element, room⟩, .closeArr => some ⟨stack, .next (arr []), room + 1⟩
  | ⟨stack, .element, room⟩, t => value? stack room t
  | ⟨_ :: stack, .member, room⟩, .closeObj => some ⟨stack, .next (obj []), room + 1⟩
  | ⟨_ :: stack, .member, room⟩, .str k => some ⟨stack, .colon [] k, room⟩
  | ⟨stack, .key done, room⟩, .str k => some ⟨stack, .colon done k, room⟩
  | ⟨stack, .colon done k, room⟩, .colon => some ⟨.obj done k :: stack, .value, room⟩
  | ⟨.arr done :: stack, .next v, room⟩, .comma => some ⟨.arr (v :: done) :: stack, .value, room⟩
  | ⟨.arr done :: stack, .next v, room⟩, .closeArr =>
    some ⟨stack, .next (arr (v :: done).reverse), room + 1⟩
  | ⟨.obj done k :: stack, .next v, room⟩, .comma => some ⟨stack, .key ((k, v) :: done), room⟩
  | ⟨.obj done k :: stack, .next v, room⟩, .closeObj =>
    some ⟨stack, .next (obj ((k, v) :: done).reverse), room + 1⟩
  | _, _ => none

/-- A row of tokens. -/
def run? (b : Builder) (ts : List Token) : Option Builder := ts.foldlM step? b

/-- The value that has been read, once nothing is open any more. -/
def value : Builder → Option Json
  | ⟨[], .next v, _⟩ => some v
  | _ => none

end Builder

/-- The value of a row of tokens, nested no deeper than the limit. -/
def ofTokens? (limit : Nat) (ts : List Token) : Option Json := do
  (← (Builder.start limit).run? ts).value

/-- The greatest number of arrays and objects that may be open at once. -/
def maxDepth : Nat := 127

/-- The value that a text denotes, nested no deeper than the limit. -/
def parseWithin? (limit : Nat) (s : String) : Option Json := do
  ofTokens? limit (← Token.scan? s)

/-- The value that a text denotes. -/
def parse? (s : String) : Option Json := parseWithin? maxDepth s

/-! ### Passing over values -/

/-- Goes on to the end of the value that a reader is in, given its lexemes so far, the last one
first: all lexemes of the value, and what follows it.  Only their form is checked. -/
def Builder.finish? (taken : List Lexeme) (b : Builder) :
    List Lexeme → Option (List Lexeme × List Lexeme)
  | [] => none
  | x :: xs => do
    let b ← b.step? x.outline
    if b.value.isSome then some ((x :: taken).reverse, xs) else b.finish? (x :: taken) xs

theorem Builder.finish?_length {taken ys rest xs : List Lexeme} {b : Builder}
    (h : b.finish? taken xs = some (ys, rest)) : rest.length < xs.length := by
  induction xs generalizing taken b with
  | nil => cases h
  | cons x xs ih =>
    obtain ⟨b', _, h⟩ := Option.bind_eq_some_iff.1 h
    split at h
    · obtain ⟨_, rfl⟩ := Prod.mk.inj (Option.some.inj h)
      exact Nat.lt_succ_self _
    · exact Nat.lt_succ_of_lt (ih h)

/-- The members of an object, its closing brace and all that follows, with a null for every value
whose key is not wanted.  An unwanted value only has to have the form of a value, nested however
deep up to `room`. -/
def wantedTokens? (wanted : List String) (room : Nat) (xs : List Lexeme) : Option (List Token) :=
  match xs with
  | .quoted us :: .mark .colon :: r => do
    let key ← (Lexeme.quoted us).token?
    match _h : (Builder.start room).finish? [] r with
    | none => none
    | some (ys, rest) =>
      let v ← if key ∈ wanted.map .str then ys.mapM Lexeme.token? else some [.null]
      let after ←
        match _h' : rest with
        | .mark .comma :: rest' => do some (.comma :: (← wantedTokens? wanted room rest'))
        | _ => rest.mapM Lexeme.token?
      some (key :: .colon :: v ++ after)
  | _ => xs.mapM Lexeme.token?
termination_by xs.length
decreasing_by
  have := Builder.finish?_length _h
  simp only [_h', List.length_cons] at this ⊢
  omega

end Json

end Switchboard
