import Switchboard.Json.Number

/-! # JSON values

* **Members.** An object keeps its members in the order in which they were written, repeated keys
  included, because envelopes are judged by them.
* **Canonical form.** A free-form value has no such order: `canonical` sorts the members of every
  object by key and of repeated keys keeps the last.  Keys are compared by code points, which is
  the order of their UTF-8 bytes.
* **Nesting.** `depth` counts the arrays and objects around the innermost value. -/

namespace Switchboard

/-- A JSON value. -/
inductive Json where
  | null
  | bool (b : Bool)
  | num (n : Number)
  | str (s : String)
  | arr (elems : List Json)
  | obj (members : List (String × Json))
deriving Inhabited, Repr

namespace Json

/-! ### Equality -/

mutual

/-- Decides whether two values are written alike. -/
def decEq : (a b : Json) → Decidable (a = b)
  | null, null => isTrue rfl
  | bool a, bool b => decidable_of_iff (a = b) (by simp)
  | num a, num b => decidable_of_iff (a = b) (by simp)
  | str a, str b => decidable_of_iff (a = b) (by simp)
  | arr as, arr bs =>
    match decEqElems as bs with
    | isTrue h => isTrue (h ▸ rfl)
    | isFalse h => isFalse (fun e => h (arr.inj e))
  | obj as, obj bs =>
    match decEqMembers as bs with
    | isTrue h => isTrue (h ▸ rfl)
    | isFalse h => isFalse (fun e => h (obj.inj e))
  | null, bool _ | null, num _ | null, str _ | null, arr _ | null, obj _
  | bool _, null | bool _, num _ | bool _, str _ | bool _, arr _ | bool _, obj _
  | num _, null | num _, bool _ | num _, str _ | num _, arr _ | num _, obj _
  | str _, null | str _, bool _ | str _, num _ | str _, arr _ | str _, obj _
  | arr _, null | arr _, bool _ | arr _, num _ | arr _, str _ | arr _, obj _
  | obj _, null | obj _, bool _ | obj _, num _ | obj _, str _ | obj _, arr _ =>
    isFalse (by simp)

/-- Decides whether two lists of elements are alike. -/
def decEqElems : (as bs : List Json) → Decidable (as = bs)
  | [], [] => isTrue rfl
  | [], _ :: _ => isFalse (by simp)
  | _ :: _, [] => isFalse (by simp)
  | a :: as, b :: bs =>
    match decEq a b, decEqElems as bs with
    | isTrue h, isTrue h' => isTrue (h ▸ h' ▸ rfl)
    | isFalse h, _ => isFalse (fun e => h (List.cons.inj e).1)
    | _, isFalse h => isFalse (fun e => h (List.cons.inj e).2)

/-- Decides whether two lists of members are alike. -/
def decEqMembers : (as bs : List (String × Json)) → Decidable (as = bs)
  | [], [] => isTrue rfl
  | [], _ :: _ => isFalse (by simp)
  | _ :: _, [] => isFalse (by simp)
  | (k, a) :: as, (l, b) :: bs =>
    match decEq a b, decEqMembers as bs with
    | isTrue h, isTrue h' =>
      if hk : k = l then isTrue (hk ▸ h ▸ h' ▸ rfl)
      else isFalse (fun e => hk (Prod.mk.inj (List.cons.inj e).1).1)
    | isFalse h, _ => isFalse (fun e => h (Prod.mk.inj (List.cons.inj e).1).2)
    | _, isFalse h => isFalse (fun e => h (List.cons.inj e).2)

end

instance : DecidableEq Json := decEq

/-! ### Nesting -/

mutual

/-- The number of arrays and objects around the innermost value. -/
def depth : Json → Nat
  | arr elems => depthElems elems + 1
  | obj members => depthMembers members + 1
  | _ => 0

/-- The greatest depth among elements. -/
def depthElems : List Json → Nat
  | [] => 0
  | v :: vs => max v.depth (depthElems vs)

/-- The greatest depth among members. -/
def depthMembers : List (String × Json) → Nat
  | [] => 0
  | (_, v) :: ms => max v.depth (depthMembers ms)

end

/-! ### Canonical form -/

/-- Puts a member in its place among members sorted by key, unless its key is there already. -/
def insertMember (k : String) (v : Json) : List (String × Json) → List (String × Json)
  | [] => [(k, v)]
  | (l, w) :: ms =>
    if k < l then (k, v) :: (l, w) :: ms
    else if k = l then (l, w) :: ms
    else (l, w) :: insertMember k v ms

mutual

/-- The value with the members of every object sorted by key and the last of repeated keys kept. -/
def canonical : Json → Json
  | arr elems => arr (canonicalElems elems)
  | obj members => obj (canonicalMembers members)
  | v => v

/-- The canonical forms of elements, in order. -/
def canonicalElems : List Json → List Json
  | [] => []
  | v :: vs => v.canonical :: canonicalElems vs

/-- Members sorted by key; a member gives way to a later one of the same key. -/
def canonicalMembers : List (String × Json) → List (String × Json)
  | [] => []
  | (k, v) :: ms => insertMember k v.canonical (canonicalMembers ms)

end

/-! ### Access -/

/-- The members of an object that have a key, in order. -/
def under (key : String) (members : List (String × Json)) : List Json :=
  members.filterMap fun (k, v) => if k = key then some v else none

/-- The last member of an object under a key. -/
def get? : Json → String → Option Json
  | obj members, key => (under key members).getLast?
  | _, _ => none

/-- The text, if the value is one. -/
def str? : Json → Option String
  | str s => some s
  | _ => none

/-- The truth value, if the value is one. -/
def bool? : Json → Option Bool
  | bool b => some b
  | _ => none

/-- The integer, if the value is one; `1.0` is none. -/
def int? : Json → Option Int
  | num n => n.int?
  | _ => none

/-- The integer, if the value is one in the range from zero up to `bound`. -/
def below? (bound : Nat) (v : Json) : Option Nat := do
  let n ← v.int?
  if 0 ≤ n ∧ n < bound then some n.toNat else none

/-- An object made from pairs of values: keys have to be texts. -/
def ofPairs? (pairs : List (Json × Json)) : Option Json := do
  let members ← pairs.mapM fun (k, v) => do pure ((← k.str?), v)
  pure (canonical (obj members))

@[simp] theorem depth_str (s : String) : (str s).depth = 0 := by simp [depth]

@[simp] theorem depth_num (n : Number) : (num n).depth = 0 := by simp [depth]

@[simp] theorem depth_bool (b : Bool) : (bool b).depth = 0 := by simp [depth]

@[simp] theorem depth_null : null.depth = 0 := by simp [depth]

theorem insertMember_keys_subset (k : String) (v : Json) (ms : List (String × Json)) :
    ∀ l ∈ (insertMember k v ms).map (·.1), l = k ∨ l ∈ ms.map (·.1) := by
  induction ms with
  | nil => simp [insertMember]
  | cons m ms ih =>
    intro l hl
    rw [insertMember] at hl
    split at hl
    · simpa using hl
    · split at hl
      · exact .inr hl
      · rcases List.mem_cons.1 hl with rfl | hl
        · simp
        · rcases ih l hl with h | h
          · exact .inl h
          · exact .inr (List.mem_cons_of_mem _ h)

end Json

end Switchboard
