import Switchboard.Proofs.Json.Scan

/-! # Values read back

What is written and read again is the same value, but for its binary64 numbers: their shortest
decimals go through the reader's own arithmetic, which may miss them by a little, or refuse the
largest of them.

* **Numbers.** `Number.reread?` is what becomes of a number, and an integer stays as it is.
* **Values.** `Json.reread?` reads every number again and leaves everything else alone, and
  `parse?_render` says that this is what reading makes of a written value, as long as it is not
  nested too deeply. -/

namespace Switchboard

/-! ### Numbers -/

/-- What a number becomes when it is written and read. -/
def Number.reread? (n : Number) : Option Number := n.literal.number?

theorem Number.reread?_int (n : Int) (w : -0x8000000000000000 ≤ n ∧ n < 0x10000000000000000) :
    (int n w).reread? = some (int n w) := by
  unfold reread? literal Literal.number?
  by_cases h : n < 0
  · have hv : -((n.natAbs : Nat) : Int) = n := by omega
    simp only [h, decide_true, if_true, ofDecimal_decimal, Int.ofNat_eq_natCast, hv]
    rw [dif_pos ⟨⟨trivial, trivial, fun _ => by omega⟩, w⟩]
  · have hv : ((n.natAbs : Nat) : Int) = n := by omega
    simp only [h, decide_false, Bool.false_eq_true, if_false, ofDecimal_decimal, hv]
    rw [dif_pos ⟨⟨trivial, trivial, False.elim⟩, w⟩]

/-! ### Values -/

/-- What a token becomes when it is written and read. -/
def Token.reread? : Token → Option Token
  | num n => n.reread?.map num
  | t => some t

theorem Token.token?_lexeme (t : Token) : t.lexeme.token? = t.reread? := by
  cases t with
  | num n => rfl
  | str s =>
    simp [lexeme, Lexeme.token?, Lexeme.joined?_units, reread?]
  | openObj | closeObj | openArr | closeArr | colon | comma | null | bool => rfl

namespace Json

mutual

/-- What a value becomes when it is written and read. -/
def reread? : Json → Option Json
  | num n => n.reread?.map num
  | arr elems => (rereadElems? elems).map arr
  | obj members => (rereadMembers? members).map obj
  | v => some v

/-- What elements become, in order. -/
def rereadElems? : List Json → Option (List Json)
  | [] => some []
  | v :: vs => v.reread?.bind fun w => (rereadElems? vs).map (w :: ·)

/-- What members become, in order. -/
def rereadMembers? : List (String × Json) → Option (List (String × Json))
  | [] => some []
  | (k, v) :: ms => v.reread?.bind fun w => (rereadMembers? ms).map ((k, w) :: ·)

end

mutual

/-- The tokens of a value become those of what it becomes. -/
theorem mapM_tokens (v : Json) : v.tokens.mapM Token.reread? = v.reread?.map tokens := by
  match v with
  | null | bool _ | str _ => simp [tokens, Token.reread?, reread?]
  | num n => cases h : n.reread? <;> simp [tokens, Token.reread?, reread?, h]
  | arr [] => simp [tokens, Token.reread?, reread?, rereadElems?]
  | obj [] => simp [tokens, Token.reread?, reread?, rereadMembers?]
  | arr (v :: vs) =>
    have hv := mapM_tokens v
    have hvs := mapM_tokensElems vs
    cases h : v.reread? <;> cases h' : rereadElems? vs <;>
      simp_all [tokens, Token.reread?, reread?, rereadElems?, List.mapM_append]
  | obj ((k, v) :: ms) =>
    have hv := mapM_tokens v
    have hms := mapM_tokensMembers ms
    cases h : v.reread? <;> cases h' : rereadMembers? ms <;>
      simp_all [tokens, Token.reread?, reread?, rereadMembers?, List.mapM_append]

theorem mapM_tokensElems (vs : List Json) :
    (tokensElems vs).mapM Token.reread? = (rereadElems? vs).map tokensElems := by
  match vs with
  | [] => simp [tokensElems, Token.reread?, rereadElems?]
  | v :: vs =>
    have hv := mapM_tokens v
    have hvs := mapM_tokensElems vs
    cases h : v.reread? <;> cases h' : rereadElems? vs <;>
      simp_all [tokensElems, Token.reread?, rereadElems?, List.mapM_append]

theorem mapM_tokensMembers (ms : List (String × Json)) :
    (tokensMembers ms).mapM Token.reread? = (rereadMembers? ms).map tokensMembers := by
  match ms with
  | [] => simp [tokensMembers, Token.reread?, rereadMembers?]
  | (k, v) :: ms =>
    have hv := mapM_tokens v
    have hms := mapM_tokensMembers ms
    cases h : v.reread? <;> cases h' : rereadMembers? ms <;>
      simp_all [tokensMembers, Token.reread?, rereadMembers?, List.mapM_append]

end

/-! ### Building values -/

namespace Builder

theorem run?_cons (b : Builder) (t : Token) (ts : List Token) :
    b.run? (t :: ts) = (b.step? t).bind (·.run? ts) := by
  rw [run?, List.foldlM_cons]
  rfl

theorem run?_append (b : Builder) (ts us : List Token) :
    b.run? (ts ++ us) = (b.run? ts).bind (·.run? us) := by
  rw [run?, List.foldlM_append]
  rfl

theorem tokens_eq_cons (v : Json) : ∃ t ts, v.tokens = t :: ts ∧ t ≠ .closeArr := by
  match v with
  | null | bool _ | num _ | str _ | arr [] | obj [] => exact ⟨_, _, by rw [tokens], by simp⟩
  | arr (v :: vs) =>
    exact ⟨.openArr, v.tokens ++ tokensElems vs, by rw [tokens, List.cons_append], by simp⟩
  | obj ((k, v) :: ms) =>
    exact ⟨.openObj, .str k :: .colon :: v.tokens ++ tokensMembers ms,
      by rw [tokens, List.cons_append], by simp⟩

theorem run?_element (v : Json) (stack : List Opened) (room : Nat) :
    run? ⟨stack, .element, room⟩ v.tokens = run? ⟨stack, .value, room⟩ v.tokens := by
  obtain ⟨t, ts, h, ht⟩ := tokens_eq_cons v
  have hstep : step? ⟨stack, .element, room⟩ t = step? ⟨stack, .value, room⟩ t := by
    cases stack with
    | nil => rfl
    | cons o stack =>
      cases o with
      | obj => rfl
      | arr done => cases done <;> cases t <;> first | rfl | exact (ht rfl).elim
  rw [h, run?_cons, run?_cons, hstep]

mutual

/-- The tokens of a value build it, if there is room for its nesting. -/
theorem run?_tokens (v : Json) (stack : List Opened) (room : Nat) :
    run? ⟨stack, .value, room⟩ v.tokens =
      if v.depth ≤ room then some ⟨stack, .next v, room⟩ else none := by
  match v with
  | null | bool _ | num _ | str _ => simp [tokens, run?, step?, value?]
  | arr [] =>
    cases room <;> simp [tokens, run?, step?, value?, depth, depthElems]
  | obj [] =>
    cases room <;> simp [tokens, run?, step?, value?, depth, depthMembers]
  | arr (v :: vs) =>
    cases room with
    | zero => simp [tokens, run?_cons, step?, value?, depth]
    | succ room =>
      have hv := run?_tokens v (.arr [] :: stack) room
      have hvs := run?_tokensElems vs [] v stack room
      simp only [tokens, List.cons_append, run?_cons, step?, value?, run?_append,
        Nat.add_one_ne_zero, if_false, Option.bind_some, Nat.add_sub_cancel, run?_element, hv,
        depth, depthElems]
      by_cases h : v.depth ≤ room <;> by_cases h' : depthElems vs ≤ room <;>
        simp [h, h', hvs]
  | obj ((k, v) :: ms) =>
    cases room with
    | zero => simp [tokens, run?_cons, step?, value?, depth]
    | succ room =>
      have hv := run?_tokens v (.obj [] k :: stack) room
      have hms := run?_tokensMembers ms [] k v stack room
      simp only [tokens, List.cons_append, run?_cons, step?, value?, run?_append,
        Nat.add_one_ne_zero, if_false, Option.bind_some, Nat.add_sub_cancel, hv,
        depth, depthMembers]
      by_cases h : v.depth ≤ room <;> by_cases h' : depthMembers ms ≤ room <;>
        simp [h, h', hms]

theorem run?_tokensElems (vs : List Json) (done : List Json) (v : Json) (stack : List Opened)
    (room : Nat) :
    run? ⟨.arr done :: stack, .next v, room⟩ (tokensElems vs) =
      if depthElems vs ≤ room then
        some ⟨stack, .next (arr ((v :: done).reverse ++ vs)), room + 1⟩
      else none := by
  match vs with
  | [] => simp [tokensElems, run?, step?, depthElems]
  | w :: vs =>
    have hw := run?_tokens w (.arr (v :: done) :: stack) room
    have hvs := run?_tokensElems vs (v :: done) w stack room
    simp only [tokensElems, List.cons_append, run?_cons, step?, run?_append, Option.bind_some, hw,
      depthElems]
    by_cases h : w.depth ≤ room <;> by_cases h' : depthElems vs ≤ room <;>
      simp [h, h', hvs]

theorem run?_tokensMembers (ms : List (String × Json)) (done : List (String × Json)) (k : String)
    (v : Json) (stack : List Opened) (room : Nat) :
    run? ⟨.obj done k :: stack, .next v, room⟩ (tokensMembers ms) =
      if depthMembers ms ≤ room then
        some ⟨stack, .next (obj (((k, v) :: done).reverse ++ ms)), room + 1⟩
      else none := by
  match ms with
  | [] => simp [tokensMembers, run?, step?, depthMembers]
  | (l, w) :: ms =>
    have hw := run?_tokens w (.obj ((k, v) :: done) l :: stack) room
    have hms := run?_tokensMembers ms ((k, v) :: done) l w stack room
    simp only [tokensMembers, List.cons_append, run?_cons, step?, run?_append, Option.bind_some, hw,
      depthMembers]
    by_cases h : w.depth ≤ room <;> by_cases h' : depthMembers ms ≤ room <;>
      simp [h, h', hms]

end

end Builder

/-- What is written is read as the same value, with its numbers read again. -/
theorem parse?_render (v : Json) :
    parse? v.render = v.reread?.bind fun w => if w.depth ≤ maxDepth then some w else none := by
  have hmap : (v.tokens.map Token.lexeme).mapM Lexeme.token? = v.reread?.map tokens := by
    rw [List.mapM_map, ← mapM_tokens]
    exact congrArg (List.mapM · _) (funext Token.token?_lexeme)
  rw [parse?, parseWithin?, Token.scan?, scan?_render]
  simp only [Option.bind_eq_bind, Option.bind_some, hmap]
  cases v.reread? with
  | none => rfl
  | some w =>
    simp only [Option.map_some, Option.bind_some, ofTokens?, Builder.start, Builder.run?_tokens]
    by_cases h : w.depth ≤ maxDepth <;> simp [h, Builder.value]

end Json
end Switchboard
