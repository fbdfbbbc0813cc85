import Switchboard.ContextId
import Switchboard.Frame
import Switchboard.Proofs.Json.RoundTrip

/-! # How long messages are

The text of a value is as long as its tokens together, so sizes add up along the value.

* **Texts.** A quoted text is as long as its characters after escaping (`utf8ByteSize_quoted`), and
  a number below `10 ^ k` has at most `k` digits (`length_decimal_le`).
* **Values.** Each element of an array takes one byte more than its own text, each member of an
  object two bytes more than its key and its value (`size_arr`, `size_obj`).
* **Messages.** For each kind the size of a message is a constant and the sizes of its fields
  (`size_call` and its siblings). -/

namespace Switchboard

/-! ### Texts -/

namespace Token

theorem utf8ByteSize_foldl_append {α : Type} (f : α → String) (xs : List α) (s : String) :
    (xs.foldl (fun t x => t ++ f x) s).utf8ByteSize =
      s.utf8ByteSize + (xs.map fun x => (f x).utf8ByteSize).sum := by
  induction xs generalizing s with
  | nil => simp
  | cons x xs ih =>
    rw [List.foldl_cons, ih, String.utf8ByteSize_append, List.map_cons, List.sum_cons, Nat.add_assoc]

theorem utf8ByteSize_spell (ts : List Token) :
    (spell ts).utf8ByteSize = (ts.map fun t => t.text.utf8ByteSize).sum := by
  rw [spell, utf8ByteSize_foldl_append, String.utf8ByteSize_empty, Nat.zero_add]

theorem utf8ByteSize_quoted (s : String) :
    (quoted s).utf8ByteSize = (s.toList.map fun c => (escaped c).utf8ByteSize).sum + 2 := by
  have hquote : "\"".utf8ByteSize = 1 := by decide
  rw [quoted, String.foldl_eq_foldl_toList, String.utf8ByteSize_append, utf8ByteSize_foldl_append,
    hquote]
  omega

theorem utf8ByteSize_ofList_pos {cs : List Char} (h : cs ≠ []) :
    0 < (String.ofList cs).utf8ByteSize := by
  obtain ⟨c, cs, rfl⟩ := List.exists_cons_of_ne_nil h
  rw [String.ofList_cons, String.utf8ByteSize_append, String.utf8ByteSize_singleton]
  exact Nat.add_pos_left c.utf8Size_pos _

theorem number_text_ne_nil (n : Number) : n.text ≠ [] := by
  cases n with
  | int n =>
    simp only [Number.text, signed]
    split
    · simp
    · exact decimal_ne_nil _
  | float x =>
    simp only [Number.text, Binary64.text]
    apply List.append_ne_nil_of_right_ne_nil
    split
    · simp only [Decimal.positional]
      split <;> simp
    · simp only [Decimal.scientific]
      split <;> simp

theorem utf8ByteSize_text_pos (t : Token) : 0 < t.text.utf8ByteSize := by
  cases t with
  | bool b => cases b <;> decide
  | num n => exact utf8ByteSize_ofList_pos (number_text_ne_nil n)
  | str s =>
    rw [text, utf8ByteSize_quoted]
    omega
  | openObj | closeObj | openArr | closeArr | colon | comma | null => decide

end Token

theorem utf8ByteSize_digits {ds : List Char} (h : ∀ c ∈ ds, isDigit c = true) :
    (String.ofList ds).utf8ByteSize = ds.length := by
  induction ds with
  | nil => rfl
  | cons c ds ih =>
    obtain ⟨hc, hds⟩ := List.forall_mem_cons.1 h
    have hone : c.utf8Size = 1 := by
      simp only [isDigit, Bool.and_eq_true, decide_eq_true_eq] at hc
      exact Char.utf8Size_eq_one_iff.2 (Nat.le_trans hc.2 (by decide))
    rw [String.ofList_cons, String.utf8ByteSize_append, ih hds, String.utf8ByteSize_singleton, hone,
      List.length_cons, Nat.add_comm]

theorem length_decimal_le {n k : Nat} (hk : 0 < k) (h : n < 10 ^ k) :
    (decimal n).length ≤ k := by
  induction k generalizing n with
  | zero => cases hk
  | succ k ih =>
    rw [decimal]
    split
    · exact Nat.succ_le_succ (Nat.zero_le k)
    · next hn =>
      have hpos : 0 < k := by
        rcases Nat.eq_zero_or_pos k with rfl | hpos
        · exact absurd h hn
        · exact hpos
      have hdiv : n / 10 < 10 ^ k := by
        rw [Nat.pow_succ] at h
        omega
      rw [List.length_append]
      exact Nat.succ_le_succ (ih hpos hdiv)

/-! ### Values -/

namespace Json

/-- The number of bytes of a value's text. -/
def size (v : Json) : Nat := v.render.utf8ByteSize

theorem size_eq (v : Json) : v.size = (v.tokens.map fun t => t.text.utf8ByteSize).sum :=
  Token.utf8ByteSize_spell v.tokens

/-- A text takes two quotes and its characters. -/
theorem size_str (s : String) :
    (str s).size = (s.toList.map fun c => (Token.escaped c).utf8ByteSize).sum + 2 := by
  rw [size_eq, tokens, List.map_singleton, List.sum_singleton]
  exact Token.utf8ByteSize_quoted s

theorem two_le_size_str (s : String) : 2 ≤ (str s).size := by
  rw [size_str]
  omega

theorem size_pos (v : Json) : 0 < v.size := by
  obtain ⟨t, ts, h, _⟩ := Builder.tokens_eq_cons v
  rw [size_eq, h, List.map_cons, List.sum_cons]
  exact Nat.add_pos_left t.utf8ByteSize_text_pos _

theorem size_natural {n : Nat}
    (w : -0x8000000000000000 ≤ (n : Int) ∧ (n : Int) < 0x10000000000000000) :
    (num (.int n w)).size = (decimal n).length := by
  have hn : ¬ (n : Int) < 0 := by omega
  rw [size_eq, tokens, List.map_singleton, List.sum_singleton, Token.text, Number.text, signed,
    if_neg hn, Int.natAbs_natCast]
  exact utf8ByteSize_digits (isDigit_of_mem_decimal n)

theorem size_natural_le {n : Nat}
    (w : -0x8000000000000000 ≤ (n : Int) ∧ (n : Int) < 0x10000000000000000) :
    (num (.int n w)).size ≤ 20 := by
  rw [size_natural]
  exact length_decimal_le (by decide) (by omega)

theorem utf8ByteSize_str (k : String) : (Token.str k).text.utf8ByteSize = (str k).size := by
  rw [size_eq, tokens, List.map_singleton, List.sum_singleton]

theorem sum_tokensElems (vs : List Json) :
    ((tokensElems vs).map fun t => t.text.utf8ByteSize).sum =
      (vs.map fun v => v.size + 1).sum + 1 := by
  have hclose : Token.closeArr.text.utf8ByteSize = 1 := by decide
  have hcomma : Token.comma.text.utf8ByteSize = 1 := by decide
  induction vs with
  | nil => simp [tokensElems, hclose]
  | cons v vs ih =>
    simp only [tokensElems, List.cons_append, List.map_cons, List.map_append, List.sum_cons,
      List.sum_append, ih, ← size_eq, hcomma]
    omega

/-- An array takes one byte and, for each element, one more than the element. -/
theorem size_arr (v : Json) (vs : List Json) :
    (arr (v :: vs)).size = 1 + ((v :: vs).map fun v => v.size + 1).sum := by
  have hopen : Token.openArr.text.utf8ByteSize = 1 := by decide
  rw [size_eq, tokens]
  simp only [List.cons_append, List.map_cons, List.map_append, List.sum_cons, List.sum_append,
    sum_tokensElems, ← size_eq, hopen]
  omega

theorem sum_tokensMembers (ms : List (String × Json)) :
    ((tokensMembers ms).map fun t => t.text.utf8ByteSize).sum =
      (ms.map fun m => (str m.1).size + m.2.size + 2).sum + 1 := by
  have hclose : Token.closeObj.text.utf8ByteSize = 1 := by decide
  have hcomma : Token.comma.text.utf8ByteSize = 1 := by decide
  have hcolon : Token.colon.text.utf8ByteSize = 1 := by decide
  induction ms with
  | nil => simp [tokensMembers, hclose]
  | cons m ms ih =>
    obtain ⟨k, v⟩ := m
    simp only [tokensMembers, List.cons_append, List.map_cons, List.map_append, List.sum_cons,
      List.sum_append, ih, ← size_eq, hcomma, hcolon, utf8ByteSize_str]
    omega

/-- An object takes one byte and, for each member, two more than its key and its value. -/
theorem size_obj (m : String × Json) (ms : List (String × Json)) :
    (obj (m :: ms)).size = 1 + ((m :: ms).map fun m => (str m.1).size + m.2.size + 2).sum := by
  have hopen : Token.openObj.text.utf8ByteSize = 1 := by decide
  have hcolon : Token.colon.text.utf8ByteSize = 1 := by decide
  obtain ⟨k, v⟩ := m
  rw [size_eq, tokens]
  simp only [List.cons_append, List.map_cons, List.map_append, List.sum_cons, List.sum_append,
    sum_tokensMembers, ← size_eq, hopen, hcolon, utf8ByteSize_str]
  omega

end Json

theorem Json.size_null : Json.null.size = 4 := by cbv

theorem Json.size_true : (Json.bool true).size = 4 := by cbv

/-- The id of a context takes its thirty-six characters and two quotes. -/
theorem ContextId.size_ofNat (n : Nat) : (Json.str (ofNat n)).size = 38 := by
  have hdigit : ∀ d < 16, (Token.escaped (Token.hexDigit d)).utf8ByteSize = 1 := by decide
  have hdigits (count n : Nat) :
      ((hexDigits count n).map fun c => (Token.escaped c).utf8ByteSize).sum = count := by
    induction count generalizing n with
    | zero => rfl
    | succ count ih =>
      rw [hexDigits, List.map_append, List.sum_append, ih, List.map_singleton, List.sum_singleton,
        hdigit _ (Nat.mod_lt n (by decide))]
  have hplain : (Token.escaped '-').utf8ByteSize = 1 ∧ (Token.escaped '4').utf8ByteSize = 1 := by
    decide
  simp [Json.size_str, ofNat, hdigits, hplain]

/-! ### Messages -/

/-- The number of bytes of a message's text. -/
def Message.size (m : Message) : Nat := m.toJson.size

theorem size_word (w : UInt64) : (Json.num (.ofUInt64 w)).size ≤ 20 :=
  Json.size_natural_le _

namespace Message

open Json (str)

/-- What a message is encoded as depends on its size only. -/
theorem encode_eq (m : Message) :
    (m.size ≤ maxFrameSize → ∃ f, m.encode = .ok f) ∧
      (maxFrameSize < m.size → m.encode = .error (.frameTooLarge m.size maxFrameSize)) := by
  constructor
  · intro h
    exact ⟨_, dif_pos h⟩
  · intro h
    exact dif_neg (Nat.not_le.2 h)

theorem size_eq (m : Message) :
    m.size = 1 + ((("type", .str m.kind.name) :: m.members).map fun p =>
      (str p.1).size + p.2.size + 2).sum := Json.size_obj _ _

/-- The sizes of the names in messages. -/
@[simp] theorem size_names :
    (str "type").size = 6 ∧ (str "call").size = 6 ∧ (str "update").size = 8 ∧
      (str "result").size = 8 ∧ (str "register").size = 10 ∧ (str "cancel").size = 8 ∧
      (str "context").size = 9 ∧ (str "function").size = 10 ∧ (str "args").size = 6 ∧
      (str "depth").size = 7 ∧ (str "handler").size = 9 ∧ (str "priority").size = 10 ∧
      (str "value").size = 7 ∧ (str "ok").size = 4 ∧ (str "error").size = 7 ∧
      (str "kind").size = 6 ∧ (str "details").size = 9 ∧ (str "not_handled").size = 13 ∧
      (str "UnknownRpc").size = 12 ∧ (str "InvalidArgs").size = 13 := by
  repeat' apply And.intro
  all_goals cbv

theorem size_call (c : Call) :
    (call c).size = (str c.context).size + (str c.function).size + c.args.size +
      (Json.num (.ofUInt32 c.depth)).size + 55 +
      (c.handler.elim 0 fun h => (Json.num (.ofUInt64 h)).size + 11) := by
  obtain ⟨context, function, args, depth, handler⟩ := c
  cases handler <;> simp [size_eq, members, kind, Kind.name] <;> omega

theorem size_update (context : String) (v : Json) :
    (update context v).size = (str context).size + v.size + 37 := by
  simp [size_eq, members, kind, Kind.name]
  omega

theorem size_result (context : String) (o : Outcome) :
    (result context o).size = (str context).size + o.toJson.size + 38 := by
  simp [size_eq, members, kind, Kind.name]
  omega

theorem size_register (context function : String) (priority : UInt16) (handler : HandlerId) :
    (register context function priority handler).size =
      (str context).size + (str function).size + (Json.num (.ofUInt16 priority)).size +
        (Json.num (.ofUInt64 handler)).size + 65 := by
  simp [size_eq, members, kind, Kind.name]
  omega

theorem size_cancel (context : String) : (cancel context).size = (str context).size + 28 := by
  simp [size_eq, members, kind, Kind.name]
  omega

end Message

namespace Outcome

open Json (str)

theorem size_value (v : Json) : (value v).toJson.size = v.size + 7 := by
  simp [toJson, Json.size_obj]
  omega

theorem size_fault (kind : FaultKind) (name s : String) :
    (fault ⟨kind, .obj [(name, .str s)]⟩).toJson.size =
      (str kind.name).size + (str name).size + (str s).size + 33 := by
  simp [toJson, Fault.toJson, Json.size_obj]
  omega

theorem size_declined : declined.toJson.size = 20 := by
  simp [toJson, Json.size_obj, Json.size_true]

end Outcome
end Switchboard
