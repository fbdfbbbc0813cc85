import Switchboard.Proofs.Json.Scan

/-! # What is read

* **Values.** A property of values that passes from elements and members to what they are in holds
  of every value that is read, if it holds of the numbers of the text (`holds_of_parse?`).  It may
  depend on how deep a value can be nested: the reader keeps it of all it holds, at the depth where
  that stands (`Builder.Holds`).
* **Integers.** A literal that is spelled as an integer of sixty-four bits is read as that integer
  (`Literal.number?_of_integral`), so where all literals of a text are, its tokens have no other
  numbers (`Token.integral_of_scan?`).
* **Form.** What has the form of a value may still denote nothing (`Json.FormedWithin`). -/

namespace Switchboard
namespace Json

/-! ### Values -/

/-- A property of values, nested so deep at most, that passes to what they are in.  Numbers are left
open. -/
structure Closed (P : Nat → Json → Prop) : Prop where
  null : ∀ n, P n .null
  bool : ∀ n b, P n (.bool b)
  str : ∀ n s, P n (.str s)
  arr : ∀ n vs, (∀ v ∈ vs, P n v) → P (n + 1) (.arr vs)
  obj : ∀ n (ms : List (String × Json)), (∀ m ∈ ms, P n m.2) → P (n + 1) (.obj ms)

variable {P : Nat → Json → Prop} {limit room : Nat}

/-- What an open array or object holds has a property. -/
def Opened.Holds (P : Nat → Json → Prop) (room : Nat) : Opened → Prop
  | .arr done => ∀ v ∈ done, P room v
  | .obj done _ => ∀ m ∈ done, P room m.2

/-- What the arrays and objects on a stack hold has a property, and they are as many as the room
that is left allows. -/
def Stacked (P : Nat → Json → Prop) (limit : Nat) : Nat → List Opened → Prop
  | room, [] => room = limit
  | room, o :: stack => o.Holds P room ∧ Stacked P limit (room + 1) stack

namespace Builder

/-- All that a reader has read has a property. -/
def Holds (P : Nat → Json → Prop) (limit : Nat) (b : Builder) : Prop :=
  match b.expect with
  | .value | .element | .member => Stacked P limit b.room b.stack
  | .key done | .colon done _ =>
    (∀ m ∈ done, P b.room m.2) ∧ Stacked P limit (b.room + 1) b.stack
  | .next v => P b.room v ∧ Stacked P limit b.room b.stack

theorem holds_value? {stack : List Opened} {t : Token} {b : Builder} (hP : Closed P)
    (ht : ∀ x, t = .num x → P room (.num x)) (hs : Stacked P limit room stack)
    (h : value? stack room t = some b) : b.Holds P limit := by
  cases t with
  | null =>
    obtain rfl := Option.some.inj h
    exact ⟨hP.null room, hs⟩
  | bool b =>
    obtain rfl := Option.some.inj h
    exact ⟨hP.bool room b, hs⟩
  | num x =>
    obtain rfl := Option.some.inj h
    exact ⟨ht x rfl, hs⟩
  | str s =>
    obtain rfl := Option.some.inj h
    exact ⟨hP.str room s, hs⟩
  | openArr | openObj =>
    rw [value?] at h
    split at h
    · cases h
    · next hroom =>
      obtain rfl := Option.some.inj h
      refine ⟨List.forall_mem_nil _, ?_⟩
      rwa [Nat.sub_add_cancel (Nat.pos_of_ne_zero hroom)]
  | closeObj | closeArr | colon | comma => cases h

theorem holds_member {k : String} {v : Json} {done : List (String × Json)} (hv : P room v)
    (hdone : ∀ m ∈ done, P room m.2) : ∀ m ∈ (k, v) :: done, P room m.2 :=
  List.forall_mem_cons.2 ⟨hv, hdone⟩

theorem holds_step? {b b' : Builder} {t : Token} (hP : Closed P)
    (ht : ∀ x n, t = .num x → P n (.num x)) (hb : b.Holds P limit) (h : b.step? t = some b') :
    b'.Holds P limit := by
  unfold step? at h
  split at h
  · -- a value
    exact holds_value? hP (fun x => ht x _) hb h
  · -- an array closes without elements
    obtain rfl := Option.some.inj h
    exact ⟨hP.arr _ [] (List.forall_mem_nil _), hb.2⟩
  · -- the first element of an array
    exact holds_value? hP (fun x => ht x _) hb h
  · -- an object closes without members
    obtain rfl := Option.some.inj h
    exact ⟨hP.obj _ [] (List.forall_mem_nil _), hb.2⟩
  · -- the first key of an object
    obtain rfl := Option.some.inj h
    exact ⟨List.forall_mem_nil _, hb.2⟩
  · -- a further key
    obtain rfl := Option.some.inj h
    exact hb
  · -- the colon after a key
    obtain rfl := Option.some.inj h
    exact hb
  · -- the comma after an element
    obtain rfl := Option.some.inj h
    exact ⟨List.forall_mem_cons.2 ⟨hb.1, hb.2.1⟩, hb.2.2⟩
  · -- an array closes after an element
    obtain rfl := Option.some.inj h
    refine ⟨hP.arr _ _ ?_, hb.2.2⟩
    intro v hv
    exact List.forall_mem_cons.2 ⟨hb.1, hb.2.1⟩ v (List.mem_reverse.1 hv)
  · -- the comma after a member
    obtain rfl := Option.some.inj h
    exact ⟨holds_member hb.1 hb.2.1, hb.2.2⟩
  · -- an object closes after a member
    obtain rfl := Option.some.inj h
    refine ⟨hP.obj _ _ ?_, hb.2.2⟩
    intro m hm
    exact holds_member hb.1 hb.2.1 m (List.mem_reverse.1 hm)
  · -- nothing else may stand there
    cases h

theorem holds_run? {b b' : Builder} {ts : List Token} (hP : Closed P)
    (ht : ∀ x n, .num x ∈ ts → P n (.num x)) (hb : b.Holds P limit) (h : b.run? ts = some b') :
    b'.Holds P limit := by
  induction ts generalizing b with
  | nil =>
    obtain rfl := Option.some.inj h
    exact hb
  | cons t ts ih =>
    obtain ⟨c, hc, h⟩ := Option.bind_eq_some_iff.1 h
    refine ih (fun x n hx => ht x n (List.mem_cons_of_mem t hx)) (holds_step? hP ?_ hb hc) h
    rintro x n rfl
    exact ht x n List.mem_cons_self

end Builder

/-- What passes from numbers to all values that they are in holds of a value that is read, if it
holds of the numbers in the text. -/
theorem holds_of_parse? {s : String} {v : Json} (hP : Closed P)
    (ht : ∀ ts, Token.scan? s = some ts → ∀ x n, .num x ∈ ts → P n (.num x))
    (h : parse? s = some v) : P maxDepth v := by
  obtain ⟨ts, hts, h⟩ := Option.bind_eq_some_iff.1 h
  obtain ⟨b, hb, h⟩ := Option.bind_eq_some_iff.1 h
  have hstart : (Builder.start maxDepth).Holds P maxDepth := rfl
  have hb := Builder.holds_run? hP (ht ts hts) hstart hb
  unfold Builder.value at h
  split at h
  · obtain rfl := Option.some.inj h
    obtain ⟨hv, hroom⟩ := hb
    exact hroom ▸ hv
  · cases h

end Json

/-! ### Integers -/

namespace Literal

/-- The integer that the digits before the point spell. -/
def integer (l : Literal) : Int :=
  if l.negative then -Int.ofNat (ofDecimal l.whole) else ofDecimal l.whole

/-- A literal that is spelled as an integer of at most sixty-four bits, signed or unsigned, and not
as minus zero. -/
structure Integral (l : Literal) : Prop where
  fraction : l.fraction = []
  power : l.power = none
  nonzero : l.negative → l.integer ≠ 0
  word : -0x8000000000000000 ≤ l.integer ∧ l.integer < 0x10000000000000000

theorem number?_of_integral {l : Literal} (h : l.Integral) :
    l.number? = some (.int l.integer h.word) :=
  dif_pos ⟨⟨h.fraction, h.power, h.nonzero⟩, h.word⟩

end Literal

theorem Number.integral_literal (n : Int)
    (w : -0x8000000000000000 ≤ n ∧ n < 0x10000000000000000) : (int n w).literal.Integral := by
  have hn : (int n w).literal.integer = n := by
    simp only [literal, Literal.integer, ofDecimal_decimal, decide_eq_true_eq,
      Int.ofNat_eq_natCast]
    split <;> omega
  refine ⟨rfl, rfl, ?_, ?_⟩
  · intro hneg
    rw [hn]
    have hneg : n < 0 := of_decide_eq_true hneg
    omega
  · rwa [hn]

namespace Lexeme

/-- A mark is a mark and no number. -/
def Proper : Lexeme → Prop
  | mark t => ¬ t.IsNum
  | _ => True

theorem proper_of_mark? {c : Char} {t : Token} (h : mark? c = some t) : (mark t).Proper := by
  unfold mark? at h
  repeat' split at h
  all_goals cases h
  all_goals exact id

theorem proper_of_first? {cs r : List Char} {x : Lexeme} (h : first? cs = some (x, r)) :
    x.Proper := by
  have word {w cs : List Char} {t : Token} (ht : ¬ t.IsNum)
      (h : (after? w cs).map (mark t, ·) = some (x, r)) : x.Proper := by
    obtain ⟨_, _, he⟩ := Option.map_eq_some_iff.1 h
    obtain ⟨rfl, _⟩ := Prod.mk.inj he
    exact ht
  cases cs with
  | nil => cases h
  | cons c cs =>
    rw [first?] at h
    split at h
    · next hm =>
      obtain ⟨rfl, _⟩ := Prod.mk.inj (Option.some.inj h)
      exact proper_of_mark? hm
    · split at h
      · obtain ⟨_, _, he⟩ := Option.map_eq_some_iff.1 h
        obtain ⟨rfl, _⟩ := Prod.mk.inj he
        trivial
      · split at h
        · exact word id h
        · split at h
          · exact word id h
          · split at h
            · exact word id h
            · obtain ⟨_, _, he⟩ := Option.map_eq_some_iff.1 h
              obtain ⟨rfl, _⟩ := Prod.mk.inj he
              trivial

theorem proper_of_scanFrom? {read xs : List Lexeme} {cs : List Char}
    (hread : ∀ x ∈ read, x.Proper) (h : scanFrom? read cs = some xs) : ∀ x ∈ xs, x.Proper := by
  fun_induction scanFrom? read cs with
  | case1 read =>
    obtain rfl := Option.some.inj h
    intro x hx
    exact hread x (List.mem_reverse.1 hx)
  | case2 read c r hb ih => exact ih hread h
  | case3 read c r hb x r' hx ih =>
    exact ih (List.forall_mem_cons.2 ⟨proper_of_first? hx, hread⟩) h
  | case4 => cases h

end Lexeme

theorem exists_of_mem_mapM {α β : Type} {f : α → Option β} {xs : List α} {ys : List β}
    (h : xs.mapM f = some ys) {y : β} (hy : y ∈ ys) : ∃ x ∈ xs, f x = some y := by
  induction xs generalizing ys with
  | nil =>
    obtain rfl := Option.some.inj h
    cases hy
  | cons x xs ih =>
    rw [List.mapM_cons] at h
    obtain ⟨z, hz, h⟩ := Option.bind_eq_some_iff.1 h
    obtain ⟨zs, hzs, h⟩ := Option.bind_eq_some_iff.1 h
    obtain rfl := Option.some.inj h
    rcases List.mem_cons.1 hy with rfl | hy
    · exact ⟨x, List.mem_cons_self, hz⟩
    · obtain ⟨w, hw, hwy⟩ := ih hzs hy
      exact ⟨w, List.mem_cons_of_mem x hw, hwy⟩

/-- Where all literals are integers, the tokens have no other numbers. -/
theorem Token.integral_of_scan? {s : String} {ts : List Token} (h : Token.scan? s = some ts)
    (hl : ∀ xs, Lexeme.scan? s = some xs → ∀ l, .number l ∈ xs → l.Integral) {x : Number}
    (hx : .num x ∈ ts) : ∃ n w, x = .int n w := by
  obtain ⟨xs, hxs, h⟩ := Option.bind_eq_some_iff.1 h
  obtain ⟨y, hy, hyx⟩ := exists_of_mem_mapM h hx
  have hproper := Lexeme.proper_of_scanFrom? (List.forall_mem_nil _) hxs y hy
  cases y with
  | mark t =>
    obtain rfl := Option.some.inj hyx
    exact (hproper trivial).elim
  | number l =>
    rw [Lexeme.token?, Literal.number?_of_integral (hl xs hxs l hy)] at hyx
    obtain rfl := Token.num.inj (Option.some.inj hyx)
    exact ⟨_, _, rfl⟩
  | quoted us =>
    obtain ⟨_, _, he⟩ := Option.map_eq_some_iff.1 hyx
    cases he

/-! ### Texts that denote nothing -/

/-- A text has the form of a value that is nested within a limit, whatever its numbers and texts
denote. -/
def Json.FormedWithin (limit : Nat) (s : String) : Prop :=
  ∃ xs v, Lexeme.scan? s = some xs ∧ Json.ofTokens? limit (xs.map Lexeme.outline) = some v

theorem Lexeme.mapM_token?_of_mem {xs : List Lexeme} {x : Lexeme} (hx : x ∈ xs)
    (h : x.token? = none) : xs.mapM token? = none := by
  induction xs with
  | nil => cases hx
  | cons y ys ih =>
    rw [List.mapM_cons]
    rcases List.mem_cons.1 hx with rfl | hx
    · rw [h]
      rfl
    · rw [ih hx]
      cases y.token? <;> rfl

/-- A text in which some number or some text denotes nothing has no value, wherever that stands. -/
theorem Json.parse?_of_unreadable {s : String} {xs : List Lexeme} {x : Lexeme}
    (hs : Lexeme.scan? s = some xs) (hx : x ∈ xs) (h : x.token? = none) : parse? s = none := by
  rw [parse?, parseWithin?, Token.scan?, hs]
  exact congrArg (Option.bind · _) (Lexeme.mapM_token?_of_mem hx h)

end Switchboard
