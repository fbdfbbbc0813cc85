import Mathlib
import Switchboard.ContextId

/-! # Ids of different serial numbers differ

An id spells 122 bits of its serial number in hexadecimal digits, so serial numbers below `2 ^ 122`
can be read back from their ids (`ofNat_injective`), and that many ids can be given out before one
comes twice (`series_nodup`). -/

namespace Switchboard.ContextId

/-! ### Digits -/

theorem hexDigit_injective : ∀ a b : Fin 16, Token.hexDigit a = Token.hexDigit b → a = b := by
  decide

@[simp] theorem length_hexDigits (count n : Nat) : (hexDigits count n).length = count := by
  induction count generalizing n with
  | zero => rfl
  | succ count ih => rw [hexDigits, List.length_append, ih, List.length_singleton]

/-- Digits determine the number as far as they go. -/
theorem hexDigits_injective {count m n : Nat} (h : hexDigits count m = hexDigits count n) :
    m % 16 ^ count = n % 16 ^ count := by
  induction count generalizing m n with
  | zero => rw [Nat.pow_zero, Nat.mod_one, Nat.mod_one]
  | succ count ih =>
    obtain ⟨hhigh, hlow⟩ := List.append_inj' h rfl
    have hdigit := hexDigit_injective ⟨m % 16, Nat.mod_lt _ (by decide)⟩
      ⟨n % 16, Nat.mod_lt _ (by decide)⟩ (List.singleton_inj.1 hlow)
    have hmod : m % 16 = n % 16 := congrArg Fin.val hdigit
    rw [Nat.pow_succ, Nat.mul_comm, Nat.mod_mul, Nat.mod_mul, hmod, ih hhigh]

/-! ### Ids -/

theorem ofNat_injective {m n : Nat} (hm : m < 2 ^ 122) (hn : n < 2 ^ 122)
    (h : ofNat m = ofNat n) : m = n := by
  have hl := String.ofList_injective h
  simp only [List.append_assoc, List.cons_append] at hl
  obtain ⟨h1, hl⟩ := List.append_inj hl (by simp)
  obtain ⟨h2, hl⟩ := List.append_inj (List.cons.inj hl).2 (by simp)
  obtain ⟨h3, hl⟩ := List.append_inj (List.cons.inj (List.cons.inj hl).2).2 (by simp)
  obtain ⟨h4, hl⟩ := List.append_inj (List.cons.inj hl).2 (by simp)
  have h5 := (List.cons.inj hl).2
  have d1 := hexDigits_injective h1
  have d2 := hexDigits_injective h2
  have d3 := hexDigits_injective h3
  have d4 := hexDigits_injective h4
  have d5 := hexDigits_injective h5
  omega

/-- As many ids as there are can be given out before one comes twice. -/
theorem series_nodup {count : Nat} (h : count ≤ 2 ^ 122) : (series count).Nodup := by
  refine List.pairwise_map.2 (List.Pairwise.imp_of_mem (fun hm hn hne he => hne ?_)
    (List.nodup_range (n := count)))
  have hm := List.mem_range.1 hm
  have hn := List.mem_range.1 hn
  exact ofNat_injective (by omega) (by omega) he

end Switchboard.ContextId
