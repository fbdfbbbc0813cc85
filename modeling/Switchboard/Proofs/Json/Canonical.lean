import Mathlib.Data.List.Forall2
import Switchboard.Json.Basic

/-! # Canonical form

* **Keys.** `EveryObject` says what the keys of all objects inside a value are like: that they
  differ (`DistinctKeys`), or that they stand in order (`Sorted`).
* **Form.** The canonical form of a value is sorted (`sorted_canonical`), and a sorted value is in
  canonical form already (`canonical_of_sorted`).  It is nested no deeper than the value.
* **Content.** Where keys differ, nothing but the order of members is lost (`reordered_canonical`).
  Of members with the same key all but the last are dropped. -/

namespace Switchboard
namespace Json

/-! ### Elements and members -/

/-- A property of values holds of all if it passes from elements and members to what they are in. -/
theorem induction {P : Json → Prop} (null : P .null) (bool : ∀ b, P (.bool b))
    (num : ∀ n, P (.num n)) (str : ∀ s, P (.str s)) (arr : ∀ vs, (∀ v ∈ vs, P v) → P (.arr vs))
    (obj : ∀ ms : List (String × Json), (∀ m ∈ ms, P m.2) → P (.obj ms)) (v : Json) : P v :=
  @Json.rec P (fun vs => ∀ v ∈ vs, P v) (fun ms => ∀ m ∈ ms, P m.2) (fun m => P m.2)
    null bool num str arr obj (List.forall_mem_nil _)
    (fun _ _ hv hvs => List.forall_mem_cons.2 ⟨hv, hvs⟩) (List.forall_mem_nil _)
    (fun _ _ hm hms => List.forall_mem_cons.2 ⟨hm, hms⟩) (fun _ _ hv => hv) v

theorem depthElems_le_iff {vs : List Json} {n : Nat} :
    depthElems vs ≤ n ↔ ∀ v ∈ vs, v.depth ≤ n := by
  induction vs with
  | nil => simp [depthElems]
  | cons v vs ih => rw [depthElems, Nat.max_le, ih, List.forall_mem_cons]

theorem depthMembers_le_iff {ms : List (String × Json)} {n : Nat} :
    depthMembers ms ≤ n ↔ ∀ m ∈ ms, m.2.depth ≤ n := by
  induction ms with
  | nil => simp [depthMembers]
  | cons m ms ih => rw [depthMembers, Nat.max_le, ih, List.forall_mem_cons]

theorem canonicalElems_eq_map (vs : List Json) : canonicalElems vs = vs.map canonical := by
  induction vs with
  | nil => rfl
  | cons v vs ih => rw [canonicalElems, ih, List.map_cons]

/-! ### Members in their places -/

theorem mem_insertMember {k : String} {v : Json} {ms : List (String × Json)} {m : String × Json}
    (h : m ∈ insertMember k v ms) : m = (k, v) ∨ m ∈ ms := by
  induction ms with
  | nil => exact .inl (List.mem_singleton.1 h)
  | cons n ms ih =>
    rw [insertMember] at h
    split at h
    · exact List.mem_cons.1 h
    · split at h
      · exact .inr h
      · rcases List.mem_cons.1 h with rfl | h
        · exact .inr List.mem_cons_self
        · exact (ih h).imp_right (List.mem_cons_of_mem n)

/-- What is in a canonical form is the canonical form of something. -/
theorem mem_canonicalMembers {ms : List (String × Json)} {m : String × Json}
    (h : m ∈ canonicalMembers ms) : ∃ v, (m.1, v) ∈ ms ∧ m.2 = v.canonical := by
  induction ms with
  | nil => cases h
  | cons n ms ih =>
    rcases mem_insertMember h with rfl | h
    · exact ⟨n.2, List.mem_cons_self, rfl⟩
    · obtain ⟨v, hv, hm⟩ := ih h
      exact ⟨v, List.mem_cons_of_mem n hv, hm⟩

/-- A member that comes before all others is put in front of them. -/
theorem insertMember_of_lt {k : String} {v : Json} {ms : List (String × Json)}
    (h : ∀ l ∈ ms.map (·.1), k < l) : insertMember k v ms = (k, v) :: ms := by
  cases ms with
  | nil => rfl
  | cons m ms => rw [insertMember, if_pos (h m.1 List.mem_cons_self)]

theorem pairwise_insertMember {k : String} {v : Json} {ms : List (String × Json)}
    (h : (ms.map (·.1)).Pairwise (· < ·)) :
    ((insertMember k v ms).map (·.1)).Pairwise (· < ·) := by
  induction ms with
  | nil => exact List.pairwise_singleton ..
  | cons m ms ih =>
    obtain ⟨hm, hms⟩ := List.pairwise_cons.1 h
    rw [insertMember]
    split
    · next hlt =>
      refine List.pairwise_cons.2 ⟨?_, h⟩
      intro l hl
      rcases List.mem_cons.1 hl with rfl | hl
      · exact hlt
      · exact String.lt_trans hlt (hm l hl)
    · split
      · exact h
      · next hlt hne =>
        have hmk : m.1 < k := by
          rcases String.le_total k m.1 with hle | hle
          · exact (hne (String.le_antisymm hle (String.not_lt.1 hlt))).elim
          · exact String.not_le.1 fun hle' => hne (String.le_antisymm hle' hle)
        refine List.pairwise_cons.2 ⟨?_, ih hms⟩
        intro l hl
        rcases insertMember_keys_subset k v ms l hl with rfl | hl
        · exact hmk
        · exact hm l hl

/-- A member with a key of its own is added to the others. -/
theorem perm_insertMember {k : String} {v : Json} {ms : List (String × Json)}
    (h : k ∉ ms.map (·.1)) : (insertMember k v ms).Perm ((k, v) :: ms) := by
  induction ms with
  | nil => exact .refl _
  | cons m ms ih =>
    obtain ⟨hne, h⟩ := not_or.1 (mt List.mem_cons.2 h)
    rw [insertMember]
    split
    · exact .refl _
    · exact ((ih h).cons m).trans (.swap ..)

theorem perm_canonicalMembers {ms : List (String × Json)} (h : (ms.map (·.1)).Nodup) :
    (canonicalMembers ms).Perm (ms.map fun m => (m.1, m.2.canonical)) := by
  induction ms with
  | nil => exact .refl _
  | cons m ms ih =>
    obtain ⟨hm, hms⟩ := List.nodup_cons.1 h
    have hfresh : m.1 ∉ (canonicalMembers ms).map (·.1) := by
      intro hk
      obtain ⟨n, hn, he⟩ := List.mem_map.1 hk
      obtain ⟨v, hv, _⟩ := mem_canonicalMembers hn
      rw [he] at hv
      exact hm (List.mem_map.2 ⟨_, hv, rfl⟩)
    exact (perm_insertMember hfresh).trans ((ih hms).cons _)

/-! ### Keys -/

mutual

/-- The keys of every object inside a value, in the order of its members, pass a test. -/
def EveryObject (p : List String → Prop) : Json → Prop
  | arr elems => EveryObjectElems p elems
  | obj members => p (members.map (·.1)) ∧ EveryObjectMembers p members
  | _ => True

/-- The keys of every object inside elements pass a test. -/
def EveryObjectElems (p : List String → Prop) : List Json → Prop
  | [] => True
  | v :: vs => v.EveryObject p ∧ EveryObjectElems p vs

/-- The keys of every object inside members pass a test. -/
def EveryObjectMembers (p : List String → Prop) : List (String × Json) → Prop
  | [] => True
  | (_, v) :: ms => v.EveryObject p ∧ EveryObjectMembers p ms

end

/-- No object has a key twice. -/
def DistinctKeys (v : Json) : Prop := v.EveryObject List.Nodup

/-- Every object has its members in the order of their keys, and none of them twice. -/
def Sorted (v : Json) : Prop := v.EveryObject (List.Pairwise (· < ·))

variable {p q : List String → Prop}

theorem everyObject_arr {vs : List Json} :
    (arr vs).EveryObject p ↔ ∀ v ∈ vs, v.EveryObject p := by
  rw [EveryObject]
  induction vs with
  | nil => simp [EveryObjectElems]
  | cons v vs ih => rw [EveryObjectElems, ih, List.forall_mem_cons]

theorem everyObject_obj {ms : List (String × Json)} :
    (obj ms).EveryObject p ↔ p (ms.map (·.1)) ∧ ∀ m ∈ ms, m.2.EveryObject p := by
  have hmembers : EveryObjectMembers p ms ↔ ∀ m ∈ ms, m.2.EveryObject p := by
    induction ms with
    | nil => simp [EveryObjectMembers]
    | cons m ms ih => rw [EveryObjectMembers, ih, List.forall_mem_cons]
  rw [EveryObject, hmembers]

theorem EveryObject.imp (hpq : ∀ ks, p ks → q ks) {v : Json} (h : v.EveryObject p) :
    v.EveryObject q := by
  induction v using induction with
  | null | bool | num | str => trivial
  | arr vs ih =>
    rw [everyObject_arr] at h ⊢
    intro v hv
    exact ih v hv (h v hv)
  | obj ms ih =>
    rw [everyObject_obj] at h ⊢
    refine ⟨hpq _ h.1, ?_⟩
    intro m hm
    exact ih m hm (h.2 m hm)

theorem Sorted.distinctKeys {v : Json} (h : v.Sorted) : v.DistinctKeys :=
  h.imp fun _ hks => hks.imp String.ne_of_lt

/-! ### Canonical form -/

theorem sorted_canonical (v : Json) : v.canonical.Sorted := by
  induction v using induction with
  | null | bool | num | str => trivial
  | arr vs ih =>
    rw [canonical, canonicalElems_eq_map, Sorted, everyObject_arr]
    intro w hw
    obtain ⟨v, hv, rfl⟩ := List.mem_map.1 hw
    exact ih v hv
  | obj ms ih =>
    rw [canonical, Sorted, everyObject_obj]
    constructor
    · clear ih
      induction ms with
      | nil => exact .nil
      | cons m ms ih => exact pairwise_insertMember ih
    · intro m hm
      obtain ⟨v, hv, hmv⟩ := mem_canonicalMembers hm
      rw [hmv]
      exact ih _ hv

/-- Of two members with the same key the last is kept, at the place of its key. -/
example : (obj [("b", null), ("a", bool true), ("b", bool false)]).canonical =
    obj [("a", bool true), ("b", bool false)] := by decide

theorem canonical_of_sorted {v : Json} (h : v.Sorted) : v.canonical = v := by
  induction v using induction with
  | null | bool | num | str => rfl
  | arr vs ih =>
    rw [Sorted, everyObject_arr] at h
    rw [canonical, canonicalElems_eq_map]
    congr 1
    exact (List.map_congr_left fun v hv => ih v hv (h v hv)).trans (List.map_id vs)
  | obj ms ih =>
    rw [Sorted, everyObject_obj] at h
    obtain ⟨hkeys, hvalues⟩ := h
    rw [canonical]
    congr 1
    -- Each member comes before all that were put in their places before it.
    induction ms with
    | nil => rfl
    | cons m ms ihms =>
      obtain ⟨hm, hms⟩ := List.pairwise_cons.1 hkeys
      obtain ⟨hv, hvs⟩ := List.forall_mem_cons.1 hvalues
      rw [canonicalMembers, ihms (fun n hn => ih n (List.mem_cons_of_mem m hn)) hms hvs,
        ih m List.mem_cons_self hv, insertMember_of_lt hm]

theorem depth_canonical_le (v : Json) : v.canonical.depth ≤ v.depth := by
  induction v using induction with
  | null | bool | num | str => exact Nat.le_refl _
  | arr vs ih =>
    rw [canonical, canonicalElems_eq_map, depth, depth, Nat.add_le_add_iff_right,
      depthElems_le_iff]
    intro w hw
    obtain ⟨v, hv, rfl⟩ := List.mem_map.1 hw
    exact Nat.le_trans (ih v hv) (depthElems_le_iff.1 (Nat.le_refl _) v hv)
  | obj ms ih =>
    rw [canonical, depth, depth, Nat.add_le_add_iff_right, depthMembers_le_iff]
    intro m hm
    obtain ⟨v, hv, hmv⟩ := mem_canonicalMembers hm
    rw [hmv]
    exact Nat.le_trans (ih _ hv) (depthMembers_le_iff.1 (Nat.le_refl _) _ hv)

/-! ### What is kept -/

/-- Two values that differ in the order of members only. -/
inductive Reordered : Json → Json → Prop
  | refl (v : Json) : Reordered v v
  | arr {vs ws : List Json} (h : List.Forall₂ Reordered vs ws) : Reordered (arr vs) (arr ws)
  | obj {ms ns os : List (String × Json)} (hk : ms.map (·.1) = ns.map (·.1))
    (h : List.Forall₂ Reordered (ms.map (·.2)) (ns.map (·.2))) (hp : ns.Perm os) :
    Reordered (obj ms) (obj os)

theorem reordered_canonical {v : Json} (h : v.DistinctKeys) : Reordered v v.canonical := by
  induction v using induction with
  | null | bool | num | str => exact .refl _
  | arr vs ih =>
    rw [DistinctKeys, everyObject_arr] at h
    rw [canonical, canonicalElems_eq_map]
    refine .arr (List.forall₂_map_right_iff.2 (List.forall₂_same.2 ?_))
    intro v hv
    exact ih v hv (h v hv)
  | obj ms ih =>
    rw [DistinctKeys, everyObject_obj] at h
    rw [canonical]
    refine .obj ?_ ?_ (perm_canonicalMembers h.1).symm
    · rw [List.map_map]
      rfl
    · rw [List.map_map]
      refine List.forall₂_map_left_iff.2 (List.forall₂_map_right_iff.2 (List.forall₂_same.2 ?_))
      intro m hm
      exact ih m hm (h.2 m hm)

end Json
end Switchboard
