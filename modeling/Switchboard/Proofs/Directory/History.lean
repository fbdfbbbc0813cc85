import Mathlib.Data.List.Induction
import Switchboard.Proofs.Directory.Order

/-! # A directory is its history in order

What is listed in a directory depends on all that was ever done to it, and only on that: which
entries were made, in which order, and which of them have been removed since.

* **Histories.** A `Making` describes operations that make things and take things away.  `created`
  lists all that was ever made and `surviving` what no later operation has taken away; both grow at
  their ends (`created_snoc`, `surviving_snoc`).
* **Order of ranks.** `Rank.order` is a total order, and two ranks are equal in it only if they are
  the same (`Rank.transCmp_order`, `Rank.order_eq_eq`).
* **Going on.** The entries after a rank are those of the rest of the row (`after_of_split`), whether
  or not the rank is still in use, so going on from entry to entry runs through the whole row
  (`walk_first_iff`).
* **Main statement.** `entries_eq_sorted_history`: the entries under a name are the surviving
  insertions under it, stably sorted by descending priority. -/

namespace Switchboard

/-! ### What is left of what was made -/

/-- Operations on a state that make things and take them away again. -/
structure Making (σ ω β : Type) where
  step : σ → ω → σ
  /-- What an operation makes, if anything. -/
  made? : σ → ω → Option β
  /-- Whether an operation leaves a thing that was made before. -/
  spares : ω → β → Bool

namespace Making

variable {σ ω β : Type} (m : Making σ ω β)

/-- The state after operations in a row. -/
def run (s : σ) (os : List ω) : σ := os.foldl m.step s

/-- All that operations in a row make. -/
def created : σ → List ω → List β
  | _, [] => []
  | s, o :: os => (m.made? s o).toList ++ created (m.step s o) os

/-- What is left in the end of all that operations in a row make: what every later one spares. -/
def surviving : σ → List ω → List β
  | _, [] => []
  | s, o :: os =>
    (m.made? s o).toList.filter (fun b => os.all (m.spares · b)) ++ surviving (m.step s o) os

theorem run_snoc (s : σ) (os : List ω) (o : ω) :
    m.run s (os ++ [o]) = m.step (m.run s os) o := by
  rw [run, List.foldl_append]
  rfl

theorem created_snoc (s : σ) (os : List ω) (o : ω) :
    m.created s (os ++ [o]) = m.created s os ++ (m.made? (m.run s os) o).toList := by
  induction os generalizing s with
  | nil => simp [created, run]
  | cons p os ih =>
    rw [List.cons_append, created, created, ih, List.append_assoc]
    rfl

theorem surviving_snoc (s : σ) (os : List ω) (o : ω) :
    m.surviving s (os ++ [o]) =
      (m.surviving s os).filter (m.spares o) ++ (m.made? (m.run s os) o).toList := by
  induction os generalizing s with
  | nil => simp [surviving, run]
  | cons p os ih =>
    rw [List.cons_append, surviving, surviving, ih, List.filter_append, List.filter_filter,
      List.append_assoc]
    congr 2
    funext b
    simp [Bool.and_comm]

theorem surviving_sublist (s : σ) (os : List ω) : (m.surviving s os).Sublist (m.created s os) := by
  induction os generalizing s with
  | nil => exact List.Sublist.refl []
  | cons o os ih => exact List.filter_sublist.append (ih _)

end Making

/-! ### The order of ranks -/

namespace Rank

variable {a b : Rank}

theorem order_eq_lt : order a b = .lt ↔ a < b := by
  rw [order, Ordering.then_eq_lt, Std.compare_eq_lt, Std.compare_eq_iff_eq, Std.compare_eq_lt,
    lt_def, eq_comm]

theorem order_eq_eq : order a b = .eq ↔ a = b := by
  obtain ⟨p, s⟩ := a
  obtain ⟨q, t⟩ := b
  rw [order, Ordering.then_eq_eq, Std.compare_eq_iff_eq, Std.compare_eq_iff_eq, Rank.mk.injEq,
    eq_comm]

theorem order_eq_gt : order a b = .gt ↔ b < a := by
  constructor
  · intro h
    rcases lt_trichotomy a b with hlt | heq | hgt
    · rw [order_eq_lt.2 hlt] at h
      cases h
    · rw [order_eq_eq.2 heq] at h
      cases h
    · exact hgt
  · intro h
    cases ho : order a b with
    | lt => exact absurd (lt_trans h (order_eq_lt.1 ho)) (lt_irrefl b)
    | eq => exact absurd (order_eq_eq.1 ho ▸ h) (lt_irrefl b)
    | gt => rfl

theorem order_swap : order a b = (order b a).swap := by
  cases h : order b a with
  | lt => exact order_eq_gt.2 (order_eq_lt.1 h)
  | eq => exact order_eq_eq.2 (order_eq_eq.1 h).symm
  | gt => exact order_eq_lt.2 (order_eq_gt.1 h)

/-- Which of two ranks is tried first is a total order. -/
theorem transCmp_order : Std.TransCmp order where
  eq_swap := order_swap
  isLE_trans {a b c} hab hbc := by
    have le {a b : Rank} (h : (order a b).isLE = true) : a < b ∨ a = b := by
      cases ho : order a b with
      | lt => exact .inl (order_eq_lt.1 ho)
      | eq => exact .inr (order_eq_eq.1 ho)
      | gt => rw [ho] at h; cases h
    rcases le hab, le hbc with ⟨hab | rfl, hbc | rfl⟩
    · rw [order_eq_lt.2 (lt_trans hab hbc)]; rfl
    · rw [order_eq_lt.2 hab]; rfl
    · rw [order_eq_lt.2 hbc]; rfl
    · rw [order_eq_eq.2 rfl]; rfl

end Rank

/-! ### Rows in order -/

namespace InOrder

variable {α : Type} {es : List (Entry α)} {e : Entry α}

/-- The first of entries in order is the least. -/
theorem head?_eq_some_iff (h : InOrder es) :
    es.head? = some e ↔ e ∈ es ∧ ∀ f ∈ es, f = e ∨ e.rank < f.rank := by
  constructor
  · intro he
    obtain ⟨fs, rfl⟩ := List.head?_eq_some_iff.1 he
    refine ⟨List.mem_cons_self, ?_⟩
    intro f hf
    by_cases hfe : f = e
    · exact .inl hfe
    · exact .inr (h.rank_lt_of_head hf hfe)
  · rintro ⟨he, hleast⟩
    cases es with
    | nil => cases he
    | cons f fs =>
      rcases hleast f List.mem_cons_self with rfl | hlt
      · rfl
      · have hfe : e ≠ f := by
          rintro rfl
          exact Rank.lt_irrefl _ hlt
        exact absurd (Rank.lt_trans hlt (h.rank_lt_of_head he hfe)) (Rank.lt_irrefl _)

/-- A rank that none of them has divides entries in order: some come before it, and all others
after it. -/
theorem exists_split (h : InOrder es) {r : Rank} (hr : ∀ f ∈ es, f.rank ≠ r) :
    ∃ before behind, es = before ++ behind ∧ (∀ f ∈ before, f.rank < r) ∧
      ∀ f ∈ behind, r < f.rank := by
  induction es with
  | nil => exact ⟨[], [], rfl, nofun, nofun⟩
  | cons f fs ih =>
    obtain ⟨hf, hfs⟩ := List.pairwise_cons.1 h
    obtain ⟨hfr, hr⟩ := List.forall_mem_cons.1 hr
    rcases Rank.lt_trichotomy f.rank r with hlt | heq | hgt
    · obtain ⟨before, behind, rfl, hbefore, hbehind⟩ := ih hfs hr
      exact ⟨f :: before, behind, rfl, List.forall_mem_cons.2 ⟨hlt, hbefore⟩, hbehind⟩
    · exact absurd heq hfr
    · refine ⟨[], f :: fs, rfl, nofun, List.forall_mem_cons.2 ⟨hgt, ?_⟩⟩
      intro g hg
      exact Rank.lt_trans hgt (hf g hg)

theorem after_of_split {before behind : List (Entry α)} (h : InOrder (before ++ e :: behind)) :
    (before ++ e :: behind).filter (fun f => decide (e.rank < f.rank)) = behind := by
  obtain ⟨_, hbehind, hacross⟩ := List.pairwise_append.1 h
  have hlate : ∀ f ∈ behind, e.rank < f.rank := (List.pairwise_cons.1 hbehind).1
  have hearly : ∀ f ∈ before, ¬ e.rank < f.rank := by
    intro f hf hlt
    exact Rank.lt_irrefl _ (Rank.lt_trans hlt (hacross f hf e List.mem_cons_self))
  rw [List.filter_append, List.filter_cons_of_neg (by simpa using Rank.lt_irrefl e.rank),
    List.filter_eq_nil_iff.2 (by simpa using hearly),
    List.filter_eq_self.2 (by simpa using hlate), List.nil_append]

end InOrder

/-! ### Sorting by priority -/

/-- Whether an entry has at least the priority of another one. -/
def Entry.atLeast {α : Type} (e f : Entry α) : Bool := f.rank.priority ≤ e.rank.priority

namespace Entry

variable {α : Type} {es : List (Entry α)}

theorem atLeast_trans (e f g : Entry α) (h : e.atLeast f = true) (h' : f.atLeast g = true) :
    e.atLeast g = true := by
  simp only [atLeast, decide_eq_true_eq, UInt16.le_iff_toNat_le] at *
  omega

theorem atLeast_total (e f : Entry α) : (e.atLeast f || f.atLeast e) = true := by
  simp only [atLeast, Bool.or_eq_true, decide_eq_true_eq, UInt16.le_iff_toNat_le]
  omega

/-- Sorting leaves the entries of one priority as they stand. -/
theorem filter_mergeSort (es : List (Entry α)) (k : UInt16) :
    (es.mergeSort atLeast).filter (·.rank.priority = k) = es.filter (·.rank.priority = k) := by
  have hequal : (es.filter (·.rank.priority = k)).Pairwise (fun e f => e.atLeast f = true) := by
    refine List.pairwise_of_forall_mem_list ?_
    intro e he f hf
    rw [List.mem_filter, decide_eq_true_iff] at he hf
    rw [atLeast, he.2, hf.2, decide_eq_true_iff]
    exact UInt16.le_refl k
  have hsub := (List.sublist_mergeSort atLeast_trans atLeast_total hequal
    List.filter_sublist).filter (·.rank.priority = k)
  rw [List.filter_filter] at hsub
  simp only [Bool.and_self] at hsub
  exact (hsub.eq_of_length ((List.mergeSort_perm es atLeast).filter _).length_eq.symm).symm

theorem inOrder_mergeSort (h : es.Pairwise (·.rank.seq < ·.rank.seq)) :
    InOrder (es.mergeSort atLeast) := by
  refine List.pairwise_iff_forall_sublist.2 ?_
  intro e f hef
  have hle : e.atLeast f = true :=
    List.pairwise_iff_forall_sublist.1 (List.pairwise_mergeSort atLeast_trans atLeast_total es) hef
  rw [atLeast, decide_eq_true_iff] at hle
  rcases UInt16.lt_or_eq_of_le hle with hlt | heq
  · exact .inl hlt
  · -- Of one priority, they stand as they were made.
    have hsub := hef.filter (·.rank.priority = e.rank.priority)
    rw [filter_mergeSort, List.filter_eq_self.2 (by simp [heq])] at hsub
    exact .inr ⟨heq.symm,
      List.pairwise_iff_forall_sublist.1 h (hsub.trans List.filter_sublist)⟩

end Entry

/-! ### Histories of a directory -/

namespace Directory

variable {α : Type} {d : Directory α}

/-- Something that is done to a directory. -/
inductive Edit (α : Type) where
  | insert (name : String) (priority : UInt16) (v : α)
  | retain (keep : String → α → Bool)
  | clear

/-- An entry under its name. -/
structure Listing (α : Type) where
  name : String
  entry : Entry α

/-- Insertions make entries, of the rank that they return, and the other edits take entries away. -/
def editing : Making (Directory α) (Edit α) (Listing α) where
  step d
    | .insert name priority v => d.insert name priority v
    | .retain keep => d.retain keep
    | .clear => d.clear
  made? d
    | .insert name priority v => some ⟨name, ⟨d.nextRank priority, v⟩⟩
    | _ => none
  spares
    | .insert .., _ => true
    | .retain keep, l => keep l.name l.entry.value
    | .clear, _ => false

/-- The entries among some listings that stand under a name. -/
def under (name : String) (ls : List (Listing α)) : List (Entry α) :=
  (ls.filter (·.name = name)).map (·.entry)

theorem under_append (name : String) (ls ls' : List (Listing α)) :
    under name (ls ++ ls') = under name ls ++ under name ls' := by
  rw [under, List.filter_append, List.map_append]
  rfl

theorem under_filter_spares (name : String) (keep : String → α → Bool) (ls : List (Listing α)) :
    under name (ls.filter (editing.spares (.retain keep))) =
      (under name ls).filter (keep name ·.value) := by
  rw [under, under, List.filter_map, List.filter_filter, List.filter_filter]
  congr 1
  refine List.filter_congr fun l _ => ?_
  by_cases h : l.name = name
  · subst h
    simp [editing]
  · simp [h]

theorem perm_place (e : Entry α) (es : List (Entry α)) : (place e es).Perm (e :: es) := by
  induction es with
  | nil => exact List.Perm.refl _
  | cons f fs ih =>
    rw [place]
    split
    · exact (ih.cons f).trans (List.Perm.swap ..)
    · exact List.Perm.refl _

/-- Where entries are divided, there a new one is put. -/
theorem place_of_split {e : Entry α} {before behind : List (Entry α)}
    (hbefore : ∀ f ∈ before, f.rank < e.rank) (hbehind : ∀ f ∈ behind, e.rank < f.rank) :
    place e (before ++ behind) = before ++ e :: behind := by
  induction before with
  | nil =>
    cases behind with
    | nil => rfl
    | cons f fs =>
      have hlt := hbehind f List.mem_cons_self
      rw [List.nil_append, place, if_neg fun h => Rank.lt_irrefl _ (Rank.lt_trans h hlt)]
      rfl
  | cons f fs ih =>
    obtain ⟨hf, hfs⟩ := List.forall_mem_cons.1 hbefore
    rw [List.cons_append, place, if_pos hf, ih hfs]
    rfl

theorem ordered_step (h : d.Ordered) (o : Edit α) : (editing.step d o).Ordered := by
  cases o with
  | insert name priority v => exact h.insert name priority v
  | retain keep => exact h.retain keep
  | clear => exact ⟨fun _ => .nil, nofun, nofun⟩

theorem ordered_run (os : List (Edit α)) : (editing.run ({} : Directory α) os).Ordered := by
  induction os using List.reverseRecOn with
  | nil => exact ordered_empty
  | append_singleton os o ih =>
    rw [Making.run_snoc]
    exact ordered_step ih o

/-- The serial numbers of the entries that were made ascend up to the next one. -/
theorem created_ascending (os : List (Edit α)) :
    (editing.created ({} : Directory α) os).Pairwise (·.entry.rank.seq < ·.entry.rank.seq) ∧
      ∀ l ∈ editing.created ({} : Directory α) os,
        l.entry.rank.seq < (editing.run ({} : Directory α) os).next := by
  induction os using List.reverseRecOn with
  | nil => exact ⟨List.Pairwise.nil, nofun⟩
  | append_singleton os o ih =>
    obtain ⟨hascend, hused⟩ := ih
    rw [Making.created_snoc, Making.run_snoc]
    cases o with
    | insert name priority v =>
      constructor
      · refine List.pairwise_append.2 ⟨hascend, List.pairwise_singleton .., ?_⟩
        intro l hl l' hl'
        rw [List.mem_singleton.1 hl']
        exact hused l hl
      · intro l hl
        rcases List.mem_append.1 hl with hl | hl
        · exact Nat.lt_succ_of_lt (hused l hl)
        · rw [List.mem_singleton.1 hl]
          exact Nat.lt_succ_self _
    | retain | clear =>
      rw [show editing.made? _ _ = none from rfl, Option.toList, List.append_nil]
      exact ⟨hascend, hused⟩

/-- What is listed under a name is what is left under it, in some order. -/
theorem entries_perm (os : List (Edit α)) (name : String) :
    ((editing.run {} os).entries name).Perm (under name (editing.surviving {} os)) := by
  induction os using List.reverseRecOn with
  | nil => exact List.Perm.refl _
  | append_singleton os o ih =>
    rw [Making.run_snoc, Making.surviving_snoc, under_append]
    generalize editing.run ({} : Directory α) os = d at ih ⊢
    generalize editing.surviving ({} : Directory α) os = ls at ih ⊢
    cases o with
    | insert other priority v =>
      have hspared : ls.filter (editing.spares (.insert other priority v)) = ls :=
        List.filter_eq_self.2 fun _ _ => rfl
      rw [hspared, show editing.step d _ = d.insert other priority v from rfl, entries_insert]
      by_cases h : name = other
      · subst h
        have hnew : under name (editing.made? d (.insert name priority v)).toList =
            [⟨d.nextRank priority, v⟩] := by simp [under, editing]
        rw [if_pos rfl, hnew]
        exact ((perm_place _ _).trans (ih.cons _)).trans (List.perm_append_singleton ..).symm
      · have hnew : under name (editing.made? d (.insert other priority v)).toList = [] := by
          simp [under, editing, Ne.symm h]
        rw [if_neg h, hnew, List.append_nil]
        exact ih
    | retain keep =>
      have hnone : under name (editing.made? d (.retain keep)).toList = [] := rfl
      rw [hnone, List.append_nil, show editing.step d _ = d.retain keep from rfl, entries_retain,
        under_filter_spares]
      exact ih.filter _
    | clear =>
      have hspared : ls.filter (editing.spares .clear) = [] :=
        List.filter_eq_nil_iff.2 fun _ _ => nofun
      rw [hspared]
      exact List.Perm.refl _

/-! ### Going on from entry to entry -/

theorem after?_eq_some_iff (h : d.Ordered) {name : String} {r : Rank} {e : Entry α} :
    d.after? name r = some e ↔ e ∈ d.entries name ∧ r < e.rank ∧
      ∀ f ∈ d.entries name, r < f.rank → f = e ∨ e.rank < f.rank := by
  rw [after?_eq_head?, (h.after name r).head?_eq_some_iff, mem_after]
  simp only [mem_after, and_imp, and_assoc]

theorem after?_eq_none_iff {name : String} {r : Rank} :
    d.after? name r = none ↔ ∀ f ∈ d.entries name, ¬ r < f.rank := by
  rw [after?, List.find?_eq_none]
  simp only [decide_eq_true_eq]

/-- The entries under a name are gone through from a given one, always going on after the rank of
the last one, until there is none any more. -/
inductive Walk (d : Directory α) (name : String) : Option (Entry α) → List (Entry α) → Prop
  | done : Walk d name none []
  | next {e : Entry α} {es : List (Entry α)} (h : Walk d name (d.after? name e.rank) es) :
    Walk d name (some e) (e :: es)

/-- From an entry on, the rest of the row is gone through. -/
theorem walk_iff_of_split (h : d.Ordered) {name : String} (before : List (Entry α))
    {behind es : List (Entry α)} (hd : d.entries name = before ++ behind) :
    d.Walk name behind.head? es ↔ es = behind := by
  induction behind generalizing before es with
  | nil =>
    constructor
    · rintro ⟨⟩
      rfl
    · rintro rfl
      exact .done
  | cons e behind ih =>
    have hsorted := h.sorted name
    rw [hd] at hsorted
    have hnext : d.after? name e.rank = behind.head? := by
      rw [after?_eq_head?, after, hd, hsorted.after_of_split]
    have hrest {fs : List (Entry α)} : d.Walk name behind.head? fs ↔ fs = behind :=
      ih (before ++ [e]) (hd.trans (List.append_cons before e behind))
    constructor
    · rintro ⟨⟩
      next fs hfs =>
      rw [hnext, hrest] at hfs
      rw [hfs]
    · rintro rfl
      refine .next ?_
      rw [hnext, hrest]

theorem walk_first_iff (h : d.Ordered) {name : String} {es : List (Entry α)} :
    d.Walk name (d.first? name) es ↔ es = d.entries name :=
  walk_iff_of_split h [] rfl

/-! ### Main statement -/

/-- **A directory is its history in order.**  After any edits of an empty directory:

* Under each name stand the insertions under it that no later edit has removed, each with the rank
  that it returned, in the order in which they were made and then stably sorted by descending
  priority.  No rank is ever returned twice.
* `Rank.order` is a total order in which only equal ranks are equal.  The entries under a name
  strictly increase in it, and the rank of the next insertion divides them at the place where its
  entry will stand.
* The first entry is the head of the row.  The entry after a rank, which need not be in use, is the
  least of those with a greater one.  Going on from the first entry after the rank of each one runs
  through exactly the row. -/
theorem entries_eq_sorted_history (os : List (Edit α)) :
    let d := editing.run ({} : Directory α) os
    (∀ name, d.entries name =
      (under name (editing.surviving {} os)).mergeSort
        fun e f => f.rank.priority ≤ e.rank.priority) ∧
    ((editing.created ({} : Directory α) os).map (·.entry.rank)).Nodup ∧
    Std.TransCmp Rank.order ∧ (∀ a b, Rank.order a b = .eq ↔ a = b) ∧
    (∀ name, (d.entries name).Pairwise fun e f => Rank.order e.rank f.rank = .lt) ∧
    (∀ name priority v, ∃ before behind, d.entries name = before ++ behind ∧
      (∀ e ∈ before, Rank.order e.rank (d.nextRank priority) = .lt) ∧
      (∀ e ∈ behind, Rank.order e.rank (d.nextRank priority) = .gt) ∧
      (d.insert name priority v).entries name =
        before ++ ⟨d.nextRank priority, v⟩ :: behind) ∧
    (∀ name, d.first? name = (d.entries name).head?) ∧
    (∀ name r e, d.after? name r = some e ↔
      e ∈ d.entries name ∧ Rank.order e.rank r = .gt ∧
        ∀ f ∈ d.entries name, Rank.order f.rank r = .gt → f = e ∨ Rank.order e.rank f.rank = .lt) ∧
    (∀ name r, d.after? name r = none ↔ ∀ e ∈ d.entries name, Rank.order e.rank r ≠ .gt) ∧
    ∀ name es, d.Walk name (d.first? name) es ↔ es = d.entries name := by
  intro d
  have hd : d.Ordered := ordered_run os
  obtain ⟨hascend, _⟩ := created_ascending os
  simp only [Rank.order_eq_lt, Rank.order_eq_gt, ne_eq]
  refine ⟨?_, ?_, Rank.transCmp_order, fun a b => Rank.order_eq_eq, hd.sorted, ?_, fun _ => rfl,
    fun _ _ _ => after?_eq_some_iff hd, fun _ _ => after?_eq_none_iff, fun _ _ => walk_first_iff hd⟩
  · intro name
    have hmade : (under name (editing.surviving {} os)).Pairwise (·.rank.seq < ·.rank.seq) :=
      List.Pairwise.map _ (fun _ _ h => h)
        (hascend.sublist (List.filter_sublist.trans (editing.surviving_sublist {} os)))
    have hperm := (entries_perm os name).trans (List.mergeSort_perm _ Entry.atLeast).symm
    refine hperm.eq_of_pairwise ?_ (hd.sorted name) (Entry.inOrder_mergeSort hmade)
    intro e f _ _ hef hfe
    exact absurd (Rank.lt_trans hef hfe) (Rank.lt_irrefl _)
  · refine List.Pairwise.map _ ?_ hascend
    intro l l' hlt heq
    rw [heq] at hlt
    exact Nat.lt_irrefl _ hlt
  · intro name priority v
    have hnew : ∀ f ∈ d.entries name, f.rank ≠ d.nextRank priority := by
      intro f hf he
      have hused := hd.used name f hf
      rw [he] at hused
      exact Nat.lt_irrefl _ hused
    obtain ⟨before, behind, hsplit, hbefore, hbehind⟩ := (hd.sorted name).exists_split hnew
    refine ⟨before, behind, hsplit, hbefore, hbehind, ?_⟩
    rw [entries_insert, if_pos rfl, hsplit, place_of_split hbefore hbehind]

end Directory
end Switchboard
