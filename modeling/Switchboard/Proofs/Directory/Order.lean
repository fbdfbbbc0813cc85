import Switchboard.Directory

/-! # Directories are in order

However entries are made and removed, the entries under a name stand in the order of their ranks, no
two of them have the same rank, and no rank comes back after its entry has been removed
(`Directory.Ordered`).  Hence the first entry is the least (`rank_lt_of_head`), and going on after
a rank comes to the entries of greater rank in their order (`mem_of_split`). -/

namespace Switchboard

/-- Entries in the order in which they are tried, no two of the same rank. -/
def InOrder {α : Type} (es : List (Entry α)) : Prop := es.Pairwise (·.rank < ·.rank)

namespace InOrder

variable {α : Type} {es : List (Entry α)} {e f : Entry α}

theorem nil : InOrder ([] : List (Entry α)) := List.Pairwise.nil

theorem sublist {fs : List (Entry α)} (h : InOrder es) (hs : fs.Sublist es) : InOrder fs :=
  List.Pairwise.sublist hs h

theorem filter (h : InOrder es) (p : Entry α → Bool) : InOrder (es.filter p) :=
  h.sublist List.filter_sublist

/-- An entry that is put in its place stands in order there. -/
theorem place (h : InOrder es) (hne : ∀ f ∈ es, f.rank ≠ e.rank) :
    InOrder (Directory.place e es) := by
  induction es with
  | nil => exact List.pairwise_singleton ..
  | cons f fs ih =>
    obtain ⟨hf, hfs⟩ := List.pairwise_cons.1 h
    obtain ⟨hfe, hne⟩ := List.forall_mem_cons.1 hne
    rw [Directory.place]
    split
    · next hlt =>
      refine List.pairwise_cons.2 ⟨?_, ih hfs hne⟩
      intro g hg
      rcases Directory.mem_place.1 hg with rfl | hg
      · exact hlt
      · exact hf g hg
    · next hlt =>
      have hef : e.rank < f.rank := by
        rcases Rank.lt_trichotomy f.rank e.rank with h | h | h
        · exact (hlt h).elim
        · exact (hfe h).elim
        · exact h
      refine List.pairwise_cons.2 ⟨?_, h⟩
      intro g hg
      rcases List.mem_cons.1 hg with rfl | hg
      · exact hef
      · exact Rank.lt_trans hef (hf g hg)

theorem rank_lt_of_head (h : InOrder (e :: es)) (hf : f ∈ e :: es) (hne : f ≠ e) :
    e.rank < f.rank :=
  (List.pairwise_cons.1 h).1 f ((List.mem_cons.1 hf).resolve_left hne)

theorem rank_lt_of_last (h : InOrder es) (he : es.getLast? = some e) (hf : f ∈ es) (hne : f ≠ e) :
    f.rank < e.rank := by
  obtain ⟨init, rfl⟩ := List.getLast?_eq_some_iff.1 he
  obtain ⟨_, _, hlast⟩ := List.pairwise_append.1 h
  rcases List.mem_append.1 hf with hf | hf
  · exact hlast f hf e (List.mem_singleton.2 rfl)
  · exact (hne (List.mem_singleton.1 hf)).elim

theorem append {fs : List (Entry α)} (h : InOrder es) (he : es.getLast? = some e) (h' : InOrder fs)
    (hlt : ∀ f ∈ fs, e.rank < f.rank) : InOrder (es ++ fs) := by
  refine List.pairwise_append.2 ⟨h, h', ?_⟩
  intro f hf g hg
  by_cases hfe : f = e
  · rw [hfe]
    exact hlt g hg
  · exact Rank.lt_trans (h.rank_lt_of_last he hf hfe) (hlt g hg)

/-- Entries that do not come after one in the row stand before it. -/
theorem mem_of_split {missed rest : List (Entry α)} (h : InOrder (missed ++ e :: rest))
    (hf : f ∈ missed ++ e :: rest) (hle : ¬ e.rank < f.rank) : f ∈ missed ++ [e] := by
  obtain ⟨_, hrest, _⟩ := List.pairwise_append.1 h
  rcases List.mem_append.1 hf with hf | hf
  · exact List.mem_append_left _ hf
  · rcases List.mem_cons.1 hf with rfl | hf
    · exact List.mem_append_right _ (List.mem_singleton.2 rfl)
    · exact (hle ((List.pairwise_cons.1 hrest).1 f hf)).elim

end InOrder

namespace Directory

variable {α : Type} {d : Directory α}

/-- A directory as its operations leave it. -/
structure Ordered (d : Directory α) : Prop where
  sorted : ∀ name, InOrder (d.entries name)
  /-- Ranks that are in use are not given out any more. -/
  used : ∀ name, ∀ e ∈ d.entries name, e.rank.seq < d.next
  /-- A name without entries is not listed. -/
  inhabited : ∀ name es, d.names.get? name = some es → es ≠ []

theorem place_ne_nil (e : Entry α) (es : List (Entry α)) : place e es ≠ [] := by
  cases es with
  | nil => exact List.cons_ne_nil _ _
  | cons f fs =>
    rw [place]
    split <;> exact List.cons_ne_nil _ _

theorem mem_entries_insert {name other : String} {priority : UInt16} {v : α} {e : Entry α} :
    e ∈ (d.insert name priority v).entries other ↔
      (other = name ∧ e = ⟨d.nextRank priority, v⟩) ∨ e ∈ d.entries other := by
  rw [entries_insert]
  split
  · next h => rw [mem_place, h]; simp
  · next h => simp [h]

theorem mem_entries_retain {keep : String → α → Bool} {name : String} {e : Entry α} :
    e ∈ (d.retain keep).entries name ↔ e ∈ d.entries name ∧ keep name e.value = true := by
  rw [entries_retain, List.mem_filter]

theorem mem_after {name : String} {r : Rank} {e : Entry α} :
    e ∈ d.after name r ↔ e ∈ d.entries name ∧ r < e.rank := by
  rw [after, List.mem_filter, decide_eq_true_iff]

theorem ordered_empty : Ordered ({} : Directory α) where
  sorted _ := .nil
  used _ _ h := by cases h
  inhabited _ _ h := by cases h

/-- A new entry has a rank of its own and is put in its place. -/
theorem Ordered.insert (h : d.Ordered) (name : String) (priority : UInt16) (v : α) :
    (d.insert name priority v).Ordered where
  sorted other := by
    have hnew : ∀ f ∈ d.entries name, f.rank ≠ d.nextRank priority := by
      intro f hf he
      have := h.used name f hf
      rw [he] at this
      exact Nat.lt_irrefl _ this
    rw [entries_insert]
    split
    · exact (h.sorted name).place hnew
    · exact h.sorted other
  used other e he := by
    show e.rank.seq < d.next + 1
    rcases mem_entries_insert.1 he with ⟨_, rfl⟩ | he
    · exact Nat.lt_succ_self d.next
    · exact Nat.lt_succ_of_lt (h.used other e he)
  inhabited other es hes := by
    simp only [Directory.insert, Keyed.get?_insert] at hes
    split at hes
    · obtain rfl := Option.some.inj hes
      exact place_ne_nil _ _
    · exact h.inhabited other es hes

theorem Ordered.retain (h : d.Ordered) (keep : String → α → Bool) : (d.retain keep).Ordered where
  sorted name := by
    rw [entries_retain]
    exact (h.sorted name).filter _
  used name e he := h.used name e (mem_entries_retain.1 he).1
  inhabited name es hes := by
    simp only [Directory.retain, Keyed.get?_filter, Option.filter_eq_some_iff] at hes
    simpa using hes.2

theorem Ordered.after (h : d.Ordered) (name : String) (r : Rank) : InOrder (d.after name r) :=
  (h.sorted name).filter _

end Directory
end Switchboard
