import KVStore.CompactOnce

namespace KVStore.Levels

open Lib

/-- A level set cut at a level: what lies above it, the level itself, the level
its merge writes to, and what lies below that. -/
structure Cut (levels : Levels) (i : Nat) (above : Levels) (source target : List SSTable)
    (deeper : Levels) : Prop where
  level : i = above.length
  split : levels = above ++ source :: target :: deeper ∨
    levels = above ++ [source] ∧ target = [] ∧ deeper = []

def OneTablePerId (levels : Levels) : Prop :=
  ∀ t ∈ levels.flatten, ∀ s ∈ levels.flatten, t.id = s.id → t = s

instance (levels : Levels) : Decidable (OneTablePerId levels) :=
  inferInstanceAs (Decidable (∀ t ∈ levels.flatten, ∀ s ∈ levels.flatten, t.id = s.id → t = s))

theorem exists_cut {levels : Levels} {i : Nat} {source : List SSTable} (h : levels[i]? = some source) :
    ∃ above target deeper, Cut levels i above source target deeper := by
  obtain ⟨hi, rfl⟩ := List.getElem?_eq_some_iff.mp h
  have hsplit : levels = levels.take i ++ levels[i] :: levels.drop (i + 1) := by
    rw [List.getElem_cons_drop, List.take_append_drop]
  have hlen : i = (levels.take i).length := by simp [Nat.min_eq_left (le_of_lt hi)]
  cases hd : levels.drop (i + 1) with
  | nil =>
    rw [hd] at hsplit
    exact ⟨_, [], [], hlen, Or.inr ⟨hsplit, rfl, rfl⟩⟩
  | cons target deeper =>
    rw [hd] at hsplit
    exact ⟨_, target, deeper, hlen, Or.inl hsplit⟩

namespace Cut

variable {levels above deeper : Levels} {i : Nat} {source target : List SSTable} {t : SSTable}

section

variable (h : Cut levels i above source target deeper)
include h

theorem getElem : levels[i]? = some source := by
  rcases h.split with hs | ⟨hs, _, _⟩ <;> simp [hs, h.level]

theorem getD_succ : levels.getD (i + 1) [] = target := by
  rcases h.split with hs | ⟨hs, ht, _⟩
  · simp [hs, h.level]
  · simp [hs, ht, h.level]

theorem drop_succ : levels.drop (i + 2) = deeper := by
  rcases h.split with hs | ⟨hs, _, hd⟩
  · simp [hs, h.level]
  · simp [hs, hd, h.level]

theorem entries_eq : levels.entries = entries above ++ (runOf source ++ (runOf target ++ entries deeper)) := by
  rcases h.split with hs | ⟨hs, ht, hd⟩
  · simp [hs]
  · simp [hs, ht, hd]

theorem mem_source (ht : t ∈ source) : t ∈ levels.flatten := by
  rcases h.split with hs | ⟨hs, _, _⟩ <;> simp [hs, ht]

theorem mem_target (ht : t ∈ target) : t ∈ levels.flatten := by
  rcases h.split with hs | ⟨_, hnil, _⟩
  · simp [hs, ht]
  · simp [hnil] at ht

theorem mem_tail_of_mem_deeper {l : List SSTable} (hl : l ∈ deeper) : l ∈ levels.tail := by
  rcases h.split with hs | ⟨_, _, hd⟩
  · cases above <;> simp [hs, hl]
  · simp [hd] at hl

end

theorem mem_tail_of_mem_above {l0 l : List SSTable} (h : Cut levels i (l0 :: above) source target deeper)
    (hl : l ∈ above) : l ∈ levels.tail := by
  rcases h.split with hs | ⟨hs, _, _⟩ <;> simp [hs, hl]

theorem shaped_target (h : Cut levels i above source target deeper)
    (hs : ∀ l ∈ levels.tail, Shaped l) : Shaped target := by
  rcases h.split with hc | ⟨_, hnil, _⟩
  · refine hs target ?_
    cases above <;> simp [hc]
  · exact hnil ▸ shaped_nil

theorem shaped_source (h : Cut levels i above source target deeper)
    (hs : ∀ l ∈ levels.tail, Shaped l) (hi : 1 ≤ i) : Shaped source := by
  have hne : above ≠ [] := by
    rintro rfl
    simp [h.level] at hi
  obtain ⟨l, above', rfl⟩ := List.exists_cons_of_ne_nil hne
  refine hs source ?_
  rcases h.split with hc | ⟨hc, _, _⟩ <;> simp [hc]

end Cut

/-- The tables of a level follow each other in key order and do not touch. -/
def Separated (level : List SSTable) : Prop := level.Pairwise fun a b => a.maxKey < b.minKey

instance (level : List SSTable) : Decidable (Separated level) :=
  inferInstanceAs (Decidable (level.Pairwise fun a b : SSTable => a.maxKey < b.minKey))

variable {level : List SSTable} {a b : SSTable} {aMin aMax bMin bMax : Key}

theorem Separated.apart (h : Separated level) (ha : a ∈ level)
    (hb : b ∈ level) (hab : a ≠ b) : a.maxKey < b.minKey ∨ b.maxKey < a.minKey := by
  have : Std.Symm (fun a b : SSTable => a.maxKey < b.minKey ∨ b.maxKey < a.minKey) :=
    ⟨fun _ _ h => h.symm⟩
  have hp : level.Pairwise (fun a b => a.maxKey < b.minKey ∨ b.maxKey < a.minKey) := h.imp Or.inl
  exact hp.forall ha hb hab

theorem Shaped.apart (h : Shaped level) (ha : a ∈ level)
    (hb : b ∈ level) (hab : a ≠ b) : a.maxKey < b.minKey ∨ b.maxKey < a.minKey :=
  Separated.apart h.disjoint ha hb hab

theorem Shaped.nodup (h : Shaped level) : level.Nodup := by
  refine h.disjoint.imp ?_
  rintro a b hlt rfl
  exact not_lt_of_ge (TableFile.minKey_le_maxKey _) hlt

theorem rangesOverlap_eq_false : rangesOverlap aMin aMax bMin bMax = false ↔ aMax < bMin ∨ bMax < aMin := by
  rw [rangesOverlap, Bool.not_eq_false', Bool.or_eq_true, decide_eq_true_iff, decide_eq_true_iff]

theorem rangesOverlap_eq_true : rangesOverlap aMin aMax bMin bMax = true ↔ bMin ≤ aMax ∧ aMin ≤ bMax := by
  simp [rangesOverlap]

/-- What the picker guarantees about a work item, in terms of the cut. -/
structure Picked (source target : List SSTable) (deeper : Levels) (c : Compaction) : Prop where
  inputs : c.inputs = source ∨ Shaped source ∧ ∃ t ∈ source, c.inputs = [t] ∧
    ∀ s ∈ c.overlaps, rangesOverlap t.minKey t.maxKey s.minKey s.maxKey = true
  absorbed : ∀ t ∈ target, t ∈ c.inputs → t ∈ c.overlaps
  overlaps : ∃ p : SSTable → Bool, c.overlaps = target.filter p
  cover : ∀ t ∈ c.tables, c.beginKey ≤ t.minKey ∧ t.maxKey ≤ c.endKey
  outside : ∀ t ∈ target, t ∉ c.overlaps → t.maxKey < c.beginKey ∨ c.endKey < t.minKey
  drop : c.dropTombstones = true →
    ∀ l ∈ deeper, ∀ t ∈ l, c.endKey < t.minKey ∨ t.maxKey < c.beginKey

/-- A table of a level without overlaps that misses a range also misses the range widened
by the tables that touch it: widening once is enough. -/
theorem outside_widened {target : List SSTable} (hs : Separated target) {b e : Key} {t : SSTable}
    (ht : t ∈ target) (hout : rangesOverlap b e t.minKey t.maxKey = false) :
    t.maxKey < lowest b (target.filter fun s => rangesOverlap b e s.minKey s.maxKey) ∨
      highest e (target.filter fun s => rangesOverlap b e s.minKey s.maxKey) < t.minKey := by
  have hmm : t.minKey ≤ t.maxKey := TableFile.minKey_le_maxKey _
  have hne : ∀ s ∈ target.filter (fun s => rangesOverlap b e s.minKey s.maxKey), t ≠ s := by
    rintro s hsf rfl
    simp [hout] at hsf
  rcases rangesOverlap_eq_false.mp hout with hlt | hlt
  · right
    refine highest_lt e _ hlt fun s hsf => ?_
    obtain ⟨hst, hov⟩ := List.mem_filter.mp hsf
    rcases hs.apart ht hst (hne s hsf) with h | h
    · have hse := (rangesOverlap_eq_true.mp hov).1
      exact absurd (hlt.trans_le hmm) (not_lt_of_ge (h.le.trans hse))
    · exact h
  · left
    refine lt_lowest b _ hlt fun s hsf => ?_
    obtain ⟨hst, hov⟩ := List.mem_filter.mp hsf
    rcases hs.apart ht hst (hne s hsf) with h | h
    · exact h
    · have hbs := (rangesOverlap_eq_true.mp hov).2
      exact absurd (hmm.trans_lt hlt) (not_lt_of_ge (hbs.trans h.le))

section Range

variable {opts : LsmOptions} {levels : Levels} {compactPointer : List Key} {force : Bool} {c : Compaction}
    {t : SSTable}

section

variable (h : pickCompaction opts levels compactPointer force = .work c)
include h

theorem range_of_pick :
    ∃ first ∈ c.inputs,
      c.overlaps = (levels.getD (c.level + 1) []).filter (fun t =>
        rangesOverlap (lowest first.minKey c.inputs) (highest first.maxKey c.inputs) t.minKey t.maxKey) ∧
      c.beginKey = lowest (lowest first.minKey c.inputs) c.overlaps ∧
      c.endKey = highest (highest first.maxKey c.inputs) c.overlaps := by
  obtain ⟨-, first, hfirst, hwork⟩ := pickCompaction_spec h
  refine ⟨first, hfirst, ?_, ?_, ?_⟩
  · rw [hwork]
    rfl
  · rw [hwork]
    rfl
  · rw [hwork]
    rfl

theorem cover_of_pick (ht : t ∈ c.tables) : c.beginKey ≤ t.minKey ∧ t.maxKey ≤ c.endKey := by
  obtain ⟨first, -, -, hbegin, hend⟩ := range_of_pick h
  rw [hbegin, hend]
  rcases List.mem_append.mp ht with ht | ht
  · exact ⟨(lowest_le_start _ _).trans (lowest_le _ ht), (le_highest _ ht).trans (start_le_highest _ _)⟩
  · exact ⟨lowest_le _ ht, le_highest _ ht⟩

theorem outside_of_pick (hs : Separated (levels.getD (c.level + 1) [])) (ht : t ∈ levels.getD (c.level + 1) [])
    (hnot : t ∉ c.overlaps) : t.maxKey < c.beginKey ∨ c.endKey < t.minKey := by
  obtain ⟨first, -, hoverlaps, hbegin, hend⟩ := range_of_pick h
  rw [hbegin, hend, hoverlaps]
  refine outside_widened hs ht (Bool.eq_false_of_not_eq_true fun hov => hnot ?_)
  rw [hoverlaps]
  exact List.mem_filter.mpr ⟨ht, hov⟩

end

end Range

theorem picked_of_pick {opts : LsmOptions} {levels above deeper : Levels}
    {source target : List SSTable} {compactPointer : List Key} {force : Bool} {c : Compaction}
    (hs : ∀ l ∈ levels.tail, Shaped l) (hcut : Cut levels c.level above source target deeper)
    (h : pickCompaction opts levels compactPointer force = .work c) : Picked source target deeper c := by
  obtain ⟨htaken, _, _, hwork⟩ := pickCompaction_spec h
  obtain ⟨first, hfirst, hoverlaps, -, -⟩ := range_of_pick h
  have htarget := hcut.getD_succ
  rw [htarget] at hoverlaps
  have hdrop : c.dropTombstones = canDropTombstones levels (c.level + 1) c.beginKey c.endKey := by
    rw [hwork]; rfl
  refine ⟨?_, ?_, ⟨_, hoverlaps⟩, fun t ht => cover_of_pick h ht, ?_, ?_⟩
  · obtain ⟨l, hl, hin⟩ := htaken.source
    have hls : l = source := Option.some.inj (hl.symm.trans hcut.getElem)
    subst hls
    rcases hin with hin | ⟨hlevel, t, ht, hin⟩
    · exact Or.inl hin
    · refine Or.inr ⟨hcut.shaped_source hs hlevel, t, ht, hin, fun s hsm => ?_⟩
      have hft : first = t := by simpa [hin] using hfirst
      rw [hoverlaps, hin, hft] at hsm
      simpa [lowest, highest] using (List.mem_filter.mp hsm).2
  · intro t ht hin
    rw [hoverlaps]
    refine List.mem_filter.mpr ⟨ht, rangesOverlap_eq_true.mpr ?_⟩
    have hmm : t.minKey ≤ t.maxKey := TableFile.minKey_le_maxKey _
    exact ⟨hmm.trans (le_highest _ hin), (lowest_le _ hin).trans hmm⟩
  · intro t ht hnot
    rw [← htarget] at ht
    exact outside_of_pick h (htarget ▸ (hcut.shaped_target hs).disjoint) ht hnot
  · intro hd l hl t ht
    rw [hdrop, canDropTombstones, hcut.drop_succ, List.all_eq_true] at hd
    have hdl := hd l hl
    rw [List.all_eq_true] at hdl
    exact rangesOverlap_eq_false.mp (by simpa using hdl t ht)

end KVStore.Levels
