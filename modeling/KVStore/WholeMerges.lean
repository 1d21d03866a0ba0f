import KVStore.ForcedCompaction

namespace KVStore

open Lib SortedRun Levels

namespace Levels

variable {opts : LsmOptions} {levels : Levels}

def tombstoneFree (level : List SSTable) : Bool := level.all fun t => t.entries.all fun e => !e.2.tombstone

/-- The deepest level that holds a table, if it is below L0, holds no tombstone. -/
def BottomClean (levels : Levels) : Prop :=
  ∀ j < levels.length, 1 ≤ j → (∀ level ∈ levels.drop (j + 1), level = []) →
    tombstoneFree (levels.getD j []) = true

instance (levels : Levels) : Decidable levels.BottomClean := by
  unfold BottomClean
  infer_instance

def MergesWhole (opts : LsmOptions) (levels : Levels) : Prop :=
  opts.l0CompactionTrigger ≤ levels.l0.length ∨ shallowestOverBudget opts 1 levels.tail = none

instance (opts : LsmOptions) (levels : Levels) : Decidable (levels.MergesWhole opts) :=
  inferInstanceAs (Decidable (_ ∨ _))

theorem tombstoneFree_iff {level : List SSTable} :
    tombstoneFree level = true ↔ ∀ t ∈ level, ∀ e ∈ t.entries, e.2.tombstone = false := by
  simp [tombstoneFree]

theorem drop_empty_iff {j : Nat} :
    (∀ level ∈ levels.drop (j + 1), level = []) ↔ ∀ i, j < i → ¬ levels.Holds i := by
  constructor
  · intro h i hi hholds
    refine hholds (h _ ?_)
    obtain ⟨k, rfl⟩ : ∃ k, i = j + 1 + k := ⟨i - (j + 1), by omega⟩
    have hmem : (levels.drop (j + 1)).getD k [] ∈ levels.drop (j + 1) := by
      refine mem_of_holds ?_
      unfold Holds at hholds ⊢
      rwa [List.getD_eq_getElem?_getD, List.getElem?_drop, ← List.getD_eq_getElem?_getD]
    rwa [List.getD_eq_getElem?_getD, List.getElem?_drop, ← List.getD_eq_getElem?_getD] at hmem
  · intro h level hlevel
    by_contra hne
    obtain ⟨k, hk⟩ := List.mem_iff_getElem?.mp hlevel
    rw [List.getElem?_drop] at hk
    exact h (j + 1 + k) (by omega) (holds_of_getElem hk hne)

theorem bottomClean_iff : levels.BottomClean ↔
    ∀ j, 1 ≤ j → (∀ i, j < i → ¬ levels.Holds i) → tombstoneFree (levels.getD j []) = true := by
  constructor
  · intro h j hj hbelow
    rcases Nat.lt_or_ge j levels.length with hlt | hge
    · exact h j hlt hj (drop_empty_iff.mpr hbelow)
    · rw [List.getD_eq_default _ _ hge]
      rfl
  · exact fun h j _ hj hbelow => h j hj (drop_empty_iff.mp hbelow)

/-- A merge of a whole level with nothing above it. -/
structure Whole (levels : Levels) (c : Compaction) : Prop where
  inputs : c.inputs = levels.getD c.level []
  above : ∀ i < c.level, ¬ levels.Holds i

theorem Chosen.whole {force : Bool} {level : Nat} {inputs : List SSTable}
    (h : Chosen opts levels force level inputs) (hwhole : levels.MergesWhole opts) :
    inputs = levels.getD level [] ∧ ∀ i < level, ¬ levels.Holds i := by
  cases h with
  | forced _ _ above => exact ⟨rfl, above⟩
  | trigger shape =>
    subst shape
    exact ⟨rfl, fun k hk => absurd hk k.not_lt_zero⟩
  | budget _ _ _ _ few heavy => exact (hwhole.elim (not_le.mpr few) heavy).elim

theorem whole_of_pick {compactPointer : List Key} {force : Bool} {c : Compaction}
    (hwhole : levels.MergesWhole opts) (h : pickCompaction opts levels compactPointer force = .work c) :
    levels.Whole c := by
  obtain ⟨hinputs, habove⟩ := (chosen_of_pick h).1.whole hwhole
  exact ⟨hinputs, habove⟩

theorem entries_eq_nil (h : ∀ i, ¬ levels.Holds i) : levels.entries = [] := by
  refine List.flatten_eq_nil_iff.mpr fun run hrun => ?_
  obtain ⟨level, hlevel, rfl⟩ := List.mem_map.mp hrun
  have hempty : level = [] := by
    by_contra hne
    obtain ⟨i, hi⟩ := exists_holds hlevel hne
    exact h i hi
  rw [hempty, runOf_nil]

theorem entries_eq_runOf {j : Nat} (h : ∀ i, levels.Holds i → i = j) :
    levels.entries = runOf (levels.getD j []) := by
  induction levels generalizing j with
  | nil => rfl
  | cons level deeper ih =>
    rw [entries_cons]
    cases j with
    | zero =>
      rw [entries_eq_nil fun i hi => absurd (h (i + 1) hi) (Nat.succ_ne_zero i), List.append_nil]
      rfl
    | succ j =>
      have hlevel : level = [] := by
        by_contra hne
        exact absurd (h 0 hne) (by omega)
      rw [hlevel, runOf_nil, List.nil_append, ih (j := j) fun i hi => Nat.succ_injective (h (i + 1) hi)]
      rfl

theorem flatten_eq_nil_of_dead (hshaped : ∀ level ∈ levels.tail, Shaped level)
    (hone : ∀ i j, levels.Holds i → levels.Holds j → i = j) (hl0 : levels.l0 = []) (hclean : levels.BottomClean)
    (hdead : ∀ key, visible (find key levels.entries) = none) : levels.flatten = [] := by
  by_contra hne
  obtain ⟨t, ht⟩ := List.exists_mem_of_ne_nil _ hne
  obtain ⟨level, hlevel, htlevel⟩ := List.mem_flatten.mp ht
  obtain ⟨j, hj⟩ := List.mem_iff_getElem?.mp hlevel
  have hholds : levels.Holds j := holds_of_getElem hj (List.ne_nil_of_mem htlevel)
  have hgetD : levels.getD j [] = level := by rw [List.getD_eq_getElem?_getD, hj]; rfl
  have hpos : 1 ≤ j := by
    refine Nat.one_le_iff_ne_zero.mpr fun hzero => ?_
    subst hzero
    refine hholds (?_ : levels.getD 0 [] = [])
    rw [← hl0]
    cases levels <;> rfl
  have hshape : Shaped level := by
    refine hshaped level ?_
    obtain ⟨k, rfl⟩ : ∃ k, j = k + 1 := ⟨j - 1, by omega⟩
    rw [← List.getElem?_tail] at hj
    exact List.mem_of_getElem? hj
  have hfree := bottomClean_iff.mp hclean j hpos fun i hi hbelow => absurd (hone i j hbelow hholds) (by omega)
  rw [hgetD, tombstoneFree_iff] at hfree
  obtain ⟨e, he⟩ := List.exists_mem_of_ne_nil _ (hshape.nonempty t htlevel)
  have hfind : find e.1 levels.entries = some e.2 := by
    rw [entries_eq_runOf fun i hi => hone i j hi hholds, hgetD]
    exact find_of_mem hshape.sorted.nodup_keys (mem_runOf.mpr ⟨t, htlevel, he⟩)
  have hlive := hdead e.1
  rw [hfind] at hlive
  obtain ⟨key, value, tombstone⟩ := e
  rw [show tombstone = false from hfree t htlevel _ he] at hlive
  cases hlive

end Levels

namespace Compaction

variable {opts : LsmOptions} {c : Compaction} {levels above deeper : Levels} {source target outs : List SSTable}

theorem Writes.tombstoneFree (hw : c.Writes outs) (hdrop : c.dropTombstones = true) :
    Levels.tombstoneFree outs = true := by
  refine tombstoneFree_iff.mpr fun t ht e he => ?_
  have hmem : e ∈ runOf outs := mem_runOf.mpr ⟨t, ht, he⟩
  rw [hw.run] at hmem
  obtain ⟨e', he', rfl⟩ := List.mem_map.mp hmem
  have hsurvives := (List.mem_filter.mp he').2
  rw [survives, hdrop, Bool.and_true, Bool.not_eq_true'] at hsurvives
  exact hsurvives

theorem tombstoneFree_output (htarget : Levels.tombstoneFree target = true)
    (houts : Levels.tombstoneFree outs = true) :
    Levels.tombstoneFree (sortByMinKey (c.kept target ++ outs)) = true := by
  rw [tombstoneFree_iff] at htarget houts ⊢
  intro t ht
  rcases List.mem_append.mp ((sortByMinKey_perm _).mem_iff.mp ht) with ht | ht
  · exact htarget t (List.mem_of_mem_filter ht)
  · exact houts t ht

theorem bottomClean_rebuild {compactPointer : List Key} {force : Bool}
    (hpick : pickCompaction opts levels compactPointer force = .work c) (hwhole : levels.Whole c)
    (hw : c.Writes outs) (hclean : levels.BottomClean) : Levels.BottomClean (c.rebuild levels outs) := by
  obtain ⟨hfrom, first, _, hc⟩ := pickCompaction_spec hpick
  obtain ⟨source, hsource, _⟩ := hfrom.source
  obtain ⟨above, target, deeper, hcut⟩ := exists_cut hsource
  rw [bottomClean_iff] at hclean ⊢
  intro j hj hbelow
  have hsame {i : Nat} (hi : c.level + 1 < i) : (c.rebuild levels outs).getD i [] = levels.getD i [] := by
    rw [getD_rebuild hcut, if_neg (by omega), if_neg (by omega)]
  rw [getD_rebuild hcut]
  split
  next heq =>
    -- the level that was merged is left empty
    have hall : c.inputs = source := by
      rw [hwhole.inputs, List.getD_eq_getElem?_getD, hsource]
      rfl
    have hnone : c.kept source = [] := by
      refine List.filter_eq_nil_iff.mpr fun t ht => ?_
      simp [isRetired_of_mem (List.mem_append_left _ (hall ▸ ht))]
    rw [hnone]
    rfl
  next hne =>
    split
    next heq =>
      have hempty : ∀ i, j < i → ¬ levels.Holds i := by
        intro i hi
        rw [Levels.Holds, ← hsame (by omega)]
        exact hbelow i hi
      have hdrop : c.dropTombstones = true := by
        rw [hc]
        refine List.all_eq_true.mpr fun level hlevel => ?_
        rw [drop_empty_iff.mpr (heq ▸ hempty) level hlevel]
        rfl
      refine tombstoneFree_output ?_ (hw.tombstoneFree hdrop)
      rw [← hcut.getD_succ, ← heq]
      exact hclean j hj hempty
    next hne' =>
      rcases Nat.lt_or_ge j c.level with hlt | hge
      · rw [not_not.mp (hwhole.above j hlt)]
        rfl
      · refine hclean j hj fun i hi => ?_
        rw [Levels.Holds, ← hsame (by omega)]
        exact hbelow i hi

end Compaction

end KVStore
