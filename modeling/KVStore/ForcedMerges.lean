import KVStore.ForcedCompaction

namespace KVStore

open Lib KWayMerge Levels

/-- The merge that a forced run picks; no id plays a part in that. -/
def forcedPick (opts : LsmOptions) (levels : Levels) (pointer : List Key) : Pick :=
  Tree.pick opts ⟨levels, pointer, 0⟩

/-- Forced merges in a row, with any new ids for their outputs: how many they are, and
the levels and compact pointers they lead to. -/
inductive MergedTo (opts : LsmOptions) (levels : Levels) (pointer : List Key) :
    Nat → Levels → List Key → Prop
  | start : MergedTo opts levels pointer 0 levels pointer
  | merge {k : Nat} {levels' next : Levels} {pointer' : List Key} {c : Compaction} {ids : List FileId}
      (before : MergedTo opts levels pointer k levels' pointer')
      (pick : forcedPick opts levels' pointer' = .work c) (nodup : ids.Nodup)
      (fresh : ∀ id ∈ ids, ∀ t ∈ levels'.flatten, t.id ≠ id)
      (merged : c.compactOnce opts levels' ids = some next) :
      MergedTo opts levels pointer (k + 1) next (Engine.setPointer pointer' c.level c.endKey)

/-- Whatever ids the outputs get, the merges stop before the limit. -/
def EndsWithinLimit (opts : LsmOptions) (levels : Levels) (pointer : List Key) : Prop :=
  ∀ k levels' pointer', MergedTo opts levels pointer k levels' pointer' → k < Engine.maxSteps

/-- Whatever ids the outputs get, up to the limit there always is a next merge, and
its outputs can be written. -/
def GoesOnToLimit (opts : LsmOptions) (levels : Levels) (pointer : List Key) : Prop :=
  ∀ k levels' pointer', MergedTo opts levels pointer k levels' pointer' → k < Engine.maxSteps →
    ∃ c, forcedPick opts levels' pointer' = .work c ∧ (c.outputs opts).2 = none

section Weight

variable {opts : LsmOptions} {levels levels' : Levels} {pointer pointer' : List Key} {k : Nat}

theorem MergedTo.weight (h : MergedTo opts levels pointer k levels' pointer') (hfilled : levels.DeeperFilled) :
    levels'.DeeperFilled ∧ k + levels'.weight opts ≤ levels.weight opts := by
  induction h with
  | start => exact ⟨hfilled, (Nat.zero_add _).le⟩
  | merge _ pick _ _ merged ih =>
    obtain ⟨hfilled', hle⟩ := ih
    obtain ⟨outs, hw, rfl⟩ := Compaction.compactOnce_eq_some merged
    obtain ⟨hfilled'', hlt, _⟩ := Tree.merge_levels hfilled' pick hw
    dsimp only at hfilled'' hlt
    exact ⟨hfilled'', by omega⟩

end Weight

/-! A table that is over the budget of every level. -/

/-- No byte budget at any level, and more levels than the limit has steps. -/
def deepOptions : LsmOptions :=
  { memtableSize := 1, l0CompactionTrigger := 1, levelBaseBytes := 0, maxLevels := 10001 }

def smallTable : TableFile :=
  (SSTable.ofBlock 0 [(text "a", ⟨text "x", false⟩)] 101 (by decide) (by decide)).file

/-- The small table at level `i`, and nothing else. -/
def lone (i : Nat) (id : FileId) : Levels := List.replicate i [] ++ [[⟨id, smallTable⟩]]

def loneWork (i : Nat) (id : FileId) : Compaction :=
  workFor (lone i id) i ⟨id, smallTable⟩ [⟨id, smallTable⟩]

variable {i first : Nat} {id : FileId} {pointer : List Key}

theorem lone_succ (i : Nat) (id : FileId) : lone (i + 1) id = [] :: lone i id := rfl

theorem cut_lone (i : Nat) (id : FileId) :
    Cut (lone i id) i (List.replicate i []) [⟨id, smallTable⟩] [] [] :=
  ⟨List.length_replicate.symm, Or.inr ⟨rfl, rfl, rfl⟩⟩

theorem levelBudget_deep (level : Nat) : deepOptions.levelBudget level = 0 :=
  Function.iterate_fixed (by decide) _

theorem shallowestOverBudget_lone (hmax : first + i + 1 < deepOptions.maxLevels) :
    shallowestOverBudget deepOptions first (lone i id) = some (first + i) := by
  induction i generalizing first with
  | zero =>
    have hsize : 0 < levelBytes [⟨id, smallTable⟩] := by
      change 0 < levelBytes [⟨0, smallTable⟩]
      decide +kernel
    rw [lone, List.replicate_zero, List.nil_append, shallowestOverBudget, if_pos hmax, levelBudget_deep]
    simp [hsize]
  | succ i ih =>
    rw [lone_succ, shallowestOverBudget, if_pos (by omega), ih (by omega)]
    simp only [List.isEmpty_nil, Bool.not_true, Bool.false_and, Bool.false_eq_true, if_false]
    congr 1
    omega

theorem forcedPick_lone (hmax : i + 1 < deepOptions.maxLevels) (hpointer : pointer.getD i [] = []) :
    forcedPick deepOptions (lone i id) pointer = .work (loneWork i id) := by
  have hinputs : chooseInputs deepOptions (lone i id) pointer false = some (i, [⟨id, smallTable⟩]) := by
    cases i with
    | zero => rfl
    | succ i =>
      have hheld : (lone (i + 1) id).getD (i + 1) [] = [⟨id, smallTable⟩] := by simp [lone]
      unfold chooseInputs
      rw [if_neg (by simp), lone_succ]
      dsimp only
      rw [if_neg (by decide), shallowestOverBudget_lone (by omega), Nat.add_comm, ← lone_succ,
        Option.map_some, hheld, hpointer]
      rfl
  rw [forcedPick, Tree.pick, pickCompaction, hinputs]
  rfl

theorem rebuild_lone (i : Nat) (id id' : FileId) :
    (loneWork i id).rebuild (lone i id) [⟨id', smallTable⟩] = lone (i + 1) id' := by
  have hcut := cut_lone i id
  have hretired : (loneWork i id).isRetired ⟨id, smallTable⟩ = true :=
    Compaction.isRetired_of_mem (List.mem_append_left _ (List.mem_singleton_self _))
  have hgone : [⟨id, smallTable⟩].filter (fun t => !(loneWork i id).isRetired t) = [] := by
    rw [List.filter_cons_of_neg (by simp [hretired]), List.filter_nil]
  rw [Compaction.rebuild_eq _ _ hcut.level hcut.split, hgone, List.filter_nil, List.nil_append, lone,
    List.replicate_succ', List.append_assoc]
  -- the output level holds a table, so nothing below it is dropped
  have hkept := List.rdropWhile_concat_neg List.isEmpty (List.replicate i [] ++ [[]])
    [(⟨id', smallTable⟩ : SSTable)] (by simp)
  rw [List.append_assoc] at hkept
  exact hkept

theorem outputs_lone (i : Nat) (id : FileId) : (loneWork i id).outputs deepOptions = ([smallTable], none) := by
  have hcut := cut_lone i id
  have hoverlaps : (loneWork i id).overlaps = [] := by
    rw [loneWork, workFor, hcut.getD_succ, List.filter_nil]
  have hdrop : (loneWork i id).dropTombstones = true := by
    simp [loneWork, workFor, canDropTombstones, hcut.drop_succ]
  have hwritten : Compaction.writeOutputs deepOptions true none (merge [smallTable.entries]) = ([smallTable], none) := by
    decide +kernel
  rw [Compaction.outputs, hdrop, Compaction.merged, Compaction.tables, hoverlaps]
  exact hwritten

theorem getD_setPointer {level j : Nat} (key : Key) (h : level < j) :
    (Engine.setPointer pointer level key).getD j [] = pointer.getD j [] := by
  rw [Engine.setPointer, List.getD_eq_getElem?_getD, List.getElem?_set_ne (by omega),
    List.getD_eq_getElem?_getD, List.getElem?_append]
  split
  · rfl
  · rw [List.getElem?_replicate, List.getElem?_eq_none (by omega)]
    split <;> rfl

theorem MergedTo.lone {k : Nat} {levels : Levels}
    (h : MergedTo deepOptions (lone 0 id) [] k levels pointer) (hk : k < deepOptions.maxLevels) :
    (∃ id', levels = KVStore.lone k id') ∧ ∀ j, k ≤ j → pointer.getD j [] = [] := by
  induction h with
  | start => exact ⟨⟨id, rfl⟩, fun _ _ => rfl⟩
  | merge _ pick _ _ merged ih =>
    obtain ⟨⟨id', rfl⟩, hpointer⟩ := ih (by omega)
    rw [forcedPick_lone hk (hpointer _ le_rfl)] at pick
    cases pick
    rw [Compaction.compactOnce, outputs_lone] at merged
    dsimp only at merged
    split_ifs at merged with hlen
    obtain ⟨id'', rfl⟩ := List.length_eq_one_iff.mp hlen
    obtain rfl := Option.some.inj merged
    exact ⟨⟨id'', rebuild_lone _ id' id''⟩,
      fun j hj => (getD_setPointer _ hj).trans (hpointer j (by omega))⟩

end KVStore
