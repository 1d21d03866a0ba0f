import KVStore.Levels

namespace KVStore

open Lib

structure Compaction where
  level : Nat
  inputs : List SSTable
  overlaps : List SSTable
  beginKey : Key
  endKey : Key
  dropTombstones : Bool
  deriving DecidableEq

def rangesOverlap (aMin aMax bMin bMax : Key) : Bool := !(decide (aMax < bMin) || decide (bMax < aMin))

/-- The result of picking. `undefined` stands for taking the front of an empty
input list, which a trigger of zero reaches on an empty L0. -/
inductive Pick
  | nothing
  | undefined
  | work (c : Compaction)
  deriving DecidableEq

namespace LsmOptions

def levelBudget (opts : LsmOptions) (level : Nat) : Nat :=
  (fun budget => budget * opts.levelMultiplier % 2 ^ 64)^[level - 1] opts.levelBaseBytes

end LsmOptions

namespace Levels

def levelBytes (level : List SSTable) : Nat := (level.map SSTable.fileSize).sum % 2 ^ 64

def canDropTombstones (levels : Levels) (outputLevel : Nat) (beginKey endKey : Key) : Bool :=
  (levels.drop (outputLevel + 1)).all fun level =>
    level.all fun t => !rangesOverlap beginKey endKey t.minKey t.maxKey

def shallowestWithBelow : Nat → Levels → Option Nat
  | _, [] => none
  | i, level :: deeper =>
    if !level.isEmpty && deeper.any (fun l => !l.isEmpty) then some i
    else shallowestWithBelow (i + 1) deeper

def shallowestOverBudget (opts : LsmOptions) : Nat → Levels → Option Nat
  | _, [] => none
  | i, level :: deeper =>
    if i + 1 < opts.maxLevels then
      if !level.isEmpty && decide (opts.levelBudget i < levelBytes level) then some i
      else shallowestOverBudget opts (i + 1) deeper
    else none

def rotateInput (level : List SSTable) (pointer : Key) : Option SSTable :=
  match level with
  | [] => none
  | first :: _ =>
    if pointer = [] then some first
    else some ((level.find? (fun t => pointer < t.minKey)).getD first)

def chooseInputs (opts : LsmOptions) (levels : Levels) (compactPointer : List Key) (force : Bool) :
    Option (Nat × List SSTable) :=
  if force then
    (shallowestWithBelow 0 levels).map fun i => (i, levels.getD i [])
  else
    match levels with
    | [] => none
    | l0 :: deeper =>
      if opts.l0CompactionTrigger ≤ l0.length then some (0, l0)
      else
        (shallowestOverBudget opts 1 deeper).map fun i =>
          (i, (rotateInput (levels.getD i []) (compactPointer.getD i [])).toList)

def lowest (start : Key) (tables : List SSTable) : Key :=
  tables.foldl (fun acc t => min acc t.minKey) start

def highest (start : Key) (tables : List SSTable) : Key :=
  tables.foldl (fun acc t => max acc t.maxKey) start

/-- The work item for the chosen inputs: the tables of the next level their range
touches, the range widened by those, and whether anything deeper meets it. -/
def workFor (levels : Levels) (level : Nat) (first : SSTable) (inputs : List SSTable) : Compaction :=
  let beginKey := lowest first.minKey inputs
  let endKey := highest first.maxKey inputs
  let overlaps := (levels.getD (level + 1) []).filter fun t =>
    rangesOverlap beginKey endKey t.minKey t.maxKey
  let beginKey' := lowest beginKey overlaps
  let endKey' := highest endKey overlaps
  { level, inputs, overlaps
    beginKey := beginKey'
    endKey := endKey'
    dropTombstones := canDropTombstones levels (level + 1) beginKey' endKey' }

def pickCompaction (opts : LsmOptions) (levels : Levels) (compactPointer : List Key)
    (force : Bool) : Pick :=
  match chooseInputs opts levels compactPointer force with
  | none => .nothing
  | some (_, []) => .undefined
  | some (level, first :: rest) => .work (workFor levels level first (first :: rest))

def needsCompaction (opts : LsmOptions) (levels : Levels) (compactPointer : List Key) : Bool :=
  pickCompaction opts levels compactPointer false ≠ .nothing

theorem lowest_le_start (start : Key) (tables : List SSTable) : lowest start tables ≤ start := by
  induction tables generalizing start with
  | nil => exact le_refl _
  | cons t tables ih => exact (ih _).trans (min_le_left _ _)

variable {t : SSTable} {tables : List SSTable} {bound : Key} {levels : Levels} {i j : Nat}
    {opts : LsmOptions} {compactPointer : List Key} {force : Bool}

theorem lowest_le (start : Key) (h : t ∈ tables) : lowest start tables ≤ t.minKey := by
  induction tables generalizing start with
  | nil => cases h
  | cons s tables ih =>
    rcases List.mem_cons.mp h with rfl | h
    · exact (lowest_le_start _ tables).trans (min_le_right _ _)
    · exact ih _ h

theorem lt_lowest (start : Key) (tables : List SSTable) (hstart : bound < start)
    (h : ∀ t ∈ tables, bound < t.minKey) : bound < lowest start tables := by
  induction tables generalizing start with
  | nil => exact hstart
  | cons s tables ih =>
    exact ih _ (lt_min hstart (h s (by simp))) fun t ht => h t (List.mem_cons_of_mem _ ht)

theorem start_le_highest (start : Key) (tables : List SSTable) : start ≤ highest start tables := by
  induction tables generalizing start with
  | nil => exact le_refl _
  | cons t tables ih => exact (le_max_left _ _).trans (ih _)

theorem le_highest (start : Key) (h : t ∈ tables) : t.maxKey ≤ highest start tables := by
  induction tables generalizing start with
  | nil => cases h
  | cons s tables ih =>
    rcases List.mem_cons.mp h with rfl | h
    · exact (le_max_right _ _).trans (start_le_highest _ tables)
    · exact ih _ h

theorem highest_lt (start : Key) (tables : List SSTable) (hstart : start < bound)
    (h : ∀ t ∈ tables, t.maxKey < bound) : highest start tables < bound := by
  induction tables generalizing start with
  | nil => exact hstart
  | cons s tables ih =>
    exact ih _ (max_lt hstart (h s (by simp))) fun t ht => h t (List.mem_cons_of_mem _ ht)

/-- Where the inputs of a picked compaction come from: a whole level, or one
table of a level below L0. -/
structure TakenFrom (levels : Levels) (level : Nat) (inputs : List SSTable) : Prop where
  nonempty : inputs ≠ []
  source : ∃ l, levels[level]? = some l ∧ (inputs = l ∨ 1 ≤ level ∧ ∃ t ∈ l, inputs = [t])

theorem TakenFrom.sublist {level : Nat} {inputs : List SSTable} (h : TakenFrom levels level inputs) :
    ∃ l, levels[level]? = some l ∧ inputs.Sublist l := by
  obtain ⟨l, hl, rfl | ⟨_, t, ht, rfl⟩⟩ := h.source
  · exact ⟨_, hl, List.Sublist.refl _⟩
  · exact ⟨l, hl, List.singleton_sublist.mpr ht⟩

def Holds (levels : Levels) (i : Nat) : Prop := levels.getD i [] ≠ []

instance (levels : Levels) (i : Nat) : Decidable (levels.Holds i) := inferInstanceAs (Decidable (¬ _))

theorem holds_of_getElem {level : List SSTable} (h : levels[i]? = some level) (hne : level ≠ []) :
    levels.Holds i := by
  rwa [Holds, List.getD_eq_getElem?_getD, h]

theorem exists_holds {level : List SSTable} (h : level ∈ levels) (hne : level ≠ []) : ∃ i, levels.Holds i := by
  obtain ⟨i, hi⟩ := List.mem_iff_getElem?.mp h
  exact ⟨i, holds_of_getElem hi hne⟩

theorem getElem_of_holds (h : levels.Holds i) : levels[i]? = some (levels.getD i []) := by
  unfold Holds at h
  rw [List.getD_eq_getElem?_getD] at h ⊢
  cases hi : levels[i]? with
  | none => simp [hi] at h
  | some => rfl

theorem mem_of_holds (h : levels.Holds i) : levels.getD i [] ∈ levels := List.mem_of_getElem? (getElem_of_holds h)

theorem shallowestWithBelow_spec (h : shallowestWithBelow i levels = some j) :
    ∃ n, j = i + n ∧ levels.Holds n ∧ (∃ k, n < k ∧ levels.Holds k) ∧ ∀ k < n, ¬ levels.Holds k := by
  induction levels generalizing i with
  | nil => cases h
  | cons level deeper ih =>
    rw [shallowestWithBelow] at h
    split at h
    next hc =>
      cases h
      simp only [Bool.and_eq_true, Bool.not_eq_true', List.isEmpty_eq_false_iff] at hc
      obtain ⟨l, hl, hne⟩ := List.any_eq_true.mp hc.2
      obtain ⟨k, hk⟩ := exists_holds hl (by simpa using hne)
      exact ⟨0, rfl, hc.1, ⟨k + 1, Nat.succ_pos k, hk⟩, fun k hk => absurd hk k.not_lt_zero⟩
    next hc =>
      obtain ⟨n, hn, hholds, ⟨m, hm, hbelow⟩, habove⟩ := ih h
      refine ⟨n + 1, by omega, hholds, ⟨m + 1, by omega, hbelow⟩, fun k hk hfirst => ?_⟩
      cases k with
      | zero =>
        refine hc (Bool.and_eq_true_iff.mpr ⟨by simpa [Holds] using hfirst, ?_⟩)
        exact List.any_eq_true.mpr ⟨_, mem_of_holds hholds, by simpa [Holds] using hholds⟩
      | succ k => exact habove k (by omega) hfirst

theorem shallowestOverBudget_spec (h : shallowestOverBudget opts i levels = some j) :
    ∃ n, j = i + n ∧ levels.Holds n ∧ j + 1 < opts.maxLevels := by
  induction levels generalizing i with
  | nil => cases h
  | cons level deeper ih =>
    rw [shallowestOverBudget] at h
    split_ifs at h with hlt hc
    · cases h
      simp only [Bool.and_eq_true, Bool.not_eq_true', List.isEmpty_eq_false_iff] at hc
      exact ⟨0, rfl, hc.1, hlt⟩
    · obtain ⟨n, hn, hholds, hmax⟩ := ih h
      exact ⟨n + 1, by omega, hholds, hmax⟩

theorem rotateInput_spec {level : List SSTable} (hne : level ≠ []) (pointer : Key) :
    ∃ t ∈ level, rotateInput level pointer = some t := by
  cases level with
  | nil => exact absurd rfl hne
  | cons first rest =>
    rw [rotateInput]
    split
    · exact ⟨first, List.mem_cons_self .., rfl⟩
    · refine ⟨_, ?_, rfl⟩
      cases hf : (first :: rest).find? (fun t => pointer < t.minKey) with
      | none => simp
      | some => simpa using List.mem_of_find?_eq_some hf

inductive Chosen (opts : LsmOptions) (levels : Levels) : Bool → Nat → List SSTable → Prop
  | forced {i : Nat} (holds : levels.Holds i) (below : ∃ k, i < k ∧ levels.Holds k)
      (above : ∀ k < i, ¬ levels.Holds k) : Chosen opts levels true i (levels.getD i [])
  | trigger {l0 : List SSTable} {deeper : Levels} (shape : levels = l0 :: deeper)
      (enough : opts.l0CompactionTrigger ≤ l0.length) : Chosen opts levels false 0 l0
  | budget {i : Nat} {t : SSTable} (deep : 1 ≤ i) (inner : i + 1 < opts.maxLevels) (holds : levels.Holds i)
      (mem : t ∈ levels.getD i []) (few : (levels.headD []).length < opts.l0CompactionTrigger)
      (heavy : shallowestOverBudget opts 1 levels.tail ≠ none) : Chosen opts levels false i [t]

theorem chooseInputs_cases {level : Nat} {inputs : List SSTable}
    (h : chooseInputs opts levels compactPointer force = some (level, inputs)) :
    Chosen opts levels force level inputs := by
  unfold chooseInputs at h
  split at h
  next hforce =>
    obtain ⟨i, hi, he⟩ := Option.map_eq_some_iff.mp h
    obtain ⟨n, hn, hholds, hbelow, habove⟩ := shallowestWithBelow_spec hi
    rw [Nat.zero_add] at hn
    subst hn
    cases he
    rw [hforce]
    exact .forced hholds hbelow habove
  next hforce =>
    rw [Bool.eq_false_of_not_eq_true hforce]
    cases levels with
    | nil => cases h
    | cons l0 deeper =>
      dsimp only at h
      split at h
      next htrigger =>
        cases h
        exact .trigger rfl htrigger
      next htrigger =>
        obtain ⟨i, hi, he⟩ := Option.map_eq_some_iff.mp h
        obtain ⟨n, hn, hholds, hmax⟩ := shallowestOverBudget_spec hi
        rw [Nat.add_comm] at hn
        subst hn
        obtain ⟨t, ht, hrotate⟩ := rotateInput_spec hholds (compactPointer.getD (n + 1) [])
        rw [show (l0 :: deeper).getD (n + 1) [] = deeper.getD n [] from rfl, hrotate] at he
        cases he
        exact .budget (Nat.succ_pos n) hmax hholds ht (not_le.mp htrigger) (Option.ne_none_iff_exists'.mpr ⟨_, hi⟩)

section Chosen

variable {level : Nat} {inputs : List SSTable} (h : Chosen opts levels force level inputs)
include h

/-- Only a trigger of no tables lets an empty L0 be chosen. -/
theorem Chosen.nonempty (ht : opts.l0CompactionTrigger ≠ 0) : inputs ≠ [] := by
  cases h with
  | forced holds => exact holds
  | trigger shape enough =>
    rintro rfl
    exact ht (Nat.le_zero.mp enough)
  | budget => exact List.cons_ne_nil _ _

theorem Chosen.source : ∃ l, levels[level]? = some l ∧ (inputs = l ∨ 1 ≤ level ∧ ∃ t ∈ l, inputs = [t]) := by
  cases h with
  | forced holds => exact ⟨_, getElem_of_holds holds, .inl rfl⟩
  | trigger shape =>
    subst shape
    exact ⟨inputs, rfl, .inl rfl⟩
  | budget deep _ holds mem => exact ⟨_, getElem_of_holds holds, .inr ⟨deep, _, mem, rfl⟩⟩

end Chosen

theorem chosen_of_pick {c : Compaction} (h : pickCompaction opts levels compactPointer force = .work c) :
    Chosen opts levels force c.level c.inputs ∧ ∃ first ∈ c.inputs, c = workFor levels c.level first c.inputs := by
  unfold pickCompaction at h
  split at h
  · cases h
  · cases h
  next level first rest hc =>
    cases h
    exact ⟨chooseInputs_cases hc, first, by simp [workFor], rfl⟩

theorem pickCompaction_spec {c : Compaction} (h : pickCompaction opts levels compactPointer force = .work c) :
    TakenFrom levels c.level c.inputs ∧
      ∃ first ∈ c.inputs, c = workFor levels c.level first c.inputs := by
  obtain ⟨hchosen, first, hfirst, hc⟩ := chosen_of_pick h
  exact ⟨⟨List.ne_nil_of_mem hfirst, hchosen.source⟩, first, hfirst, hc⟩

theorem pickCompaction_ne_undefined (ht : 1 ≤ opts.l0CompactionTrigger)
    (levels : Levels) (compactPointer : List Key) (force : Bool) :
    pickCompaction opts levels compactPointer force ≠ .undefined := by
  intro h
  unfold pickCompaction at h
  split at h
  · cases h
  next level hc => exact (chooseInputs_cases hc).nonempty (Nat.one_le_iff_ne_zero.mp ht) rfl
  · cases h

end Levels

end KVStore
