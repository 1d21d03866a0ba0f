import KVStore.SSTableBuilder

namespace KVStore

open Lib SortedRun TableFile

inductive LsmFailPoint
  | none
  | afterWritingTable
  | afterInstallingTable
  | afterManifestCommit
  deriving DecidableEq, Repr

structure LsmOptions where
  memtableSize : Nat := 4 * 2 ^ 20
  blockSize : Nat := 4096
  bitsPerKey : Nat := Sizes.kDefaultBitsPerKey
  l0CompactionTrigger : Nat := 4
  levelBaseBytes : Nat := 10 * 2 ^ 20
  levelMultiplier : Nat := 10
  targetTableSize : Nat := 2 * 2 ^ 20
  maxLevels : Nat := 7
  failAt : LsmFailPoint := .none
  deriving DecidableEq, Repr

/-- L0 newest first, then each deeper level in key order. -/
abbrev Levels := List (List SSTable)

namespace Lookup

def orElse : Lookup → Lookup → Lookup
  | .notPresent, older => older
  | newer, _ => newer

def value : Lookup → Option Value
  | .found v => some v
  | _ => none

def answer (key : Key) : Lookup → Status × Option Value
  | .found v => (.ok, some v)
  | _ => (.notFound (text "no such key: " ++ key), none)

theorem answer_congr {a b : Lookup} (h : a.value = b.value) (key : Key) : a.answer key = b.answer key := by
  cases a <;> cases b <;> simp_all [value, answer]

theorem ofEntry_or (a b : Option MemEntry) : ofEntry (a.or b) = (ofEntry a).orElse (ofEntry b) := by
  rcases a with _ | ⟨v, _ | _⟩ <;> rfl

end Lookup

def visible : Option MemEntry → Option Value
  | some ⟨v, false⟩ => some v
  | _ => none

theorem value_ofEntry (a : Option MemEntry) : (Lookup.ofEntry a).value = visible a := by
  rcases a with _ | ⟨v, _ | _⟩ <;> rfl

theorem visible_map_stored (a : Option MemEntry) : visible (a.map MemEntry.stored) = visible a := by
  rcases a with _ | ⟨v, _ | _⟩ <;> rfl

namespace Levels

def findInLevel (level : List SSTable) (key : Key) : Option SSTable :=
  match level[PartitionPoint.lowerBound (fun t : SSTable => t.maxKey < key) level]? with
  | none => none
  | some t => if key < t.minKey then none else some t

def searchL0 (key : Key) : List SSTable → Lookup
  | [] => .notPresent
  | t :: rest => (t.lookup key).orElse (searchL0 key rest)

def searchDeeper (key : Key) : List (List SSTable) → Lookup
  | [] => .notPresent
  | level :: rest =>
    match findInLevel level key with
    | none => searchDeeper key rest
    | some t => (t.lookup key).orElse (searchDeeper key rest)

/-- The table half of `get`: every L0 table newest first, then one candidate per
deeper level. -/
def search (levels : Levels) (key : Key) : Lookup :=
  match levels with
  | [] => .notPresent
  | l0 :: deeper => (searchL0 key l0).orElse (searchDeeper key deeper)

def runOf (level : List SSTable) : List Entry := (level.map SSTable.entries).flatten

def entries (levels : Levels) : List Entry := (levels.map runOf).flatten

structure Shaped (level : List SSTable) : Prop where
  nonempty : ∀ t ∈ level, t.entries ≠ []
  disjoint : level.Pairwise (fun a b => a.maxKey < b.minKey)

instance (level : List SSTable) : Decidable (Shaped level) :=
  decidable_of_iff ((∀ t ∈ level, t.entries ≠ []) ∧
      level.Pairwise fun a b : SSTable => a.maxKey < b.minKey)
    ⟨fun h => ⟨h.1, h.2⟩, fun h => ⟨h.nonempty, h.disjoint⟩⟩

@[simp] theorem runOf_nil : runOf [] = [] := rfl

@[simp] theorem runOf_cons (t : SSTable) (level : List SSTable) :
    runOf (t :: level) = t.entries ++ runOf level := rfl

@[simp] theorem runOf_append (a b : List SSTable) : runOf (a ++ b) = runOf a ++ runOf b := by
  simp [runOf]

@[simp] theorem entries_nil : entries [] = [] := rfl

@[simp] theorem entries_cons (level : List SSTable) (levels : Levels) :
    entries (level :: levels) = runOf level ++ entries levels := rfl

@[simp] theorem entries_append (a b : Levels) : entries (a ++ b) = entries a ++ entries b := by
  simp [entries]

variable {level : List SSTable} {t : SSTable}

theorem mem_runOf {e : Entry} : e ∈ runOf level ↔ ∃ t ∈ level, e ∈ t.entries := by
  simp [runOf]

theorem shaped_nil : Shaped [] := ⟨by simp, List.Pairwise.nil⟩

theorem Shaped.tail (h : Shaped (t :: level)) : Shaped level :=
  ⟨fun s hs => h.nonempty s (List.mem_cons_of_mem _ hs), (List.pairwise_cons.mp h.disjoint).2⟩

theorem Shaped.sublist {a b : List SSTable} (h : Shaped b) (hab : a.Sublist b) : Shaped a :=
  ⟨fun t ht => h.nonempty t (hab.subset ht), h.disjoint.sublist hab⟩

theorem Shaped.sorted (h : Shaped level) : Sorted (runOf level) := by
  induction level with
  | nil => exact List.Pairwise.nil
  | cons t level ih =>
    refine List.pairwise_append.mpr ⟨t.sorted, ih h.tail, ?_⟩
    intro a ha b hb
    obtain ⟨s, hs, hbs⟩ := mem_runOf.mp hb
    calc a.1 ≤ t.maxKey := le_maxKey ha
      _ < s.minKey := (List.pairwise_cons.mp h.disjoint).1 s hs
      _ ≤ b.1 := minKey_le hbs

theorem shaped_of_sorted (hne : ∀ t ∈ level, t.entries ≠ []) (h : Sorted (runOf level)) : Shaped level := by
  refine ⟨hne, ?_⟩
  induction level with
  | nil => exact List.Pairwise.nil
  | cons t level ih =>
    obtain ⟨_, hrest, hcross⟩ := List.pairwise_append.mp h
    refine List.pairwise_cons.mpr ⟨?_, ih (fun s hs => hne s (List.mem_cons_of_mem _ hs)) hrest⟩
    intro s hs
    obtain ⟨a, ha, hat⟩ := List.mem_map.mp (maxKey_mem (hne t (by simp)))
    obtain ⟨b, hb, hbs⟩ :=
      List.mem_map.mp (minKey_mem (hne s (List.mem_cons_of_mem _ hs)))
    have hab := hcross a ha b (mem_runOf.mpr ⟨s, hs, hb⟩)
    rwa [hat, hbs] at hab

theorem maxKey_lt (h : t.entries ≠ []) (key : Key) : decide (t.maxKey < key) = endsBefore key t.entries := by
  rw [SSTable.maxKey, maxKey_eq]
  exact blockLastKey_lt h key

theorem find_runOf (h : Shaped level) (key : Key) :
    find key (runOf level) =
      (findInLevel level key).bind (fun t => find key t.entries) := by
  have hmono : level.Pairwise (fun a b => decide (b.maxKey < key) = true →
      decide (a.maxKey < key) = true) := by
    refine h.disjoint.imp_of_mem ?_
    intro a b ha hb hab hlt
    have hb' : b.minKey ≤ b.maxKey := minKey_le_maxKey _
    simpa using (hab.trans_le hb').trans (by simpa using hlt)
  have hcand : level.find? (fun t => !decide (t.maxKey < key)) =
      level.find? (fun t => !endsBefore key t.entries) :=
    TableFile.find?_congr_mem fun t ht => congrArg not (maxKey_lt (h.nonempty t ht) key)
  unfold findInLevel
  rw [PartitionPoint.getElem?_lowerBound hmono, hcand, runOf, find_flatten h.sorted,
    List.find?_map]
  change Option.bind (Option.map SSTable.entries
    (level.find? (fun t => !endsBefore key t.entries))) _ = _
  cases hf : level.find? (fun t => !endsBefore key t.entries) with
  | none => rfl
  | some t =>
    by_cases hk : key < t.minKey
    · have hnone : find key t.entries = none := by
        refine (find_eq_none_iff _ _).mpr fun hm => ?_
        obtain ⟨e, he, rfl⟩ := List.mem_map.mp hm
        exact not_lt_of_ge (minKey_le he) hk
      simp [hk, hnone]
    · simp [hk]

theorem searchL0_eq (key : Key) (l0 : List SSTable) :
    searchL0 key l0 = Lookup.ofEntry (find key (runOf l0)) := by
  induction l0 with
  | nil => rfl
  | cons t l0 ih =>
    rw [searchL0, ih, runOf_cons, find_append, Lookup.ofEntry_or, SSTable.lookup,
      lookup_eq]
    rfl

theorem searchDeeper_eq (key : Key) {deeper : List (List SSTable)} (h : ∀ level ∈ deeper, Shaped level) :
    searchDeeper key deeper = Lookup.ofEntry (find key (entries deeper)) := by
  induction deeper with
  | nil => rfl
  | cons level deeper ih =>
    have ih' := ih fun l hl => h l (List.mem_cons_of_mem _ hl)
    rw [searchDeeper, entries_cons, find_append, find_runOf (h level (by simp))]
    cases findInLevel level key with
    | none => simpa using ih'
    | some =>
      simp only [Option.bind_some]
      rw [ih', Lookup.ofEntry_or, SSTable.lookup, lookup_eq]
      rfl

theorem search_eq {levels : Levels} (h : ∀ level ∈ levels.tail, Shaped level) (key : Key) :
    levels.search key = Lookup.ofEntry (find key levels.entries) := by
  cases levels with
  | nil => rfl
  | cons l0 deeper =>
    rw [search, searchL0_eq, @searchDeeper_eq key deeper h, entries_cons, find_append,
      Lookup.ofEntry_or]

end Levels

end KVStore
