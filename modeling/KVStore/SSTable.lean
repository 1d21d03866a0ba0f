import KVStore.Memtable
import KVStore.Lib.PartitionPoint

namespace KVStore

open Lib PartitionPoint SortedRun

/-- What a finished table file holds: its data blocks in key order and its
length on disk. The index stores the last key of each block, so it is read off
the blocks. -/
structure TableFile where
  blocks : List (List Entry)
  fileSize : Nat
  nonempty : ∀ block ∈ blocks, block ≠ []
  sorted : SortedRun.Sorted blocks.flatten
  deriving DecidableEq

inductive Lookup
  | notPresent
  | deleted
  | found (value : Value)
  deriving DecidableEq, Repr

namespace Lookup

def ofEntry : Option MemEntry → Lookup
  | none => .notPresent
  | some e => if e.tombstone then .deleted else .found e.value

end Lookup

namespace TableFile

def entries (f : TableFile) : List Entry := f.blocks.flatten

def entryCount (f : TableFile) : Nat := f.entries.length

def minKey (f : TableFile) : Key :=
  match f.blocks.head? with
  | none => []
  | some block => (block.head?.map Prod.fst).getD []

def blockLastKey (block : List Entry) : Key := (block.getLast?.map Prod.fst).getD []

def maxKey (f : TableFile) : Key :=
  match f.blocks.getLast? with
  | none => []
  | some block => blockLastKey block

def lookup (f : TableFile) (key : Key) : Lookup :=
  if f.blocks.isEmpty then .notPresent
  else if key < f.minKey ∨ f.maxKey < key then .notPresent
  else
    match f.blocks[PartitionPoint.lowerBound (fun b => blockLastKey b < key) f.blocks]? with
    | none => .notPresent
    | some block =>
      match block[PartitionPoint.lowerBound (fun e : Entry => e.1 < key) block]? with
      | none => .notPresent
      | some hit =>
        if hit.1 ≠ key then .notPresent
        else if hit.2.tombstone then .deleted
        else .found hit.2.value

theorem entries_eq_nil_iff (f : TableFile) : f.entries = [] ↔ f.blocks = [] := by
  refine ⟨fun h => ?_, fun h => by simp [entries, h]⟩
  rcases hb : f.blocks with _ | ⟨block, rest⟩
  · rfl
  · have hne : block ≠ [] := f.nonempty block (by simp [hb])
    simp [entries, hb, hne] at h

theorem minKey_eq (f : TableFile) : f.minKey = (f.entries.head?.map Prod.fst).getD [] := by
  unfold minKey entries
  rcases hb : f.blocks with _ | ⟨block, rest⟩
  · rfl
  · have hne : block ≠ [] := f.nonempty block (by simp [hb])
    obtain ⟨e, block', rfl⟩ := List.exists_cons_of_ne_nil hne
    rfl

theorem maxKey_eq (f : TableFile) : f.maxKey = blockLastKey f.entries := by
  unfold maxKey entries
  rcases List.eq_nil_or_concat f.blocks with hb | ⟨rest, block, hb⟩
  · simp [hb, blockLastKey]
  · rw [List.concat_eq_append] at hb
    have hne : block ≠ [] := f.nonempty block (by simp [hb])
    obtain ⟨l, e, rfl⟩ := (List.eq_nil_or_concat block).resolve_left hne
    simp [hb, blockLastKey]

variable {f : TableFile} {e : Entry} {block : List Entry}

theorem minKey_le (he : e ∈ f.entries) : f.minKey ≤ e.1 := by
  rw [minKey_eq]
  have hs : Sorted f.entries := f.sorted
  obtain ⟨a, l, hl⟩ := List.exists_cons_of_ne_nil (List.ne_nil_of_mem he)
  rw [hl] at hs he ⊢
  rcases List.mem_cons.mp he with rfl | he
  · exact le_refl _
  · exact le_of_lt ((List.pairwise_cons.mp hs).1 e he)

theorem le_maxKey (he : e ∈ f.entries) : e.1 ≤ f.maxKey := by
  rw [maxKey_eq]
  have hs : Sorted f.entries := f.sorted
  obtain ⟨l, a, hl⟩ := (List.eq_nil_or_concat f.entries).resolve_left (List.ne_nil_of_mem he)
  rw [hl, List.concat_eq_append] at hs he ⊢
  simp only [blockLastKey, List.getLast?_append, List.getLast?_singleton, Option.some_or,
    Option.map_some, Option.getD_some]
  rcases List.mem_append.mp he with he | he
  · exact le_of_lt ((List.pairwise_append.mp hs).2.2 e he a (by simp))
  · exact le_of_eq (congrArg Prod.fst (List.mem_singleton.mp he))

theorem minKey_mem (h : f.entries ≠ []) : f.minKey ∈ keys f.entries := by
  rw [minKey_eq]
  obtain ⟨a, l, hl⟩ := List.exists_cons_of_ne_nil h
  simp [hl, keys]

theorem maxKey_mem (h : f.entries ≠ []) : f.maxKey ∈ keys f.entries := by
  rw [maxKey_eq]
  obtain ⟨l, a, hl⟩ := (List.eq_nil_or_concat f.entries).resolve_left h
  simp [hl, blockLastKey, keys]

theorem minKey_le_maxKey (f : TableFile) : f.minKey ≤ f.maxKey := by
  by_cases h : f.entries = []
  · rw [minKey_eq, maxKey_eq, h]
    exact le_refl _
  · obtain ⟨e, he, hmin⟩ := List.mem_map.mp (minKey_mem h)
    rw [← hmin]
    exact le_maxKey he

theorem blockLastKey_lt (h : block ≠ []) (key : Key) :
    decide (blockLastKey block < key) = endsBefore key block := by
  obtain ⟨l, a, rfl⟩ := (List.eq_nil_or_concat block).resolve_left h
  simp [blockLastKey, endsBefore]

theorem find?_congr_mem {α : Type} {p q : α → Bool} {l : List α} (h : ∀ a ∈ l, p a = q a) :
    l.find? p = l.find? q := by
  induction l with
  | nil => rfl
  | cons a l ih =>
    rw [List.find?_cons, List.find?_cons, h a (by simp),
      ih fun b hb => h b (List.mem_cons_of_mem _ hb)]

theorem partitioned_blocks (f : TableFile) (key : Key) :
    Partitioned (fun b => decide (blockLastKey b < key)) f.blocks := by
  refine (partitioned_endsBefore f.sorted f.nonempty key).imp_of_mem ?_
  intro l l' hl hl' h
  simpa [blockLastKey_lt (f.nonempty l hl), blockLastKey_lt (f.nonempty l' hl')] using h

theorem find_entries_eq (f : TableFile) (key : Key) :
    find key f.entries =
      f.blocks[lowerBound (fun b => blockLastKey b < key) f.blocks]?.bind
        (find key) := by
  rw [getElem?_lowerBound (f.partitioned_blocks key), entries, find_flatten f.sorted]
  have hsame : f.blocks.find? (fun b => !endsBefore key b) =
      f.blocks.find? (fun b => !decide (blockLastKey b < key)) :=
    find?_congr_mem fun b hb => congrArg not (blockLastKey_lt (f.nonempty b hb) key).symm
  rw [hsame]

theorem partitioned_block (h : Sorted block) (key : Key) :
    Partitioned (fun e : Entry => decide (e.1 < key)) block :=
  h.imp fun hab hb => by simpa using hab.trans (by simpa using hb)

theorem lookup_eq (f : TableFile) (key : Key) : f.lookup key = Lookup.ofEntry (find key f.entries) := by
  unfold lookup
  split
  next h =>
    have : f.entries = [] := f.entries_eq_nil_iff.mpr (by simpa using h)
    simp [this, Lookup.ofEntry]
  next h =>
    split
    next hrange =>
      have hnone : find key f.entries = none := by
        refine (find_eq_none_iff _ _).mpr fun hm => ?_
        obtain ⟨e, he, rfl⟩ := List.mem_map.mp hm
        rcases hrange with hlt | hgt
        · exact not_lt_of_ge (minKey_le he) hlt
        · exact not_lt_of_ge (le_maxKey he) hgt
      simp [hnone, Lookup.ofEntry]
    next hrange =>
      rw [find_entries_eq]
      split
      next hb => simp [hb, Lookup.ofEntry]
      next block hb =>
        have hs : Sorted block :=
          f.sorted.sublist (List.sublist_flatten_of_mem (List.mem_of_getElem? hb))
        rw [hb, Option.bind_some, find_eq_of_sorted hs,
          ← getElem?_lowerBound (partitioned_block hs key)]
        split
        next he => simp [he, Lookup.ofEntry]
        next hit he => by_cases hk : hit.1 = key <;> simp [he, hk, Option.filter, Lookup.ofEntry]

end TableFile

/-- An open table: the file under its id. Its contents stay readable after the
name is unlinked or reused. -/
structure SSTable where
  id : FileId
  file : TableFile
  deriving DecidableEq

namespace SSTable

def ofBlock (id : FileId) (block : List Entry) (fileSize : Nat) (hne : block ≠ [])
    (hs : SortedRun.Sorted block) : SSTable where
  id := id
  file :=
    { blocks := [block]
      fileSize := fileSize
      nonempty := by simpa using hne
      sorted := by simpa using hs }

def entries (t : SSTable) : List Entry := t.file.entries
def minKey (t : SSTable) : Key := t.file.minKey
def maxKey (t : SSTable) : Key := t.file.maxKey
def entryCount (t : SSTable) : Nat := t.file.entryCount
def fileSize (t : SSTable) : Nat := t.file.fileSize
def lookup (t : SSTable) (key : Key) : Lookup := t.file.lookup key

theorem sorted (t : SSTable) : Sorted t.entries := t.file.sorted

end SSTable

end KVStore
