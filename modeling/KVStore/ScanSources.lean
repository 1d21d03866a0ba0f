import KVStore.LsmStep
import KVStore.TableRange

namespace KVStore

open Lib KWayMerge SortedRun Checked TableFormat

namespace EntrySource

variable {σ τ : Type} {S : EntrySource σ} {T : EntrySource τ} {es : List Entry}

/-- Sources of two classes behind one interface. -/
def sum (S : EntrySource σ) (T : EntrySource τ) : EntrySource (σ ⊕ τ) where
  valid := Sum.elim S.valid T.valid
  entry := Sum.elim S.entry T.entry
  advance := Sum.elim
    (fun s => do
      let (r, s) ← S.advance s
      return (r, .inl s))
    (fun s => do
      let (r, s) ← T.advance s
      return (r, .inr s))

theorem Streams.inl {s : σ} (h : S.Streams s es) : (S.sum T).Streams (.inl s) es := by
  induction h with
  | done invalid => exact .done invalid
  | step valid entry advance _ ih => exact .step valid entry (by simp only [sum, Sum.elim_inl, advance]; rfl) ih

theorem Streams.inr {s : τ} (h : T.Streams s es) : (S.sum T).Streams (.inr s) es := by
  induction h with
  | done invalid => exact .done invalid
  | step valid entry advance _ ih => exact .step valid entry (by simp only [sum, Sum.elim_inr, advance]; rfl) ih

end EntrySource

theorem MemtableSource.streams_create {map : List Entry} (hsorted : Sorted map) (beginKey endKey : Key) :
    entrySource.Streams (create map beginKey endKey) (map.filter (inRange beginKey endKey)) := by
  have hbelow : TableSource.below endKey = fun e : Entry => decide (endKey = []) || decide (e.1 < endKey) :=
    funext fun e => Bool.decide_or _ _
  have hrest : (if beginKey = [] then map else map.dropWhile fun e => e.1 < beginKey) =
      map.dropWhile fun e => e.1 < beginKey := by
    split
    next hbegin => rw [hbegin, TableSource.dropWhile_lt_nil]
    next => rfl
  rw [TableSource.filter_inRange hsorted, hbelow, create, hrest]
  exact streams _ endKey

theorem sorted_ranged {memtables : List (List Entry)} (version : Levels) (beginKey endKey : Key)
    (h : ∀ m ∈ memtables, Sorted m) :
    ∀ s ∈ (memtables ++ version.flatten.map SSTable.entries).map (List.filter (inRange beginKey endKey)), Sorted s := by
  simp only [List.map_append, List.map_map, List.mem_append, List.mem_map]
  rintro _ (⟨m, hm, rfl⟩ | ⟨t, -, rfl⟩)
  · exact (h m hm).filter _
  · exact List.Pairwise.filter _ t.sorted

section

variable [Crc] [ProbeCount]

/-- The cursor that a scan creates over the file of a table. -/
def Opens (mode : ReadMode) (bloomEnabled : Bool) (bitsPerKey : Nat) (beginKey endKey : Key) (t : SSTable)
    (s : TableSource) : Prop :=
  ∃ reader, SSTableReader.openTable (sstFileName t.id) (encodeFile bitsPerKey t.file) mode bloomEnabled = .ok reader ∧
    TableSource.create reader.blockReader beginKey endKey = .ok (.ok (), s)

theorem exists_cursors (mode : ReadMode) (bloomEnabled : Bool) (bitsPerKey : Nat) (beginKey endKey : Key)
    {tables : List SSTable} (hfits : ∀ t ∈ tables, t.file.Fits) :
    ∃ cursors, List.Forall₂ (Opens mode bloomEnabled bitsPerKey beginKey endKey) tables cursors ∧
      List.Forall₂ (fun s t => TableSource.entrySource.Streams s (t.entries.filter (inRange beginKey endKey)))
        cursors tables := by
  induction tables with
  | nil => exact ⟨[], .nil, .nil⟩
  | cons t tables ih =>
    obtain ⟨cursors, hopens, hstreams⟩ := ih fun t ht => hfits t (List.mem_cons_of_mem _ ht)
    have hfits := hfits t List.mem_cons_self
    obtain ⟨s, hs, hgives⟩ := TableSource.gives_create hfits beginKey endKey
    refine ⟨s :: cursors, .cons ⟨_, SSTableReader.openTable_encodeFile hfits, ?_⟩ hopens,
      .cons (hgives.streams hfits) hstreams⟩
    rw [SSTableReader.blockReader_ofFile]
    exact hs

/-- The rows of a scan are what the iterator finds over a source for each memtable and a cursor
for each table, whatever the read mode and the filters. -/
theorem System.scanRows_eq_rows (mode : ReadMode) (bloomEnabled : Bool) (bitsPerKey : Nat) (beginKey endKey : Key)
    {memtables : List (List Entry)} {version : Levels} (hmemtables : ∀ m ∈ memtables, Sorted m)
    (hfits : ∀ t ∈ version.flatten, t.file.Fits) :
    ∃ cursors, List.Forall₂ (Opens mode bloomEnabled bitsPerKey beginKey endKey) version.flatten cursors ∧
      ∃ live bound, (∀ fuel ≥ bound, MergingIterator.rows (MemtableSource.entrySource.sum TableSource.entrySource) fuel
          { sources := memtables.map (fun m => .inl (.create m beginKey endKey)) ++ cursors.map .inr, mode := .skip } =
            .ok (.ok live)) ∧
        live.map (fun e => (e.1, e.2.value)) = scanRows beginKey endKey memtables version := by
  obtain ⟨cursors, hopens, htables⟩ := exists_cursors mode bloomEnabled bitsPerKey beginKey endKey hfits
  let ranged := (memtables ++ version.flatten.map SSTable.entries).map (List.filter (inRange beginKey endKey))
  have hsources : List.Forall₂ (MemtableSource.entrySource.sum TableSource.entrySource).Streams
      (memtables.map (fun m => .inl (.create m beginKey endKey)) ++ cursors.map .inr) ranged := by
    simp only [ranged, List.map_append, List.map_map]
    refine List.rel_append ?_ ?_
    · rw [List.forall₂_map_left_iff, List.forall₂_map_right_iff, List.forall₂_same]
      exact fun m hm => (MemtableSource.streams_create (hmemtables m hm) beginKey endKey).inl
    · rw [List.forall₂_map_left_iff, List.forall₂_map_right_iff]
      exact htables.imp fun s t h => h.inr
  refine ⟨cursors, hopens, _, total ranged + 1, fun fuel hfuel =>
    MergingIterator.rows_eq hsources (sorted_ranged version beginKey endKey hmemtables) hfuel, ?_⟩
  have hskip : MergingIterator.shows .skip = fun e : Entry => !e.2.tombstone := by
    funext e
    simp [MergingIterator.shows]
  rw [hskip, List.map_map, scanRows]
  refine List.map_congr_left fun e he => ?_
  have hlive : e.2.tombstone = false := by simpa using (List.mem_filter.mp he).2
  simp [storedEntry, MemEntry.stored, hlive]

end

end KVStore
