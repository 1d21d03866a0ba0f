import KVStore.TableFormat
import KVStore.BuilderLimits

namespace KVStore

open Lib SortedRun Encoding TableFormat Sizes

/-- `SSTableBuilder` with the bytes that it appends to its file. `lastKey` is `last_key_` where
`has_last_key_` is set. -/
structure SSTableWriter where
  file : Bytes
  blockSize : Nat
  filter : BloomBuilder
  block : Bytes
  blockLastKey : Key
  lastKey : Option Key
  index : List IndexEntry
  entries : Nat
  finished : Bool

namespace SSTableWriter

variable [Crc] [ProbeCount]

def create (blockSize bitsPerKey : Nat) : Except Failure SSTableWriter :=
  if blockSize = 0 then .error (.invalidArgument (text "block size must not be zero"))
  else .ok ⟨[], blockSize, .create bitsPerKey, [], [], none, [], 0, false⟩

def flushBlock (w : SSTableWriter) : Except Failure SSTableWriter :=
  if w.block = [] then .ok w
  else if w.block.length + Sizes.kBlockTrailerSize > maxUInt32 then
    .error (.invalidArgument (text "sstable block exceeds the maximum block size"))
  else
    let block := w.block ++ putU32 (Crc.crc32Of w.block).toNat
    .ok
      { w with
        file := w.file ++ block
        index := w.index ++ [⟨w.blockLastKey, w.file.length, block.length⟩]
        block := []
        blockLastKey := [] }

/-- What `add` does to the builder with an entry that passes its checks. -/
def appendEntry (w : SSTableWriter) (key : Key) (stored : Value) (tombstone : Bool) : SSTableWriter :=
  { w with
    filter := w.filter.add key
    block := w.block ++ (putU32 key.length ++ (putU32 stored.length ++
      (Record.flagsOf tombstone :: (key ++ stored))))
    blockLastKey := key
    lastKey := some key
    entries := w.entries + 1 }

def add (w : SSTableWriter) (key : Key) (value : Value) (tombstone : Bool) : Except Failure SSTableWriter :=
  if w.finished then .error (.invalidArgument (text "add() after finish()"))
  else if key = [] then .error (.invalidArgument (text "key must not be empty"))
  else if w.lastKey.any (fun last => key ≤ last) then
    .error (.invalidArgument (text "sstable keys must be added in strictly increasing order"))
  else
    let stored := Record.stored value tombstone
    if Sizes.kEntryHeaderSize + key.length + stored.length > Record.kMaxRecordSize then
      .error (.invalidArgument (text "entry exceeds the maximum record size"))
    else
      let w := w.appendEntry key stored tombstone
      if w.blockSize ≤ w.block.length then w.flushBlock else .ok w

def finish (w : SSTableWriter) : Except Failure SSTableWriter :=
  if w.finished then .error (.invalidArgument (text "finish() called twice"))
  else
    match w.flushBlock with
    | .error s => .error s
    | .ok w =>
      let filterBytes := w.filter.finish
      if filterBytes.length > maxUInt32 then
        .error (.invalidArgument (text "sstable filter exceeds the maximum filter size"))
      else
        let filterOffset := w.file.length
        let file := w.file ++ filterBytes
        let indexBytes := indexBody w.index ++ putU32 (Crc.crc32Of (indexBody w.index)).toNat
        if indexBytes.length > maxUInt32 then
          .error (.invalidArgument (text "sstable index exceeds the maximum index size"))
        else
          let indexOffset := file.length
          let file := file ++ indexBytes
          let footer : Footer :=
            ⟨indexOffset, indexBytes.length, filterOffset, filterBytes.length, w.entries, kFormatVersion⟩
          .ok { w with file := file ++ encodeFooter footer, finished := true }

def addAll (w : SSTableWriter) : List Entry → Except Failure SSTableWriter
  | [] => .ok w
  | e :: rest =>
    match w.add e.1 e.2.value e.2.tombstone with
    | .error s => .error s
    | .ok w' => w'.addAll rest

/-- The file that `create`, the calls of `add` and `finish` leave. -/
def build (blockSize bitsPerKey : Nat) (es : List Entry) : Except Failure Bytes :=
  match create blockSize bitsPerKey with
  | .error s => .error s
  | .ok w =>
    match w.addAll es with
    | .error s => .error s
    | .ok w' => w'.finish.map SSTableWriter.file

end SSTableWriter

namespace TableFormat

def blockPayload (block : List Entry) : Bytes := block.flatMap encodeEntry

def encodeBlock [Crc] (block : List Entry) : Bytes :=
  blockPayload block ++ putU32 (Crc.crc32Of (blockPayload block)).toNat

def indexOf : Nat → List (List Entry) → List IndexEntry
  | _, [] => []
  | offset, block :: blocks =>
    let size := Sizes.blockSize block + Sizes.kBlockTrailerSize
    ⟨TableFile.blockLastKey block, offset, size⟩ :: indexOf (offset + size) blocks

def filterOf (bitsPerKey : Nat) (es : List Entry) : BloomBuilder :=
  ⟨(BloomBuilder.create bitsPerKey).bitsPerKey, es.map fun e => Hashing.hash64 e.1⟩

def encodeIndex [Crc] (index : List IndexEntry) : Bytes :=
  indexBody index ++ putU32 (Crc.crc32Of (indexBody index)).toNat

section File

variable [Crc] [ProbeCount] (bitsPerKey : Nat) (f : TableFile)

def dataBytes : Bytes := f.blocks.flatMap encodeBlock

def filterBytes : Bytes := (filterOf bitsPerKey f.entries).finish

def indexBytes : Bytes := encodeIndex (indexOf 0 f.blocks)

def footerOf : Footer where
  indexOffset := (dataBytes f).length + (filterBytes bitsPerKey f).length
  indexSize := (indexBytes f).length
  filterOffset := (dataBytes f).length
  filterSize := (filterBytes bitsPerKey f).length
  entryCount := f.entries.length
  formatVersion := kFormatVersion

def encodeFile : Bytes :=
  dataBytes f ++ (filterBytes bitsPerKey f ++ (indexBytes f ++ encodeFooter (footerOf bitsPerKey f)))

end File

section Lengths

variable [Crc]

theorem length_encodeBlock (block : List Entry) :
    (encodeBlock block).length = Sizes.blockSize block + kBlockTrailerSize := by
  rw [encodeBlock, List.length_append, blockPayload, length_flatMap_encodeEntry, length_putU32]
  rfl

theorem length_flatMap_encodeBlock (blocks : List (List Entry)) :
    (blocks.flatMap encodeBlock).length =
      (blocks.map fun b => Sizes.blockSize b + kBlockTrailerSize).sum := by
  simp [length_encodeBlock]

theorem indexOf_concat (offset : Nat) (blocks : List (List Entry)) (block : List Entry) :
    indexOf offset (blocks ++ [block]) = indexOf offset blocks ++
      [⟨TableFile.blockLastKey block, offset + (blocks.flatMap encodeBlock).length, (encodeBlock block).length⟩] := by
  induction blocks generalizing offset with
  | nil => simp [indexOf, length_encodeBlock]
  | cons first blocks ih =>
    have hoffset : offset + (Sizes.blockSize first + kBlockTrailerSize) + (blocks.flatMap encodeBlock).length =
        offset + ((first :: blocks).flatMap encodeBlock).length := by
      rw [List.flatMap_cons, List.length_append, length_encodeBlock, Nat.add_assoc]
    rw [List.cons_append, indexOf, ih, indexOf, List.cons_append, hoffset]

omit [Crc] in
theorem map_key_indexOf (offset : Nat) (blocks : List (List Entry)) :
    (indexOf offset blocks).map IndexEntry.key = blocks.map TableFile.blockLastKey := by
  induction blocks generalizing offset with
  | nil => rfl
  | cons block blocks ih => rw [indexOf, List.map_cons, List.map_cons, ih]

omit [Crc] in
@[simp] theorem length_indexOf (offset : Nat) (blocks : List (List Entry)) :
    (indexOf offset blocks).length = blocks.length := by
  have hmap := congrArg List.length (map_key_indexOf offset blocks)
  rwa [List.length_map, List.length_map] at hmap

theorem length_encodeIndex (blocks : List (List Entry)) (offset : Nat) :
    (encodeIndex (indexOf offset blocks)).length = indexSize blocks := by
  have hkeys : (indexOf offset blocks).map (fun e => kIndexEntryFixedSize + e.key.length) =
      blocks.map fun b => kIndexEntryFixedSize + (TableFile.blockLastKey b).length := by
    have hmap := congrArg (List.map fun key : Key => kIndexEntryFixedSize + key.length)
      (map_key_indexOf offset blocks)
    simpa only [List.map_map, Function.comp_def] using hmap
  rw [encodeIndex, List.length_append, length_indexBody, hkeys, length_putU32]
  rfl

theorem length_filterOf [ProbeCount] (bitsPerKey : Nat) (es : List Entry) :
    (filterOf bitsPerKey es).finish.length = filterSize bitsPerKey es.length := by
  rw [BloomBuilder.length_finish, BloomBuilder.byteCount, filterOf, List.length_map]
  rfl

end Lengths

end TableFormat

namespace SSTableWriter

theorem blockPayload_eq_nil_iff {block : List Entry} : blockPayload block = [] ↔ block = [] := by
  constructor
  · intro h
    cases block with
    | nil => rfl
    | cons =>
      have hlength := congrArg List.length h
      rw [blockPayload, List.flatMap_cons, List.length_append, length_encodeEntry, entrySize,
        kEntryHeaderSize, List.length_nil] at hlength
      omega
  · rintro rfl
    rfl

theorem endsBefore_eq (key : Key) (l : List Entry) :
    endsBefore key l = !(l.getLast?.map Prod.fst).any (fun last => decide (key ≤ last)) := by
  unfold endsBefore
  cases l.getLast? with
  | none => rfl
  | some =>
    simp only [Option.all_some, Option.map_some, Option.any_some]
    rw [← decide_not]
    exact decide_eq_decide.mpr not_le.symm

variable [Crc]

/-- The builder's bytes, from the entries that it was given. -/
def ofBuilder (b : SSTableBuilder) : SSTableWriter where
  file := b.blocks.flatMap encodeBlock
  blockSize := b.blockSize
  filter := filterOf b.bitsPerKey b.entries
  block := blockPayload b.block
  blockLastKey := TableFile.blockLastKey b.block
  lastKey := b.entries.getLast?.map Prod.fst
  index := indexOf 0 b.blocks
  entries := b.entries.length
  finished := b.finished

theorem create_eq (blockSize bitsPerKey : Nat) :
    create blockSize bitsPerKey = (SSTableBuilder.create blockSize bitsPerKey).map ofBuilder := by
  unfold create SSTableBuilder.create
  split
  · rfl
  · rfl

theorem flushBlock_ofBuilder (b : SSTableBuilder) : (ofBuilder b).flushBlock = b.flushBlock.map ofBuilder := by
  have hlength : (ofBuilder b).block.length = Sizes.blockSize b.block := length_flatMap_encodeEntry b.block
  have hnil : (ofBuilder b).block = [] ↔ b.block = [] := blockPayload_eq_nil_iff
  unfold flushBlock SSTableBuilder.flushBlock
  by_cases hblock : b.block = []
  · rw [if_pos (hnil.mpr hblock), dif_pos hblock]
    rfl
  · rw [if_neg (fun h => hblock (hnil.mp h)), dif_neg hblock, hlength]
    split
    · rfl
    · simp only [Except.map, ofBuilder, SSTableBuilder.entries, List.flatten_append, List.flatten_singleton,
        List.append_nil, List.flatMap_append, List.flatMap_singleton, indexOf_concat, Nat.zero_add]
      rfl

theorem flushFull_ofBuilder (b : SSTableBuilder) :
    (if (ofBuilder b).blockSize ≤ (ofBuilder b).block.length then (ofBuilder b).flushBlock else .ok (ofBuilder b)) =
      (if b.blockSize ≤ Sizes.blockSize b.block then b.flushBlock else .ok b).map ofBuilder := by
  rw [show (ofBuilder b).block.length = _ from length_flatMap_encodeEntry b.block,
    show (ofBuilder b).blockSize = b.blockSize from rfl, flushBlock_ofBuilder]
  split
  · rfl
  · rfl

theorem ofBuilder_appendEntry {b : SSTableBuilder} {key : Key} {value : Value} {tombstone : Bool}
    (h : endsBefore key (b.blocks.flatten ++ b.block) = true) :
    ofBuilder (b.appendEntry (storedEntry (key, ⟨value, tombstone⟩)) h) =
      (ofBuilder b).appendEntry key (Record.stored value tombstone) tombstone := by
  simp [ofBuilder, appendEntry, SSTableBuilder.appendEntry, SSTableBuilder.entries, filterOf, BloomBuilder.add,
    blockPayload, encodeEntry, TableFile.blockLastKey, storedEntry, MemEntry.stored, Record.stored, Nat.add_assoc]

theorem add_ofBuilder (b : SSTableBuilder) (key : Key) (value : Value) (tombstone : Bool) :
    (ofBuilder b).add key value tombstone = (b.add key value tombstone).map ofBuilder := by
  have hfinished : (ofBuilder b).finished = b.finished := rfl
  have hlast : (ofBuilder b).lastKey = (b.blocks.flatten ++ b.block).getLast?.map Prod.fst := rfl
  unfold add SSTableBuilder.add
  rw [hfinished, hlast]
  split
  · rfl
  split
  · rfl
  have hends := endsBefore_eq key (b.blocks.flatten ++ b.block)
  by_cases horder : endsBefore key (b.blocks.flatten ++ b.block) = true
  · rw [horder, eq_comm, Bool.not_eq_true'] at hends
    rw [dif_pos horder, if_neg (by rw [hends]; exact Bool.false_ne_true)]
    dsimp only
    rw [show entrySize (storedEntry (key, ⟨value, tombstone⟩)) =
      kEntryHeaderSize + key.length + (Record.stored value tombstone).length from rfl]
    split
    · rfl
    · rw [← ofBuilder_appendEntry horder]
      exact flushFull_ofBuilder _
  · rw [Bool.not_eq_true] at horder
    rw [horder, eq_comm, Bool.not_eq_false'] at hends
    rw [dif_neg (by rw [horder]; exact Bool.false_ne_true), if_pos hends]
    rfl

theorem addAll_ofBuilder (b : SSTableBuilder) (es : List Entry) :
    (ofBuilder b).addAll es = (b.addAll es).map ofBuilder := by
  induction es generalizing b with
  | nil => rfl
  | cons e es ih =>
    rw [addAll, SSTableBuilder.addAll, add_ofBuilder]
    cases b.add e.1 e.2.value e.2.tombstone with
    | error => rfl
    | ok b' => exact ih b'

variable [ProbeCount]

theorem finish_ofBuilder (b : SSTableBuilder) :
    (ofBuilder b).finish.map SSTableWriter.file = b.finish.map fun p => encodeFile b.bitsPerKey p.2 := by
  have hfinished : (ofBuilder b).finished = b.finished := rfl
  unfold finish SSTableBuilder.finish
  rw [hfinished, flushBlock_ofBuilder]
  split
  · rfl
  cases hflush : b.flushBlock with
  | error => rfl
  | ok b' =>
    obtain ⟨hadds, hblock⟩ := (SSTableBuilder.builds_flushBlock b).of_ok hflush
    have hbits : b'.bitsPerKey = b.bitsPerKey := hadds.bitsPerKey
    have hfilter : (ofBuilder b').filter.finish.length = filterSize b'.bitsPerKey b'.entries.length :=
      length_filterOf _ _
    have hindex : (indexBody (ofBuilder b').index ++
        putU32 (Crc.crc32Of (indexBody (ofBuilder b').index)).toNat).length = indexSize b'.blocks :=
      length_encodeIndex b'.blocks 0
    have hentries : b'.entries = b'.blocks.flatten := by
      rw [SSTableBuilder.entries, hblock, List.append_nil]
    simp only [Except.map]
    by_cases hlargeFilter : (ofBuilder b').filter.finish.length > maxUInt32
    · have hlarge : filterSize b'.bitsPerKey b'.entries.length > maxUInt32 := hfilter ▸ hlargeFilter
      rw [if_pos hlargeFilter, if_pos hlarge]
    have hsmall : ¬ filterSize b'.bitsPerKey b'.entries.length > maxUInt32 := hfilter ▸ hlargeFilter
    rw [if_neg hlargeFilter, if_neg hsmall]
    by_cases hlargeIndex : (indexBody (ofBuilder b').index ++
        putU32 (Crc.crc32Of (indexBody (ofBuilder b').index)).toNat).length > maxUInt32
    · have hlarge : indexSize b'.blocks > maxUInt32 := hindex ▸ hlargeIndex
      rw [if_pos hlargeIndex, if_pos hlarge]
    have hsmall : ¬ indexSize b'.blocks > maxUInt32 := hindex ▸ hlargeIndex
    rw [if_neg hlargeIndex, if_neg hsmall]
    simp [ofBuilder, encodeFile, footerOf, dataBytes, filterBytes, indexBytes, encodeIndex, TableFile.entries, hentries, hbits]

theorem build_eq (blockSize bitsPerKey : Nat) (es : List Entry) :
    build blockSize bitsPerKey es = (buildTable blockSize bitsPerKey es).map (encodeFile bitsPerKey) := by
  unfold build buildTable
  rw [create_eq]
  cases hcreate : SSTableBuilder.create blockSize bitsPerKey with
  | error => rfl
  | ok b =>
    have hbits : b.bitsPerKey = bitsPerKey := (SSTableBuilder.create_spec hcreate).2.1
    simp only [Except.map]
    rw [addAll_ofBuilder]
    cases hadded : b.addAll es with
    | error => rfl
    | ok b' =>
      have hfinish := finish_ofBuilder b'
      rw [((SSTableBuilder.builds_addAll b es).of_ok hadded).bitsPerKey, hbits] at hfinish
      simp only [Except.map] at hfinish ⊢
      rw [hfinish]
      cases b'.finish with
      | error => rfl
      | ok => rfl

end SSTableWriter

end KVStore
