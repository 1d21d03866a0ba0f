import KVStore.SSTable

namespace KVStore

open Lib SortedRun

def MemEntry.stored (e : MemEntry) : MemEntry := ⟨if e.tombstone then [] else e.value, e.tombstone⟩

def storedEntry (e : Entry) : Entry := (e.1, e.2.stored)

namespace Sizes

def kEntryHeaderSize : Nat := 9
def kBlockTrailerSize : Nat := 4
def kIndexHeaderSize : Nat := 4
def kIndexEntryFixedSize : Nat := 16
def kFooterSize : Nat := 44
def kBloomHeaderSize : Nat := 5
def kBloomTrailerSize : Nat := 4
def kBloomMinBits : Nat := 64
def kBloomMaxBits : Nat := 0xFFFFFFF8
def kDefaultBitsPerKey : Nat := 10

def entrySize (e : Entry) : Nat := kEntryHeaderSize + e.1.length + e.2.value.length

def blockSize (block : List Entry) : Nat := (block.map entrySize).sum

def filterSize (bitsPerKey keys : Nat) : Nat :=
  let bits := keys * (if bitsPerKey = 0 then kDefaultBitsPerKey else bitsPerKey) % 2 ^ 64
  kBloomHeaderSize + (min (max bits kBloomMinBits) kBloomMaxBits + 7) / 8 + kBloomTrailerSize

def indexSize (blocks : List (List Entry)) : Nat :=
  kIndexHeaderSize +
    (blocks.map fun b => kIndexEntryFixedSize + (TableFile.blockLastKey b).length).sum +
    kBlockTrailerSize

end Sizes

def BlockFits (block : List Entry) : Prop := Sizes.blockSize block + Sizes.kBlockTrailerSize ≤ maxUInt32

instance (block : List Entry) : Decidable (BlockFits block) := inferInstanceAs (Decidable (_ ≤ _))

/-- The builder between two calls: the blocks already appended to the temp file,
the open block, and the length of the file. -/
structure SSTableBuilder where
  blockSize : Nat
  bitsPerKey : Nat
  blocks : List (List Entry)
  block : List Entry
  fileSize : Nat
  finished : Bool
  nonempty : ∀ b ∈ blocks, b ≠ []
  sorted : SortedRun.Sorted (blocks.flatten ++ block)

namespace SSTableBuilder

def entries (b : SSTableBuilder) : List Entry := b.blocks.flatten ++ b.block

def create (blockSize bitsPerKey : Nat) : Except Failure SSTableBuilder :=
  if blockSize = 0 then .error (.invalidArgument (text "block size must not be zero"))
  else .ok
    { blockSize, bitsPerKey, blocks := [], block := [], fileSize := 0, finished := false
      nonempty := by simp
      sorted := Memtable.empty.sorted }

def flushBlock (b : SSTableBuilder) : Except Failure SSTableBuilder :=
  if h : b.block = [] then .ok b
  else if Sizes.blockSize b.block + Sizes.kBlockTrailerSize > maxUInt32 then
    .error (.invalidArgument (text "sstable block exceeds the maximum block size"))
  else .ok
    { b with
      blocks := b.blocks ++ [b.block]
      block := []
      fileSize := b.fileSize + Sizes.blockSize b.block + Sizes.kBlockTrailerSize
      nonempty := by
        intro block hb
        rcases List.mem_append.mp hb with hb | hb
        · exact b.nonempty block hb
        · exact List.mem_singleton.mp hb ▸ h
      sorted := by simpa using b.sorted }

def appendEntry (b : SSTableBuilder) (e : Entry)
    (h : SortedRun.endsBefore e.1 (b.blocks.flatten ++ b.block) = true) : SSTableBuilder :=
  { b with
    block := b.block ++ [e]
    sorted := by
      rw [← List.append_assoc]
      exact SortedRun.sorted_concat b.sorted h e.2 }

def add (b : SSTableBuilder) (key : Key) (value : Value) (tombstone : Bool) :
    Except Failure SSTableBuilder :=
  if b.finished then .error (.invalidArgument (text "add() after finish()"))
  else if key = [] then .error (.invalidArgument (text "key must not be empty"))
  else if h : SortedRun.endsBefore key (b.blocks.flatten ++ b.block) = true then
    if Sizes.entrySize (storedEntry (key, ⟨value, tombstone⟩)) > Record.kMaxRecordSize then
      .error (.invalidArgument (text "entry exceeds the maximum record size"))
    else
      let b' := b.appendEntry (storedEntry (key, ⟨value, tombstone⟩)) h
      if b'.blockSize ≤ Sizes.blockSize b'.block then b'.flushBlock else .ok b'
  else
    .error (.invalidArgument (text "sstable keys must be added in strictly increasing order"))

def finish (b : SSTableBuilder) : Except Failure (SSTableBuilder × TableFile) :=
  if b.finished then .error (.invalidArgument (text "finish() called twice"))
  else
    match b.flushBlock with
    | .error s => .error s
    | .ok b' =>
      let filter := Sizes.filterSize b'.bitsPerKey b'.entries.length
      let index := Sizes.indexSize b'.blocks
      if filter > maxUInt32 then
        .error (.invalidArgument (text "sstable filter exceeds the maximum filter size"))
      else if index > maxUInt32 then
        .error (.invalidArgument (text "sstable index exceeds the maximum index size"))
      else
        let size := b'.fileSize + filter + index + Sizes.kFooterSize
        .ok
          ({ b' with fileSize := size, finished := true },
            { blocks := b'.blocks
              fileSize := size
              nonempty := b'.nonempty
              sorted := (List.pairwise_append.mp b'.sorted).1 })

def addAll (b : SSTableBuilder) : List Entry → Except Failure SSTableBuilder
  | [] => .ok b
  | e :: rest =>
    match b.add e.1 e.2.value e.2.tombstone with
    | .error s => .error s
    | .ok b' => b'.addAll rest

/-- The builder does what it is asked to, or refuses an argument. -/
inductive Builds {α : Type} (Q : α → Prop) : Except Failure α → Prop
  | ok {a : α} (holds : Q a) : Builds Q (.ok a)
  | refused (message : Bytes) : Builds Q (.error (.invalidArgument message))

section

variable {α : Type} {Q Q' : α → Prop} {r : Except Failure α}

theorem Builds.imp (h : Builds Q r) (himp : ∀ a, Q a → Q' a) : Builds Q' r := by
  cases h with
  | ok holds => exact .ok (himp _ holds)
  | refused message => exact .refused message

theorem Builds.of_ok {a : α} (h : Builds Q r) (hr : r = .ok a) : Q a := by
  cases h with
  | ok holds => exact Except.ok.inj hr ▸ holds
  | refused => cases hr

theorem Builds.of_error {s : Failure} (h : Builds Q r) (hr : r = .error s) :
    ∃ message, s = .invalidArgument message := by
  cases h with
  | ok => cases hr
  | refused message => exact ⟨message, (Except.error.inj hr).symm⟩

end

/-- The builder has taken these entries; blocks that are written fit the format. -/
structure Adds (b : SSTableBuilder) (es : List Entry) (b' : SSTableBuilder) : Prop where
  keys : ∀ e ∈ es, e.1 ≠ []
  entries : b'.entries = b.entries ++ es.map storedEntry
  bitsPerKey : b'.bitsPerKey = b.bitsPerKey
  fits : (∀ block ∈ b.blocks, BlockFits block) → ∀ block ∈ b'.blocks, BlockFits block

variable {b b' : SSTableBuilder}

theorem Adds.refl (b : SSTableBuilder) : b.Adds [] b := ⟨by simp, by simp, rfl, id⟩

theorem Adds.trans {es es' : List Entry} {b'' : SSTableBuilder} (h : b.Adds es b') (h' : b'.Adds es' b'') :
    b.Adds (es ++ es') b'' := by
  refine ⟨fun e he => ?_, ?_, h'.bitsPerKey.trans h.bitsPerKey, fun hb => h'.fits (h.fits hb)⟩
  · exact (List.mem_append.mp he).elim (h.keys e) (h'.keys e)
  · rw [h'.entries, h.entries, List.map_append, List.append_assoc]

theorem builds_flushBlock (b : SSTableBuilder) : Builds (fun b' => b.Adds [] b' ∧ b'.block = []) b.flushBlock := by
  unfold flushBlock
  split
  next hempty => exact .ok ⟨.refl b, hempty⟩
  split
  · exact .refused _
  next hfits =>
    refine .ok ⟨⟨by simp, by simp [entries], rfl, fun hb block hmem => ?_⟩, rfl⟩
    rcases List.mem_append.mp hmem with hmem | hmem
    · exact hb block hmem
    · exact List.mem_singleton.mp hmem ▸ Nat.not_lt.mp hfits

theorem builds_add (b : SSTableBuilder) (e : Entry) : Builds (b.Adds [e]) (b.add e.1 e.2.value e.2.tombstone) := by
  unfold add
  split
  · exact .refused _
  split
  · exact .refused _
  next hkey =>
    split
    next horder =>
      have happended : b.Adds [e] (b.appendEntry (storedEntry e) horder) :=
        ⟨by simpa using hkey, by simp [entries, appendEntry], rfl, id⟩
      dsimp only
      split
      · exact .refused _
      split
      · exact (builds_flushBlock _).imp fun _ hflushed => happended.trans hflushed.1
      · exact .ok happended
    · exact .refused _

theorem builds_addAll (b : SSTableBuilder) (es : List Entry) : Builds (b.Adds es) (b.addAll es) := by
  induction es generalizing b with
  | nil => exact .ok (.refl b)
  | cons e es ih =>
    have hadd := builds_add b e
    rw [addAll]
    generalize b.add e.1 e.2.value e.2.tombstone = r at hadd ⊢
    cases hadd with
    | ok hadded => exact (ih _).imp fun _ hrest => hadded.trans hrest
    | refused message => exact .refused message

/-- A finished table holds the entries of its builder, in blocks that fit if the others did. -/
structure Finishes (b : SSTableBuilder) (f : TableFile) : Prop where
  entries : f.entries = b.entries
  fits : (∀ block ∈ b.blocks, BlockFits block) → ∀ block ∈ f.blocks, BlockFits block
  index : Sizes.indexSize f.blocks ≤ maxUInt32

theorem builds_finish (b : SSTableBuilder) : Builds (fun r => b.Finishes r.2) b.finish := by
  unfold finish
  split
  · exact .refused _
  have hflush := builds_flushBlock b
  generalize b.flushBlock = r at hflush ⊢
  cases hflush with
  | refused message => exact .refused message
  | ok hflushed =>
    obtain ⟨hadds, hblock⟩ := hflushed
    dsimp only
    split
    · exact .refused _
    split
    · exact .refused _
    next hindex =>
      have hentries := hadds.entries
      refine .ok ⟨?_, hadds.fits, Nat.not_lt.mp hindex⟩
      simpa [SSTableBuilder.entries, hblock, TableFile.entries] using hentries

theorem create_spec {blockSize bitsPerKey : Nat} (h : create blockSize bitsPerKey = .ok b) :
    b.entries = [] ∧ b.bitsPerKey = bitsPerKey ∧ b.blocks = [] := by
  unfold create at h
  split_ifs at h
  cases h
  exact ⟨rfl, rfl, rfl⟩

theorem add_entries {key : Key} {value : Value} {tombstone : Bool} (h : b.add key value tombstone = .ok b') :
    b'.entries = b.entries ++ [storedEntry (key, ⟨value, tombstone⟩)] :=
  ((builds_add b (key, ⟨value, tombstone⟩)).of_ok h).entries

theorem finish_entries {f : TableFile} (h : b.finish = .ok (b', f)) : f.entries = b.entries :=
  ((builds_finish b).of_ok h).entries

end SSTableBuilder

def buildTable (blockSize bitsPerKey : Nat) (es : List Entry) : Except Failure TableFile :=
  match SSTableBuilder.create blockSize bitsPerKey with
  | .error s => .error s
  | .ok b =>
    match b.addAll es with
    | .error s => .error s
    | .ok b' =>
      match b'.finish with
      | .error s => .error s
      | .ok (_, f) => .ok f

theorem builds_buildTable (blockSize bitsPerKey : Nat) (es : List Entry) :
    SSTableBuilder.Builds (fun f => f.entries = es.map storedEntry ∧ (∀ e ∈ es, e.1 ≠ []) ∧
      (∀ block ∈ f.blocks, BlockFits block) ∧ Sizes.indexSize f.blocks ≤ maxUInt32) (buildTable blockSize bitsPerKey es) := by
  unfold buildTable
  split
  next hcreate =>
    unfold SSTableBuilder.create at hcreate
    split_ifs at hcreate
    cases hcreate
    exact .refused _
  next b hcreate =>
    obtain ⟨hnone, -, hblocks⟩ := SSTableBuilder.create_spec hcreate
    have hadd := b.builds_addAll es
    generalize b.addAll es = r at hadd ⊢
    cases hadd with
    | refused message => exact .refused message
    | @ok b' hadded =>
      have hfinish := b'.builds_finish
      dsimp only
      generalize b'.finish = r at hfinish ⊢
      cases hfinish with
      | refused message => exact .refused message
      | ok hfinished =>
        refine .ok ⟨?_, hadded.keys, hfinished.fits (hadded.fits (by simp [hblocks])), hfinished.index⟩
        rw [hfinished.entries, hadded.entries, hnone, List.nil_append]

theorem buildTable_entries {blockSize bitsPerKey : Nat} {es : List Entry} {f : TableFile}
    (h : buildTable blockSize bitsPerKey es = .ok f) : f.entries = es.map storedEntry :=
  ((builds_buildTable blockSize bitsPerKey es).of_ok h).1

theorem find_map_storedEntry (key : Key) (es : List Entry) :
    find key (es.map storedEntry) = (find key es).map MemEntry.stored := by
  induction es with
  | nil => rfl
  | cons e es ih =>
    obtain ⟨k, e⟩ := e
    by_cases hk : key = k
    · simp [find, storedEntry, hk]
    · simpa [find, storedEntry, hk] using ih

end KVStore
