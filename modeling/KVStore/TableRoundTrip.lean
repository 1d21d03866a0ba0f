import KVStore.SSTableWriter
import KVStore.TableSource

namespace KVStore

open Lib PartitionPoint SortedRun Checked Encoding TableFormat Sizes TableFile

/-- The blocks and the index of a table keep to the 32-bit sizes of the format, and no key is empty. -/
structure TableFile.Fits (f : TableFile) : Prop where
  blocks : ∀ block ∈ f.blocks, BlockFits block
  index : Sizes.indexSize f.blocks ≤ maxUInt32
  keys : ∀ e ∈ f.entries, e.1 ≠ []

theorem fits_of_buildTable {blockSize bitsPerKey : Nat} {es : List Entry} {f : TableFile}
    (hkeys : ∀ e ∈ es, e.1 ≠ []) (h : buildTable blockSize bitsPerKey es = .ok f) : f.Fits := by
  obtain ⟨hentries, -, hblocks, hindex⟩ := (builds_buildTable blockSize bitsPerKey es).of_ok h
  refine ⟨hblocks, hindex, ?_⟩
  intro e he
  rw [hentries] at he
  obtain ⟨e', he', rfl⟩ := List.mem_map.mp he
  exact hkeys e' he'

namespace TableFile.Fits

variable {f : TableFile} (hf : f.Fits)

include hf

theorem entryFits {block : List Entry} (hblock : block ∈ f.blocks) : ∀ e ∈ block, EntryFits e := by
  intro e he
  have hsize := entrySize_le_blockSize he
  have hfits := hf.blocks block hblock
  rw [BlockFits, maxUInt32] at hfits
  rw [entrySize] at hsize
  exact ⟨hf.keys e (List.mem_flatten.mpr ⟨block, hblock, he⟩), by omega, by omega⟩

theorem length_blocks_lt : f.blocks.length < 2 ^ 28 := by
  have hindex := hf.index
  have hleast : f.blocks.length * kIndexEntryFixedSize ≤
      (f.blocks.map fun b => kIndexEntryFixedSize + (blockLastKey b).length).sum := by
    calc f.blocks.length * kIndexEntryFixedSize = (f.blocks.map fun _ => kIndexEntryFixedSize).sum := by
          simp
      _ ≤ (f.blocks.map fun b => kIndexEntryFixedSize + (blockLastKey b).length).sum :=
          List.sum_le_sum fun b _ => Nat.le_add_right _ _
  rw [indexSize, maxUInt32] at hindex
  rw [kIndexEntryFixedSize] at hleast hindex
  omega

theorem length_dataBytes_lt [Crc] : (dataBytes f).length < 2 ^ 60 := by
  have hcount := hf.length_blocks_lt
  have hmost : (f.blocks.map fun b => blockSize b + kBlockTrailerSize).sum ≤
      f.blocks.length * maxUInt32 := by
    calc (f.blocks.map fun b => blockSize b + kBlockTrailerSize).sum
        ≤ (f.blocks.map fun _ => maxUInt32).sum := List.sum_le_sum fun b hb => hf.blocks b hb
      _ = f.blocks.length * maxUInt32 := by simp
  rw [dataBytes, length_flatMap_encodeBlock]
  rw [maxUInt32] at hmost
  omega

omit hf in
theorem length_entries_le [Crc] (f : TableFile) : f.entries.length ≤ (dataBytes f).length := by
  have hblock : ∀ block : List Entry, block.length ≤ blockSize block + kBlockTrailerSize := by
    intro block
    have hentry : ∀ e : Entry, 1 ≤ entrySize e := by
      intro e
      rw [entrySize, kEntryHeaderSize]
      omega
    calc block.length = (block.map fun _ => 1).sum := by simp
      _ ≤ blockSize block := List.sum_le_sum fun e _ => hentry e
      _ ≤ blockSize block + kBlockTrailerSize := Nat.le_add_right _ _
  rw [dataBytes, length_flatMap_encodeBlock, TableFile.entries, List.length_flatten]
  exact List.sum_le_sum fun block _ => hblock block

end TableFile.Fits

section Layout

theorem sorted_indexOf (f : TableFile) : (indexOf 0 f.blocks).Pairwise (·.key < ·.key) := by
  have hblocks : (f.blocks.map blockLastKey).Pairwise (· < ·) := by
    apply List.pairwise_map.mpr
    apply (List.pairwise_flatten.mp f.sorted).2.imp_of_mem
    intro l l' hl hl' hlt
    obtain ⟨m, a, rfl⟩ := (List.eq_nil_or_concat l).resolve_left (f.nonempty l hl)
    obtain ⟨m', a', rfl⟩ := (List.eq_nil_or_concat l').resolve_left (f.nonempty l' hl')
    have := hlt a (by simp) a' (by simp)
    simpa [blockLastKey] using this
  rw [← map_key_indexOf 0] at hblocks
  exact List.pairwise_map.mp hblocks

variable [Crc]

theorem stands_indexOf {l : Bytes} {blocks : List (List Entry)} {offset j i : Nat} {block : List Entry}
    (h : Stands l (blocks.flatMap encodeBlock) offset j) (hblock : blocks[i]? = some block) :
    ∃ e, (indexOf offset blocks)[i]? = some e ∧ e.key = blockLastKey block ∧
      e.blockSize = (encodeBlock block).length ∧
      Stands l (encodeBlock block) e.blockOffset (e.blockOffset + e.blockSize) ∧ e.blockOffset + e.blockSize ≤ j := by
  induction blocks generalizing offset i with
  | nil => cases hblock
  | cons first blocks ih =>
    rw [List.flatMap_cons] at h
    obtain ⟨hfirst, hrest⟩ := h.of_append
    rw [length_encodeBlock] at hrest hfirst
    cases i with
    | zero =>
      cases hblock
      refine ⟨_, rfl, rfl, (length_encodeBlock _).symm, hfirst, ?_⟩
      have := hrest.last_eq
      dsimp only
      omega
    | succ => exact ih hrest hblock

variable [ProbeCount] (bitsPerKey : Nat) (f : TableFile)

theorem stands_dataBytes : Stands (encodeFile bitsPerKey f) (dataBytes f) 0 (dataBytes f).length := by
  have h := (Stands.whole (encodeFile bitsPerKey f)).of_append.1
  rwa [Nat.zero_add] at h

theorem stands_filterBytes :
    Stands (encodeFile bitsPerKey f) (filterBytes bitsPerKey f) (footerOf bitsPerKey f).filterOffset
      ((footerOf bitsPerKey f).filterOffset + (footerOf bitsPerKey f).filterSize) := by
  have h := (Stands.whole (encodeFile bitsPerKey f)).of_append.2.of_append.1
  rwa [Nat.zero_add] at h

theorem stands_indexBytes :
    Stands (encodeFile bitsPerKey f) (indexBytes f) (footerOf bitsPerKey f).indexOffset
      ((footerOf bitsPerKey f).indexOffset + (footerOf bitsPerKey f).indexSize) := by
  have h := (Stands.whole (encodeFile bitsPerKey f)).of_append.2.of_append.2.of_append.1
  rwa [Nat.zero_add] at h

theorem length_encodeFile :
    (encodeFile bitsPerKey f).length =
      (footerOf bitsPerKey f).indexOffset + (footerOf bitsPerKey f).indexSize + kFooterSize := by
  simp only [encodeFile, List.length_append, length_encodeFooter, footerOf]
  omega

theorem stands_footer :
    Stands (encodeFile bitsPerKey f) (encodeFooter (footerOf bitsPerKey f))
      ((encodeFile bitsPerKey f).length - kFooterSize) (encodeFile bitsPerKey f).length := by
  have h := (Stands.whole (encodeFile bitsPerKey f)).of_append.2.of_append.2.of_append.2
  have hlength := length_encodeFile bitsPerKey f
  have hstart : 0 + (dataBytes f).length + (filterBytes bitsPerKey f).length + (indexBytes f).length =
      (encodeFile bitsPerKey f).length - kFooterSize := by
    simp only [hlength, footerOf]
    omega
  rwa [hstart] at h

end Layout

namespace TableHandle

variable {h : TableHandle} {block : List Entry}

theorem readAt_of_stands {part : Bytes} {i j : Nat} (hpart : Stands h.content part i j) :
    ∃ d, h.readAt i part.length = .ok d ∧ d.bytes = part := by
  have hlast := hpart.last_eq
  have hle := hpart.last_le
  obtain ⟨path, content, mode⟩ := h
  dsimp only at hpart hle
  cases mode with
  | pread =>
    refine ⟨.owning part, ?_, rfl⟩
    simp only [readAt]
    rw [readFile_of_stands path hpart, ok_bind, pure_eq_ok]
  | mmap =>
    refine ⟨.borrowed part, ?_, rfl⟩
    simp only [readAt]
    rw [refuse_bind (by omega), sub_bind (by omega), refuse_bind (by omega),
      hpart.slice, ok_bind, pure_eq_ok]

variable [Crc]

theorem checked_of_stands {raw body : Bytes} (hraw : raw = body ++ putU32 (Crc.crc32Of body).toNat) :
    (sub raw.length kBlockTrailerSize : Read Nat) = .ok body.length ∧
      readU32 raw body.length = .ok (Crc.crc32Of body).toNat ∧ (slice raw 0 body.length : Read Bytes) = .ok body := by
  subst hraw
  obtain ⟨hbody, hcrc⟩ := (Stands.whole (body ++ putU32 (Crc.crc32Of body).toNat)).of_append
  rw [Nat.zero_add] at hcrc
  refine ⟨?_, readU32_of_stands hcrc (BitVec.isLt _), hbody.slice⟩
  rw [List.length_append, length_putU32, kBlockTrailerSize, sub_of_le (by omega), Nat.add_sub_cancel]

theorem readBlockRaw_of_stands {blocks : List (List Entry)} {j i : Nat}
    (hdata : Stands h.content (blocks.flatMap encodeBlock) 0 j) (hblock : blocks[i]? = some block) :
    ∃ d, h.readBlockRaw (indexOf 0 blocks) i = .ok d ∧ d.bytes = blockPayload block := by
  obtain ⟨e, he, -, hsize, hstands, -⟩ := stands_indexOf hdata hblock
  obtain ⟨d, hd, hbytes⟩ := readAt_of_stands hstands
  have hraw : d.bytes = blockPayload block ++ putU32 (Crc.crc32Of (blockPayload block)).toNat := hbytes
  obtain ⟨hsub, hcrc, hpayload⟩ := checked_of_stands hraw
  have hin : ¬ (indexOf 0 blocks).length ≤ i := by
    have := (List.getElem?_eq_some_iff.mp he).1
    omega
  refine ⟨d.trim (blockPayload block).length, ?_, ?_⟩
  · rw [readBlockRaw, refuse_bind hin, item_of_getElem? he, ok_bind, hsize, hd, ok_bind]
    dsimp only
    rw [hsub, ok_bind, hcrc, ok_bind, hpayload, ok_bind, refuse_bind (not_not.mpr rfl), pure_eq_ok]
  · rw [BlockData.bytes_trim, hbytes, encodeBlock, List.take_left]

variable [ProbeCount] {bitsPerKey : Nat} {f : TableFile} {path : Bytes} {mode : ReadMode}

theorem filterSize_footerOf (bitsPerKey : Nat) (f : TableFile) :
    (footerOf bitsPerKey f).filterSize = filterSize bitsPerKey f.entries.length :=
  length_filterOf bitsPerKey f.entries

theorem indexSize_footerOf (bitsPerKey : Nat) (f : TableFile) :
    (footerOf bitsPerKey f).indexSize = indexSize f.blocks :=
  length_encodeIndex f.blocks 0

theorem encodable_footerOf (hf : f.Fits) : (footerOf bitsPerKey f).Encodable := by
  have hdata := hf.length_dataBytes_lt
  have hentries := TableFile.Fits.length_entries_le f
  have hindex := hf.index
  have hfilter := filterSize_le bitsPerKey f.entries.length
  rw [← indexSize_footerOf bitsPerKey, maxUInt32] at hindex
  rw [← filterSize_footerOf, maxUInt32] at hfilter
  have hoffset : (footerOf bitsPerKey f).indexOffset = (dataBytes f).length + (footerOf bitsPerKey f).filterSize := rfl
  have hstart : (footerOf bitsPerKey f).filterOffset = (dataBytes f).length := rfl
  have hcount : (footerOf bitsPerKey f).entryCount = f.entries.length := rfl
  exact ⟨by omega, by omega, by omega, by omega, by omega, rfl⟩

theorem readFooter_encodeFile (hf : f.Fits) :
    readFooter ⟨path, encodeFile bitsPerKey f, mode⟩ = .ok (footerOf bitsPerKey f) := by
  have hlength := length_encodeFile bitsPerKey f
  obtain ⟨d, hd, hbytes⟩ := readAt_of_stands (h := ⟨path, encodeFile bitsPerKey f, mode⟩) (stands_footer bitsPerKey f)
  rw [length_encodeFooter] at hd
  rw [readFooter]
  dsimp only
  rw [refuse_bind (by omega), sub_bind (by omega), hd, ok_bind, hbytes]
  exact decodeFooter_encodeFooter (encodable_footerOf hf)

theorem checkRegions_encodeFile :
    checkRegions ⟨path, encodeFile bitsPerKey f, mode⟩ (footerOf bitsPerKey f) = .ok () := by
  have hlength := length_encodeFile bitsPerKey f
  have hfilter : (footerOf bitsPerKey f).indexOffset =
      (footerOf bitsPerKey f).filterOffset + (footerOf bitsPerKey f).filterSize := rfl
  have hindex := indexSize_footerOf bitsPerKey f
  rw [indexSize] at hindex
  rw [checkRegions]
  dsimp only
  rw [sub_bind (by omega), refuse_bind (by omega), sub_bind (by omega),
    refuse_bind (by omega), refuse_bind (by omega), sub_bind (by omega),
    refuse_bind (by omega), refuse_of_not _ (by omega)]

theorem encodable_indexOf (hf : f.Fits) :
    ∀ e ∈ indexOf 0 f.blocks, e.Encodable (footerOf bitsPerKey f).filterOffset := by
  intro e he
  obtain ⟨i, hi⟩ := List.mem_iff_getElem?.mp he
  have hlt : i < f.blocks.length := by
    have := (List.getElem?_eq_some_iff.mp hi).1
    rwa [length_indexOf] at this
  have hblock := List.getElem?_eq_getElem hlt
  have hmem := List.mem_of_getElem? hblock
  obtain ⟨e', he', hkey, hsize, -, hlast⟩ := stands_indexOf (Stands.whole (f.blocks.flatMap encodeBlock)) hblock
  rw [he'] at hi
  cases hi
  obtain ⟨l, a, ha⟩ := (List.eq_nil_or_concat f.blocks[i]).resolve_left (f.nonempty _ hmem)
  rw [List.concat_eq_append] at ha
  have hlastKey : e.key = a.1 := by
    rw [hkey, ha]
    simp [blockLastKey]
  have hentry := hf.entryFits hmem a (by rw [ha]; simp)
  have hfits := hf.blocks _ hmem
  have hdata := hf.length_dataBytes_lt
  rw [BlockFits, maxUInt32, ← length_encodeBlock, ← hsize] at hfits
  rw [dataBytes] at hdata
  refine ⟨⟨?_, hlast⟩, hlastKey ▸ hentry.key_ne, hlastKey ▸ hentry.key, by omega, by omega⟩
  rw [hsize, length_encodeBlock]
  omega

theorem readIndex_encodeFile (hf : f.Fits) :
    readIndex ⟨path, encodeFile bitsPerKey f, mode⟩ (footerOf bitsPerKey f) = .ok (indexOf 0 f.blocks) := by
  obtain ⟨d, hd, hbytes⟩ :=
    readAt_of_stands (h := ⟨path, encodeFile bitsPerKey f, mode⟩) (stands_indexBytes bitsPerKey f)
  have hraw : d.bytes = indexBody (indexOf 0 f.blocks) ++
      putU32 (Crc.crc32Of (indexBody (indexOf 0 f.blocks))).toNat := hbytes
  obtain ⟨hsub, hcrc, hpayload⟩ := checked_of_stands hraw
  have hcount : (indexOf 0 f.blocks).length < 2 ^ 32 := by
    have := hf.length_blocks_lt
    rw [length_indexOf]
    omega
  rw [readIndex, show (footerOf bitsPerKey f).indexSize = (indexBytes f).length from rfl, hd, ok_bind]
  dsimp only
  rw [hsub, ok_bind, hcrc, ok_bind, hpayload, ok_bind, refuse_bind (not_not.mpr rfl)]
  exact loadIndex_indexBody hcount (encodable_indexOf hf) (sorted_indexOf f)

theorem loadFilter_encodeFile :
    loadFilter ⟨path, encodeFile bitsPerKey f, mode⟩ (footerOf bitsPerKey f) =
      .ok (some (filterOf bitsPerKey f.entries).filter) := by
  obtain ⟨d, hd, hbytes⟩ :=
    readAt_of_stands (h := ⟨path, encodeFile bitsPerKey f, mode⟩) (stands_filterBytes bitsPerKey f)
  have hsize := filterSize_footerOf bitsPerKey f
  rw [filterSize, kBloomHeaderSize] at hsize
  rw [loadFilter, if_neg (by omega), show (footerOf bitsPerKey f).filterSize = (filterBytes bitsPerKey f).length from rfl,
    hd, ok_bind, hbytes, filterBytes, BloomBuilder.decode_finish, ok_bind]
  rfl

theorem readBlockRaw_encodeFile (path : Bytes) (mode : ReadMode) (bitsPerKey : Nat) {i : Nat}
    (hblock : f.blocks[i]? = some block) :
    ∃ d, readBlockRaw ⟨path, encodeFile bitsPerKey f, mode⟩ (indexOf 0 f.blocks) i = .ok d ∧
      d.bytes = blockPayload block := readBlockRaw_of_stands (stands_dataBytes bitsPerKey f) hblock

theorem readMinKey_encodeFile (hf : f.Fits) (hne : f.blocks ≠ []) :
    readMinKey ⟨path, encodeFile bitsPerKey f, mode⟩ (indexOf 0 f.blocks) = .ok f.minKey := by
  obtain ⟨block, rest, hblocks⟩ := List.exists_cons_of_ne_nil hne
  have hfirst : f.blocks[0]? = some block := by rw [hblocks]; rfl
  have hmem := List.mem_of_getElem? hfirst
  obtain ⟨e, block', rfl⟩ := List.exists_cons_of_ne_nil (f.nonempty block hmem)
  obtain ⟨d, hd, hbytes⟩ := readBlockRaw_encodeFile path mode bitsPerKey hfirst
  rw [readMinKey, hd, ok_bind, hbytes, blockPayload, parseBlock_encode (hf.entryFits hmem), ok_bind,
    refuse_bind (List.cons_ne_nil _ _), item_of_getElem? (i := 0) (b := e) rfl, ok_bind, pure_eq_ok,
    TableFile.minKey, hblocks]
  rfl

end TableHandle

def TableFile.blockReader (f : TableFile) : BlockReader where
  lastKeys := f.blocks.map TableFile.blockLastKey
  readBlock _ index :=
    match f.blocks[index]? with
    | some block => pure (blockPayload block)
    | none => fail (.invalidArgument (text "sstable block index out of range"))

namespace SSTableReader

theorem lookupIn_eq (entries : List Entry) (key : Key) :
    lookupIn entries key = .ok
      (match entries[lowerBound (fun e : Entry => e.1 < key) entries]? with
      | none => .notPresent
      | some hit =>
        if hit.1 ≠ key then .notPresent
        else if hit.2.tombstone then .deleted
        else .found hit.2.value) := by
  have hle := lowerBound_le (fun e : Entry => decide (e.1 < key)) entries
  rw [lookupIn, lowerBoundIn_eq, ok_bind]
  by_cases hend : lowerBound (fun e : Entry => decide (e.1 < key)) entries = entries.length
  · rw [if_pos hend, List.getElem?_eq_none hend.ge]
    rfl
  · have hget := List.getElem?_eq_getElem (Nat.lt_of_le_of_ne hle hend)
    rw [if_neg hend, item_of_getElem? hget, ok_bind, hget]
    dsimp only
    split
    · rfl
    · split
      · rfl
      · rfl

variable [Crc] [ProbeCount]

def ofFile (path : Bytes) (mode : ReadMode) (bloomEnabled : Bool) (bitsPerKey : Nat) (f : TableFile) :
    SSTableReader where
  handle := ⟨path, encodeFile bitsPerKey f, mode⟩
  bloomEnabled := bloomEnabled
  footer := footerOf bitsPerKey f
  index := indexOf 0 f.blocks
  filter := some (filterOf bitsPerKey f.entries).filter
  minKey := f.minKey
  maxKey := f.maxKey

variable {path : Bytes} {mode : ReadMode} {bloomEnabled : Bool} {bitsPerKey : Nat} {f : TableFile}

theorem openTable_encodeFile (hf : f.Fits) :
    openTable path (encodeFile bitsPerKey f) mode bloomEnabled = .ok (ofFile path mode bloomEnabled bitsPerKey f) := by
  have hlast : (indexOf 0 f.blocks).getLast?.map IndexEntry.key = f.blocks.getLast?.map blockLastKey := by
    rw [← List.getLast?_map, map_key_indexOf, List.getLast?_map]
  rw [openTable, TableHandle.load, TableHandle.readFooter_encodeFile hf, ok_bind, TableHandle.checkRegions_encodeFile,
    ok_bind, TableHandle.readIndex_encodeFile hf, ok_bind, TableHandle.loadFilter_encodeFile, ok_bind, ofFile]
  by_cases hne : f.blocks = []
  · have hempty : f.entries = [] := f.entries_eq_nil_iff.mpr hne
    have hcount : (footerOf bitsPerKey f).entryCount = 0 := congrArg List.length hempty
    simp only [hne, indexOf, List.getLast?_nil]
    rw [refuse_bind (not_not.mpr hcount), TableFile.minKey, TableFile.maxKey, hne]
    rfl
  · obtain ⟨last, hgetLast⟩ := Option.isSome_iff_exists.mp (List.getLast?_isSome.mpr hne)
    rw [hgetLast, Option.map_some] at hlast
    obtain ⟨e, he, hkey⟩ := Option.map_eq_some_iff.mp hlast
    simp only [he]
    rw [TableHandle.readMinKey_encodeFile hf hne, ok_bind, TableFile.maxKey, hgetLast, hkey]
    rfl

theorem blockReader_ofFile (path : Bytes) (mode : ReadMode) (bloomEnabled : Bool) (bitsPerKey : Nat)
    (f : TableFile) : (ofFile path mode bloomEnabled bitsPerKey f).blockReader = f.blockReader := by
  have hread (index : Nat) : (do
      let block ← (ofFile path mode bloomEnabled bitsPerKey f).readBlock index
      return block.bytes) = f.blockReader.readBlock 0 index := by
    simp only [TableFile.blockReader]
    cases hblock : f.blocks[index]? with
    | none =>
      have hout : (indexOf 0 f.blocks).length ≤ index := by
        rw [length_indexOf]
        exact List.getElem?_eq_none_iff.mp hblock
      rw [readBlock, ofFile, TableHandle.readBlockRaw, refuse_of _ hout]
      rfl
    | some =>
      obtain ⟨d, hd, hbytes⟩ := TableHandle.readBlockRaw_encodeFile path mode bitsPerKey hblock
      rw [readBlock, ofFile, hd, ok_bind, hbytes]
  exact congrArg₂ BlockReader.mk (map_key_indexOf 0 f.blocks) (funext fun _ => funext hread)

theorem admits_ofFile (path : Bytes) (mode : ReadMode) (bloomEnabled : Bool) (bitsPerKey : Nat) (f : TableFile)
    (key : Key) :
    ∃ maybe, (ofFile path mode bloomEnabled bitsPerKey f).admits key = .ok maybe ∧
      (maybe = false → key ∉ keys f.entries) := by
  unfold admits ofFile
  dsimp only
  by_cases henabled : bloomEnabled = true
  · rw [if_pos henabled]
    by_cases hkey : key ∈ keys f.entries
    · obtain ⟨e, he, rfl⟩ := List.mem_map.mp hkey
      have hhash : Hashing.hash64 e.1 ∈ (filterOf bitsPerKey f.entries).hashes :=
        List.mem_map.mpr ⟨e, he, rfl⟩
      exact ⟨true, BloomBuilder.maybeContains_filter hhash, fun hfalse => by cases hfalse⟩
    · have hsound : (filterOf bitsPerKey f.entries).filter.Sound :=
        (BloomFilter.yields_decode _).of_ok (BloomBuilder.decode_finish _)
      have hyields : Yields (fun _ => False) (fun _ => True) ((filterOf bitsPerKey f.entries).filter.maybeContains key) :=
        hsound.yields_maybeContains key
      rcases hyields.value_or_status with ⟨maybe, hmaybe, -⟩ | ⟨_, _, hfalse⟩
      · exact ⟨maybe, hmaybe, fun _ => hkey⟩
      · exact hfalse.elim
  · rw [if_neg henabled]
    exact ⟨true, rfl, fun hfalse => by cases hfalse⟩

theorem lookup_ofFile (hf : f.Fits) (key : Key) :
    (ofFile path mode bloomEnabled bitsPerKey f).lookup key = .ok (f.lookup key) := by
  have hindex : (ofFile path mode bloomEnabled bitsPerKey f).index = indexOf 0 f.blocks := rfl
  have hmin : (ofFile path mode bloomEnabled bitsPerKey f).minKey = f.minKey := rfl
  have hmax : (ofFile path mode bloomEnabled bitsPerKey f).maxKey = f.maxKey := rfl
  have hbound : lowerBound (fun e : IndexEntry => decide (e.key < key)) (indexOf 0 f.blocks) =
      lowerBound (fun b => decide (blockLastKey b < key)) f.blocks := by
    rw [← lowerBound_map (fun k : Key => decide (k < key)) IndexEntry.key, map_key_indexOf,
      lowerBound_map]
  obtain ⟨maybe, hmaybe, hdenied⟩ := admits_ofFile path mode bloomEnabled bitsPerKey f key
  rw [lookup, hindex, hmin, hmax, hmaybe, ok_bind]
  by_cases hblocks : f.blocks = []
  · have hempty : indexOf 0 f.blocks = [] := by rw [hblocks]; rfl
    rw [if_pos hempty, TableFile.lookup, if_pos (by rw [hblocks]; rfl)]
    rfl
  have hsome : indexOf 0 f.blocks ≠ [] := by
    intro hnil
    have hlength := congrArg List.length hnil
    rw [length_indexOf] at hlength
    exact hblocks (List.length_eq_zero_iff.mp hlength)
  have hempty : ¬ f.blocks.isEmpty = true := by simpa using hblocks
  rw [if_neg hsome]
  by_cases hrange : key < f.minKey ∨ f.maxKey < key
  · rw [if_pos hrange, TableFile.lookup, if_neg hempty, if_pos hrange]
    rfl
  rw [if_neg hrange]
  cases maybe with
  | false =>
    have habsent := (find_eq_none_iff key f.entries).mpr (hdenied rfl)
    rw [lookup_eq, habsent]
    rfl
  | true =>
    rw [if_pos rfl, lowerBoundIn_eq, ok_bind, hbound, length_indexOf, TableFile.lookup,
      if_neg hempty, if_neg hrange]
    have hle := lowerBound_le (fun b => decide (blockLastKey b < key)) f.blocks
    by_cases hend : lowerBound (fun b => decide (blockLastKey b < key)) f.blocks =
        f.blocks.length
    · rw [if_pos hend, List.getElem?_eq_none hend.ge]
      rfl
    · have hblock := List.getElem?_eq_getElem (Nat.lt_of_le_of_ne hle hend)
      obtain ⟨d, hd, hbytes⟩ := TableHandle.readBlockRaw_encodeFile path mode bitsPerKey hblock
      have hparse := parseBlock_encode (hf.entryFits (List.mem_of_getElem? hblock))
      rw [if_neg hend, readBlock, ofFile, hd, ok_bind, hbytes, blockPayload, hparse, ok_bind, hblock]
      exact lookupIn_eq _ _

end SSTableReader

/-- A table file opens as what was put into it, and answers every key as the list of its entries. -/
theorem table_round_trip [Crc] [ProbeCount] (path : Bytes) (mode : ReadMode) (bloomEnabled : Bool)
    (blockSize bitsPerKey : Nat) (es : List Entry) (hblockSize : 1 ≤ blockSize) (hkeys : ∀ e ∈ es, e.1 ≠ [])
    (hsorted : es.Pairwise (·.1 < ·.1)) (hfit : BlocksFit blockSize es) :
    ∃ content t, SSTableWriter.build blockSize bitsPerKey es = .ok content ∧
      SSTableReader.openTable path content mode bloomEnabled = .ok t ∧
      t.entryCount = es.length ∧
      t.minKey = (es.head?.map Prod.fst).getD [] ∧ t.maxKey = (es.getLast?.map Prod.fst).getD [] ∧
      ∀ key, t.lookup key = .ok (Lookup.ofEntry (SortedRun.find key es)) := by
  obtain ⟨f, hf⟩ := (buildTable_ok_iff bitsPerKey hblockSize hkeys hsorted).mpr hfit
  have hentries := buildTable_entries hf
  have hfits := fits_of_buildTable hkeys hf
  refine ⟨encodeFile bitsPerKey f, .ofFile path mode bloomEnabled bitsPerKey f, ?_,
    SSTableReader.openTable_encodeFile hfits, ?_, ?_, ?_, ?_⟩
  · rw [SSTableWriter.build_eq, hf]
    rfl
  · rw [show SSTableReader.entryCount _ = f.entries.length from rfl, hentries, List.length_map]
  · rw [show SSTableReader.minKey _ = f.minKey from rfl, minKey_eq, hentries, List.head?_map,
      Option.map_map]
    rfl
  · rw [show SSTableReader.maxKey _ = f.maxKey from rfl, maxKey_eq, hentries, blockLastKey,
      List.getLast?_map, Option.map_map]
    rfl
  · intro key
    rw [SSTableReader.lookup_ofFile hfits, lookup_eq, hentries, find_map_storedEntry]
    cases find key es with
    | none => rfl
    | some e =>
      obtain ⟨value, tombstone⟩ := e
      cases tombstone with
      | false => rfl
      | true => rfl

theorem table_round_trip_two_blocks :
    let es : List Entry := [([97], ⟨[1, 2], false⟩), ([98], ⟨[], true⟩)]
    ∃ content t, SSTableWriter.build 1 10 es = .ok content ∧
      SSTableReader.openTable (text "000001.sst") content .mmap true = .ok t ∧ t.entryCount = 2 ∧
      t.lookup [97] = .ok (.found [1, 2]) ∧ t.lookup [98] = .ok .deleted ∧ t.lookup [99] = .ok .notPresent := by
  obtain ⟨content, t, hbuilt, hopened, hcount, -, -, hlookup⟩ :=
    table_round_trip (text "000001.sst") .mmap true 1 10 [([97], ⟨[1, 2], false⟩), ([98], ⟨[], true⟩)] (by decide)
      (by decide) (by decide) (by decide)
  exact ⟨content, t, hbuilt, hopened, hcount, hlookup _, hlookup _, hlookup _⟩

end KVStore
