import KVStore.TableFormat

namespace KVStore

open Lib PartitionPoint Checked Encoding TableFormat Sizes

inductive ReadMode
  | pread
  | mmap
  deriving DecidableEq, Repr

/-- The bytes of a block: a buffer of its own, or a view into the mapping. -/
structure BlockData where
  owned : Bytes
  view : Bytes
  owns : Bool
  deriving DecidableEq

namespace BlockData

def owning (bytes : Bytes) : BlockData := ⟨bytes, [], true⟩
def borrowed (bytes : Bytes) : BlockData := ⟨[], bytes, false⟩

def bytes (d : BlockData) : Bytes := if d.owns then d.owned else d.view

def trim (d : BlockData) (size : Nat) : BlockData :=
  if d.owns then
    if size < d.owned.length then { d with owned := d.owned.take size } else d
  else if size < d.view.length then { d with view := d.view.take size }
  else d

@[simp] theorem bytes_borrowed (bytes : Bytes) : (borrowed bytes).bytes = bytes := rfl

@[simp] theorem bytes_trim (d : BlockData) (size : Nat) : (d.trim size).bytes = d.bytes.take size := by
  obtain ⟨owned, view, owns⟩ := d
  cases owns with
  | true =>
    by_cases hsize : size < owned.length
    · simp [trim, bytes, hsize]
    · simp [trim, bytes, hsize, List.take_of_length_le (Nat.not_lt.mp hsize)]
  | false =>
    by_cases hsize : size < view.length
    · simp [trim, bytes, hsize]
    · simp [trim, bytes, hsize, List.take_of_length_le (Nat.not_lt.mp hsize)]

end BlockData

/-- The file behind an open table, and the way it is read. -/
structure TableHandle where
  path : Bytes
  content : Bytes
  mode : ReadMode
  deriving DecidableEq

structure SSTableReader where
  handle : TableHandle
  bloomEnabled : Bool
  footer : Footer
  index : List IndexEntry
  filter : Option BloomFilter
  minKey : Key
  maxKey : Key

namespace TableHandle

def readAt (h : TableHandle) (offset size : Nat) : Read BlockData :=
  match h.mode with
  | .mmap => do
      let past : Failure := .corruption (text "sstable read runs past the end of the mapping: " ++ h.path)
      refuse (h.content.length < offset) past
      let left ← sub h.content.length offset
      refuse (left < size) past
      let bytes ← slice h.content offset size
      return .borrowed bytes
  | .pread => do
      let bytes ← readFile h.path h.content offset size
      return .owning bytes

def readFooter [Crc] (h : TableHandle) : Read Footer := do
  refuse (h.content.length < Sizes.kFooterSize)
    (.corruption (text "sstable is too small to hold a footer: " ++ h.path))
  let start ← sub h.content.length Sizes.kFooterSize
  let bytes ← h.readAt start Sizes.kFooterSize
  decodeFooter bytes.bytes

/-- The bounds that `load` puts on the regions of a footer. -/
def checkRegions (h : TableHandle) (footer : Footer) : Read Unit := do
  let metadataStart ← sub h.content.length Sizes.kFooterSize
  let indexPast : Failure := .corruption (text "sstable index block runs past the end of the file")
  refuse (metadataStart < footer.indexOffset) indexPast
  let left ← sub metadataStart footer.indexOffset
  refuse (left < footer.indexSize) indexPast
  let filterPast : Failure := .corruption (text "sstable filter block runs past the end of the file")
  refuse (metadataStart < footer.filterOffset) filterPast
  let left ← sub metadataStart footer.filterOffset
  refuse (left < footer.filterSize) filterPast
  refuse (footer.indexSize < Sizes.kIndexHeaderSize + Sizes.kBlockTrailerSize)
    (.corruption (text "sstable index block is too small to be one"))

def readIndex [Crc] (h : TableHandle) (footer : Footer) : Read (List IndexEntry) := do
  let bytes ← h.readAt footer.indexOffset footer.indexSize
  let raw := bytes.bytes
  let payloadSize ← sub raw.length Sizes.kBlockTrailerSize
  let crc ← readU32 raw payloadSize
  let payload ← slice raw 0 payloadSize
  refuse (crc ≠ (Crc.crc32Of payload).toNat)
    (.corruption (text "sstable index block fails its crc: " ++ h.path))
  loadIndex payload footer.filterOffset

def loadFilter [Crc] (h : TableHandle) (footer : Footer) : Read (Option BloomFilter) :=
  if footer.filterSize = 0 then pure none
  else do
    let bytes ← h.readAt footer.filterOffset footer.filterSize
    let filter ← BloomFilter.decode bytes.bytes
    return some filter

def readBlockRaw [Crc] (h : TableHandle) (index : List IndexEntry) (blockIndex : Nat) : Read BlockData := do
  refuse (index.length ≤ blockIndex) (.invalidArgument (text "sstable block index out of range"))
  let entry ← item index blockIndex
  let block ← h.readAt entry.blockOffset entry.blockSize
  let raw := block.bytes
  let payloadSize ← sub raw.length Sizes.kBlockTrailerSize
  let crc ← readU32 raw payloadSize
  let payload ← slice raw 0 payloadSize
  refuse (crc ≠ (Crc.crc32Of payload).toNat)
    (.corruption (text "sstable data block fails its crc: " ++ h.path))
  return block.trim payloadSize

def readMinKey [Crc] (h : TableHandle) (index : List IndexEntry) : Read Key := do
  let block ← h.readBlockRaw index 0
  let entries ← parseBlock block.bytes
  refuse (entries = []) (.corruption (text "sstable first data block is empty"))
  let first ← item entries 0
  return first.1

def load [Crc] (h : TableHandle) (bloomEnabled : Bool) : Read SSTableReader := do
  let footer ← h.readFooter
  h.checkRegions footer
  let index ← h.readIndex footer
  let filter ← h.loadFilter footer
  match index.getLast? with
  | none => do
      refuse (footer.entryCount ≠ 0)
        (.corruption (text "sstable declares entries but its index names no blocks"))
      return ⟨h, bloomEnabled, footer, index, filter, [], []⟩
  | some last => do
      let minKey ← h.readMinKey index
      return ⟨h, bloomEnabled, footer, index, filter, minKey, last.key⟩

end TableHandle

namespace SSTableReader

def openTable [Crc] (path content : Bytes) (mode : ReadMode) (bloomEnabled : Bool) : Read SSTableReader :=
  TableHandle.load ⟨path, content, mode⟩ bloomEnabled

def entryCount (t : SSTableReader) : Nat := t.footer.entryCount

def readBlock [Crc] (t : SSTableReader) (blockIndex : Nat) : Read BlockData :=
  t.handle.readBlockRaw t.index blockIndex

def admits (t : SSTableReader) (key : Key) : Read Bool :=
  match t.filter with
  | none => pure true
  | some filter => if t.bloomEnabled then filter.maybeContains key else pure true

def lookupIn (entries : List Entry) (key : Key) : Read Lookup := do
  let hit ← PartitionPoint.lowerBoundIn (fun e : Entry => e.1 < key) entries
  if hit = entries.length then return .notPresent
  else do
    let e ← item entries hit
    if e.1 ≠ key then return .notPresent
    else if e.2.tombstone then return .deleted
    else return .found e.2.value

def lookup [Crc] (t : SSTableReader) (key : Key) : Read Lookup :=
  if t.index = [] then pure .notPresent
  else if key < t.minKey ∨ t.maxKey < key then pure .notPresent
  else do
    let maybe ← t.admits key
    if maybe then do
      let blockIndex ← PartitionPoint.lowerBoundIn (fun e : IndexEntry => e.key < key) t.index
      if blockIndex = t.index.length then return .notPresent
      else do
        let block ← t.readBlock blockIndex
        let entries ← parseBlock block.bytes
        lookupIn entries key
    else return .notPresent

end SSTableReader

section Safety

variable {h : TableHandle} {footer : Footer} {index : List IndexEntry}

namespace TableHandle

theorem yields_readAt (h : TableHandle) (offset size : Nat) :
    Yields Failure.IsCorruption (fun d => d.bytes.length = size) (h.readAt offset size) := by
  obtain ⟨path, content, mode⟩ := h
  cases mode with
  | pread =>
    apply (yields_readFile path content offset size).bind
    intro bytes hbytes
    exact yields_pure hbytes.1
  | mmap =>
    apply yields_refused
    intro hoffset
    rw [sub_bind (Nat.not_lt.mp hoffset)]
    apply yields_refused
    intro hsize
    have hin : offset + size ≤ content.length := by
      dsimp only at hoffset hsize
      omega
    apply (yields_slice hin).bind
    rintro bytes rfl
    apply yields_pure
    rw [BlockData.bytes_borrowed, List.length_take, List.length_drop]
    omega

theorem yields_readFooter [Crc] (h : TableHandle) :
    Yields Failure.IsCorruption (fun _ => kFooterSize ≤ h.content.length) h.readFooter := by
  apply yields_refused
  intro hsize
  rw [sub_bind (Nat.not_lt.mp hsize)]
  apply (yields_readAt h _ _).bind
  intro bytes _
  apply (yields_decodeFooter bytes.bytes).mono
  exact fun _ _ => Nat.not_lt.mp hsize

structure Bounded (h : TableHandle) (footer : Footer) : Prop where
  index_le : footer.indexOffset + footer.indexSize ≤ h.content.length
  filter_le : footer.filterOffset + footer.filterSize ≤ h.content.length
  index_size : Sizes.kIndexHeaderSize + Sizes.kBlockTrailerSize ≤ footer.indexSize

theorem yields_checkRegions (hsize : kFooterSize ≤ h.content.length) :
    Yields Failure.IsCorruption (fun _ => h.Bounded footer) (h.checkRegions footer) := by
  rw [checkRegions, sub_bind hsize]
  apply yields_refused
  intro hindexOffset
  rw [sub_bind (Nat.not_lt.mp hindexOffset)]
  apply yields_refused
  intro hindexSize
  apply yields_refused
  intro hfilterOffset
  rw [sub_bind (Nat.not_lt.mp hfilterOffset)]
  apply yields_refused
  intro hfilterSize
  apply yields_refuse_corruption.mono
  intro _ hsmall
  exact ⟨by omega, by omega, Nat.not_lt.mp hsmall⟩

theorem yields_trailer {raw : Bytes} {least : Nat} (hsize : least + kBlockTrailerSize ≤ raw.length) :
    Yields Failure.IsCorruption (fun n => n = raw.length - kBlockTrailerSize ∧ n + 4 = raw.length ∧ least ≤ n)
      (sub raw.length kBlockTrailerSize) := by
  apply (yields_sub (Nat.le_of_add_left_le hsize)).mono
  rintro n rfl
  rw [kBlockTrailerSize] at hsize ⊢
  omega

theorem yields_readIndex [Crc] (hbounded : h.Bounded footer) :
    Yields Failure.IsCorruption (fun index => ∀ e ∈ index, e.Inside footer.filterOffset) (h.readIndex footer) := by
  apply (yields_readAt h _ _).bind
  intro bytes hlength
  apply (yields_trailer (hlength ▸ hbounded.index_size)).bind
  rintro payloadSize ⟨-, htrailer, hheader⟩
  apply (yields_readU32 htrailer.le).bind
  intro crc _
  have hpayload : 0 + payloadSize ≤ bytes.bytes.length := by omega
  apply (yields_slice hpayload).bind
  rintro payload rfl
  apply yields_refused
  intro _
  apply yields_loadIndex
  rw [List.length_take, List.length_drop]
  omega

theorem yields_loadFilter [Crc] (h : TableHandle) (footer : Footer) :
    Yields Failure.IsCorruption (fun filter => ∀ f ∈ filter, f.Sound) (h.loadFilter footer) := by
  unfold loadFilter
  split
  · exact yields_pure fun _ hf => absurd hf (Option.not_mem_none _)
  · apply (yields_readAt h _ _).bind
    intro bytes _
    apply (BloomFilter.yields_decode bytes.bytes).bind
    intro filter hsound
    apply yields_pure
    rintro f hf
    rw [Option.mem_some_iff] at hf
    exact hf ▸ hsound

theorem yields_readBlockRaw [Crc] {filterOffset blockIndex : Nat} (hindex : ∀ e ∈ index, e.Inside filterOffset)
    {E : Failure → Prop} (hcorruption : ∀ f, f.IsCorruption → E f)
    (hrange : index.length ≤ blockIndex → E (.invalidArgument (text "sstable block index out of range"))) :
    Yields E (fun _ => True) (h.readBlockRaw index blockIndex) := by
  apply (yields_refuse hrange).bind
  intro _ hin
  apply (yields_item (Nat.not_le.mp hin)).bind
  intro entry hentry
  apply ((yields_readAt h _ _).weaken hcorruption).bind
  intro block hlength
  have htrailer := (hindex entry (List.mem_of_getElem? hentry)).trailer
  rw [← hlength, ← Nat.zero_add kBlockTrailerSize] at htrailer
  apply ((yields_trailer htrailer).weaken hcorruption).bind
  rintro payloadSize ⟨-, hend, -⟩
  apply (yields_readU32 hend.le).bind
  intro crc _
  apply (yields_slice (by omega)).bind
  intro payload _
  apply (yields_refuse_corruption.weaken hcorruption).bind
  intro _ _
  trivial

theorem yields_readMinKey [Crc] {filterOffset : Nat} (hindex : ∀ e ∈ index, e.Inside filterOffset)
    (hne : index ≠ []) : Yields Failure.IsCorruption (fun _ => True) (h.readMinKey index) := by
  have hfirst : ¬ index.length ≤ 0 := fun hle => hne (List.length_eq_zero_iff.mp (Nat.le_zero.mp hle))
  apply (yields_readBlockRaw hindex (fun _ hf => hf) fun hle => absurd hle hfirst).bind
  intro block _
  apply (yields_parseBlock block.bytes).bind
  intro entries _
  apply yields_refused
  intro hentries
  apply (yields_item (List.length_pos_iff.mpr hentries)).bind
  intro first _
  trivial

end TableHandle

namespace SSTableReader

/-- What the checks of `load` leave for the reads that follow. -/
structure Sound (t : SSTableReader) : Prop where
  index : ∀ e ∈ t.index, e.Inside t.footer.filterOffset
  filter : ∀ f ∈ t.filter, f.Sound
  region : t.footer.filterOffset + t.footer.filterSize ≤ t.handle.content.length

end SSTableReader

theorem TableHandle.yields_load [Crc] (h : TableHandle) (bloomEnabled : Bool) :
    Yields Failure.IsCorruption SSTableReader.Sound (h.load bloomEnabled) := by
  apply h.yields_readFooter.bind
  intro footer hsize
  apply (yields_checkRegions hsize).bind
  intro _ hbounded
  apply (yields_readIndex hbounded).bind
  intro index hindex
  apply (yields_loadFilter h footer).bind
  intro filter hfilter
  split
  · apply yields_refused
    intro _
    exact yields_pure ⟨hindex, hfilter, hbounded.filter_le⟩
  next last hlast =>
    have hne : index ≠ [] := List.ne_nil_of_mem (List.mem_of_getLast? hlast)
    apply (yields_readMinKey hindex hne).bind
    intro minKey _
    exact yields_pure ⟨hindex, hfilter, hbounded.filter_le⟩

namespace SSTableReader

variable {t : SSTableReader}

abbrev Returns {α : Type} (x : Read α) : Prop := Yields (fun _ => True) (fun _ => True) x

theorem returns_lookupIn (entries : List Entry) (key : Key) : Returns (lookupIn entries key) := by
  have hle := lowerBound_le (fun e : Entry => decide (e.1 < key)) entries
  unfold lookupIn
  rw [lowerBoundIn_eq, ok_bind]
  split
  · trivial
  next hhit =>
    apply (yields_item (Nat.lt_of_le_of_ne hle hhit)).bind
    intro e _
    split
    · trivial
    · split
      · trivial
      · trivial

theorem Sound.returns_admits (h : t.Sound) (key : Key) : Returns (t.admits key) := by
  unfold admits
  split
  · trivial
  next filter hfilter =>
    split
    · exact (h.filter filter hfilter).yields_maybeContains key
    · trivial

variable [Crc]

theorem Sound.returns_readBlock (h : t.Sound) (blockIndex : Nat) : Returns (t.readBlock blockIndex) :=
  TableHandle.yields_readBlockRaw h.index (fun _ _ => trivial) fun _ => trivial

theorem Sound.returns_lookup (h : t.Sound) (key : Key) : Returns (t.lookup key) := by
  unfold lookup
  split
  · trivial
  split
  · trivial
  apply (h.returns_admits key).bind
  intro maybe _
  split
  · rw [lowerBoundIn_eq, ok_bind]
    split
    · trivial
    · apply (h.returns_readBlock _).bind
      intro block _
      apply ((yields_parseBlock block.bytes).weaken fun _ _ => trivial).bind
      intro entries _
      exact returns_lookupIn entries key
  · trivial

end SSTableReader

end Safety

end KVStore
