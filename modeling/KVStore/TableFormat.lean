import KVStore.Bloom
import KVStore.Lib.CheckedSearch

namespace KVStore.TableFormat

open Lib Checked Encoding Sizes

def kMagic : Bytes := text "KVST"
def kFormatVersion : Nat := 1

def encodeEntry (e : Entry) : Bytes :=
  putU32 e.1.length ++ (putU32 e.2.value.length ++ (Record.flagsOf e.2.tombstone :: (e.1 ++ e.2.value)))

/-- The body of the loop of `parse_block`. -/
def takeEntry (payload : Bytes) (i : Nat) : Read (Entry × Nat) := do
  let left ← sub payload.length i
  refuse (left < Sizes.kEntryHeaderSize) (.corruption (text "sstable block ends inside an entry header"))
  let keySize ← readU32 payload i
  let valueSize ← readU32 payload (i + 4)
  let flags ← item payload (i + 8)
  let i := i + Sizes.kEntryHeaderSize
  let need := keySize + valueSize
  let left ← sub payload.length i
  refuse (left < need) (.corruption (text "sstable block entry claims more bytes than the block holds"))
  refuse (keySize = 0) (.corruption (text "sstable block entry has an empty key"))
  let key ← slice payload i keySize
  let value ← slice payload (i + keySize) valueSize
  return ((key, ⟨value, flags.val &&& Record.kFlagTombstone != 0⟩), i + need)

def parseBlock (payload : Bytes) : Read (List Entry) :=
  readToEnd (takeEntry payload) payload.length (payload.length + 1) 0

structure Footer where
  indexOffset : Nat
  indexSize : Nat
  filterOffset : Nat
  filterSize : Nat
  entryCount : Nat
  formatVersion : Nat
  deriving DecidableEq, Repr

def footerBody (footer : Footer) : Bytes :=
  putU64 footer.indexOffset ++ (putU32 footer.indexSize ++ (putU64 footer.filterOffset ++
    (putU32 footer.filterSize ++ (putU64 footer.entryCount ++ putU32 footer.formatVersion))))

def encodeFooter [Crc] (footer : Footer) : Bytes :=
  footerBody footer ++ (putU32 (Crc.crc32Of (footerBody footer)).toNat ++ kMagic)

def decodeFooter [Crc] (bytes : Bytes) : Read Footer := do
  refuse (bytes.length ≠ Sizes.kFooterSize) (.corruption (text "sstable footer is not the expected size"))
  let magic ← slice bytes 40 kMagic.length
  refuse (magic ≠ kMagic) (.corruption (text "not an sstable: bad footer magic"))
  let crc ← readU32 bytes 36
  let body ← slice bytes 0 36
  refuse (crc ≠ (Crc.crc32Of body).toNat) (.corruption (text "sstable footer fails its crc"))
  let indexOffset ← readU64 bytes 0
  let indexSize ← readU32 bytes 8
  let filterOffset ← readU64 bytes 12
  let filterSize ← readU32 bytes 20
  let entryCount ← readU64 bytes 24
  let formatVersion ← readU32 bytes 32
  refuse (formatVersion ≠ kFormatVersion)
    (.corruption (text "unsupported sstable format version " ++ text (toString formatVersion)))
  return ⟨indexOffset, indexSize, filterOffset, filterSize, entryCount, formatVersion⟩

structure IndexEntry where
  key : Key
  blockOffset : Nat
  blockSize : Nat
  deriving DecidableEq, Repr

def encodeIndexEntry (e : IndexEntry) : Bytes :=
  putU32 e.key.length ++ (e.key ++ (putU64 e.blockOffset ++ putU32 e.blockSize))

/-- The body of the loop of `load_index`. `last` is the key at the back of the index so far. -/
def takeIndexEntry (payload : Bytes) (filterOffset : Nat) (last : Option Key) (i : Nat) :
    Read (IndexEntry × Nat) := do
  let left ← sub payload.length i
  refuse (left < Sizes.kIndexEntryFixedSize) (.corruption (text "sstable index ends inside an entry"))
  let keySize ← readU32 payload i
  let i := i + 4
  let short : Failure := .corruption (text "sstable index entry claims more bytes than it holds")
  refuse (keySize = 0) short
  let left ← sub payload.length i
  refuse (left < keySize) short
  let left ← sub left keySize
  refuse (left < 12) short
  let key ← slice payload i keySize
  let i := i + keySize
  let blockOffset ← readU64 payload i
  let i := i + 8
  let blockSize ← readU32 payload i
  let i := i + 4
  let outside : Failure := .corruption (text "sstable index points outside the data region")
  refuse (blockSize < Sizes.kBlockTrailerSize) outside
  refuse (filterOffset < blockOffset) outside
  let room ← sub filterOffset blockOffset
  refuse (room < blockSize) outside
  refuse (last.any fun last => key ≤ last) (.corruption (text "sstable index keys are not strictly increasing"))
  return (⟨key, blockOffset, blockSize⟩, i)

def takeIndexEntries (payload : Bytes) (filterOffset : Nat) : Nat → Option Key → Nat → Read (List IndexEntry × Nat)
  | 0, _, i => pure ([], i)
  | n + 1, last, i => do
      let (entry, i) ← takeIndexEntry payload filterOffset last i
      let (entries, i) ← takeIndexEntries payload filterOffset n (some entry.key) i
      return (entry :: entries, i)

def loadIndex (payload : Bytes) (filterOffset : Nat) : Read (List IndexEntry) := do
  let count ← readU32 payload 0
  let left ← sub payload.length Sizes.kIndexHeaderSize
  refuse (left < count * Sizes.kIndexEntryFixedSize)
    (.corruption (text "sstable index declares more entries than it could hold"))
  let (index, i) ← takeIndexEntries payload filterOffset count none Sizes.kIndexHeaderSize
  refuse (i ≠ payload.length) (.corruption (text "sstable index has trailing bytes after its last entry"))
  return index

section Safety

variable {payload bytes : Bytes} {i filterOffset : Nat} {last : Option Key}

theorem yields_takeEntry (hi : i < payload.length) :
    Yields Failure.IsCorruption (fun y => y.1.1 ≠ [] ∧ i < y.2 ∧ y.2 ≤ payload.length) (takeEntry payload i) := by
  rw [takeEntry, sub_bind hi.le]
  apply yields_refused
  intro hheader
  have hheader : i + 9 ≤ payload.length := by
    rw [kEntryHeaderSize] at hheader
    omega
  apply (yields_readU32 (by omega)).bind
  intro keySize _
  apply (yields_readU32 (by omega)).bind
  intro valueSize _
  apply (yields_item (by omega)).bind
  intro flags _
  rw [kEntryHeaderSize, sub_bind hheader]
  apply yields_refused
  intro hneed
  have hneed : i + 9 + (keySize + valueSize) ≤ payload.length := by omega
  apply yields_refused
  intro hkey
  apply (yields_slice (by omega)).bind
  rintro key rfl
  apply (yields_slice (by omega)).bind
  intro value _
  apply yields_pure
  refine ⟨?_, by dsimp only; omega, hneed⟩
  intro hnil
  have hlength := congrArg List.length hnil
  rw [List.length_take, List.length_drop, List.length_nil] at hlength
  omega

theorem yields_parseBlock (payload : Bytes) :
    Yields Failure.IsCorruption (fun entries => ∀ e ∈ entries, e.1 ≠ []) (parseBlock payload) := by
  have hread : ∀ i, i < payload.length →
      Yields Failure.IsCorruption (fun y => y.1.1 ≠ [] ∧ i < y.2 ∧ y.2 ≤ payload.length) (takeEntry payload i) :=
    fun i hi => yields_takeEntry hi
  exact yields_readToEnd (P := fun e : Entry => e.1 ≠ []) hread (Nat.zero_le _) (Nat.lt_succ_self _)

theorem yields_decodeFooter [Crc] (bytes : Bytes) :
    Yields Failure.IsCorruption (fun _ => True) (decodeFooter bytes) := by
  apply yields_refused
  intro hsize
  have hsize : bytes.length = 44 := not_not.mp hsize
  have hmagic : kMagic.length = 4 := by decide
  apply (yields_slice (by omega)).bind
  intro magic _
  apply yields_refused
  intro _
  apply (yields_readU32 (by omega)).bind
  intro crc _
  apply (yields_slice (by omega)).bind
  intro body _
  apply yields_refused
  intro _
  apply (yields_readU64 (by omega)).bind
  intro indexOffset _
  apply (yields_readU32 (by omega)).bind
  intro indexSize _
  apply (yields_readU64 (by omega)).bind
  intro filterOffset _
  apply (yields_readU32 (by omega)).bind
  intro filterSize _
  apply (yields_readU64 (by omega)).bind
  intro entryCount _
  apply (yields_readU32 (by omega)).bind
  intro formatVersion _
  apply yields_refused
  intro _
  trivial

structure IndexEntry.Inside (e : IndexEntry) (filterOffset : Nat) : Prop where
  trailer : Sizes.kBlockTrailerSize ≤ e.blockSize
  last_le : e.blockOffset + e.blockSize ≤ filterOffset

theorem yields_takeIndexEntry (hi : i ≤ payload.length) :
    Yields Failure.IsCorruption (fun y => y.1.Inside filterOffset ∧ y.2 ≤ payload.length)
      (takeIndexEntry payload filterOffset last i) := by
  rw [takeIndexEntry, sub_bind hi]
  apply yields_refused
  intro hfixed
  have hfixed : i + 16 ≤ payload.length := by
    rw [kIndexEntryFixedSize] at hfixed
    omega
  apply (yields_readU32 (by omega)).bind
  intro keySize _
  apply yields_refused
  intro _
  rw [sub_bind (by omega)]
  apply yields_refused
  intro hkey
  rw [sub_bind (by omega)]
  apply yields_refused
  intro hrest
  have hrest : i + 4 + keySize + 12 ≤ payload.length := by omega
  apply (yields_slice (by omega)).bind
  intro key _
  apply (yields_readU64 (by omega)).bind
  intro blockOffset _
  apply (yields_readU32 (by omega)).bind
  intro blockSize _
  apply yields_refused
  intro htrailer
  apply yields_refused
  intro hoffset
  rw [sub_bind (Nat.not_lt.mp hoffset)]
  apply yields_refused
  intro hroom
  apply yields_refused
  intro _
  apply yields_pure
  refine ⟨⟨Nat.not_lt.mp htrailer, ?_⟩, by dsimp only; omega⟩
  dsimp only
  omega

theorem yields_takeIndexEntries (n : Nat) (hi : i ≤ payload.length) :
    Yields Failure.IsCorruption (fun y => ∀ e ∈ y.1, e.Inside filterOffset)
      (takeIndexEntries payload filterOffset n last i) := by
  induction n generalizing i last with
  | zero =>
    apply yields_pure
    simp
  | succ n ih =>
    apply (yields_takeIndexEntry hi).bind
    rintro ⟨entry, j⟩ ⟨hentry, hj⟩
    apply (ih hj).bind
    rintro ⟨entries, k⟩ hentries
    apply yields_pure
    exact List.forall_mem_cons.mpr ⟨hentry, hentries⟩

theorem yields_loadIndex (hheader : kIndexHeaderSize ≤ payload.length) :
    Yields Failure.IsCorruption (fun index => ∀ e ∈ index, e.Inside filterOffset) (loadIndex payload filterOffset) := by
  apply (yields_readU32 (by rwa [Nat.zero_add])).bind
  intro count _
  rw [sub_bind hheader]
  apply yields_refused
  intro _
  apply (yields_takeIndexEntries count hheader).bind
  rintro ⟨index, i⟩ hindex
  apply yields_refused
  intro _
  exact yields_pure hindex

end Safety

section RoundTrip

variable {payload bytes : Bytes} {i j filterOffset : Nat} {last : Option Key}

theorem length_encodeEntry (e : Entry) : (encodeEntry e).length = entrySize e := by
  simp only [encodeEntry, List.length_append, List.length_cons, length_putU32, entrySize, kEntryHeaderSize]
  omega

theorem length_flatMap_encodeEntry (block : List Entry) :
    (block.flatMap encodeEntry).length = blockSize block := by
  simp [length_encodeEntry, blockSize]

structure EntryFits (e : Entry) : Prop where
  key_ne : e.1 ≠ []
  key : e.1.length < 2 ^ 32
  value : e.2.value.length < 2 ^ 32

theorem takeEntry_of_stands {e : Entry} (he : EntryFits e) (h : Stands payload (encodeEntry e) i j) :
    takeEntry payload i = .ok (e, j) := by
  have hlast := h.last_eq
  have hle := h.last_le
  rw [length_encodeEntry, entrySize, kEntryHeaderSize] at hlast
  obtain ⟨hkeySize, h⟩ := h.of_append
  obtain ⟨hvalueSize, h⟩ := h.of_append
  obtain ⟨hflags, h⟩ := (show Stands payload ([Record.flagsOf e.2.tombstone] ++ (e.1 ++ e.2.value)) _ _ from h).of_append
  obtain ⟨hkey, hvalue⟩ := h.of_append
  simp only [length_putU32, List.length_singleton] at hvalueSize hflags hkey hvalue
  have hflag : payload[i + 8]? = some (Record.flagsOf e.2.tombstone) := by
    obtain ⟨_, _, rest, hrest⟩ := hflags
    have hdrop := congrArg (fun l => l[0]?) hrest
    simpa using hdrop.symm
  have htombstone : ((Record.flagsOf e.2.tombstone).val &&& Record.kFlagTombstone != 0) = e.2.tombstone := by
    cases e.2.tombstone <;> rfl
  have hne : e.1.length ≠ 0 := fun h => he.key_ne (List.length_eq_zero_iff.mp h)
  rw [takeEntry, sub_bind (by omega), refuse_bind (by rw [kEntryHeaderSize]; omega),
    readU32_of_stands hkeySize he.key, ok_bind, readU32_of_stands hvalueSize he.value, ok_bind,
    item_of_getElem? hflag, ok_bind]
  rw [kEntryHeaderSize, sub_bind (by omega), refuse_bind (by omega),
    refuse_bind hne]
  have hkeySlice := hkey.slice (ε := Failure)
  have hvalueSlice := hvalue.slice (ε := Failure)
  rw [show i + 4 + 4 + 1 = i + 9 by omega] at hkeySlice hvalueSlice
  rw [hkeySlice, ok_bind, hvalueSlice, ok_bind, htombstone, hlast]
  simp only [pure_eq_ok, Nat.add_assoc]

theorem parseBlock_encode {block : List Entry} (h : ∀ e ∈ block, EntryFits e) :
    parseBlock (block.flatMap encodeEntry) = .ok block := by
  have hpos : ∀ e : Entry, 0 < (encodeEntry e).length := by
    intro e
    rw [length_encodeEntry, entrySize, kEntryHeaderSize]
    omega
  have hcount : block.length ≤ (block.flatMap encodeEntry).length := by
    rw [List.length_flatMap]
    calc block.length = (block.map fun _ => 1).sum := by simp
      _ ≤ (block.map fun e => (encodeEntry e).length).sum := List.sum_le_sum fun e _ => hpos e
  apply readToEnd_of_stands (fun he hstands _ => takeEntry_of_stands he hstands) hpos h (Stands.whole _)
  omega

structure Footer.Encodable (footer : Footer) : Prop where
  indexOffset : footer.indexOffset < 2 ^ 64
  indexSize : footer.indexSize < 2 ^ 32
  filterOffset : footer.filterOffset < 2 ^ 64
  filterSize : footer.filterSize < 2 ^ 32
  entryCount : footer.entryCount < 2 ^ 64
  formatVersion : footer.formatVersion = kFormatVersion

theorem length_footerBody (footer : Footer) : (footerBody footer).length = 36 := by
  simp [footerBody, length_putU32, length_putU64]

theorem length_encodeFooter [Crc] (footer : Footer) : (encodeFooter footer).length = kFooterSize := by
  have hmagic : kMagic.length = 4 := by decide
  rw [encodeFooter, List.length_append, List.length_append, length_footerBody, length_putU32, hmagic]
  rfl

theorem decodeFooter_encodeFooter [Crc] {footer : Footer} (hf : footer.Encodable) :
    decodeFooter (encodeFooter footer) = .ok footer := by
  obtain ⟨hbody, hrest⟩ := (Stands.whole (encodeFooter footer)).of_append
  obtain ⟨hcrc, hmagic⟩ := hrest.of_append
  obtain ⟨hindexOffset, h⟩ := hbody.of_append
  obtain ⟨hindexSize, h⟩ := h.of_append
  obtain ⟨hfilterOffset, h⟩ := h.of_append
  obtain ⟨hfilterSize, h⟩ := h.of_append
  obtain ⟨hentryCount, hformatVersion⟩ := h.of_append
  simp only [length_footerBody, length_putU32, length_putU64, Nat.zero_add, Nat.reduceAdd] at *
  have hbodySlice := hbody.slice (ε := Failure)
  rw [length_footerBody] at hbodySlice
  rw [decodeFooter, refuse_bind (not_not.mpr (length_encodeFooter footer)), hmagic.slice, ok_bind,
    refuse_bind (not_not.mpr rfl), readU32_of_stands hcrc (BitVec.isLt _), ok_bind, hbodySlice, ok_bind,
    refuse_bind (not_not.mpr rfl), readU64_of_stands hindexOffset hf.indexOffset, ok_bind,
    readU32_of_stands hindexSize hf.indexSize, ok_bind, readU64_of_stands hfilterOffset hf.filterOffset, ok_bind,
    readU32_of_stands hfilterSize hf.filterSize, ok_bind, readU64_of_stands hentryCount hf.entryCount, ok_bind,
    readU32_of_stands hformatVersion (by rw [hf.formatVersion]; decide), ok_bind,
    refuse_bind (not_not.mpr hf.formatVersion)]
  rfl

theorem length_encodeIndexEntry (e : IndexEntry) :
    (encodeIndexEntry e).length = kIndexEntryFixedSize + e.key.length := by
  simp only [encodeIndexEntry, List.length_append, length_putU32, length_putU64, kIndexEntryFixedSize]
  omega

structure IndexEntry.Encodable (e : IndexEntry) (filterOffset : Nat) : Prop extends e.Inside filterOffset where
  key_ne : e.key ≠ []
  key : e.key.length < 2 ^ 32
  blockOffset : e.blockOffset < 2 ^ 64
  blockSize : e.blockSize < 2 ^ 32

theorem takeIndexEntry_of_stands {e : IndexEntry} (he : e.Encodable filterOffset)
    (hlast : ∀ key ∈ last, key < e.key) (h : Stands payload (encodeIndexEntry e) i j) :
    takeIndexEntry payload filterOffset last i = .ok (e, j) := by
  have hend := h.last_eq
  have hle := h.last_le
  have hinside := he.last_le
  rw [length_encodeIndexEntry, kIndexEntryFixedSize] at hend
  obtain ⟨hkeySize, h⟩ := h.of_append
  obtain ⟨hkey, h⟩ := h.of_append
  obtain ⟨hblockOffset, hblockSize⟩ := h.of_append
  simp only [length_putU32, length_putU64] at hkey hblockOffset hblockSize
  have hne : e.key.length ≠ 0 := fun h => he.key_ne (List.length_eq_zero_iff.mp h)
  have horder : ¬ (last.any fun last => decide (e.key ≤ last)) = true := by
    intro hany
    obtain ⟨key, hkey, hge⟩ := (Option.any_eq_true _ _).mp hany
    exact not_le_of_gt (hlast key hkey) (of_decide_eq_true hge)
  rw [takeIndexEntry, sub_bind (by omega), refuse_bind (by rw [kIndexEntryFixedSize]; omega), readU32_of_stands hkeySize he.key, ok_bind]
  dsimp only
  rw [refuse_bind hne, sub_bind (by omega), refuse_bind (by omega),
    sub_bind (by omega), refuse_bind (by omega), hkey.slice, ok_bind]
  rw [readU64_of_stands hblockOffset he.blockOffset, ok_bind, readU32_of_stands hblockSize he.blockSize, ok_bind,
    refuse_bind (Nat.not_lt.mpr he.trailer), refuse_bind (by omega), sub_bind (by omega), refuse_bind (by omega), refuse_bind horder, pure_eq_ok, hend]
  congr 2
  omega

theorem takeIndexEntries_of_stands {entries : List IndexEntry} (he : ∀ e ∈ entries, e.Encodable filterOffset)
    (hsorted : entries.Pairwise (·.key < ·.key)) (hlast : ∀ key ∈ last, ∀ e ∈ entries, key < e.key)
    (h : Stands payload (entries.flatMap encodeIndexEntry) i j) :
    takeIndexEntries payload filterOffset entries.length last i = .ok (entries, j) := by
  induction entries generalizing i last with
  | nil =>
    rw [h.last_eq]
    rfl
  | cons e entries ih =>
    obtain ⟨hhead, he⟩ := List.forall_mem_cons.mp he
    obtain ⟨hfirst, hsorted⟩ := List.pairwise_cons.mp hsorted
    rw [List.flatMap_cons] at h
    obtain ⟨hentry, hrest⟩ := h.of_append
    have hbefore : ∀ key ∈ last, key < e.key := fun key hkey => hlast key hkey e List.mem_cons_self
    rw [List.length_cons, takeIndexEntries, takeIndexEntry_of_stands hhead hbefore hentry, ok_bind]
    dsimp only
    have hnext : ∀ key ∈ some e.key, ∀ e' ∈ entries, key < e'.key := by
      rintro key hkey e' he'
      rw [Option.mem_some_iff] at hkey
      exact hkey ▸ hfirst e' he'
    rw [ih he hsorted hnext hrest, ok_bind]
    rfl

def indexBody (index : List IndexEntry) : Bytes := putU32 index.length ++ index.flatMap encodeIndexEntry

theorem length_indexBody (index : List IndexEntry) :
    (indexBody index).length =
      kIndexHeaderSize + (index.map fun e => kIndexEntryFixedSize + e.key.length).sum := by
  simp [indexBody, length_putU32, length_encodeIndexEntry, kIndexHeaderSize]

theorem loadIndex_indexBody {index : List IndexEntry} (hcount : index.length < 2 ^ 32)
    (he : ∀ e ∈ index, e.Encodable filterOffset) (hsorted : index.Pairwise (·.key < ·.key)) :
    loadIndex (indexBody index) filterOffset = .ok index := by
  have hlength := length_indexBody index
  have hroom : index.length * kIndexEntryFixedSize ≤
      (index.map fun e => kIndexEntryFixedSize + e.key.length).sum := by
    calc index.length * kIndexEntryFixedSize = (index.map fun _ => kIndexEntryFixedSize).sum := by simp
      _ ≤ (index.map fun e => kIndexEntryFixedSize + e.key.length).sum :=
          List.sum_le_sum fun e _ => Nat.le_add_right _ _
  obtain ⟨hheader, hentries⟩ := (Stands.whole (indexBody index)).of_append
  rw [length_putU32, Nat.zero_add] at hentries
  rw [loadIndex, readU32_of_stands hheader hcount, ok_bind, sub_bind (by omega),
    refuse_bind (by omega), kIndexHeaderSize,
    takeIndexEntries_of_stands he hsorted (by simp) hentries, ok_bind]
  dsimp only
  rw [refuse_bind (not_not.mpr rfl)]
  rfl

end RoundTrip

end KVStore.TableFormat
