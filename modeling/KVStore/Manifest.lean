import KVStore.LsmDirectory
import KVStore.Reading

namespace KVStore

open Lib Checked Encoding

namespace Manifest

def kMagic : Bytes := text "KVMF"
def kFormatVersion : Nat := 1
def kHeaderSize : Nat := 16
def kTrailerSize : Nat := 4
def kTableFixedSize : Nat := 28
def kMaxManifestSize : Nat := 64 * 2 ^ 20

def appendString (s : Bytes) : Bytes := putU32 s.length ++ s

def encodeTable (table : TableMeta) : Bytes :=
  putU32 table.id ++ (putU64 table.fileSize ++ (putU64 table.entryCount ++
    (appendString table.minKey ++ appendString table.maxKey)))

def encodeLevel (level : List TableMeta) : Bytes := putU32 level.length ++ level.flatMap encodeTable

def body (set : LevelSet) : Bytes :=
  kMagic ++ (putU32 kFormatVersion ++ (putU32 set.nextId ++ (putU32 set.levels.length ++
    set.levels.flatMap encodeLevel)))

def encode [Crc] (set : LevelSet) : Bytes := body set ++ putU32 (Crc.crc32Of (body set)).toNat

def takeString (bytes : Bytes) (limit i : Nat) : Read (Bytes × Nat) := do
  let left ← sub limit i
  refuse (left < 4) (.corruption (text "manifest ends inside a key length"))
  let size ← readU32 bytes i
  let i := i + 4
  let left ← sub limit i
  refuse (left < size) (.corruption (text "manifest key claims more bytes than the file holds"))
  let out ← slice bytes i size
  return (out, i + size)

/-- The body of the loop over the tables of a level. -/
def takeTable (bytes : Bytes) (limit i : Nat) : Read (TableMeta × Nat) := do
  let left ← sub limit i
  refuse (left < 20) (.corruption (text "manifest ends inside a table entry"))
  let id ← readU32 bytes i
  let i := i + 4
  let fileSize ← readU64 bytes i
  let i := i + 8
  let entryCount ← readU64 bytes i
  let i := i + 8
  let (minKey, i) ← takeString bytes limit i
  let (maxKey, i) ← takeString bytes limit i
  refuse (id < kFirstFileId) (.corruption (text "manifest names a table with an impossible id"))
  refuse (maxKey < minKey) (.corruption (text "manifest names a table whose range is inverted"))
  return (⟨id, fileSize, entryCount, minKey, maxKey⟩, i)

def takeLevel (bytes : Bytes) (limit i : Nat) : Read (List TableMeta × Nat) := do
  let left ← sub limit i
  refuse (left < 4) (.corruption (text "manifest ends inside a level header"))
  let tableCount ← readU32 bytes i
  let i := i + 4
  let left ← sub limit i
  refuse (left < tableCount * kTableFixedSize)
    (.corruption (text "manifest declares more tables than it could hold"))
  readMany (takeTable bytes limit) tableCount i

def decode [Crc] (bytes : Bytes) : Read LevelSet := do
  refuse (bytes.length < kHeaderSize + kTrailerSize) (.corruption (text "manifest is too small to be one"))
  let magic ← slice bytes 0 kMagic.length
  refuse (magic ≠ kMagic) (.corruption (text "not a manifest: bad magic"))
  let payloadSize ← sub bytes.length kTrailerSize
  let crc ← readU32 bytes payloadSize
  let payload ← slice bytes 0 payloadSize
  refuse (crc ≠ (Crc.crc32Of payload).toNat) (.corruption (text "manifest fails its crc"))
  let version ← readU32 bytes 4
  refuse (version ≠ kFormatVersion)
    (.corruption (text "unsupported manifest format version " ++ text (toString version)))
  let nextId ← readU32 bytes 8
  let levelCount ← readU32 bytes 12
  let left ← sub payloadSize kHeaderSize
  refuse (left < levelCount * 4) (.corruption (text "manifest declares more levels than it could hold"))
  let (levels, i) ← readMany (takeLevel bytes payloadSize) levelCount kHeaderSize
  refuse (i ≠ payloadSize) (.corruption (text "manifest has trailing bytes after its last table"))
  return ⟨nextId, levels⟩

end Manifest

structure TableMeta.Encodable (table : TableMeta) : Prop where
  first : kFirstFileId ≤ table.id
  id : table.id < 2 ^ 32
  fileSize : table.fileSize < 2 ^ 64
  entryCount : table.entryCount < 2 ^ 64
  minKey : table.minKey.length < 2 ^ 32
  maxKey : table.maxKey.length < 2 ^ 32
  ordered : ¬ table.maxKey < table.minKey

structure LevelEncodable (level : List TableMeta) : Prop where
  tableCount : level.length < 2 ^ 32
  tables : ∀ table ∈ level, table.Encodable

structure LevelSet.Encodable (set : LevelSet) : Prop where
  nextId : set.nextId < 2 ^ 32
  levelCount : set.levels.length < 2 ^ 32
  levels : ∀ level ∈ set.levels, LevelEncodable level

namespace Manifest

section Sizes

theorem length_appendString (s : Bytes) : (appendString s).length = 4 + s.length := by
  rw [appendString, List.length_append, length_putU32]

theorem length_encodeTable (table : TableMeta) :
    (encodeTable table).length = kTableFixedSize + table.minKey.length + table.maxKey.length := by
  simp only [encodeTable, List.length_append, length_putU32, length_putU64, length_appendString, kTableFixedSize]
  omega

theorem length_encodeLevel (level : List TableMeta) :
    (encodeLevel level).length = 4 + (level.flatMap encodeTable).length := by
  rw [encodeLevel, List.length_append, length_putU32]

theorem mul_length_le_flatMap {α : Type} {encode : α → Bytes} {least : Nat} {l : List α}
    (h : ∀ a ∈ l, least ≤ (encode a).length) : l.length * least ≤ (l.flatMap encode).length := by
  induction l with
  | nil => simp
  | cons a l ih =>
    obtain ⟨ha, hl⟩ := List.forall_mem_cons.mp h
    have hrest := ih hl
    rw [List.flatMap_cons, List.length_append, List.length_cons, Nat.succ_mul]
    omega

theorem length_body (set : LevelSet) :
    (body set).length = kHeaderSize + (set.levels.flatMap encodeLevel).length := by
  simp only [body, List.length_append, length_putU32, kHeaderSize]
  have : kMagic.length = 4 := by decide
  omega

theorem length_encode [Crc] (set : LevelSet) : (encode set).length = (body set).length + kTrailerSize := by
  rw [encode, List.length_append, length_putU32]
  rfl

end Sizes

section RoundTrip

variable {bytes : Bytes} {limit i j : Nat}

theorem takeString_of_stands {s : Bytes} (hs : s.length < 2 ^ 32) (h : Stands bytes (appendString s) i j)
    (hj : j ≤ limit) : takeString bytes limit i = .ok (s, j) := by
  have hlast := h.last_eq
  rw [length_appendString] at hlast
  obtain ⟨hsize, hrest⟩ := h.of_append
  rw [length_putU32] at hrest
  rw [takeString, sub_bind (by omega), refuse_bind (by omega),
    readU32_of_stands hsize hs, ok_bind]
  rw [sub_bind (by omega), refuse_bind (by omega), hrest.slice, ok_bind, pure_eq_ok, hlast,
    Nat.add_assoc]

theorem takeTable_of_stands {table : TableMeta} (ht : table.Encodable) (h : Stands bytes (encodeTable table) i j)
    (hj : j ≤ limit) : takeTable bytes limit i = .ok (table, j) := by
  have hlast := h.last_eq
  rw [length_encodeTable, kTableFixedSize] at hlast
  obtain ⟨hid, h⟩ := h.of_append
  obtain ⟨hfileSize, h⟩ := h.of_append
  obtain ⟨hentryCount, h⟩ := h.of_append
  obtain ⟨hminKey, hmaxKey⟩ := h.of_append
  simp only [length_putU32, length_putU64] at hfileSize hentryCount hminKey hmaxKey
  have hmid := hminKey.last_eq
  rw [length_appendString] at hmid
  rw [takeTable, sub_bind (by omega), refuse_bind (by omega),
    readU32_of_stands hid ht.id, ok_bind]
  dsimp only
  rw [readU64_of_stands hfileSize ht.fileSize, ok_bind, readU64_of_stands hentryCount ht.entryCount, ok_bind,
    takeString_of_stands ht.minKey hminKey (by rw [length_appendString]; omega), ok_bind]
  rw [takeString_of_stands ht.maxKey hmaxKey hj, ok_bind]
  rw [refuse_bind (Nat.not_lt.mpr ht.first), refuse_bind ht.ordered]
  rfl

theorem takeLevel_of_stands {level : List TableMeta} (hl : LevelEncodable level)
    (h : Stands bytes (encodeLevel level) i j) (hj : j ≤ limit) : takeLevel bytes limit i = .ok (level, j) := by
  have hlast := h.last_eq
  rw [length_encodeLevel] at hlast
  have hleast : level.length * kTableFixedSize ≤ (level.flatMap encodeTable).length := by
    apply mul_length_le_flatMap
    intro table _
    rw [length_encodeTable]
    omega
  obtain ⟨hsize, htables⟩ := h.of_append
  rw [length_putU32] at htables
  rw [takeLevel, sub_bind (by omega), refuse_bind (by omega),
    readU32_of_stands hsize hl.tableCount, ok_bind]
  rw [sub_bind (by omega), refuse_bind (by omega)]
  exact readMany_of_stands takeTable_of_stands hl.tables htables hj

variable [Crc]

theorem decode_encode {set : LevelSet} (hset : set.Encodable) : decode (encode set) = .ok set := by
  have hlength := length_encode set
  have hbodyLength := length_body set
  rw [kTrailerSize] at hlength
  rw [kHeaderSize] at hbodyLength
  have hmagicLength : kMagic.length = 4 := by decide
  obtain ⟨hbody, hcrc⟩ := (Stands.whole (encode set)).of_append
  rw [Nat.zero_add] at hbody hcrc
  have hpayload := hbody.slice (ε := Failure)
  obtain ⟨hmagic, h⟩ := hbody.of_append
  obtain ⟨hversion, h⟩ := h.of_append
  obtain ⟨hnextId, h⟩ := h.of_append
  obtain ⟨hcount, hlevels⟩ := h.of_append
  simp only [length_putU32, hmagicLength, Nat.zero_add, Nat.reduceAdd] at hversion hnextId hcount hlevels
  have hleast : set.levels.length * 4 ≤ (set.levels.flatMap encodeLevel).length := by
    apply mul_length_le_flatMap
    intro level _
    rw [length_encodeLevel]
    omega
  have hread : readMany (takeLevel (encode set) (body set).length) set.levels.length kHeaderSize =
      .ok (set.levels, (body set).length) := readMany_of_stands takeLevel_of_stands hset.levels hlevels le_rfl
  rw [decode, refuse_bind (by rw [kHeaderSize, kTrailerSize]; omega), hmagic.slice, ok_bind,
    refuse_bind (not_not.mpr rfl), sub_bind (by rw [kTrailerSize]; omega), kTrailerSize,
    hlength, Nat.add_sub_cancel, readU32_of_stands hcrc (Crc.crc32Of (body set)).isLt, ok_bind, hpayload, ok_bind,
    refuse_bind (not_not.mpr rfl), readU32_of_stands hversion (by decide), ok_bind,
    refuse_bind (not_not.mpr rfl), readU32_of_stands hnextId hset.nextId, ok_bind,
    readU32_of_stands hcount hset.levelCount, ok_bind, sub_bind (by rw [kHeaderSize]; omega),
    refuse_bind (by rw [kHeaderSize]; omega), hread, ok_bind]
  dsimp only
  rw [refuse_bind (not_not.mpr rfl)]
  rfl

end RoundTrip

section Canonical

variable {bytes : Bytes} {limit i : Nat}

section

variable (hlimit : limit ≤ bytes.length) (hi : i ≤ limit)
include hlimit hi

theorem yields_takeString :
    Yields Failure.IsCorruption (fun y => y.1.length < 2 ^ 32 ∧ Stands bytes (appendString y.1) i y.2 ∧ y.2 ≤ limit)
      (takeString bytes limit i) := by
  rw [takeString, sub_bind hi]
  apply yields_refused
  intro hleft
  apply (yields_readU32 (by omega)).bind
  rintro size ⟨hsize, hword⟩
  rw [sub_bind (by omega)]
  apply yields_refused
  intro hleft'
  apply (yields_slice (by omega)).bind
  rintro _ rfl
  have hstands := Stands.of_slice (show i + 4 + size ≤ bytes.length by omega)
  have hlength : ((bytes.drop (i + 4)).take size).length = size := by
    have := hstands.last_eq
    omega
  apply yields_pure
  refine ⟨by rw [hlength]; exact hsize, ?_, by omega⟩
  rw [appendString, hlength]
  exact hword.append hstands

theorem yields_takeTable :
    Yields Failure.IsCorruption (fun y => y.1.Encodable ∧ Stands bytes (encodeTable y.1) i y.2 ∧ y.2 ≤ limit)
      (takeTable bytes limit i) := by
  rw [takeTable, sub_bind hi]
  apply yields_refused
  intro hleft
  apply (yields_readU32 (by omega)).bind
  rintro id ⟨hid, hidStands⟩
  apply (yields_readU64 (by omega)).bind
  rintro fileSize ⟨hfileSize, hfileSizeStands⟩
  apply (yields_readU64 (by omega)).bind
  rintro entryCount ⟨hentryCount, hentryCountStands⟩
  apply (yields_takeString hlimit (by omega)).bind
  rintro ⟨minKey, i₁⟩ ⟨hminKey, hminKeyStands, hi₁⟩
  apply (yields_takeString hlimit hi₁).bind
  rintro ⟨maxKey, i₂⟩ ⟨hmaxKey, hmaxKeyStands, hi₂⟩
  apply yields_refused
  intro hfirst
  apply yields_refused
  intro hordered
  apply yields_pure
  refine ⟨⟨Nat.not_lt.mp hfirst, hid, hfileSize, hentryCount, hminKey, hmaxKey, hordered⟩, ?_, hi₂⟩
  exact hidStands.append (hfileSizeStands.append (hentryCountStands.append (hminKeyStands.append hmaxKeyStands)))

theorem yields_takeLevel :
    Yields Failure.IsCorruption (fun y => LevelEncodable y.1 ∧ Stands bytes (encodeLevel y.1) i y.2 ∧ y.2 ≤ limit)
      (takeLevel bytes limit i) := by
  rw [takeLevel, sub_bind hi]
  apply yields_refused
  intro hleft
  apply (yields_readU32 (by omega)).bind
  rintro tableCount ⟨hcount, hcountStands⟩
  rw [sub_bind (by omega)]
  apply yields_refused
  intro _
  apply (yields_readMany (fun j hj => yields_takeTable hlimit hj) hlimit tableCount (by omega)).mono
  rintro ⟨level, j⟩ ⟨hlength, htables, hstands, hj⟩
  refine ⟨⟨hlength ▸ hcount, htables⟩, ?_, hj⟩
  rw [encodeLevel, hlength]
  exact hcountStands.append hstands

end

variable [Crc]

theorem yields_decode (bytes : Bytes) :
    Yields Failure.IsCorruption (fun set => set.Encodable ∧ encode set = bytes) (decode bytes) := by
  have hmagicLength : kMagic.length = 4 := by decide
  apply yields_refused
  intro hsize
  rw [kHeaderSize, kTrailerSize] at hsize
  apply (yields_slice (by omega)).bind
  rintro _ rfl
  apply yields_refused
  intro hmagic
  apply (yields_sub (by rw [kTrailerSize]; omega)).bind
  rintro payloadSize hpayloadSize
  rw [kTrailerSize] at hpayloadSize
  apply (yields_readU32 (by omega)).bind
  rintro crc ⟨_, hcrcStands⟩
  apply (yields_slice (by omega)).bind
  rintro payload hpayload
  apply yields_refused
  intro hcrc
  apply (yields_readU32 (by omega)).bind
  rintro version ⟨_, hversionStands⟩
  apply yields_refused
  intro hversion
  apply (yields_readU32 (by omega)).bind
  rintro nextId ⟨hnextId, hnextIdStands⟩
  apply (yields_readU32 (by omega)).bind
  rintro levelCount ⟨hlevelCount, hlevelCountStands⟩
  rw [sub_bind (by rw [kHeaderSize]; omega)]
  apply yields_refused
  intro _
  have hlimit : payloadSize ≤ bytes.length := by omega
  apply (yields_readMany (fun j hj => yields_takeLevel hlimit hj) hlimit levelCount
    (by rw [kHeaderSize]; omega)).bind
  rintro ⟨levels, i⟩ ⟨hlength, hlevels, hlevelsStands, _⟩
  apply yields_refused
  intro hend
  apply yields_pure
  have hmagicStands : Stands bytes kMagic 0 4 := by
    have hstands := Stands.of_slice (show 0 + kMagic.length ≤ bytes.length by omega)
    rwa [not_not.mp hmagic] at hstands
  rw [not_not.mp hversion] at hversionStands
  rw [not_not.mp hend] at hlevelsStands
  have hbody : Stands bytes (body ⟨nextId, levels⟩) 0 payloadSize := by
    rw [body, hlength]
    exact hmagicStands.append (hversionStands.append (hnextIdStands.append (hlevelCountStands.append hlevelsStands)))
  have hpayloadBody : payload = body ⟨nextId, levels⟩ := by
    have hstands := Stands.of_slice (show 0 + payloadSize ≤ bytes.length by omega)
    rw [Nat.zero_add, ← hpayload] at hstands
    exact hstands.unique hbody
  rw [not_not.mp hcrc, hpayloadBody] at hcrcStands
  refine ⟨⟨hnextId, hlength ▸ hlevelCount, hlevels⟩, ?_⟩
  apply Stands.eq_whole
  have hwhole := hbody.append hcrcStands
  rwa [show payloadSize + 4 = bytes.length by omega] at hwhole

/-- The decoder accepts exactly what the encoder writes for a level set that fits the format, gives
that level set back, and refuses all other bytes without reading past them. -/
theorem decode_eq_ok_iff_encode (bytes : Bytes) :
    (∀ set, decode bytes = .ok set ↔ set.Encodable ∧ encode set = bytes) ∧
      ((∃ set, decode bytes = .ok set) ∨
        ∃ f : Failure, decode bytes = .error (.status f) ∧ f.status.code = .corruption) := by
  have hyields := yields_decode bytes
  constructor
  · intro set
    constructor
    · exact hyields.of_ok
    · rintro ⟨hset, rfl⟩
      exact decode_encode hset
  · rcases hyields.value_or_status with ⟨set, hset, -⟩ | ⟨f, hf, hcorruption⟩
    · exact .inl ⟨set, hset⟩
    · exact .inr ⟨f, hf, hcorruption⟩

end Canonical

end Manifest

end KVStore
