import KVStore.RecordScan

namespace KVStore.Hint

open Lib Encoding

def kCrcSize : Nat := 4
def kEntryHeaderSize : Nat := 28
def kFooterSize : Nat := 24
def kMagic : Bytes := text "KVHT"

/-- Where the record of a key stands in the data file. -/
structure Entry where
  timestamp : Timestamp
  recordOffset : Nat
  recordSize : Nat
  key : Key
  deriving DecidableEq

structure Footer where
  dataFileSize : Nat
  entryCount : Nat
  deriving DecidableEq

def entryBody (e : Entry) : Bytes :=
  putU64 e.timestamp ++ (putU64 e.recordOffset ++ (putU32 e.recordSize ++ (putU32 e.key.length ++ e.key)))

def encodeEntry [Crc] (e : Entry) : Bytes :=
  putU32 (Crc.crc32Of (entryBody e)).toNat ++ entryBody e

def decodeEntry [Crc] (bytes : Bytes) : Except Failure Entry :=
  if bytes.length < kEntryHeaderSize then .error (.corruption (text "hint entry header truncated"))
  else
    let keySize := getU32 bytes 24
    if keySize = 0 then .error (.corruption (text "hint entry declares a zero-length key"))
    else if getU32 bytes 20 < Record.kHeaderSize then
      .error (.corruption (text "hint entry declares an impossibly small record"))
    else if bytes.length < kEntryHeaderSize + keySize then
      .error (.corruption (text "hint entry key truncated"))
    else if Crc.crc32Of ((bytes.drop kCrcSize).take (kEntryHeaderSize + keySize - kCrcSize)) ≠
        BitVec.ofNat 32 (getU32 bytes 0) then
      .error (.corruption (text "hint entry crc mismatch"))
    else .ok
      { timestamp := Fin.ofNat (2 ^ 64) (getU64 bytes 4)
        recordOffset := getU64 bytes 12
        recordSize := getU32 bytes 20
        key := (bytes.drop kEntryHeaderSize).take keySize }

def footerBody (f : Footer) : Bytes := kMagic ++ (putU64 f.dataFileSize ++ putU64 f.entryCount)

def encodeFooter [Crc] (f : Footer) : Bytes :=
  footerBody f ++ putU32 (Crc.crc32Of (footerBody f)).toNat

def decodeFooter [Crc] (bytes : Bytes) : Except Failure Footer :=
  if bytes.length ≠ kFooterSize then .error (.corruption (text "hint footer is the wrong size"))
  else if bytes.take kMagic.length ≠ kMagic then
    .error (.corruption (text "hint footer magic missing"))
  else if Crc.crc32Of (bytes.take 20) ≠ BitVec.ofNat 32 (getU32 bytes 20) then
    .error (.corruption (text "hint footer crc mismatch"))
  else .ok ⟨getU64 bytes 4, getU64 bytes 12⟩

/-- One round of the entry loop of `replay_hint`: the entry, and the offset behind it.
The sizes that the source narrows or adds in 64 bits are narrowed and added so. -/
def readEntry [Crc] (read : Nat → Nat → Option Bytes) (entriesEnd dataSize offset : Nat) : Option (Entry × Nat) :=
  if entriesEnd < offset + kEntryHeaderSize then none
  else
    match read offset kEntryHeaderSize with
    | none => none
    | some headerBytes =>
      let total := kEntryHeaderSize + getU32 headerBytes 24
      if entriesEnd < offset + total then none
      else
        match read offset (total % 2 ^ 32) with
        | none => none
        | some entryBytes =>
          match decodeEntry entryBytes with
          | .error _ => none
          | .ok e => if dataSize < (e.recordOffset + e.recordSize) % 2 ^ 64 then none else some (e, offset + total)

def readEntries [Crc] (read : Nat → Nat → Option Bytes) (entriesEnd dataSize : Nat) :
    Nat → Nat → Option (List Entry)
  | 0, _ => none
  | fuel + 1, offset =>
    if offset < entriesEnd then
      (readEntry read entriesEnd dataSize offset).bind fun round =>
        (readEntries read entriesEnd dataSize fuel round.2).map (round.1 :: ·)
    else if offset = entriesEnd then some [] else none

/-- What `replay_hint` gets out of a hint file, or `none` when it falls back to the
data file. Every entry takes up some of the file, so its size is fuel enough. -/
def readHint [Crc] (read : Nat → Nat → Option Bytes) (size dataSize : Nat) : Option (List Entry) :=
  if size < kFooterSize then none
  else
    let entriesEnd := size - kFooterSize
    match read entriesEnd kFooterSize with
    | none => none
    | some footerBytes =>
      match decodeFooter footerBytes with
      | .error _ => none
      | .ok footer =>
        if footer.dataFileSize ≠ dataSize then none
        else if entriesEnd / kEntryHeaderSize < footer.entryCount then none
        else
          match readEntries read entriesEnd dataSize (entriesEnd + 1) 0 with
          | none => none
          | some entries => if entries.length = footer.entryCount then some entries else none

structure Entry.Encodable (e : Entry) : Prop where
  recordOffset : e.recordOffset < 2 ^ 64
  recordSize : e.recordSize < 2 ^ 32
  key : e.key.length < 2 ^ 32

variable [Crc] {e e' : Entry} {entries found : List Entry} {read : Nat → Nat → Option Bytes} {bytes : Bytes}
  {entriesEnd dataSize offset : Nat}

theorem length_encodeEntry (e : Entry) : (encodeEntry e).length = kEntryHeaderSize + e.key.length := by
  simp only [encodeEntry, entryBody, kEntryHeaderSize, List.length_append, length_putU32, length_putU64]
  omega

theorem encodeEntry_inj {rest rest' : Bytes} (he : e.Encodable) (he' : e'.Encodable)
    (h : encodeEntry e ++ rest = encodeEntry e' ++ rest') : e = e' ∧ rest = rest' := by
  simp only [encodeEntry, entryBody, List.append_assoc] at h
  obtain ⟨-, h⟩ := List.append_inj h (by simp)
  obtain ⟨htime, h⟩ := List.append_inj h (by simp)
  obtain ⟨hoffset, h⟩ := List.append_inj h (by simp)
  obtain ⟨hsize, h⟩ := List.append_inj h (by simp)
  obtain ⟨hlength, h⟩ := List.append_inj h (by simp)
  obtain ⟨hkey, hrest⟩ := List.append_inj h (LittleEndian.put_inj he.key he'.key hlength)
  have htime := Fin.ext (LittleEndian.put_inj e.timestamp.isLt e'.timestamp.isLt htime)
  have hoffset := LittleEndian.put_inj he.recordOffset he'.recordOffset hoffset
  have hsize := LittleEndian.put_inj he.recordSize he'.recordSize hsize
  refine ⟨?_, hrest⟩
  cases e
  cases e'
  simp_all

theorem encodeEntry_of_decodeEntry (h : decodeEntry bytes = .ok e) :
    e.Encodable ∧ e.key.length = getU32 bytes 24 ∧
      encodeEntry e = bytes.take (kEntryHeaderSize + getU32 bytes 24) := by
  unfold decodeEntry at h
  dsimp only at h
  split_ifs at h with hheader _ _ htotal hcrc
  obtain rfl := Except.ok.inj h
  have hlength : ((bytes.drop kEntryHeaderSize).take (getU32 bytes 24)).length = getU32 bytes 24 := by
    rw [List.length_take, List.length_drop]
    omega
  rw [kEntryHeaderSize] at hheader htotal
  have htime : (Fin.ofNat (2 ^ 64) (getU64 bytes 4)).val = getU64 bytes 4 :=
    Nat.mod_eq_of_lt (getU64_lt ..)
  have hbody : entryBody ⟨Fin.ofNat (2 ^ 64) (getU64 bytes 4), getU64 bytes 12, getU32 bytes 20,
      (bytes.drop kEntryHeaderSize).take (getU32 bytes 24)⟩ =
        (bytes.drop 4).take (8 + (8 + (4 + (4 + getU32 bytes 24)))) := by
    rw [entryBody, htime, hlength]
    simp only [List.take_add, List.drop_drop, Nat.reduceAdd]
    rw [putU64_getU64 (by omega), putU64_getU64 (by omega), putU32_getU32 (by omega), putU32_getU32 (by omega)]
    rfl
  have hsum : kEntryHeaderSize + getU32 bytes 24 - kCrcSize = 8 + (8 + (4 + (4 + getU32 bytes 24))) := by
    rw [kEntryHeaderSize, kCrcSize]
    omega
  have hstored : (Crc.crc32Of ((bytes.drop 4).take (8 + (8 + (4 + (4 + getU32 bytes 24)))))).toNat =
      getU32 bytes 0 := by
    rw [← hsum]
    exact (congrArg BitVec.toNat (not_not.mp hcrc)).trans (Nat.mod_eq_of_lt (getU32_lt ..))
  refine ⟨⟨getU64_lt .., getU32_lt .., hlength.trans_lt (getU32_lt ..)⟩, hlength, ?_⟩
  have hwhole : kEntryHeaderSize + getU32 bytes 24 = 4 + (8 + (8 + (4 + (4 + getU32 bytes 24)))) := by
    rw [kEntryHeaderSize]
    omega
  rw [encodeEntry, hbody, hstored, hwhole, putU32_getU32 (by omega), List.drop_zero]
  exact List.take_add.symm

theorem length_encodeFooter (f : Footer) : (encodeFooter f).length = kFooterSize := by
  have hmagic : kMagic.length = 4 := by decide
  simp [encodeFooter, footerBody, length_putU32, length_putU64, hmagic, kFooterSize]

theorem encodeFooter_of_decodeFooter {f : Footer} (h : decodeFooter bytes = .ok f) :
    f.dataFileSize < 2 ^ 64 ∧ encodeFooter f = bytes := by
  unfold decodeFooter at h
  split_ifs at h with hlength hmagic hcrc
  obtain rfl := Except.ok.inj h
  rw [not_not, kFooterSize] at hlength
  have hbody : footerBody ⟨getU64 bytes 4, getU64 bytes 12⟩ = bytes.take (4 + (8 + 8)) := by
    rw [footerBody, putU64_getU64 (by omega), putU64_getU64 (by omega), ← not_not.mp hmagic]
    rw [List.take_add, List.take_add, List.drop_drop]
    rfl
  have hstored : (Crc.crc32Of (bytes.take (4 + (8 + 8)))).toNat = getU32 bytes 20 :=
    (congrArg BitVec.toNat (not_not.mp hcrc)).trans (Nat.mod_eq_of_lt (getU32_lt ..))
  refine ⟨getU64_lt .., ?_⟩
  rw [encodeFooter, hbody, hstored, putU32_getU32 (by omega)]
  exact List.take_add.symm.trans (List.take_of_length_le (by omega))

def entriesBytes (entries : List Entry) : Bytes := entries.flatMap encodeEntry

@[simp] theorem entriesBytes_nil : entriesBytes [] = [] := rfl

@[simp] theorem entriesBytes_cons (e : Entry) (entries : List Entry) :
    entriesBytes (e :: entries) = encodeEntry e ++ entriesBytes entries := rfl

theorem entriesBytes_append (entries entries' : List Entry) :
    entriesBytes (entries ++ entries') = entriesBytes entries ++ entriesBytes entries' :=
  List.flatMap_append

theorem entriesBytes_cons_ne_nil (e : Entry) (entries : List Entry) : entriesBytes (e :: entries) ≠ [] := by
  apply List.ne_nil_of_length_pos
  rw [entriesBytes_cons, List.length_append, length_encodeEntry, kEntryHeaderSize]
  omega

theorem entriesBytes_inj (hentries : ∀ e ∈ entries, e.Encodable) (hfound : ∀ e ∈ found, e.Encodable)
    (h : entriesBytes entries = entriesBytes found) : entries = found := by
  induction entries generalizing found with
  | nil =>
    cases found with
    | nil => rfl
    | cons e found => exact absurd h.symm (entriesBytes_cons_ne_nil e found)
  | cons e entries ih =>
    cases found with
    | nil => exact absurd h (entriesBytes_cons_ne_nil e entries)
    | cons =>
      obtain ⟨he, hrest⟩ := List.forall_mem_cons.mp hentries
      obtain ⟨he', hrest'⟩ := List.forall_mem_cons.mp hfound
      rw [entriesBytes_cons, entriesBytes_cons] at h
      obtain ⟨rfl, hsame⟩ := encodeEntry_inj he he' h
      rw [ih hrest hrest' hsame]

/-- The entry loop of `replay_hint` as the runs of it that end. -/
inductive EntryLoop (read : Nat → Nat → Option Bytes) (entriesEnd dataSize : Nat) :
    Nat → Option (List Entry) → Prop
  | ended {offset : Nat} (outside : ¬ offset < entriesEnd) :
      EntryLoop read entriesEnd dataSize offset (if offset = entriesEnd then some [] else none)
  | rejected {offset : Nat} (inside : offset < entriesEnd)
      (round : readEntry read entriesEnd dataSize offset = none) : EntryLoop read entriesEnd dataSize offset none
  | next {offset : Nat} {e : Entry} {behind : Nat} {result : Option (List Entry)} (inside : offset < entriesEnd)
      (round : readEntry read entriesEnd dataSize offset = some (e, behind))
      (rest : EntryLoop read entriesEnd dataSize behind result) :
      EntryLoop read entriesEnd dataSize offset (result.map (e :: ·))

theorem readEntry_cases {behind : Nat} (h : readEntry read entriesEnd dataSize offset = some (e, behind)) :
    ∃ headerBytes entryBytes, read offset kEntryHeaderSize = some headerBytes ∧
      read offset ((kEntryHeaderSize + getU32 headerBytes 24) % 2 ^ 32) = some entryBytes ∧
      decodeEntry entryBytes = .ok e ∧ (e.recordOffset + e.recordSize) % 2 ^ 64 ≤ dataSize ∧
      behind = offset + (kEntryHeaderSize + getU32 headerBytes 24) ∧ behind ≤ entriesEnd := by
  unfold readEntry at h
  split_ifs at h
  split at h
  · cases h
  next headerBytes hheader =>
    dsimp only at h
    split at h
    · cases h
    next hinside =>
      split at h
      · cases h
      next entryBytes hentry =>
        split at h
        · cases h
        next e' hdecode =>
          split at h
          · cases h
          next haddressed =>
            cases h
            exact ⟨headerBytes, entryBytes, hheader, hentry, hdecode, not_lt.mp haddressed, rfl, not_lt.mp hinside⟩

theorem encodeEntry_of_readEntry {content : Bytes} {behind : Nat}
    (hread : ∀ {offset size bytes}, read offset size = some bytes → readAt content offset size = some bytes)
    (h : readEntry read entriesEnd dataSize offset = some (e, behind)) :
    e.Encodable ∧ behind = offset + (encodeEntry e).length ∧
      ∃ rest, content.drop offset = encodeEntry e ++ rest := by
  obtain ⟨headerBytes, entryBytes, hheader, hentry, hdecode, -, rfl, -⟩ := readEntry_cases h
  obtain ⟨hheaderSize, rest, hrest⟩ := eq_of_readAt (hread hheader)
  obtain ⟨hentrySize, rest', hrest'⟩ := eq_of_readAt (hread hentry)
  obtain ⟨hencodable, hkey, hbytes⟩ := encodeEntry_of_decodeEntry hdecode
  have hlength := length_encodeEntry e
  have hle : (encodeEntry e).length ≤ entryBytes.length := by
    rw [hbytes]
    exact List.length_take_le' ..
  have hsame : getU32 entryBytes 24 = getU32 headerBytes 24 := by
    rw [← getU32_append rest' (by rw [kEntryHeaderSize] at hlength; omega), ← hrest', hrest,
      getU32_append _ hheaderSize.ge]
  -- a size that does not fit 32 bits is read short and refused
  have hmod := Nat.mod_le (kEntryHeaderSize + getU32 headerBytes 24) (2 ^ 32)
  have hwhole : encodeEntry e = entryBytes := by
    rw [hbytes, List.take_of_length_le (by omega)]
  refine ⟨hencodable, ?_, rest', by rw [hwhole, hrest']⟩
  rw [hlength, hkey, hsame]

theorem entryLoop_readEntries (read : Nat → Nat → Option Bytes) (entriesEnd dataSize : Nat) {fuel : Nat}
    (h : entriesEnd < offset + fuel) :
    EntryLoop read entriesEnd dataSize offset (readEntries read entriesEnd dataSize fuel offset) := by
  induction fuel generalizing offset with
  | zero =>
    have hlt : ¬ offset < entriesEnd := by omega
    have hended := @EntryLoop.ended _ read _ dataSize _ hlt
    rwa [if_neg (by omega)] at hended
  | succ fuel ih =>
    rw [readEntries]
    split
    next hinside =>
      cases hround : readEntry read entriesEnd dataSize offset with
      | none => exact .rejected hinside hround
      | some =>
        obtain ⟨headerBytes, _, _, _, _, _, hbehind, _⟩ := readEntry_cases hround
        refine .next hinside hround (ih ?_)
        rw [hbehind, kEntryHeaderSize]
        omega
    next houtside => exact .ended houtside

theorem EntryLoop.entriesBytes_eq {content : Bytes} {result : Option (List Entry)}
    (hread : ∀ {offset size bytes}, read offset size = some bytes → readAt content offset size = some bytes)
    (h : EntryLoop read entriesEnd dataSize offset result) (hresult : result = some entries) :
    (content.take entriesEnd).drop offset = entriesBytes entries ∧
      ∀ e ∈ entries, e.Encodable ∧ (e.recordOffset + e.recordSize) % 2 ^ 64 ≤ dataSize := by
  induction h generalizing entries with
  | @ended =>
    split_ifs at hresult with heq
    cases hresult
    rw [heq, List.drop_of_length_le (List.length_take_le ..)]
    exact ⟨rfl, by simp⟩
  | rejected => cases hresult
  | @next offset e behind result inside round rest ih =>
    obtain ⟨entries, hentries, rfl⟩ := Option.map_eq_some_iff.mp hresult
    obtain ⟨hbytes, hall⟩ := ih hentries
    obtain ⟨_, _, _, _, _, haddressed, _, hinside⟩ := readEntry_cases round
    obtain ⟨hencodable, hbehind, rest', hrest'⟩ := encodeEntry_of_readEntry hread round
    refine ⟨?_, List.forall_mem_cons.mpr ⟨⟨hencodable, haddressed⟩, hall⟩⟩
    have hdrop : content.drop behind = rest' := by rw [hbehind, ← List.drop_drop, hrest', List.drop_left]
    rw [entriesBytes_cons, ← hbytes, List.drop_take, List.drop_take, hdrop, hrest', List.take_append,
      List.take_of_length_le (by omega), hbehind, Nat.sub_sub]

theorem readHint_eq_some {content : Bytes}
    (hread : ∀ {offset size bytes}, read offset size = some bytes → readAt content offset size = some bytes)
    (h : readHint read content.length dataSize = some entries) :
    content = entriesBytes entries ++ encodeFooter ⟨dataSize, entries.length⟩ ∧ dataSize < 2 ^ 64 ∧
      ∀ e ∈ entries, e.Encodable ∧ (e.recordOffset + e.recordSize) % 2 ^ 64 ≤ dataSize := by
  unfold readHint at h
  split_ifs at h with hsize
  dsimp only at h
  split at h
  · cases h
  next footerBytes hfooter =>
    split at h
    · cases h
    next footer hdecode =>
      split_ifs at h with hdata hcount
      split at h
      · cases h
      next found hentries =>
        split at h
        next hlength =>
          cases h
          obtain ⟨hfits, hbytes⟩ := encodeFooter_of_decodeFooter hdecode
          obtain ⟨hsame, hall⟩ := (entryLoop_readEntries read (content.length - kFooterSize) dataSize
            (by omega)).entriesBytes_eq hread hentries
          obtain ⟨hfooterSize, rest, hrest⟩ := eq_of_readAt (hread hfooter)
          have hnothing : rest = [] := by
            have hlengths := congrArg List.length hrest
            rw [List.length_drop, List.length_append] at hlengths
            exact List.length_eq_zero_iff.mp (by omega)
          obtain ⟨dataFileSize, entryCount⟩ := footer
          obtain rfl : dataFileSize = dataSize := not_not.mp hdata
          subst hlength
          refine ⟨?_, hfits, hall⟩
          rw [← hsame, hbytes, List.drop_zero, ← List.append_nil footerBytes, ← hnothing, ← hrest,
            List.take_append_drop]
        next => cases h

theorem eq_of_readHint {f : Footer} (hencodable : ∀ e ∈ entries, e.Encodable)
    (h : readHint (readAt (entriesBytes entries ++ encodeFooter f))
      (entriesBytes entries ++ encodeFooter f).length dataSize = some found) : found = entries := by
  obtain ⟨hsame, -, hall⟩ := readHint_eq_some id h
  have hfooters : (encodeFooter f).length = (encodeFooter ⟨dataSize, found.length⟩).length := by
    rw [length_encodeFooter, length_encodeFooter]
  exact (entriesBytes_inj hencodable (fun e he => (hall e he).1) (List.append_inj_left' hsame hfooters)).symm

end KVStore.Hint
