import KVStore.Record

namespace KVStore

open Record

/-- `LogFile::read_at` on a file with these contents; `none` is a short read. -/
def readAt (content : Bytes) (offset size : Nat) : Option Bytes :=
  if ((content.drop offset).take size).length = size then some ((content.drop offset).take size)
  else none

theorem readAt_of_append {content bytes rest : Bytes} {offset : Nat}
    (h : content.drop offset = bytes ++ rest) : readAt content offset bytes.length = some bytes := by
  rw [readAt, h, List.take_left, if_pos rfl]

theorem eq_of_readAt {content bytes : Bytes} {offset size : Nat}
    (h : readAt content offset size = some bytes) :
    bytes.length = size ∧ ∃ rest, content.drop offset = bytes ++ rest := by
  unfold readAt at h
  split_ifs at h with hlen
  cases h
  exact ⟨hlen, (content.drop offset).drop size, (List.take_append_drop _ _).symm⟩

theorem readAt_take {content : Bytes} {fileSize offset size : Nat} (h : offset + size ≤ fileSize) :
    readAt (content.take fileSize) offset size = readAt content offset size := by
  unfold readAt
  rw [List.drop_take, List.take_take, Nat.min_eq_left (by omega)]

structure Visited where
  offset : Nat
  record : Record
  raw : Bytes

/-- The loop of `scan_records`: the records visited and where the scan stopped. -/
def scanFrom [Crc] (read : Nat → Nat → Option Bytes) (fileSize : Nat) :
    Nat → Nat → List Visited × Nat
  | 0, offset => ([], offset)
  | fuel + 1, offset =>
    if fileSize < offset + Record.kHeaderSize then ([], offset)
    else
      match read offset Record.kHeaderSize with
      | none => ([], offset)
      | some headerBytes =>
        match Record.decodeHeader headerBytes with
        | .error _ => ([], offset)
        | .ok header =>
          if fileSize < offset + header.totalSize then ([], offset)
          else
            match read offset header.totalSize with
            | none => ([], offset)
            | some bytes =>
              match Record.decode bytes with
              | .error _ => ([], offset)
              | .ok record =>
                let rest := scanFrom read fileSize fuel (offset + header.totalSize)
                (⟨offset, record, bytes⟩ :: rest.1, rest.2)

/-- Every record takes up some of the file, so the size of the file is fuel enough. -/
def scanRecords [Crc] (read : Nat → Nat → Option Bytes) (fileSize : Nat) : List Visited × Nat :=
  scanFrom read fileSize fileSize 0

structure Intact [Crc] where
  raw : Bytes
  record : Record
  decodes : Record.decode raw = .ok record
  whole : raw.length = record.totalSize

namespace Intact

variable [Crc]

theorem header (c : Intact) : ∃ h, decodeHeader c.raw = .ok h ∧ h.totalSize = c.raw.length ∧
    ofHeader h c.raw = c.record := by
  obtain ⟨h, hh, _, _, hr⟩ := decode_eq_ok.mp c.decodes
  refine ⟨h, hh, ?_, hr⟩
  rw [c.whole, ← hr]
  rfl

theorem headerSize_le (c : Intact) : kHeaderSize ≤ c.raw.length := by
  obtain ⟨h, hh, _⟩ := c.header
  exact (decodeHeader_eq_ok.mp hh).1

abbrev size (c : Intact) : Nat := c.raw.length

theorem length_pos (c : Intact) : 0 < c.raw.length :=
  lt_of_lt_of_le (by decide) c.headerSize_le

theorem length_le_max (c : Intact) : c.raw.length ≤ kMaxRecordSize := by
  obtain ⟨h, hh, htotal, _⟩ := c.header
  exact htotal ▸ (decodeHeader_eq_ok.mp hh).2.2.fits

theorem key_length_le (c : Intact) : c.record.key.length ≤ c.raw.length := by
  obtain ⟨h, _, htotal, hr⟩ := c.header
  rw [← hr, ofHeader, List.length_take, List.length_drop]
  omega

theorem length_eq_of_append {c c' : Intact} {rest rest' : Bytes}
    (h : c.raw ++ rest = c'.raw ++ rest') : c.raw.length = c'.raw.length := by
  obtain ⟨header, hh, htotal, _⟩ := c.header
  obtain ⟨header', hh', htotal', _⟩ := c'.header
  rw [← decodeHeader_append rest c.headerSize_le, h,
    decodeHeader_append rest' c'.headerSize_le, hh'] at hh
  cases hh
  exact htotal.symm.trans htotal'

def ofWrite (key : Key) (value : Value) (timestamp : Timestamp) (isTombstone : Bool)
    (hkey : key ≠ []) (hfits : Record.Fits key value) : Intact where
  raw := Record.encode key value timestamp isTombstone
  record := ⟨timestamp, isTombstone, key, Record.stored value isTombstone,
    (Record.encode key value timestamp isTombstone).length⟩
  decodes := Record.decode_encode timestamp isTombstone hkey hfits
  whole := rfl

end Intact

/-- `read_at` on a file whose bytes are intact, with the calls that fail. -/
def flakyRead (fails : Nat → Nat → Bool) (content : Bytes) (offset size : Nat) : Option Bytes :=
  if fails offset size then none else readAt content offset size

theorem flakyRead_honest {fails : Nat → Nat → Bool} {content bytes : Bytes} {offset size : Nat}
    (h : flakyRead fails content offset size = some bytes) : readAt content offset size = some bytes := by
  unfold flakyRead at h
  split_ifs at h
  exact h

section

variable [Crc] {content : Bytes} {c : Intact} {rest : Bytes} {offset : Nat}
    {read : Nat → Nat → Option Bytes}

def bytesOf (chunks : List Intact) : Bytes := chunks.flatMap Intact.raw

@[simp] theorem bytesOf_nil : bytesOf [] = [] := rfl

@[simp] theorem bytesOf_cons (c : Intact) (chunks : List Intact) :
    bytesOf (c :: chunks) = c.raw ++ bytesOf chunks := rfl

@[simp] theorem bytesOf_append (chunks chunks' : List Intact) :
    bytesOf (chunks ++ chunks') = bytesOf chunks ++ bytesOf chunks' := List.flatMap_append

theorem length_le_bytesOf (chunks : List Intact) : chunks.length ≤ (bytesOf chunks).length := by
  induction chunks with
  | nil => exact le_rfl
  | cons c =>
    have hc := c.length_pos
    rw [bytesOf_cons, List.length_append, List.length_cons]
    omega

def visitedFrom : Nat → List Intact → List Visited
  | _, [] => []
  | offset, c :: chunks => ⟨offset, c.record, c.raw⟩ :: visitedFrom (offset + c.raw.length) chunks

def NoRecord (bytes : Bytes) : Prop := ∀ (c : Intact) (rest : Bytes), bytes ≠ c.raw ++ rest

theorem noRecord_nil : NoRecord [] := by
  intro c rest h
  have hc := c.length_pos
  have hlen := congrArg List.length h
  rw [List.length_append, List.length_nil] at hlen
  omega

theorem noRecord_take (c : Intact) {n : Nat} (hn : n < c.raw.length) : NoRecord (c.raw.take n) := by
  intro c' rest h
  have hsplit : c'.raw ++ (rest ++ c.raw.drop n) = c.raw ++ [] := by
    rw [← List.append_assoc, ← h, List.take_append_drop, List.append_nil]
  have heq := Intact.length_eq_of_append hsplit
  have hlen := congrArg List.length h
  rw [List.length_append, List.length_take] at hlen
  omega

theorem offset_le_of_drop
    (h : content.drop offset = c.raw ++ rest) : offset + c.raw.length ≤ content.length := by
  have hc := c.length_pos
  have hlen := congrArg List.length h
  rw [List.length_drop, List.length_append] at hlen
  omega

theorem readAt_header (h : content.drop offset = c.raw ++ rest) :
    readAt content offset kHeaderSize = some (c.raw.take kHeaderSize) := by
  have hlen : (c.raw.take kHeaderSize).length = kHeaderSize := by
    rw [List.length_take, Nat.min_eq_left c.headerSize_le]
  have hdrop : content.drop offset =
      c.raw.take kHeaderSize ++ (c.raw.drop kHeaderSize ++ rest) := by
    rw [← List.append_assoc, List.take_append_drop, h]
  have hread := readAt_of_append hdrop
  rwa [hlen] at hread

theorem decodeHeader_take {header : Record.Header} (h : decodeHeader c.raw = .ok header) :
    decodeHeader (c.raw.take kHeaderSize) = .ok header := by
  rw [← h, ← decodeHeader_append (c.raw.drop kHeaderSize), List.take_append_drop]
  rw [List.length_take, Nat.min_eq_left c.headerSize_le]

theorem scanFrom_record (fuel : Nat) (h : content.drop offset = c.raw ++ rest)
    (hheader : read offset kHeaderSize = readAt content offset kHeaderSize)
    (hwhole : read offset c.raw.length = readAt content offset c.raw.length) :
    scanFrom read content.length (fuel + 1) offset =
      (⟨offset, c.record, c.raw⟩ :: (scanFrom read content.length fuel (offset + c.raw.length)).1,
        (scanFrom read content.length fuel (offset + c.raw.length)).2) := by
  obtain ⟨header, hh, htotal, _⟩ := c.header
  have hle := c.headerSize_le
  have hend := offset_le_of_drop h
  rw [scanFrom, if_neg (by omega), hheader, readAt_header h]
  dsimp only
  rw [decodeHeader_take hh]
  dsimp only
  rw [htotal, if_neg (by omega), hwhole, readAt_of_append h]
  dsimp only
  rw [c.decodes]

theorem scanFrom_unread (fuel : Nat) (h : content.drop offset = c.raw ++ rest)
    (hheader : read offset kHeaderSize = none ∨
      read offset kHeaderSize = readAt content offset kHeaderSize)
    (hfailed : read offset kHeaderSize = none ∨ read offset c.raw.length = none) :
    scanFrom read content.length (fuel + 1) offset = ([], offset) := by
  obtain ⟨header, hh, htotal, _⟩ := c.header
  have hle := c.headerSize_le
  have hend := offset_le_of_drop h
  rw [scanFrom, if_neg (by omega)]
  rcases hheader with hnone | hheader
  · rw [hnone]
  · have hread := hheader.trans (readAt_header h)
    have hwhole := hfailed.resolve_left (by rw [hread]; nofun)
    rw [hread]
    dsimp only
    rw [decodeHeader_take hh]
    dsimp only
    rw [htotal, if_neg (by omega), hwhole]

theorem scanFrom_noRecord (fuel : Nat) (h : NoRecord (content.drop offset))
    (honest : ∀ offset size bytes, read offset size = some bytes → readAt content offset size = some bytes) :
    scanFrom read content.length fuel offset = ([], offset) := by
  cases fuel with
  | zero => rfl
  | succ =>
    rw [scanFrom]
    split
    · rfl
    · split
      · rfl
      next headerBytes hread =>
        split
        · rfl
        next header hheader =>
          split
          · rfl
          · split
            · rfl
            next bytes hbytes =>
              split
              · rfl
              next record hrecord =>
                exfalso
                obtain ⟨hlen, rest, hdrop⟩ := eq_of_readAt (honest _ _ _ hbytes)
                obtain ⟨hlen', rest', hdrop'⟩ := eq_of_readAt (honest _ _ _ hread)
                obtain ⟨header', hheader', hle, _, hr⟩ := decode_eq_ok.mp hrecord
                have hsame : header' = header := by
                  have hboth : bytes ++ rest = headerBytes ++ rest' := hdrop ▸ hdrop'
                  rw [← decodeHeader_append rest (decodeHeader_eq_ok.mp hheader').1, hboth,
                    decodeHeader_append rest' hlen'.ge, hheader] at hheader'
                  exact (Except.ok.inj hheader').symm
                refine h ⟨bytes, record, hrecord, ?_⟩ rest hdrop
                rw [hlen, ← hr, hsame]
                rfl

/-- The records, each of this size, before the first whose header or whole cannot be read. -/
def readable {α : Type} (size : α → Nat) (fails : Nat → Nat → Bool) : Nat → List α → List α
  | _, [] => []
  | offset, c :: chunks =>
    if fails offset Record.kHeaderSize || fails offset (size c) then []
    else c :: readable size fails (offset + size c) chunks

theorem scanFrom_flaky {fails : Nat → Nat → Bool} {content tail : Bytes} {chunks : List Intact} {offset fuel : Nat}
    (hdrop : content.drop offset = bytesOf chunks ++ tail) (htail : NoRecord tail)
    (hfuel : chunks.length ≤ fuel) :
    scanFrom (flakyRead fails content) content.length fuel offset =
      (visitedFrom offset (readable Intact.size fails offset chunks),
        offset + (bytesOf (readable Intact.size fails offset chunks)).length) := by
  induction chunks generalizing offset fuel with
  | nil => exact scanFrom_noRecord fuel (by rwa [hdrop]) fun _ _ _ => flakyRead_honest
  | cons c chunks ih =>
    cases fuel with
    | zero => exact absurd hfuel (by simp)
    | succ fuel =>
      rw [bytesOf_cons, List.append_assoc] at hdrop
      have hnext : content.drop (offset + c.raw.length) = bytesOf chunks ++ tail := by
        rw [← List.drop_drop, hdrop, List.drop_left]
      unfold readable
      split_ifs with hfails
      · refine (scanFrom_unread fuel hdrop ?_ ?_).trans (by simp [visitedFrom])
        · cases hheader : fails offset kHeaderSize with
          | true => exact .inl (by simp [flakyRead, hheader])
          | false => exact .inr (by simp [flakyRead, hheader])
        · rcases (Bool.or_eq_true _ _).mp hfails with hheader | hwhole
          · exact .inl (by simp [flakyRead, hheader])
          · exact .inr (by simp [flakyRead, hwhole])
      · obtain ⟨hheader, hwhole⟩ : fails offset kHeaderSize = false ∧ fails offset c.raw.length = false := by
          simpa using hfails
        rw [scanFrom_record fuel hdrop (by simp [flakyRead, hheader]) (by simp [flakyRead, hwhole]),
          ih hnext (Nat.le_of_succ_le_succ hfuel), visitedFrom, bytesOf_cons, List.length_append,
          Nat.add_assoc]

theorem scanRecords_flaky (fails : Nat → Nat → Bool) (chunks : List Intact) {tail : Bytes} (htail : NoRecord tail) :
    scanRecords (flakyRead fails (bytesOf chunks ++ tail)) (bytesOf chunks ++ tail).length =
      (visitedFrom 0 (readable Intact.size fails 0 chunks),
        (bytesOf (readable Intact.size fails 0 chunks)).length) := by
  have hfuel : chunks.length ≤ (bytesOf chunks ++ tail).length := by
    rw [List.length_append]
    exact Nat.le_add_right_of_le (length_le_bytesOf chunks)
  have hdrop : (bytesOf chunks ++ tail).drop 0 = bytesOf chunks ++ tail := rfl
  rw [scanRecords, scanFrom_flaky hdrop htail hfuel, Nat.zero_add]

theorem readable_never (offset : Nat) (chunks : List Intact) :
    readable Intact.size (fun _ _ => false) offset chunks = chunks := by
  induction chunks generalizing offset with
  | nil => rfl
  | cons c chunks ih => exact congrArg (c :: ·) (ih _)

theorem scanRecords_bytesOf (chunks : List Intact) {tail : Bytes} (htail : NoRecord tail) :
    scanRecords (readAt (bytesOf chunks ++ tail)) (bytesOf chunks ++ tail).length =
      (visitedFrom 0 chunks, (bytesOf chunks).length) := by
  have h := scanRecords_flaky (fun _ _ => false) chunks htail
  rwa [readable_never] at h

theorem scanFrom_take (content : Bytes) (fileSize fuel offset : Nat) :
    scanFrom (readAt (content.take fileSize)) fileSize fuel offset =
      scanFrom (readAt content) fileSize fuel offset := by
  induction fuel generalizing offset with
  | zero => rfl
  | succ fuel ih =>
    rw [scanFrom, scanFrom]
    split
    · rfl
    next hheader =>
      rw [readAt_take (not_lt.mp hheader)]
      split
      · rfl
      · split
        · rfl
        · split
          · rfl
          next htotal =>
            rw [readAt_take (not_lt.mp htotal)]
            simp [ih]

theorem scanRecords_within (chunks : List Intact) (tail : Bytes) :
    scanRecords (readAt (bytesOf chunks ++ tail)) (bytesOf chunks).length =
      (visitedFrom 0 chunks, (bytesOf chunks).length) := by
  have h := scanRecords_bytesOf chunks noRecord_nil
  rw [List.append_nil] at h
  rw [← h, scanRecords, scanRecords, ← scanFrom_take, List.take_left]

theorem exists_chunks (content : Bytes) : ∃ chunks tail, content = bytesOf chunks ++ tail ∧ NoRecord tail := by
  by_cases h : NoRecord content
  · exact ⟨[], content, rfl, h⟩
  · simp only [NoRecord, not_forall, not_not] at h
    obtain ⟨c, rest, hc⟩ := h
    have : rest.length < content.length := by
      have hpos := c.length_pos
      rw [hc, List.length_append]
      omega
    obtain ⟨chunks, tail, hrest, htail⟩ := exists_chunks rest
    exact ⟨c :: chunks, tail, by rw [hc, hrest, bytesOf_cons, List.append_assoc], htail⟩
termination_by content.length

def Verifies (content : Bytes) : Prop :=
  (scanRecords (readAt content) content.length).2 = content.length

instance (content : Bytes) : Decidable (Verifies content) := inferInstanceAs (Decidable (_ = _))

theorem verifies_iff : Verifies content ↔ ∃ chunks, content = bytesOf chunks := by
  constructor
  · intro h
    obtain ⟨chunks, tail, rfl, htail⟩ := exists_chunks content
    rw [Verifies, scanRecords_bytesOf chunks htail, List.length_append] at h
    have hnil : tail = [] := List.eq_nil_of_length_eq_zero (by omega)
    exact ⟨chunks, by rw [hnil, List.append_nil]⟩
  · rintro ⟨chunks, rfl⟩
    have h := scanRecords_bytesOf chunks noRecord_nil
    rw [List.append_nil] at h
    rw [Verifies, h]

theorem verifies_append (chunks : List Intact) (tail : Bytes) :
    Verifies (bytesOf chunks ++ tail) ↔ Verifies tail := by
  obtain ⟨chunks', rest, rfl, hrest⟩ := exists_chunks tail
  have hwhole : bytesOf chunks ++ (bytesOf chunks' ++ rest) = bytesOf (chunks ++ chunks') ++ rest := by
    rw [bytesOf_append, List.append_assoc]
  rw [hwhole, Verifies, Verifies, scanRecords_bytesOf _ hrest, scanRecords_bytesOf _ hrest]
  simp only [List.length_append]
  omega

end

end KVStore
