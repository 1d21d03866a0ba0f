import KVStore.Basic

namespace KVStore

open Lib

abbrev Timestamp := Fin (2 ^ 64)

instance neZero_timestamp : NeZero (2 ^ 64) := ⟨by decide⟩

/-- The checksum of the formats. Nothing but its width matters to them. -/
class Crc where
  crc32Of : Bytes → BitVec 32

namespace Crc

/-- One bit of the reflected CRC-32 polynomial division. -/
def shiftBit (crc : BitVec 32) : BitVec 32 :=
  if crc.getLsbD 0 then (crc >>> 1) ^^^ 0xEDB88320#32 else crc >>> 1

def shiftByte (crc : BitVec 32) (b : Byte) : BitVec 32 :=
  (shiftBit ∘ shiftBit ∘ shiftBit ∘ shiftBit ∘ shiftBit ∘ shiftBit ∘ shiftBit ∘ shiftBit)
    (crc ^^^ BitVec.ofNat 32 b)

/-- The checksum zlib computes. -/
instance (priority := low) zlib : Crc where
  crc32Of bytes := ~~~ bytes.foldl shiftByte 0xFFFFFFFF#32

example : zlib.crc32Of (text "123456789") = 0xCBF43926#32 := by decide +kernel

end Crc

namespace Encoding

def putU32 (v : Nat) : Bytes := LittleEndian.put 4 v
def putU64 (v : Nat) : Bytes := LittleEndian.put 8 v

def getU32 (bytes : Bytes) (offset : Nat) : Nat := LittleEndian.get ((bytes.drop offset).take 4)
def getU64 (bytes : Bytes) (offset : Nat) : Nat := LittleEndian.get ((bytes.drop offset).take 8)

@[simp] theorem length_putU32 (v : Nat) : (putU32 v).length = 4 := LittleEndian.length_put 4 v
@[simp] theorem length_putU64 (v : Nat) : (putU64 v).length = 8 := LittleEndian.length_put 8 v

theorem getU32_putU32 (before rest : Bytes) {v : Nat} (h : v < 2 ^ 32) :
    getU32 (before ++ (putU32 v ++ rest)) before.length = v := by
  unfold getU32
  rw [List.drop_left, List.take_left' (length_putU32 v)]
  exact LittleEndian.get_put h

theorem getU64_putU64 (before rest : Bytes) {v : Nat} (h : v < 2 ^ 64) :
    getU64 (before ++ (putU64 v ++ rest)) before.length = v := by
  unfold getU64
  rw [List.drop_left, List.take_left' (length_putU64 v)]
  exact LittleEndian.get_put h

variable {bytes : Bytes} {offset : Nat}

theorem putU32_getU32 (h : offset + 4 ≤ bytes.length) : putU32 (getU32 bytes offset) = (bytes.drop offset).take 4 :=
  LittleEndian.put_window h

theorem putU64_getU64 (h : offset + 8 ≤ bytes.length) : putU64 (getU64 bytes offset) = (bytes.drop offset).take 8 :=
  LittleEndian.put_window h

theorem getU32_lt (bytes : Bytes) (offset : Nat) : getU32 bytes offset < 2 ^ 32 := LittleEndian.window_lt

theorem getU64_lt (bytes : Bytes) (offset : Nat) : getU64 bytes offset < 2 ^ 64 := LittleEndian.window_lt

theorem getU32_append (rest : Bytes) (h : offset + 4 ≤ bytes.length) :
    getU32 (bytes ++ rest) offset = getU32 bytes offset := by
  unfold getU32
  rw [List.drop_append_of_le_length (by omega), List.take_append_of_le_length (by simp; omega)]

theorem getU64_append (rest : Bytes) (h : offset + 8 ≤ bytes.length) :
    getU64 (bytes ++ rest) offset = getU64 bytes offset := by
  unfold getU64
  rw [List.drop_append_of_le_length (by omega), List.take_append_of_le_length (by simp; omega)]

end Encoding

structure Record where
  timestamp : Timestamp
  isTombstone : Bool
  key : Key
  value : Value
  totalSize : Nat
  deriving DecidableEq

namespace Record

open Encoding

def kFlagTombstone : Nat := 1

structure Header where
  crc : BitVec 32
  timestamp : Timestamp
  flags : Byte
  keySize : Nat
  valueSize : Nat
  deriving DecidableEq

def Header.isTombstone (h : Header) : Bool := h.flags.val &&& kFlagTombstone != 0

def Header.totalSize (h : Header) : Nat := kHeaderSize + h.keySize + h.valueSize

def stored (value : Value) (isTombstone : Bool) : Value := if isTombstone then [] else value

def flagsOf (isTombstone : Bool) : Byte := if isTombstone then 1 else 0

def body (key : Key) (value : Value) (timestamp : Timestamp) (isTombstone : Bool) : Bytes :=
  putU64 timestamp ++ (flagsOf isTombstone :: (putU32 key.length ++
    (putU32 (stored value isTombstone).length ++ (key ++ stored value isTombstone))))

def encode [Crc] (key : Key) (value : Value) (timestamp : Timestamp) (isTombstone : Bool) : Bytes :=
  putU32 (Crc.crc32Of (body key value timestamp isTombstone)).toNat ++
    body key value timestamp isTombstone

/-- The fields of a header, wherever they make sense. -/
def readHeader (bytes : Bytes) : Header where
  crc := BitVec.ofNat 32 (getU32 bytes 0)
  timestamp := Fin.ofNat (2 ^ 64) (getU64 bytes 4)
  flags := bytes.getD 12 0
  keySize := getU32 bytes 13
  valueSize := getU32 bytes 17

def decodeHeader (bytes : Bytes) : Except Failure Header :=
  if bytes.length < kHeaderSize then .error (.corruption (text "record header truncated"))
  else
    let h := readHeader bytes
    if h.keySize = 0 then
      .error (.corruption (text "record header declares a zero-length key"))
    else if h.isTombstone && h.valueSize != 0 then
      .error (.corruption (text "tombstone record declares a non-zero value size"))
    else if kMaxRecordSize < h.totalSize then
      .error (.corruption (text "record header declares a size larger than a record may be"))
    else .ok h

def ofHeader (h : Header) (bytes : Bytes) : Record where
  timestamp := h.timestamp
  isTombstone := h.isTombstone
  key := (bytes.drop kHeaderSize).take h.keySize
  value := (bytes.drop (kHeaderSize + h.keySize)).take h.valueSize
  totalSize := h.totalSize

def decode [Crc] (bytes : Bytes) : Except Failure Record :=
  match decodeHeader bytes with
  | .error f => .error f
  | .ok h =>
    if bytes.length < h.totalSize then .error (.corruption (text "record body truncated"))
    else if Crc.crc32Of ((bytes.drop kCrcSize).take (h.totalSize - kCrcSize)) ≠ h.crc then
      .error (.corruption (text "record crc mismatch"))
    else .ok (ofHeader h bytes)

structure Header.Plausible (h : Header) : Prop where
  keyed : h.keySize ≠ 0
  bare : h.isTombstone = true → h.valueSize = 0
  fits : h.totalSize ≤ kMaxRecordSize

variable {bytes : Bytes}

theorem decodeHeader_eq_ok {h : Header} :
    decodeHeader bytes = .ok h ↔ kHeaderSize ≤ bytes.length ∧ readHeader bytes = h ∧ h.Plausible := by
  constructor
  · intro hd
    unfold decodeHeader at hd
    split_ifs at hd with hlen
    dsimp only at hd
    split_ifs at hd with hkey htomb hsize
    cases hd
    exact ⟨not_lt.mp hlen, rfl, hkey, fun ht => by simpa [ht] using htomb, not_lt.mp hsize⟩
  · rintro ⟨hlen, rfl, hp⟩
    have htomb : ¬ ((readHeader bytes).isTombstone && (readHeader bytes).valueSize != 0) = true := by
      simpa using hp.bare
    simp [decodeHeader, not_lt.mpr hlen, hp.keyed, htomb, not_lt.mpr hp.fits]

theorem decodeHeader_append (rest : Bytes) (h : kHeaderSize ≤ bytes.length) :
    decodeHeader (bytes ++ rest) = decodeHeader bytes := by
  have hlen : 21 ≤ bytes.length := h
  have hread : readHeader (bytes ++ rest) = readHeader bytes := by
    unfold readHeader
    rw [getU32_append rest (by omega), getU64_append rest (by omega), getU32_append rest (by omega),
      getU32_append rest (by omega), List.getD_eq_getElem?_getD,
      List.getD_eq_getElem?_getD, List.getElem?_append_left (by omega)]
  unfold decodeHeader
  rw [hread, if_neg (not_lt.mpr h), if_neg (by simp; omega)]

variable [Crc]

theorem decode_eq_ok {r : Record} :
    decode bytes = .ok r ↔ ∃ h, decodeHeader bytes = .ok h ∧ h.totalSize ≤ bytes.length ∧
      Crc.crc32Of ((bytes.drop kCrcSize).take (h.totalSize - kCrcSize)) = h.crc ∧
      ofHeader h bytes = r := by
  constructor
  · intro hd
    unfold decode at hd
    split at hd
    · cases hd
    next h hh =>
      split_ifs at hd with hlen hcrc
      cases hd
      exact ⟨h, hh, not_lt.mp hlen, not_not.mp hcrc, rfl⟩
  · rintro ⟨h, hh, hlen, hcrc, rfl⟩
    simp [decode, hh, not_lt.mpr hlen, hcrc]

theorem length_encode (key : Key) (value : Value) (timestamp : Timestamp) (isTombstone : Bool) :
    (encode key value timestamp isTombstone).length =
      kHeaderSize + key.length + (stored value isTombstone).length := by
  simp only [encode, body, kHeaderSize, List.length_append, List.length_cons, length_putU32,
    length_putU64]
  omega

theorem readHeader_encode {key : Key} {value : Value} (timestamp : Timestamp) {isTombstone : Bool}
    (hkey : key.length < 2 ^ 32) (hvalue : (stored value isTombstone).length < 2 ^ 32) :
    readHeader (encode key value timestamp isTombstone) =
      { crc := Crc.crc32Of (body key value timestamp isTombstone)
        timestamp := timestamp
        flags := flagsOf isTombstone
        keySize := key.length
        valueSize := (stored value isTombstone).length } := by
  have hbytes : encode key value timestamp isTombstone =
      putU32 (Crc.crc32Of (body key value timestamp isTombstone)).toNat ++
        body key value timestamp isTombstone := rfl
  generalize Crc.crc32Of (body key value timestamp isTombstone) = crc at hbytes ⊢
  have h0 := getU32_putU32 [] (body key value timestamp isTombstone) crc.isLt
  rw [body] at hbytes h0
  have h4 := getU64_putU64 (putU32 crc.toNat) (flagsOf isTombstone :: (putU32 key.length ++
    (putU32 (stored value isTombstone).length ++ (key ++ stored value isTombstone)))) timestamp.isLt
  have h13 := getU32_putU32 (putU32 crc.toNat ++ putU64 timestamp ++ [flagsOf isTombstone])
    (putU32 (stored value isTombstone).length ++ (key ++ stored value isTombstone)) hkey
  have h17 := getU32_putU32 (putU32 crc.toNat ++ putU64 timestamp ++
    flagsOf isTombstone :: putU32 key.length) (key ++ stored value isTombstone) hvalue
  simp only [List.length_append, List.length_cons, List.length_nil, length_putU32, length_putU64,
    List.append_assoc, List.cons_append, List.nil_append, ← hbytes, Nat.reduceAdd] at h0 h4 h13 h17
  have h12 : (encode key value timestamp isTombstone).getD 12 0 = flagsOf isTombstone := by
    rw [hbytes, List.getD_eq_getElem?_getD, List.getElem?_append_right (by simp),
      List.getElem?_append_right (by simp)]
    simp
  have hcrc : BitVec.ofNat 32 crc.toNat = crc := BitVec.eq_of_toNat_eq (by simp)
  have htime : Fin.ofNat (2 ^ 64) timestamp.val = timestamp := Fin.ofNat_val_eq_self timestamp
  rw [readHeader, h0, h4, h12, h13, h17, hcrc, htime]

section

variable (key : Key) (value : Value) (timestamp : Timestamp) (isTombstone : Bool)

theorem drop_crc_encode :
    (encode key value timestamp isTombstone).drop kCrcSize = body key value timestamp isTombstone :=
  List.drop_left' (length_putU32 _)

theorem drop_header_encode :
    (encode key value timestamp isTombstone).drop kHeaderSize = key ++ stored value isTombstone := by
  have hbytes : encode key value timestamp isTombstone =
      (putU32 (Crc.crc32Of (body key value timestamp isTombstone)).toNat ++
        (putU64 timestamp ++ (flagsOf isTombstone :: (putU32 key.length ++
          putU32 (stored value isTombstone).length)))) ++ (key ++ stored value isTombstone) := by
    simp [encode, body]
  rw [hbytes]
  exact List.drop_left' (by simp [kHeaderSize])

end

def Fits (key : Key) (value : Value) : Prop :=
  key.length + value.length ≤ kMaxRecordSize - kHeaderSize

instance (key : Key) (value : Value) : Decidable (Fits key value) := Nat.decLe _ _

theorem decode_encode {key : Key} {value : Value} (timestamp : Timestamp) (isTombstone : Bool)
    (hkey : key ≠ []) (hfits : Fits key value) :
    decode (encode key value timestamp isTombstone) = .ok
      { timestamp := timestamp
        isTombstone := isTombstone
        key := key
        value := stored value isTombstone
        totalSize := (encode key value timestamp isTombstone).length } := by
  have hstored : (stored value isTombstone).length ≤ value.length := by
    cases isTombstone <;> simp [stored]
  have hsum : key.length + value.length ≤ 2 ^ 32 - 1 - 21 := hfits
  have hread := @readHeader_encode _ key value timestamp isTombstone (by omega) (by omega)
  have hlen := length_encode key value timestamp isTombstone
  have hflag : ∀ t : Bool, ((flagsOf t).val &&& kFlagTombstone != 0) = t := by decide
  rw [decode_eq_ok]
  refine ⟨_, decodeHeader_eq_ok.mpr ⟨?_, hread, fun h => ?_, fun ht => ?_, ?_⟩, hlen.ge, ?_, ?_⟩
  · exact hlen ▸ Nat.le_add_right_of_le (Nat.le_add_right _ _)
  · exact hkey (List.eq_nil_of_length_eq_zero h)
  · have ht' : isTombstone = true := (hflag isTombstone).symm.trans ht
    simp [stored, ht']
  · show 21 + key.length + (stored value isTombstone).length ≤ 2 ^ 32 - 1
    omega
  · have hbody : (encode key value timestamp isTombstone).length - kCrcSize =
        (body key value timestamp isTombstone).length := by
      rw [← drop_crc_encode, List.length_drop]
    have htotal : Header.totalSize ⟨Crc.crc32Of (body key value timestamp isTombstone), timestamp,
        flagsOf isTombstone, key.length, (stored value isTombstone).length⟩ =
        (encode key value timestamp isTombstone).length := hlen.symm
    rw [htotal, drop_crc_encode, hbody, List.take_length]
  · have hvalue : (encode key value timestamp isTombstone).drop (kHeaderSize + key.length) =
        stored value isTombstone := by
      rw [← List.drop_drop, drop_header_encode, List.drop_left]
    rw [ofHeader, drop_header_encode, hvalue, List.take_left, List.take_length, Header.isTombstone,
      hflag, Header.totalSize, hlen]

end Record

end KVStore
