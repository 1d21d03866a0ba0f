import KVStore.Reading

namespace KVStore

open Lib Checked

namespace Wire

/-- The wire has the most significant byte first. -/
def putU32 (v : Nat) : Bytes := (LittleEndian.put 4 v).reverse

def readU32 (bytes : Bytes) (first : Nat) : Read Nat := do
  return LittleEndian.get (← slice bytes first 4).reverse

@[simp] theorem length_putU32 (v : Nat) : (putU32 v).length = 4 := by
  rw [putU32, List.length_reverse, LittleEndian.length_put]

variable {bytes : Bytes} {i j v : Nat} {E : Failure → Prop}

theorem yields_readU32 (h : i + 4 ≤ bytes.length) :
    Yields E (fun v => v < 2 ^ 32 ∧ Stands bytes (putU32 v) i (i + 4)) (readU32 bytes i) := by
  apply (yields_slice h).bind
  rintro word rfl
  have hstands := Stands.of_slice h
  have hlength : ((bytes.drop i).take 4).reverse.length = 4 := by
    have := hstands.last_eq
    rw [List.length_reverse]
    omega
  have hput := LittleEndian.put_get ((bytes.drop i).take 4).reverse
  have hlt := LittleEndian.get_lt ((bytes.drop i).take 4).reverse
  rw [hlength] at hput hlt
  apply yields_pure
  exact ⟨hlt, by rwa [putU32, hput, List.reverse_reverse]⟩

theorem readU32_of_stands (h : Stands bytes (putU32 v) i j) (hv : v < 2 ^ 32) : readU32 bytes i = .ok v := by
  have hslice := h.slice (ε := Failure)
  rw [length_putU32] at hslice
  rw [readU32, hslice, ok_bind, putU32, List.reverse_reverse]
  exact congrArg Except.ok (LittleEndian.get_put hv)

end Wire

namespace Protocol

def kMaxFrameSize : Nat := 8 * 2 ^ 20
def kLengthPrefixSize : Nat := 4
def kRequestHeaderSize : Nat := 5
def kResponseHeaderSize : Nat := 1

inductive Op
  | get
  | put
  | delete
  deriving DecidableEq, Repr

structure Request where
  op : Op
  key : Key
  value : Value
  deriving DecidableEq

structure Response where
  code : StatusCode
  body : Bytes
  deriving DecidableEq

def Op.byte : Op → Byte
  | .get => 1
  | .put => 2
  | .delete => 3

def opName : Op → Bytes
  | .get => text "GET"
  | .put => text "PUT"
  | .delete => text "DELETE"

def statusByte : StatusCode → Byte
  | .ok => 0
  | .notFound => 1
  | .ioError => 2
  | .corruption => 3
  | .invalidArgument => 4

def number (n : Nat) : Bytes := text (toString n)

def encodeRequest (request : Request) : Bytes :=
  request.op.byte :: (Wire.putU32 request.key.length ++ (request.key ++
    (if request.op = .put then request.value else [])))

def encodeResponse (response : Response) : Bytes := statusByte response.code :: response.body

def unknownOp (byte : Byte) : Failure := .invalidArgument (text "unknown op byte " ++ number byte)

def opOfByte (byte : Byte) : Read Op :=
  if byte = Op.byte .get then pure .get
  else if byte = Op.byte .put then pure .put
  else if byte = Op.byte .delete then pure .delete
  else fail (unknownOp byte)

def decodeRequest (payload : Bytes) : Read Request := do
  refuse (payload.length < kRequestHeaderSize) (.invalidArgument (text "request payload is " ++
    number payload.length ++ text " bytes, shorter than its " ++ number kRequestHeaderSize ++ text "-byte header"))
  let byte ← item payload 0
  let op ← opOfByte byte
  let keySize ← Wire.readU32 payload 1
  let afterHeader ← sub payload.length kRequestHeaderSize
  refuse (afterHeader < keySize) (.invalidArgument (text "key_size " ++ number keySize ++ text " exceeds the " ++
    number afterHeader ++ text " bytes left in the frame"))
  let key ← slice payload kRequestHeaderSize keySize
  let left ← sub payload.length (kRequestHeaderSize + keySize)
  let rest ← slice payload (kRequestHeaderSize + keySize) left
  if op = .put then return ⟨op, key, rest⟩
  else
    refuse (rest ≠ []) (.invalidArgument (opName op ++ text " carries " ++ number rest.length ++
      text " unexpected trailing bytes"))
    return ⟨op, key, []⟩

def writeFrame (payload : Bytes) : Except Failure Bytes :=
  if kMaxFrameSize < payload.length then
    .error (.invalidArgument (text "frame payload of " ++ number payload.length ++ text " bytes exceeds the " ++
      number kMaxFrameSize ++ text "-byte cap"))
  else .ok (Wire.putU32 payload.length ++ payload)

section Messages

theorem length_text (s : String) : (text s).length = s.length := by
  rw [text, List.length_map, String.length_toList]

theorem length_number {n e : Nat} (he : 0 < e) (h : n < 10 ^ e) : (number n).length ≤ e := by
  rw [number, length_text]
  exact Nat.repr_length n e he h

end Messages

/-- How a payload of this size is refused; the text is short unless the size itself is long. -/
def Refusal (size : Nat) (f : Failure) : Prop :=
  f.status.code = .invalidArgument ∧ (size < 10 ^ 10 → f.status.message.length ≤ 100)

/-- A request that has an encoding: a value comes with a put only. -/
structure Request.WellFormed (request : Request) : Prop where
  key : request.key.length < 2 ^ 32
  value : request.op ≠ .put → request.value = []

theorem yields_opOfByte (size : Nat) (byte : Byte) :
    Yields (Refusal size) (fun op => op.byte = byte) (opOfByte byte) := by
  unfold opOfByte
  split_ifs with h h h
  any_goals exact yields_pure h.symm
  apply yields_fail
  refine ⟨rfl, fun _ => ?_⟩
  have hnumber : (number byte).length ≤ 3 := length_number (by decide) (byte.isLt.trans (by decide))
  have htext : "unknown op byte ".length = 16 := by decide
  simp only [unknownOp, Failure.invalidArgument, Status.invalidArgument, List.length_append, length_text]
  omega

theorem opOfByte_byte (op : Op) : opOfByte op.byte = .ok op := by
  cases op with
  | get | put | delete => rfl

theorem length_opName (op : Op) : (opName op).length ≤ 6 := by
  cases op with
  | get | put | delete => decide

theorem yields_decodeRequest (payload : Bytes) :
    Yields (Refusal payload.length) (fun request => request.WellFormed ∧ encodeRequest request = payload)
      (decodeRequest payload) := by
  apply Yields.bind (P := fun _ => ¬ payload.length < kRequestHeaderSize)
  · apply yields_refuse
    intro hshort
    refine ⟨rfl, fun _ => ?_⟩
    have hnumber : (number payload.length).length ≤ 1 := length_number (by decide) (hshort.trans (by decide))
    have hfixed : (text "request payload is ").length + (text " bytes, shorter than its ").length +
        (number kRequestHeaderSize).length + (text "-byte header").length = 57 := by decide
    simp only [Failure.invalidArgument, Status.invalidArgument, List.length_append]
    omega
  intro _ hsize
  rw [kRequestHeaderSize] at hsize
  apply (yields_item (by omega)).bind
  intro byte hbyte
  apply (yields_opOfByte _ byte).bind
  intro op hop
  apply (Wire.yields_readU32 (by omega)).bind
  rintro keySize ⟨hkeySize, hkeySizeStands⟩
  rw [sub_bind (by rw [kRequestHeaderSize]; omega)]
  rw [kRequestHeaderSize]
  apply Yields.bind (P := fun _ => ¬ payload.length - 5 < keySize)
  · apply yields_refuse
    intro _
    refine ⟨rfl, fun hsmall => ?_⟩
    have hnumber : (number keySize).length ≤ 10 := length_number (by decide) (hkeySize.trans (by decide))
    have hnumber' : (number (payload.length - 5)).length ≤ 10 := length_number (by decide) (by omega)
    have hfixed : (text "key_size ").length + (text " exceeds the ").length +
        (text " bytes left in the frame").length = 46 := by decide
    simp only [Failure.invalidArgument, Status.invalidArgument, List.length_append]
    omega
  intro _ hkeyFits
  apply (yields_slice (by omega)).bind
  rintro key hkey
  rw [sub_bind (by omega)]
  apply (yields_slice (by omega)).bind
  rintro rest hrest
  have hopStands : Stands payload [op.byte] 0 1 := by
    obtain ⟨rest, rfl⟩ : ∃ rest, payload = byte :: rest := List.head?_eq_some_iff.mp (List.head?_eq_getElem? ▸ hbyte)
    exact ⟨rfl, Nat.zero_le _, by simp [hop]⟩
  have hkeyStands : Stands payload key 5 (5 + keySize) := hkey ▸ Stands.of_slice (by omega)
  have hrestStands : Stands payload rest (5 + keySize) payload.length := by
    have hstands := Stands.of_slice (show 5 + keySize + (payload.length - (5 + keySize)) ≤ payload.length by omega)
    rwa [← hrest, show 5 + keySize + (payload.length - (5 + keySize)) = payload.length by omega] at hstands
  have hwhole : op.byte :: (Wire.putU32 keySize ++ (key ++ rest)) = payload :=
    (hopStands.append (hkeySizeStands.append (hkeyStands.append hrestStands))).eq_whole
  have hlength : key.length = keySize := by
    have := hkeyStands.last_eq
    omega
  split
  next hput =>
    apply yields_pure
    refine ⟨⟨by rw [hlength]; exact hkeySize, fun hne => absurd hput hne⟩, ?_⟩
    simp only [encodeRequest, if_pos hput, hlength]
    exact hwhole
  next hput =>
    apply Yields.bind (P := fun _ => ¬ rest ≠ [])
    · apply yields_refuse
      intro _
      refine ⟨rfl, fun hsmall => ?_⟩
      have hname := length_opName op
      have hnumber : (number rest.length).length ≤ 10 := length_number (by decide) (by
        have := hrestStands.last_eq
        omega)
      have hfixed : (text " carries ").length + (text " unexpected trailing bytes").length = 35 := by decide
      simp only [Failure.invalidArgument, Status.invalidArgument, List.length_append]
      omega
    intro _ hnil
    apply yields_pure
    refine ⟨⟨by rw [hlength]; exact hkeySize, fun _ => rfl⟩, ?_⟩
    simp only [encodeRequest, if_neg hput, hlength]
    rwa [not_not.mp hnil] at hwhole

theorem decodeRequest_encodeRequest {request : Request} (h : request.WellFormed) :
    decodeRequest (encodeRequest request) = .ok request := by
  obtain ⟨op, key, value⟩ := request
  set tail : Bytes := if op = .put then value else [] with htail
  have hpayload : encodeRequest ⟨op, key, value⟩ = [op.byte] ++ (Wire.putU32 key.length ++ (key ++ tail)) := rfl
  rw [hpayload]
  set payload := [op.byte] ++ (Wire.putU32 key.length ++ (key ++ tail))
  have hlength : payload.length = 5 + key.length + tail.length := by
    simp only [payload, List.length_append, List.length_singleton, Wire.length_putU32]
    omega
  obtain ⟨_, hrest⟩ := (Stands.whole payload).of_append
  obtain ⟨hsize, hrest⟩ := hrest.of_append
  obtain ⟨hkey, hvalue⟩ := hrest.of_append
  simp only [List.length_singleton, Wire.length_putU32, Nat.zero_add, Nat.reduceAdd] at hsize hkey hvalue
  have hleft : payload.length - (5 + key.length) = tail.length := by omega
  rw [decodeRequest, kRequestHeaderSize, refuse_bind (by omega), item_of_getElem? rfl, ok_bind,
    opOfByte_byte, ok_bind, Wire.readU32_of_stands hsize h.key, ok_bind, sub_bind (by omega),
    refuse_bind (by omega), hkey.slice, ok_bind, sub_bind (by omega), hleft, hvalue.slice,
    ok_bind]
  split
  next hput =>
    rw [htail, if_pos hput]
    rfl
  next hput =>
    have hnil : tail = [] := by rw [htail, if_neg hput]
    rw [refuse_bind (not_not.mpr hnil), ← h.value hput]
    rfl

/-- A payload is a request exactly when it is the encoding of one that has an encoding; any other
is refused, and reading it stays inside it. -/
theorem decodeRequest_eq_ok_iff (payload : Bytes) :
    (∀ request, decodeRequest payload = .ok request ↔ request.WellFormed ∧ payload = encodeRequest request) ∧
      ((∃ request, decodeRequest payload = .ok request) ∨
        ∃ f : Failure, decodeRequest payload = .error (.status f) ∧ f.status.code = .invalidArgument) := by
  have hyields := yields_decodeRequest payload
  constructor
  · intro request
    constructor
    · intro h
      obtain ⟨hwell, hencode⟩ := hyields.of_ok h
      exact ⟨hwell, hencode.symm⟩
    · rintro ⟨hwell, rfl⟩
      exact decodeRequest_encodeRequest hwell
  · rcases hyields.value_or_status with ⟨request, hrequest, -⟩ | ⟨f, hf, hrefusal⟩
    · exact .inl ⟨request, hrequest⟩
    · exact .inr ⟨f, hf, hrefusal.1⟩

end Protocol

end KVStore
