import KVStore.FrameReader
import KVStore.Server

namespace KVStore.Protocol

open Lib Checked

def unknownStatus (byte : Byte) : Failure := .invalidArgument (text "unknown status byte " ++ number byte)

def statusFromByte (byte : Byte) : Read StatusCode :=
  if byte = 0 then pure .ok
  else if byte = 1 then pure .notFound
  else if byte = 2 then pure .ioError
  else if byte = 3 then pure .corruption
  else if byte = 4 then pure .invalidArgument
  else fail (unknownStatus byte)

def decodeResponse (payload : Bytes) : Read Response := do
  refuse (payload = []) (.invalidArgument (text "response payload is empty"))
  let byte ← item payload 0
  let code ← statusFromByte byte
  let left ← sub payload.length kResponseHeaderSize
  let body ← slice payload kResponseHeaderSize left
  return ⟨code, body⟩

def toStatus (response : Response) : Status :=
  match response.code with
  | .ok => .ok
  | .notFound => .notFound response.body
  | .ioError => .ioError response.body
  | .corruption => .corruption response.body
  | .invalidArgument => .invalidArgument response.body

theorem statusFromByte_statusByte (code : StatusCode) : statusFromByte (statusByte code) = .ok code := by
  cases code with
  | _ => rfl

theorem decodeResponse_encodeResponse (response : Response) :
    decodeResponse (encodeResponse response) = .ok response := by
  obtain ⟨code, body⟩ := response
  rw [decodeResponse, encodeResponse, refuse_bind (List.cons_ne_nil _ _), item_of_getElem? rfl, ok_bind,
    statusFromByte_statusByte, ok_bind, sub_bind (by simp [kResponseHeaderSize]),
    slice_of_le (by simp [kResponseHeaderSize, Nat.add_comm]), ok_bind]
  simp [kResponseHeaderSize]

theorem toStatus_of_status {status : Status} (h : status.isOk = true → status.message = []) :
    toStatus ⟨status.code, status.message⟩ = status := by
  obtain ⟨code, message⟩ := status
  cases code with
  | ok => exact congrArg (Status.mk .ok) (h rfl).symm
  | notFound | ioError | corruption | invalidArgument => rfl

theorem writeFrame_eq {payload : Bytes} (h : payload.length ≤ kMaxFrameSize) :
    writeFrame payload = .ok (Wire.framing.frame payload) := by
  rw [writeFrame, if_neg (Nat.not_lt.mpr h)]
  rfl

namespace Client

/-- The calls of the `KVStore` interface, as a client makes them. -/
inductive Called
  | put (key : Key) (value : Value)
  | get (key : Key)
  | remove (key : Key)

def Called.request : Called → Request
  | .put key value => ⟨.put, key, value⟩
  | .get key => ⟨.get, key, []⟩
  | .remove key => ⟨.delete, key, []⟩

theorem Called.value_request (call : Called) (h : call.request.op ≠ .put) : call.request.value = [] := by
  cases call with
  | put => exact absurd rfl h
  | get | remove => rfl

theorem Called.wellFormed {call : Called} (hfits : (encodeRequest call.request).length ≤ kMaxFrameSize) :
    call.request.WellFormed := by
  refine ⟨?_, call.value_request⟩
  have hkey : call.request.key.length ≤ (encodeRequest call.request).length := by
    simp only [encodeRequest, List.length_cons, List.length_append]
    omega
  exact Nat.lt_of_le_of_lt (Nat.le_trans hkey hfits) (by decide)

/-- What `Client::put`, `get` and `remove` make of a response. -/
def result (request : Request) (response : Protocol.Response) : Reply :=
  match request.op with
  | .get => if response.code = .ok then (.ok, some response.body) else (toStatus response, none)
  | .put | .delete => (toStatus response, none)

def closedUnanswered : Failure := .ioError (text "server closed the connection without answering")

/-- The second half of `Client::exchange`, for how `read_frame` returned. -/
def answered : Read FrameStatus → Read Protocol.Response
  | .error e => .error e
  | .ok .peerClosed => fail closedUnanswered
  | .ok .cancelled => decodeResponse []
  | .ok (.complete payload) => decodeResponse payload

end Client

end KVStore.Protocol
