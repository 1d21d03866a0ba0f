import KVStore.StoreReplies

namespace KVStore.Server

open Lib Checked Protocol

/-- `Server::handle` over a store that replies so. -/
def handle (ask : Request → Reply) (payload : Bytes) : Read Protocol.Response :=
  match decodeRequest payload with
  | .error (.status f) => pure ⟨f.status.code, f.status.message⟩
  | .error fault => .error fault
  | .ok request =>
    let (status, value) := ask request
    match request.op with
    | .get =>
      if status.isOk then pure ⟨.ok, value.getD []⟩ else pure ⟨status.code, status.message⟩
    | .put | .delete => pure ⟨status.code, status.message⟩

/-- One round of `serve_connection`: the frame that answers a payload. A refusal of
`write_frame` ends the connection. -/
def serve (ask : Request → Reply) (payload : Bytes) : Read Bytes := do
  let response ← handle ask payload
  match writeFrame (encodeResponse response) with
  | .error f => fail f
  | .ok frame => return frame

def Arrived (value : Value) : Prop :=
  ∃ payload request, payload.length ≤ kMaxFrameSize ∧ decodeRequest payload = .ok request ∧
    request.op = .put ∧ request.value = value

/-- The replies of the three stores, in any state whose values came in with requests,
and the background error that such a store has recorded. -/
inductive Answers [Crc] (request : Request) : Status → Reply → Prop
  | memory {store : MemoryStore}
      (values : ∀ key value, store.map.lookup key = some value → Arrived value) :
      Answers request .ok (store.reply request)
  | bitcask {listing : Listing} {s : Bitcask} {d : Directory} {history : List Write} {now : Timestamp}
      (reachable : Bitcask.World.Reachable listing (.running s d history))
      (values : ∀ w ∈ history, ∀ value, w.value = some value → Arrived value) :
      Answers request .ok (s.reply listing d now request)
  | lsm {n : Nat} {opts : LsmOptions} {listing : Listing} {s : System n} {reply : Reply}
      (values : ∀ value, s.Holds value → Arrived value) (returns : s.Returns opts listing request reply) :
      Answers request s.engine.backgroundStatus reply

variable {request : Request} {recorded : Status} {reply : Reply} {ask : Request → Reply} {payload : Bytes}

theorem Answers.proper [Crc] (h : Answers request recorded reply) : Proper Arrived recorded request reply := by
  cases h with
  | @memory store values =>
    apply (store.proper_reply .ok request).mono
    rintro value ⟨key, hvalue⟩
    exact values key value hvalue
  | bitcask reachable values =>
    apply (Bitcask.proper_reply reachable _ request).mono
    rintro value ⟨w, hw, hvalue⟩
    exact values w hw value hvalue
  | lsm values returns => exact (System.proper_of_returns returns).mono values

theorem Arrived.length_le {value : Value} (h : Arrived value) : value.length + kRequestHeaderSize ≤ kMaxFrameSize := by
  obtain ⟨payload, request, hpayload, hdecode, hput, rfl⟩ := h
  obtain ⟨_, hencode⟩ := (yields_decodeRequest payload).of_ok hdecode
  rw [← hencode, encodeRequest, if_pos hput] at hpayload
  simp only [List.length_cons, List.length_append, Wire.length_putU32, kRequestHeaderSize] at hpayload ⊢
  omega

/-- The key that a `get` does not find goes back behind a status byte and a text. -/
def absentOverhead : Nat := kResponseHeaderSize + (text "no such key: ").length

/-- The key of a `get` that finds nothing, and the recorded error that stops a write, fit
into a response. -/
structure Fits (request : Request) (recorded : Status) (reply : Reply) : Prop where
  absent : request.op = .get → reply.1.isOk = false → absentOverhead + request.key.length ≤ kMaxFrameSize
  stopped : request.op ≠ .get → reply.1 = recorded → kResponseHeaderSize + recorded.message.length ≤ kMaxFrameSize

theorem writeFrame_ok_iff (payload : Bytes) :
    (∃ frame, writeFrame payload = .ok frame) ↔ payload.length ≤ kMaxFrameSize := by
  unfold writeFrame
  split
  next hlarge =>
    constructor
    · rintro ⟨frame, hframe⟩
      cases hframe
    · intro hsmall
      omega
  next hsmall => exact ⟨fun _ => Nat.not_lt.mp hsmall, fun _ => ⟨_, rfl⟩⟩

theorem serve_ok_iff {response : Protocol.Response} (h : handle ask payload = .ok response) :
    (∃ frame, serve ask payload = .ok frame) ↔ (encodeResponse response).length ≤ kMaxFrameSize := by
  rw [← writeFrame_ok_iff, serve, h, ok_bind]
  cases hframe : writeFrame (encodeResponse response) with
  | ok frame => exact ⟨fun _ => ⟨frame, rfl⟩, fun _ => ⟨frame, rfl⟩⟩
  | error =>
    constructor
    · rintro ⟨frame, h⟩
      cases h
    · rintro ⟨frame, h⟩
      cases h

def responseOf (request : Request) (reply : Reply) : Protocol.Response :=
  if request.op = .get ∧ reply.1.isOk = true then ⟨.ok, reply.2.getD []⟩ else ⟨reply.1.code, reply.1.message⟩

theorem handle_of_decoded (ask : Request → Reply)
    (h : decodeRequest payload = .ok request) : handle ask payload = .ok (responseOf request (ask request)) := by
  rw [handle, h, responseOf]
  dsimp only
  generalize ask request = reply
  cases hop : request.op with
  | get =>
    cases hok : reply.1.isOk with
    | false | true => simp
  | put | delete => simp

theorem length_encodeResponse (response : Protocol.Response) :
    (encodeResponse response).length = kResponseHeaderSize + response.body.length := by
  rw [encodeResponse, List.length_cons, kResponseHeaderSize, Nat.add_comm]

theorem responseOf_of_write (hwrite : request.op ≠ .get) (reply : Reply) :
    responseOf request reply = ⟨reply.1.code, reply.1.message⟩ := if_neg fun h => hwrite h.1

theorem response_fits_iff (h : Proper Arrived recorded request reply) :
    (encodeResponse (responseOf request reply)).length ≤ kMaxFrameSize ↔ Fits request recorded reply := by
  rw [length_encodeResponse]
  cases h with
  | @found value get held =>
    have hlength := held.length_le
    rw [responseOf, if_pos ⟨get, rfl⟩]
    constructor
    · intro _
      exact ⟨fun _ hbad => (by cases hbad), fun hwrite => absurd get hwrite⟩
    · intro _
      simp only [kRequestHeaderSize, kResponseHeaderSize, Option.getD_some] at hlength ⊢
      omega
  | absent get =>
    have hbody : (responseOf request (.notFound (text "no such key: " ++ request.key), none)).body =
        text "no such key: " ++ request.key := by
      rw [responseOf, if_neg (fun h => by cases h.2)]
      rfl
    rw [hbody, List.length_append, ← Nat.add_assoc]
    constructor
    · intro hfits
      exact ⟨fun _ _ => hfits, fun hwrite => absurd get hwrite⟩
    · intro hfits
      exact hfits.absent get rfl
  | done write =>
    rw [responseOf_of_write write]
    constructor
    · rintro hfits
      exact ⟨fun hget => absurd hget write, fun _ h => h ▸ hfits⟩
    · intro _
      decide
  | refused write bad short =>
    rw [responseOf_of_write write]
    have hfits : kResponseHeaderSize + List.length _ ≤ kMaxFrameSize :=
      Nat.le_trans (Nat.add_le_add_left short _) (by decide)
    constructor
    · intro _
      exact ⟨fun hget => absurd hget write, fun _ h => h ▸ hfits⟩
    · intro _
      exact hfits
  | stopped write =>
    rw [responseOf_of_write write]
    constructor
    · intro hfits
      exact ⟨fun hget => absurd hget write, fun _ _ => hfits⟩
    · intro hfits
      exact hfits.stopped write rfl

theorem refusal_fits (hpayload : payload.length ≤ kMaxFrameSize) {f : Failure}
    (hdecode : decodeRequest payload = .error (.status f)) (hrefusal : Refusal payload.length f) :
    ∃ response, handle ask payload = .ok response ∧ (encodeResponse response).length ≤ kMaxFrameSize := by
  refine ⟨⟨f.status.code, f.status.message⟩, by rw [handle, hdecode]; rfl, ?_⟩
  have hmessage := hrefusal.2 (Nat.lt_of_le_of_lt hpayload (by decide))
  rw [length_encodeResponse, kResponseHeaderSize]
  exact Nat.le_trans (Nat.add_le_add_left hmessage 1) (by decide)

/-- Every payload that keeps to the cap is answered by a frame that keeps to it, unless
the answer names a key or a recorded error that leaves no room for the text around it. -/
theorem answered_iff [Crc] {payload : Bytes} (hpayload : payload.length ≤ kMaxFrameSize) {ask : Request → Reply}
    {recorded : Status}
    (hask : ∀ request, decodeRequest payload = .ok request → Answers request recorded (ask request)) :
    (∃ response, handle ask payload = .ok response ∧ (encodeResponse response).length ≤ kMaxFrameSize ∧
      ∃ frame, serve ask payload = .ok frame) ↔
    ∀ request, decodeRequest payload = .ok request → Fits request recorded (ask request) := by
  rcases (yields_decodeRequest payload).value_or_status with ⟨request, hdecode, _⟩ | ⟨f, hdecode, hrefusal⟩
  · have hhandle := handle_of_decoded ask hdecode
    have hfits := response_fits_iff (hask request hdecode).proper
    constructor
    · rintro ⟨response, hresponse, hlength, _⟩ request' hdecode'
      cases hhandle.symm.trans hresponse
      cases hdecode.symm.trans hdecode'
      exact hfits.mp hlength
    · intro h
      have hlength := hfits.mpr (h request hdecode)
      exact ⟨_, hhandle, hlength, (serve_ok_iff hhandle).mpr hlength⟩
  · constructor
    · intro _ request hdecode'
      cases hdecode.symm.trans hdecode'
    · intro _
      obtain ⟨response, hhandle, hlength⟩ := refusal_fits hpayload hdecode hrefusal
      exact ⟨response, hhandle, hlength, (serve_ok_iff hhandle).mpr hlength⟩

theorem answers_empty [Crc] (request : Request) : Answers request .ok (MemoryStore.reply ⟨∅⟩ request) := by
  apply Answers.memory
  intro key value hvalue
  rw [AList.lookup_empty] at hvalue
  cases hvalue

/-- An empty store answers a `get` of a short key. -/
theorem answered_short_key :
    ∃ response, handle (MemoryStore.reply ⟨∅⟩) (encodeRequest ⟨.get, text "a", []⟩) = .ok response ∧
      (encodeResponse response).length ≤ kMaxFrameSize ∧
      ∃ frame, serve (MemoryStore.reply ⟨∅⟩) (encodeRequest ⟨.get, text "a", []⟩) = .ok frame := by
  have hwell : Request.WellFormed ⟨.get, text "a", []⟩ := ⟨by decide, fun _ => rfl⟩
  have hdecode := decodeRequest_encodeRequest hwell
  refine (answered_iff (by decide) fun request _ => answers_empty request).mpr ?_
  rintro request hrequest
  cases hdecode.symm.trans hrequest
  exact ⟨fun _ _ => by decide, fun hwrite => absurd rfl hwrite⟩

/-- A `get` whose key fills the frame: the answer that it is not there does not fit, and
the connection is dropped. -/
theorem long_key_unanswered :
    ∃ payload : Bytes, payload.length ≤ kMaxFrameSize ∧ (∃ request, decodeRequest payload = .ok request) ∧
      (∀ request, Answers request .ok (MemoryStore.reply ⟨∅⟩ request)) ∧
      ¬ ∃ frame, serve (MemoryStore.reply ⟨∅⟩) payload = .ok frame := by
  have hkey : (List.replicate (kMaxFrameSize - 5) (0 : Byte)).length = kMaxFrameSize - 5 := List.length_replicate
  generalize List.replicate (kMaxFrameSize - 5) (0 : Byte) = key at hkey
  have hsize : kMaxFrameSize = 8388608 := rfl
  have hwell : Request.WellFormed ⟨.get, key, []⟩ := ⟨by rw [hkey]; decide, fun _ => rfl⟩
  have hdecode := decodeRequest_encodeRequest hwell
  refine ⟨encodeRequest ⟨.get, key, []⟩, ?_, ⟨_, hdecode⟩, answers_empty, ?_⟩
  · rw [encodeRequest, if_neg (show Op.get ≠ Op.put by decide), List.length_cons, List.length_append, List.length_append,
      Wire.length_putU32, List.length_nil, hkey]
    decide
  · intro hserved
    have hlength := (serve_ok_iff (handle_of_decoded _ hdecode)).mp hserved
    have hfits := (response_fits_iff (answers_empty _).proper).mp hlength
    have habsent : absentOverhead + key.length ≤ kMaxFrameSize := hfits.absent rfl rfl
    rw [hkey] at habsent
    exact absurd habsent (by decide)

end KVStore.Server
