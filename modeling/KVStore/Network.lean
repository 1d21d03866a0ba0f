import KVStore.Client

namespace KVStore

open Lib Checked Protocol

/-- A store behind the `KVStore` interface. -/
structure Store (σ : Type) where
  put : Key → Value → σ → Status × σ
  get : Key → σ → Except Failure Value × σ
  remove : Key → σ → Status × σ

/-- The socket does not fail, and the reader is not told to stop. -/
def Protocol.Turn.calm : Turn → Bool
  | .receive _ => true
  | .timeout stop => !stop
  | .failure _ => false

def Protocol.Calm (turns : List Turn) : Prop := ∀ turn ∈ turns, turn.calm = true

namespace Store

variable {σ ι : Type} (store : Store σ)

/-- A write that succeeds has nothing more to say. -/
structure Plain : Prop where
  put : ∀ key value s, (store.put key value s).1.isOk = true → (store.put key value s).1.message = []
  remove : ∀ key s, (store.remove key s).1.isOk = true → (store.remove key s).1.message = []

def call (request : Request) (s : σ) : Reply × σ :=
  match request.op with
  | .get =>
    match store.get request.key s with
    | (.ok value, s) => ((.ok, some value), s)
    | (.error f, s) => ((f.status, none), s)
  | .put => (((store.put request.key request.value s).1, none), (store.put request.key request.value s).2)
  | .delete => (((store.remove request.key s).1, none), (store.remove request.key s).2)

def ask (s : σ) (request : Request) : Reply := (store.call request s).1

/-- The request of a payload, where it has one, and the state that it leaves. -/
def handle (s : σ) (payload : Bytes) : Option Request × σ :=
  match decodeRequest payload with
  | .ok request => (some request, (store.call request s).2)
  | .error _ => (none, s)

/-- The calls made on the store itself, in this order: what they return and the state they leave. -/
def directly (s : σ) (requests : List (ι × Request)) : List (ι × Request × Reply) × σ :=
  requests.foldl (fun (done, s) (i, request) => (done ++ [(i, request, (store.call request s).1)], (store.call request s).2))
    ([], s)

theorem directly_concat (s : σ) (requests : List (ι × Request)) (i : ι) (request : Request) :
    store.directly s (requests ++ [(i, request)]) =
      ((store.directly s requests).1 ++ [(i, request, (store.call request (store.directly s requests).2).1)],
        (store.call request (store.directly s requests).2).2) := by
  rw [directly, List.foldl_append]
  rfl

end Store

def Protocol.FrameReader.arrive (r : FrameReader) (bytes : Bytes) : FrameReader :=
  { r with sock := { r.sock with incoming := r.sock.incoming ++ bytes } }

def Protocol.FrameReader.hangUp (r : FrameReader) : FrameReader := { r with sock := { r.sock with ended := true } }

/-- One connection: the readers of its two ends, each with the bytes under way to it, and the
request that the client waits on. -/
structure Connection where
  client : FrameReader
  server : FrameReader
  pending : Option Request
  finished : Bool

/-- What the server thread of a connection comes to: it goes on reading, it has sent its answer
to a payload, or it ends, and then the last payload may have been handled without an answer. -/
inductive Served
  | reading
  | answered (payload : Bytes)
  | ended (unanswered : Option Bytes)

def Served.payload : Served → Option Bytes
  | .reading => none
  | .answered payload => some payload
  | .ended unanswered => unanswered

/-- What a waiting client comes to; a call can fail on the read itself or on what was read. -/
inductive Awaited
  | waiting
  | answered (reply : Reply)
  | failed (f : Failure) (onRead : Bool)

namespace Connection

/-- The server reads frames of up to `maxFrame` bytes; a client has the defaults. -/
def start (maxFrame : Nat) (policy : ReadPolicy) : Connection where
  client := ⟨⟨[], false, 0, []⟩, kMaxFrameSize, {}, []⟩
  server := ⟨⟨[], false, 0, []⟩, maxFrame, policy, []⟩
  pending := none
  finished := false

variable (c : Connection)

def hangUp (r : FrameReader) : Connection := { c with server := r, client := c.client.hangUp, finished := true }

/-- The server thread reads, and answers when it has read a frame. -/
def serve (ask : Request → Reply) (turns : List Turn) : Served × Connection :=
  match c.server.readFrame turns with
  | (none, r, _) => (.reading, { c with server := r })
  | (some (.ok (.complete payload)), r, _) =>
    match Server.serve ask payload with
    | .ok frame => (.answered payload, { c with server := r, client := c.client.arrive frame })
    | .error _ => (.ended (some payload), c.hangUp r)
  | (some _, r, _) => (.ended none, c.hangUp r)

/-- The client waits for its answer; without a result a read went out of bounds. -/
def await (request : Request) (turns : List Turn) : Option (Awaited × Connection) :=
  match c.client.readFrame turns with
  | (none, r, _) => some (.waiting, { c with client := r })
  | (some reading, r, _) =>
    match Client.answered reading with
    | .ok response => some (.answered (Client.result request response), { c with client := r, pending := none })
    | .error (.status f) => some (.failed f (reading matches .error _), { c with client := r, pending := none })
    | .error _ => none

variable {c} {ask : Request → Reply} {request : Request} {turns turns' : List Turn} {r : FrameReader} {payload : Bytes}

theorem serve_of_waiting (hread : c.server.readFrame turns = (none, r, turns')) :
    c.serve ask turns = (.reading, { c with server := r }) := by
  rw [serve, hread]

theorem serve_of_frame (hread : c.server.readFrame turns = (some (.ok (.complete payload)), r, turns'))
    {frame : Bytes} (hframe : Server.serve ask payload = .ok frame) :
    c.serve ask turns = (.answered payload, { c with server := r, client := c.client.arrive frame }) := by
  rw [serve, hread]
  dsimp only
  rw [hframe]

theorem payload_serve (hread : c.server.readFrame turns = (some (.ok (.complete payload)), r, turns')) :
    (c.serve ask turns).1.payload = some payload := by
  rw [serve, hread]
  dsimp only
  split
  · rfl
  · rfl

theorem await_of_waiting (hread : c.client.readFrame turns = (none, r, turns')) :
    c.await request turns = some (.waiting, { c with client := r }) := by
  rw [await, hread]

theorem await_of_response {response : Protocol.Response}
    (hread : c.client.readFrame turns = (some (.ok (.complete (encodeResponse response))), r, turns')) :
    c.await request turns =
      some (.answered (Client.result request response), { c with client := r, pending := none }) := by
  rw [await, hread]
  dsimp only [Client.answered]
  rw [decodeResponse_encodeResponse]

end Connection

/-- A server, its store and its connections, with the requests sent, those handled in the order
in which `handle` ran, and what the clients' calls returned. -/
structure Network (n : Nat) (σ : Type) where
  store : σ
  conns : Fin n → Connection
  called : List (Fin n × Request)
  handled : List (Fin n × Request)
  returned : List (Fin n × Request × Reply)

namespace Network

variable {n : Nat} {σ : Type}

/-- A client makes a call, the server thread of a connection goes on reading, or a client goes
on waiting for its answer, each as far as the socket lets it. -/
inductive Action (n : Nat)
  | call (i : Fin n) (call : Client.Called)
  | serve (i : Fin n) (turns : List Turn)
  | await (i : Fin n) (turns : List Turn)

variable (store : Store σ) (net : Network n σ)

def setConn (i : Fin n) (c : Connection) : Network n σ := { net with conns := Function.update net.conns i c }

def handle (i : Fin n) (payload : Bytes) : Network n σ :=
  let (request, s) := store.handle net.store payload
  { net with store := s, handled := net.handled ++ request.toList.map (i, ·) }

def serve (i : Fin n) (turns : List Turn) : Network n σ :=
  let (served, c) := (net.conns i).serve (store.ask net.store) turns
  (served.payload.elim net (net.handle store i)).setConn i c

def finishCall (i : Fin n) (request : Request) (reply : Reply) (c : Connection) : Network n σ :=
  { net.setConn i c with returned := net.returned ++ [(i, request, reply)] }

def await (i : Fin n) (request : Request) (turns : List Turn) : Option (Network n σ) :=
  ((net.conns i).await request turns).map fun
    | (.waiting, c) => net.setConn i c
    | (.answered reply, c) => net.finishCall i request reply c
    | (.failed f _, c) => net.finishCall i request (f.status, none) c

def step : Action n → Option (Network n σ)
  | .call i call =>
    let c := net.conns i
    if c.pending.isSome then none
    else
      match writeFrame (encodeRequest call.request) with
      | .error f => some { net.finishCall i call.request (f.status, none) c with called := net.called ++ [(i, call.request)] }
      | .ok frame =>
        some { net.setConn i { c with server := c.server.arrive frame, pending := some call.request } with
          called := net.called ++ [(i, call.request)] }
  | .serve i turns => if (net.conns i).finished then none else some (net.serve store i turns)
  | .await i turns => (net.conns i).pending.bind fun request => net.await i request turns

/-- The sockets do not fail and the server is not told to stop. -/
def Action.Calm : Action n → Prop
  | .call .. => True
  | .serve _ turns | .await _ turns => Protocol.Calm turns

def start (maxFrame : Nat) (policy : ReadPolicy) (s : σ) : Network n σ where
  store := s
  conns _ := .start maxFrame policy
  called := []
  handled := []
  returned := []

inductive Reachable (maxFrame : Nat) (policy : ReadPolicy) (s : σ) : Network n σ → Prop
  | start : Reachable maxFrame policy s (.start maxFrame policy s)
  | step {net net' : Network n σ} {a : Action n} (before : Reachable maxFrame policy s net) (calm : a.Calm)
      (taken : net.step store a = some net') : Reachable maxFrame policy s net'

end Network

end KVStore
