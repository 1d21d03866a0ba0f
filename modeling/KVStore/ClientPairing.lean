import KVStore.NetworkHop

namespace KVStore

open Lib Checked Protocol

namespace Protocol.FrameReader

def arrived (r : FrameReader) : Int := r.sock.received + r.sock.incoming.length

variable {r : FrameReader}

theorem arrived_of_nothing (h : r.stream = []) : r.arrived = r.position := by
  obtain ⟨hbuf, hincoming⟩ := List.append_eq_nil_iff.mp h
  simp [arrived, position, hbuf, hincoming]

theorem position_arrive (r : FrameReader) (bytes : Bytes) : (r.arrive bytes).position = r.position := rfl

end Protocol.FrameReader

theorem Connection.serve_keeps (c : Connection) (ask : Request → Reply) (turns : List Turn)
    (hended : c.client.sock.ended = c.finished) :
    c.server.Keeps (c.serve ask turns).2.server ∧
      (c.serve ask turns).2.client.maxFrame = c.client.maxFrame ∧
      (c.serve ask turns).2.client.sock.ended = (c.serve ask turns).2.finished ∧
      (c.serve ask turns).2.pending = c.pending := by
  have hread := FrameReader.reads_readFrame c.server turns
  unfold serve
  generalize c.server.readFrame turns = reading at hread ⊢
  obtain ⟨result, r, turns'⟩ := reading
  have hkeeps : c.server.Keeps r := by
    cases hread with
    | complete advances | peerClosed advances | cancelled advances | corrupt advances | failed advances
    | waiting advances => exact ⟨advances.ended, advances.maxFrame⟩
  split
  · next hreading =>
    cases hreading
    exact ⟨hkeeps, rfl, hended, rfl⟩
  · next payload _ _ hreading =>
    cases hreading
    split
    · exact ⟨hkeeps, rfl, hended, rfl⟩
    · exact ⟨hkeeps, rfl, rfl, rfl⟩
  · next hreading =>
    cases hreading
    exact ⟨hkeeps, rfl, rfl, rfl⟩

/-- The server answered the frame that begins at `asked`, with the store in this state; the
answer begins at `offset`. -/
structure Answer (σ : Type) where
  asked : Int
  offset : Int
  state : σ

/-- A call whose request begins at `asked` returned what it made of the frame at `offset`. -/
structure Taken where
  asked : Int
  offset : Int
  request : Request
  reply : Reply

/-- One connection with its client and its server thread, and the place in the stream where the
request of the call under way begins. `broken`: a call on it has failed after bytes of its request
had left. -/
structure Line (σ : Type) extends Connection where
  store : σ
  asked : Int
  broken : Bool
  answers : List (Answer σ)
  taken : List Taken
  returned : List (Request × Reply)

namespace Line

variable {σ : Type}

/-- A call goes out, whole or up to a number of bytes; the server thread goes on reading; the
client goes on waiting; the store handles a request of another connection. -/
inductive Action
  | call (call : Client.Called)
  | shortCall (call : Client.Called) (sent : Nat) (f : Failure)
  | serve (turns : List Turn)
  | await (turns : List Turn)
  | elsewhere (request : Request)

variable (store : Store σ) (line : Line σ)

def finishCall (request : Request) (reply : Reply) : Line σ :=
  { line with returned := line.returned ++ [(request, reply)] }

def handle (payload : Bytes) : σ := (store.handle line.store payload).2

def serve (turns : List Turn) : Line σ :=
  let (served, c) := line.toConnection.serve (store.ask line.store) turns
  { line with
    toConnection := c
    store := served.payload.elim line.store (line.handle store)
    answers := match served with
      | .answered _ => ⟨line.server.position, line.client.arrived, line.store⟩ :: line.answers
      | _ => line.answers }

def await (request : Request) (turns : List Turn) : Option (Line σ) :=
  (line.toConnection.await request turns).map fun
    | (.waiting, c) => { line with toConnection := c }
    | (.answered reply, c) =>
      { line.finishCall request reply with
        toConnection := c
        taken := ⟨line.asked, line.client.position, request, reply⟩ :: line.taken }
    | (.failed f onRead, c) =>
      { line.finishCall request (f.status, none) with toConnection := c, broken := line.broken || onRead }

def step : Action → Option (Line σ)
  | .call call =>
    if line.pending.isSome then none
    else
      match writeFrame (encodeRequest call.request) with
      | .error f => some (line.finishCall call.request (f.status, none))
      | .ok frame =>
        some { line with
          server := line.server.arrive frame
          pending := some call.request
          asked := line.server.arrived }
  | .shortCall call sent f =>
    if line.pending.isSome then none
    else
      match writeFrame (encodeRequest call.request) with
      | .error f => some (line.finishCall call.request (f.status, none))
      | .ok frame =>
        some { line.finishCall call.request (f.status, none) with
          server := line.server.arrive (frame.take sent)
          broken := line.broken || decide (0 < sent) }
  | .serve turns => if line.finished then none else some (line.serve store turns)
  | .await turns => line.pending.bind fun request => line.await request turns
  | .elsewhere request => some { line with store := (store.call request line.store).2 }

/-- The server's socket does not fail and the server is not told to stop; the client's may
fail at every receive, and a client has no flag to be stopped by. -/
def Action.Allowed : Action → Prop
  | .serve turns => Calm turns
  | .await turns => stops turns = 0
  | _ => True

def callsOnBroken : Action → Bool
  | .call _ | .shortCall .. => line.broken
  | _ => false

def start (maxFrame : Nat) (policy : ReadPolicy) (s : σ) : Line σ where
  toConnection := .start maxFrame policy
  store := s
  asked := 0
  broken := false
  answers := []
  taken := []
  returned := []

inductive Reachable (p : Line σ → Action → Prop) (maxFrame : Nat) (policy : ReadPolicy) (s : σ) : Line σ → Prop
  | start : Reachable p maxFrame policy s (.start maxFrame policy s)
  | step {line line' : Line σ} {a : Action} (before : Reachable p maxFrame policy s line) (allowed : a.Allowed)
      (met : p line a) (taken : line.step store a = some line') : Reachable p maxFrame policy s line'

/-- The frame that the call took is the server's answer to the call's own request. -/
def Paired (t : Taken) : Prop :=
  ∃ a ∈ line.answers, a.asked = t.asked ∧ a.offset = t.offset ∧
    t.reply = Client.result t.request (Server.responseOf t.request (store.call t.request a.state).1)

variable {store line} {line' : Line σ}

inductive Phase (store : Store σ) (line : Line σ) : Prop
  | idle (pending : line.pending = none) (server : line.server.stream = []) (client : line.client.stream = [])
      (running : line.finished = false)
  | asked {request : Request} (pending : line.pending = some request)
      (wellFormed : request.WellFormed) (fits : (encodeRequest request).length ≤ kMaxFrameSize)
      (server : line.server.stream = Wire.framing.frame (encodeRequest request))
      (here : line.server.position = line.asked) (client : line.client.stream = []) (running : line.finished = false)
  | answered {request : Request} {state : σ} (pending : line.pending = some request)
      (server : line.server.stream = [])
      (fits : (encodeResponse (Server.responseOf request (store.call request state).1)).length ≤ kMaxFrameSize)
      (client : line.client.stream =
        Wire.framing.frame (encodeResponse (Server.responseOf request (store.call request state).1)))
      (answer : ⟨line.asked, line.client.position, state⟩ ∈ line.answers) (running : line.finished = false)
  | closed (finished : line.finished = true) (client : line.client.stream = [])
  | broken (broken : line.broken = true) (pending : line.pending = none)

structure Inv (store : Store σ) (line : Line σ) : Prop where
  serverCap : line.server.maxFrame < 2 ^ 32
  clientCap : line.client.maxFrame = kMaxFrameSize
  serverEnd : line.server.sock.ended = false
  clientEnd : line.client.sock.ended = line.finished
  phase : Phase store line
  paired : ∀ t ∈ line.taken, line.Paired store t

theorem Paired.mono {t : Taken} (h : line.Paired store t) (hsub : line.answers ⊆ line'.answers) :
    line'.Paired store t := by
  obtain ⟨a, ha, hfacts⟩ := h
  exact ⟨a, hsub ha, hfacts⟩

theorem Inv.of_phase (h : Inv store line) (hserver : line.server.Keeps line'.server)
    (hclient : line'.client.maxFrame = line.client.maxFrame)
    (hended : line'.client.sock.ended = line'.finished) (hphase : Phase store line')
    (htaken : line'.taken = line.taken) (hanswers : line.answers ⊆ line'.answers) : Inv store line' where
  serverCap := by
    rw [hserver.maxFrame]
    exact h.serverCap
  clientCap := hclient.trans h.clientCap
  serverEnd := hserver.ended.trans h.serverEnd
  clientEnd := hended
  phase := hphase
  paired := by
    rw [htaken]
    exact fun t ht => (h.paired t ht).mono hanswers

theorem keeps_arrive (r : FrameReader) (bytes : Bytes) : r.Keeps (r.arrive bytes) := ⟨rfl, rfl⟩

theorem of_writeFrame {call : Client.Called} {frame : Bytes}
    (h : writeFrame (encodeRequest call.request) = .ok frame) :
    frame = Wire.framing.frame (encodeRequest call.request) ∧
      (encodeRequest call.request).length ≤ kMaxFrameSize := by
  by_cases hfits : (encodeRequest call.request).length ≤ kMaxFrameSize
  · rw [writeFrame_eq hfits] at h
    cases h
    exact ⟨rfl, hfits⟩
  · rw [writeFrame, if_pos (Nat.lt_of_not_le hfits)] at h
    cases h

theorem Inv.finishCall (h : Inv store line) (hidle : line.pending = none) (request : Request) (reply : Reply) :
    Inv store (line.finishCall request reply) := by
  refine h.of_phase ⟨rfl, rfl⟩ rfl h.clientEnd ?_ rfl (List.Subset.refl _)
  cases h.phase with
  | idle pending server client running => exact .idle pending server client running
  | asked pending | answered pending => cases hidle.symm.trans pending
  | closed finished client => exact .closed finished client
  | broken broken pending => exact .broken broken pending

theorem Inv.call (h : Inv store line) (hsound : line.broken = false) (hidle : line.pending = none)
    {call : Client.Called} {frame : Bytes} (hframe : writeFrame (encodeRequest call.request) = .ok frame) :
    Inv store { line with
      server := line.server.arrive frame
      pending := some call.request
      asked := line.server.arrived } := by
  obtain ⟨rfl, hfits⟩ := of_writeFrame hframe
  refine h.of_phase (keeps_arrive _ _) rfl h.clientEnd ?_ rfl (List.Subset.refl _)
  cases h.phase with
  | idle pending server client running =>
    refine .asked rfl (Client.Called.wellFormed hfits) hfits ?_ (FrameReader.arrived_of_nothing server).symm client running
    rw [Network.stream_arrive, server, List.nil_append]
  | asked pending | answered pending => cases hidle.symm.trans pending
  | closed finished client => exact .closed finished client
  | broken broken => cases hsound.symm.trans broken

section

variable (h : Inv store line)
include h

theorem Inv.shortCall (hsound : line.broken = false) (hidle : line.pending = none)
    (request : Request) (reply : Reply) (frame : Bytes) (sent : Nat) :
    Inv store { line.finishCall request reply with
      server := line.server.arrive (frame.take sent)
      broken := line.broken || decide (0 < sent) } := by
  refine h.of_phase (keeps_arrive _ _) rfl h.clientEnd ?_ rfl (List.Subset.refl _)
  by_cases hsent : 0 < sent
  · exact .broken (by simp [hsent]) hidle
  · have hzero : sent = 0 := Nat.eq_zero_of_not_pos hsent
    subst hzero
    cases h.phase with
    | idle pending server client running =>
      refine .idle pending ?_ client running
      rw [Network.stream_arrive, server]
      rfl
    | asked pending | answered pending => cases hidle.symm.trans pending
    | closed finished client => exact .closed finished client
    | broken broken => cases hsound.symm.trans broken

theorem Inv.hangUp {r : FrameReader} (hkeeps : line.server.Keeps r)
    (hclient : line.client.stream = []) (state : σ) :
    Inv store { line with toConnection := line.toConnection.hangUp r, store := state } :=
  h.of_phase hkeeps rfl rfl (.closed rfl hclient) rfl (List.Subset.refl _)

theorem Inv.serve_of_broken (hbroken : line.broken = true) (hidle : line.pending = none)
    (turns : List Turn) : Inv store (line.serve store turns) := by
  obtain ⟨hserver, hclient, hended, hpending⟩ :=
    line.toConnection.serve_keeps (store.ask line.store) turns h.clientEnd
  refine h.of_phase hserver hclient hended (.broken hbroken (hpending.trans hidle)) rfl ?_
  rw [serve]
  dsimp only
  split
  · exact List.subset_cons_self _ _
  · exact List.Subset.refl _

theorem Inv.serve_of_nothing {turns : List Turn} (hcalm : Calm turns) (hstream : line.server.stream = [])
    (hphase : ∀ r : FrameReader, r.stream = [] → Phase store { line with server := r }) :
    Inv store (line.serve store turns) := by
  obtain ⟨r, hread, hkeeps, hnothing⟩ := FrameReader.readFrame_of_nothing hstream h.serverEnd hcalm
  rw [serve, Connection.serve_of_waiting hread]
  exact h.of_phase hkeeps rfl h.clientEnd (hphase r hnothing) rfl (List.Subset.refl _)

theorem Inv.serve_of_asked {turns : List Turn} (hcalm : Calm turns)
    {request : Request} (hpending : line.pending = some request) (hwell : request.WellFormed)
    (hfits : (encodeRequest request).length ≤ kMaxFrameSize)
    (hserver : line.server.stream = Wire.framing.frame (encodeRequest request))
    (hhere : line.server.position = line.asked) (hclient : line.client.stream = [])
    (hrunning : line.finished = false) : Inv store (line.serve store turns) := by
  obtain ⟨result, r, turns', hread⟩ :
      ∃ result r turns', line.server.readFrame turns = (result, r, turns') := ⟨_, _, _, rfl⟩
  obtain ⟨hkeeps, hcases⟩ := FrameReader.reading_of_frame hserver h.serverEnd h.serverCap
    (Nat.lt_of_le_of_lt hfits (by decide)) hcalm.stops_eq hread
  rcases hcases with ⟨rfl, _, hstream, hposition, _⟩ | ⟨rfl, hnothing⟩ | ⟨f, rfl, _⟩
  · rw [serve, Connection.serve_of_waiting hread]
    exact h.of_phase hkeeps rfl h.clientEnd
      (.asked hpending hwell hfits (hstream.trans hserver) (hposition.trans hhere) hclient hrunning) rfl
      (List.Subset.refl _)
  · by_cases hresponse :
        (encodeResponse (Server.responseOf request (store.call request line.store).1)).length ≤ kMaxFrameSize
    · rw [serve, Connection.serve_of_frame hread (Network.serve_request (store.ask line.store) hwell hresponse)]
      refine h.of_phase hkeeps rfl h.clientEnd ?_ rfl (List.subset_cons_self _ _)
      refine @Phase.answered _ _ _ request line.store hpending hnothing hresponse ?_ ?_ hrunning
      · rw [Network.stream_arrive, hclient, List.nil_append]
        rfl
      · rw [FrameReader.position_arrive, ← hhere, ← FrameReader.arrived_of_nothing hclient]
        exact List.mem_cons_self
    · rw [serve, Connection.serve, hread]
      dsimp only
      split
      · next frame hframe =>
        exfalso
        have hdecoded := Server.handle_of_decoded (store.ask line.store) (decodeRequest_encodeRequest hwell)
        exact hresponse ((Server.serve_ok_iff hdecoded).mp ⟨frame, hframe⟩)
      · exact h.hangUp hkeeps hclient _
  · rw [serve, Connection.serve, hread]
    exact h.hangUp hkeeps hclient _

theorem Inv.serve {turns : List Turn} (hcalm : Calm turns) (hrunning : line.finished = false) :
    Inv store (line.serve store turns) := by
  cases h.phase with
  | idle pending server client running =>
    exact h.serve_of_nothing hcalm server fun r hr => .idle pending hr client running
  | asked pending wellFormed fits server here client running =>
    exact h.serve_of_asked hcalm pending wellFormed fits server here client running
  | answered pending server fits client answer running =>
    exact h.serve_of_nothing hcalm server fun r hr => .answered pending hr fits client answer running
  | closed finished => cases hrunning.symm.trans finished
  | broken broken pending => exact h.serve_of_broken broken pending turns

theorem Inv.await_of_nothing {request : Request} {turns turns' : List Turn}
    {r : FrameReader} {result : Option (Read FrameStatus)}
    (hread : line.client.readFrame turns = (result, r, turns')) (hkeeps : line.client.Keeps r)
    (hresult : result = none ∨ ∃ f, result = some (.error (.status f)))
    (hphase : result = none → Phase store { line with client := r })
    (hawait : line.await request turns = some line') : Inv store line' := by
  rw [Line.await, Connection.await, hread] at hawait
  rcases hresult with rfl | ⟨f, rfl⟩
  · cases hawait
    exact h.of_phase ⟨rfl, rfl⟩ hkeeps.maxFrame (hkeeps.ended.trans h.clientEnd) (hphase rfl) rfl (List.Subset.refl _)
  · cases hawait
    exact h.of_phase ⟨rfl, rfl⟩ hkeeps.maxFrame (hkeeps.ended.trans h.clientEnd) (.broken (by simp) rfl) rfl
      (List.Subset.refl _)

theorem Inv.await {request : Request} {turns : List Turn}
    (hpending : line.pending = some request) (hstops : stops turns = 0)
    (hawait : line.await request turns = some line') : Inv store line' := by
  obtain ⟨result, r, turns', hread⟩ :
      ∃ result r turns', line.client.readFrame turns = (result, r, turns') := ⟨_, _, _, rfl⟩
  cases h.phase with
  | idle pending | broken _ pending => cases hpending.symm.trans pending
  | asked pending wellFormed fits server here client running =>
    obtain ⟨hkeeps, hnothing, hcases⟩ := FrameReader.reading_of_boundary client hstops hread
    refine h.await_of_nothing hread hkeeps ?_
      (fun _ => .asked pending wellFormed fits server here hnothing running) hawait
    rcases hcases with ⟨hnone, _⟩ | ⟨_, hended⟩ | ⟨f, hf, _⟩
    · exact .inl hnone
    · cases (h.clientEnd.trans running).symm.trans hended
    · exact .inr ⟨f, hf⟩
  | @answered request' state pending server fits client answer running =>
    cases hpending.symm.trans pending
    have hcap : line.client.maxFrame < 2 ^ 32 := by
      rw [h.clientCap]
      decide
    obtain ⟨hkeeps, hcases⟩ := FrameReader.reading_of_frame client (h.clientEnd.trans running) hcap
      (Nat.lt_of_le_of_lt fits (by decide)) hstops hread
    rcases hcases with ⟨hnone, _, hstream, hposition, _⟩ | ⟨rfl, hnothing⟩ | ⟨f, hf, _⟩
    · refine h.await_of_nothing hread hkeeps (.inl hnone) (fun _ => ?_) hawait
      exact .answered pending server fits (hstream.trans client) (hposition ▸ answer) running
    · rw [Line.await, Connection.await_of_response hread] at hawait
      cases hawait
      refine ⟨h.serverCap, hkeeps.maxFrame.trans h.clientCap, h.serverEnd, hkeeps.ended.trans h.clientEnd,
        .idle rfl server hnothing running, ?_⟩
      intro t ht
      rcases List.mem_cons.mp ht with rfl | ht
      · exact ⟨_, answer, rfl, rfl, rfl⟩
      · exact h.paired t ht
    · -- a response never exceeds the client's cap, so this is the socket's failure
      exact h.await_of_nothing hread hkeeps (.inr ⟨f, hf⟩) (fun hnone => by cases hf.symm.trans hnone) hawait
  | closed finished client =>
    obtain ⟨hkeeps, hnothing, hcases⟩ := FrameReader.reading_of_boundary client hstops hread
    rcases hcases with ⟨hnone, _⟩ | ⟨rfl, _⟩ | ⟨f, hf, _⟩
    · exact h.await_of_nothing hread hkeeps (.inl hnone) (fun _ => .closed finished hnothing) hawait
    · rw [Line.await, Connection.await, hread] at hawait
      cases hawait
      exact h.of_phase ⟨rfl, rfl⟩ hkeeps.maxFrame (hkeeps.ended.trans h.clientEnd) (.closed finished hnothing) rfl
        (List.Subset.refl _)
    · exact h.await_of_nothing hread hkeeps (.inr ⟨f, hf⟩) (fun _ => .closed finished hnothing) hawait

end

theorem Inv.step (h : Inv store line) {a : Action} (hallowed : a.Allowed) (hsound : line.callsOnBroken a = false)
    (hstep : line.step store a = some line') : Inv store line' := by
  cases a with
  | call | shortCall =>
    rw [Line.step] at hstep
    split_ifs at hstep with hidle
    have hidle' : line.pending = none := by simpa using hidle
    split at hstep
    · cases hstep
      exact h.finishCall hidle' _ _
    next frame hframe =>
      cases hstep
      first
        | exact h.call hsound hidle' hframe
        | exact h.shortCall hsound hidle' _ _ _ _
  | serve =>
    rw [Line.step] at hstep
    split_ifs at hstep with hrunning
    cases hstep
    exact h.serve hallowed (Bool.eq_false_of_not_eq_true hrunning)
  | await =>
    obtain ⟨request, hpending, hawait⟩ := Option.bind_eq_some_iff.mp hstep
    exact h.await hpending hallowed hawait
  | elsewhere =>
    cases hstep
    refine h.of_phase ⟨rfl, rfl⟩ rfl h.clientEnd ?_ rfl (List.Subset.refl _)
    cases h.phase with
    | idle pending server client running => exact .idle pending server client running
    | asked pending wellFormed fits server here client running =>
      exact .asked pending wellFormed fits server here client running
    | answered pending server fits client answer running =>
      exact .answered pending server fits client answer running
    | closed finished client => exact .closed finished client
    | broken broken pending => exact .broken broken pending

/-- As long as no call is made on a connection on which an earlier one failed after bytes of its
request had left, every answer that a call returns is the server's answer to that call's request. -/
theorem Reachable.answers_own_request {maxFrame : Nat} (hcap : maxFrame < 2 ^ 32) {policy : ReadPolicy} {s : σ}
    (h : Reachable store (fun line a => line.callsOnBroken a = false) maxFrame policy s line) :
    ∀ t ∈ line.taken, line.Paired store t := by
  have hinv : Inv store line := by
    induction h with
    | start =>
      exact ⟨hcap, rfl, rfl, rfl, .idle rfl rfl rfl rfl, fun t ht => absurd ht List.not_mem_nil⟩
    | step before allowed met taken ih => exact ih.step allowed met taken
  exact hinv.paired

theorem Reachable.of_steps {p : Line σ → Action → Prop} {maxFrame : Nat} {policy : ReadPolicy} {s : σ}
    (h : Reachable store p maxFrame policy s line) {next : Line σ → Action → Option (Line σ)}
    (hnext : ∀ line a line', next line a = some line' → p line a ∧ line.step store a = some line')
    {actions : List Action} (hallowed : ∀ a ∈ actions, a.Allowed) (hrun : actions.foldlM next line = some line') :
    Reachable store p maxFrame policy s line' := by
  induction actions generalizing line with
  | nil =>
    cases hrun
    exact h
  | cons a actions ih =>
    rw [List.foldlM_cons] at hrun
    obtain ⟨line₁, hstep, hrest⟩ := Option.bind_eq_some_iff.mp hrun
    obtain ⟨ha, hactions⟩ := List.forall_mem_cons.mp hallowed
    obtain ⟨hp, htaken⟩ := hnext line a line₁ hstep
    exact ih (h.step ha hp htaken) hactions hrest

/-- A step of a client that gives up a connection once a call has failed on it. -/
def carefulStep (store : Store σ) (line : Line σ) (a : Action) : Option (Line σ) :=
  if line.callsOnBroken a then none else line.step store a

theorem of_carefulStep {a : Action} (h : line.carefulStep store a = some line') :
    line.callsOnBroken a = false ∧ line.step store a = some line' := by
  unfold carefulStep at h
  split_ifs at h with hsound
  exact ⟨Bool.eq_false_of_not_eq_true hsound, h⟩

def putBoth : List Action :=
  [.call (.put (text "a") (text "x")), .serve [.receive 99], .await [.receive 99],
    .call (.put (text "b") (text "y")), .serve [.receive 99], .await [.receive 99]]

/-- A `get` that could not send a byte, one that is answered, and one whose receive fails. -/
theorem answers_own_request_until_failure :
    ∃ line : Line MemoryStore, Reachable MemoryStore.asStore (fun line a => line.callsOnBroken a = false)
        kMaxFrameSize ⟨100, true⟩ ⟨∅⟩ line ∧
      line.taken.length = 3 ∧ (∀ t ∈ line.taken, line.Paired MemoryStore.asStore t) ∧ line.broken = true := by
  let actions := putBoth ++ [.shortCall (.get (text "a")) 0 (.ioError (text "send: Connection reset by peer")),
    .call (.get (text "b")), .serve [.receive 99], .await [.receive 3], .await [.receive 99],
    .call (.get (text "a")), .serve [.receive 99], .await [.failure (.ioError (text "recv: Connection timed out"))]]
  have hallowed : ∀ a ∈ actions, a.Allowed := by
    simp [actions, putBoth, Action.Allowed, Calm, Turn.calm, stops]
  have hrun : ∃ line ∈ actions.foldlM (carefulStep MemoryStore.asStore) (start kMaxFrameSize ⟨100, true⟩ ⟨∅⟩),
      line.taken.length = 3 ∧ line.broken = true := by decide +kernel
  obtain ⟨line, hline, htaken, hbroken⟩ := hrun
  have hreach : Reachable MemoryStore.asStore (fun line a => line.callsOnBroken a = false) kMaxFrameSize ⟨100, true⟩
      ⟨∅⟩ line := .of_steps .start (fun _ _ _ h => of_carefulStep h) hallowed hline
  exact ⟨line, hreach, htaken, hreach.answers_own_request (by decide), hbroken⟩

/-- The receive of a `get` of `a` fails; the `get` of `b` that follows takes its answer. -/
theorem get_returns_other_key :
    ∃ line : Line MemoryStore, Reachable MemoryStore.asStore (fun _ _ => True) kMaxFrameSize ⟨100, true⟩ ⟨∅⟩ line ∧
      line.store.get (text "b") = (.ok, some (text "y")) ∧
      ∃ t ∈ line.taken, t.request = ⟨.get, text "b", []⟩ ∧ t.reply = (.ok, some (text "x")) ∧
        ∀ a ∈ line.answers, a.offset = t.offset → a.asked ≠ t.asked := by
  let actions := putBoth ++ [.call (.get (text "a")), .serve [.receive 99],
    .await [.failure (.ioError (text "recv: Connection timed out"))],
    .call (.get (text "b")), .serve [.receive 99], .await [.receive 99]]
  have hallowed : ∀ a ∈ actions, a.Allowed := by
    simp [actions, putBoth, Action.Allowed, Calm, Turn.calm, stops]
  have hrun : ∃ line ∈ actions.foldlM (step MemoryStore.asStore)
      (start kMaxFrameSize ⟨100, true⟩ (⟨∅⟩ : MemoryStore)), line.store.get (text "b") = (.ok, some (text "y")) ∧
      ∃ t ∈ line.taken, t.request = ⟨.get, text "b", []⟩ ∧ t.reply = (.ok, some (text "x")) ∧
        ∀ a ∈ line.answers, a.offset = t.offset → a.asked ≠ t.asked := by decide +kernel
  obtain ⟨line, hline, hcrossed⟩ := hrun
  exact ⟨line, .of_steps .start (fun _ _ _ h => ⟨trivial, h⟩) hallowed hline, hcrossed⟩

end Line

end KVStore
