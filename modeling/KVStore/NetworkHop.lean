import KVStore.Network

namespace KVStore

open Lib Checked Protocol

namespace Protocol

theorem Calm.stops_eq {turns : List Turn} (h : Calm turns) : stops turns = 0 := by
  rw [stops, List.countP_eq_zero]
  intro turn hturn
  have hcalm := h turn hturn
  cases turn with
  | timeout => simpa [Turn.calm] using hcalm
  | receive | failure => rintro ⟨⟩

theorem Calm.no_failure {turns : List Turn} (h : Calm turns) (f : Failure) : .failure f ∉ turns :=
  fun hf => nomatch h _ hf

end Protocol

namespace Protocol.FrameReader

variable {r r' : FrameReader} {turns turns' : List Turn} {payload : Bytes} {result : Option (Read FrameStatus)}

structure Keeps (r r' : FrameReader) : Prop where
  ended : r'.sock.ended = r.sock.ended
  maxFrame : r'.maxFrame = r.maxFrame

def position (r : FrameReader) : Int := r.sock.received - r.buf.length

theorem Advances.keeps {wanted : Nat} (h : Advances wanted r r' turns turns') : Keeps r r' := ⟨h.ended, h.maxFrame⟩

theorem Advances.position_eq {wanted : Nat} (h : Advances wanted r r' turns turns') : r'.position = r.position := by
  have hposition := h.position
  unfold FrameReader.position
  omega

theorem reading_of_boundary (hstream : r.stream = []) (hstops : stops turns = 0)
    (hread : r.readFrame turns = (result, r', turns')) :
    Keeps r r' ∧ r'.stream = [] ∧
      (result = none ∧ turns' = [] ∨ result = some (.ok .peerClosed) ∧ r.sock.ended = true ∨
        ∃ f, result = some (.error (.status f)) ∧ .failure f ∈ turns) := by
  have hnext : r.next = .boundary := Framing.next_eq_boundary_iff.mpr hstream
  have hreads := reads_readFrame r turns
  rw [hread] at hreads
  cases hreads with
  | complete advances enough next => cases hnext.symm.trans next
  | peerClosed advances ended =>
    exact ⟨advances.keeps, advances.stream.trans hstream, .inr (.inl ⟨rfl, ended⟩)⟩
  | cancelled advances stop => exact absurd stop (by rw [hstops]; exact Nat.not_lt_zero _)
  | corrupt advances corruption broken =>
    rcases broken with hbroken | ⟨_, hbroken⟩ <;> cases hnext.symm.trans hbroken
  | failed advances failure =>
    exact ⟨advances.keeps, advances.stream.trans hstream, .inr (.inr ⟨_, rfl, failure⟩)⟩
  | waiting advances => exact ⟨advances.keeps, advances.stream.trans hstream, .inl ⟨rfl, rfl⟩⟩

theorem reading_of_frame (hstream : r.stream = Wire.framing.frame payload) (hended : r.sock.ended = false)
    (hcap : r.maxFrame < 2 ^ 32) (hpayload : payload.length < 2 ^ 32) (hstops : stops turns = 0)
    (hread : r.readFrame turns = (result, r', turns')) :
    Keeps r r' ∧
      (result = none ∧ turns' = [] ∧ r'.stream = r.stream ∧ r'.position = r.position ∧
          (payload.length ≤ r.maxFrame → receives turns < r.sock.incoming.length) ∨
        result = some (.ok (.complete payload)) ∧ r'.stream = [] ∨
        ∃ f, result = some (.error (.status f)) ∧ (.failure f ∈ turns ∨ r.maxFrame < payload.length)) := by
  have hreads := reads_readFrame r turns
  rw [hread] at hreads
  have hnext (hsize : payload.length ≤ r.maxFrame) : r.next = .frame payload [] := by
    rw [next, hstream, ← List.append_nil (Wire.framing.frame payload)]
    exact Framing.next_frame hsize hcap []
  cases hreads with
  | complete advances enough next =>
    have hsize : payload.length ≤ r.maxFrame := by
      have hget := Framing.get_take_frame (c := Wire.framing) (Nat.le_refl payload.length) hpayload []
      rw [List.append_nil, ← hstream] at hget
      exact hget ▸ (Framing.of_next_frame next).1
    injection (hnext hsize).symm.trans next with hsame hrest
    subst hsame
    exact ⟨⟨advances.ended, advances.maxFrame⟩, .inr (.inl ⟨rfl, hrest.symm⟩)⟩
  | peerClosed advances ended => cases hended.symm.trans ended
  | cancelled advances stop => exact absurd stop (by rw [hstops]; exact Nat.not_lt_zero _)
  | corrupt advances corruption broken =>
    refine ⟨advances.keeps, .inr (.inr ⟨_, rfl, .inr (Nat.lt_of_not_le fun hsize => ?_)⟩)⟩
    rcases broken with hbroken | ⟨_, hbroken⟩ <;> cases (hnext hsize).symm.trans hbroken
  | failed advances failure => exact ⟨advances.keeps, .inr (.inr ⟨_, rfl, .inl failure⟩)⟩
  | waiting advances pays more =>
    refine ⟨advances.keeps, .inl ⟨rfl, rfl, advances.stream, advances.position_eq, fun hsize => ?_⟩⟩
    have hpays := pays (.inr ⟨_, _, hnext hsize⟩)
    have hmore := List.length_pos_iff.mpr (more ⟨_, _, hnext hsize⟩)
    have hnone : receives [] = 0 := rfl
    rw [Pays] at hpays
    omega

theorem readFrame_of_nothing (hstream : r.stream = []) (hended : r.sock.ended = false) (hcalm : Calm turns) :
    ∃ r', r.readFrame turns = (none, r', []) ∧ Keeps r r' ∧ r'.stream = [] := by
  obtain ⟨result, r', turns', hread⟩ : ∃ result r' turns', r.readFrame turns = (result, r', turns') := ⟨_, _, _, rfl⟩
  obtain ⟨hkeeps, hnothing, ⟨rfl, rfl⟩ | ⟨_, ended⟩ | ⟨f, _, failure⟩⟩ :=
    reading_of_boundary hstream hcalm.stops_eq hread
  · exact ⟨r', hread, hkeeps, hnothing⟩
  · cases hended.symm.trans ended
  · exact absurd failure (hcalm.no_failure f)

theorem readFrame_of_frame (hstream : r.stream = Wire.framing.frame payload) (hended : r.sock.ended = false)
    (hsize : payload.length ≤ r.maxFrame) (hcap : r.maxFrame < 2 ^ 32) (hcalm : Calm turns) :
    (∃ r', r.readFrame turns = (none, r', []) ∧ Keeps r r' ∧ r'.stream = r.stream ∧
      receives turns < r.sock.incoming.length) ∨
    ∃ r' turns', r.readFrame turns = (some (.ok (.complete payload)), r', turns') ∧ Keeps r r' ∧ r'.stream = [] := by
  obtain ⟨result, r', turns', hread⟩ : ∃ result r' turns', r.readFrame turns = (result, r', turns') := ⟨_, _, _, rfl⟩
  obtain ⟨hkeeps, ⟨rfl, rfl, hsame, _, hpaid⟩ | ⟨rfl, hnothing⟩ | ⟨f, _, failure | hlarge⟩⟩ :=
    reading_of_frame hstream hended hcap (Nat.lt_of_le_of_lt hsize hcap) hcalm.stops_eq hread
  · exact .inl ⟨r', hread, hkeeps, hsame, hpaid hsize⟩
  · exact .inr ⟨r', turns', hread, hkeeps, hnothing⟩
  · exact absurd failure (hcalm.no_failure f)
  · exact absurd hsize (Nat.not_le.mpr hlarge)

end Protocol.FrameReader

namespace Network

variable {n : Nat} {σ : Type} (store : Store σ) (net : Network n σ)

def mine {α : Type} (i : Fin n) (events : List (Fin n × α)) : List α :=
  events.filterMap fun e => if e.1 = i then some e.2 else none

structure Within (s : σ) : Prop where
  requests : ∀ e ∈ net.called, (encodeRequest e.2).length ≤ kMaxFrameSize
  responses : ∀ e ∈ (store.directly s net.handled).1,
    (encodeResponse (Server.responseOf e.2.1 e.2.2)).length ≤ kMaxFrameSize

inductive Phase (called : List Request) (handled returned : List (Request × Reply)) (c : Connection) : Prop
  | idle (pending : c.pending = none) (server : c.server.stream = []) (client : c.client.stream = [])
      (answers : returned = handled) (order : called = handled.map Prod.fst)
  | asked {request : Request} (pending : c.pending = some request) (wellFormed : request.WellFormed)
      (fits : (encodeRequest request).length ≤ kMaxFrameSize)
      (server : c.server.stream = Wire.framing.frame (encodeRequest request)) (client : c.client.stream = [])
      (answers : returned = handled) (order : called = handled.map Prod.fst ++ [request])
  | answered {request : Request} {reply : Reply} (pending : c.pending = some request)
      (fits : (encodeResponse (Server.responseOf request reply)).length ≤ kMaxFrameSize)
      (rebuilt : Client.result request (Server.responseOf request reply) = reply)
      (server : c.server.stream = [])
      (client : c.client.stream = Wire.framing.frame (encodeResponse (Server.responseOf request reply)))
      (answers : handled = returned ++ [(request, reply)]) (order : called = handled.map Prod.fst)

structure Up (c : Connection) : Prop where
  server : c.server.sock.ended = false
  serverCap : kMaxFrameSize ≤ c.server.maxFrame ∧ c.server.maxFrame < 2 ^ 32
  client : c.client.sock.ended = false
  clientCap : c.client.maxFrame = kMaxFrameSize
  serving : c.finished = false

structure Inv (s : σ) : Prop where
  state : net.store = (store.directly s net.handled).2
  up : ∀ i, Up (net.conns i)
  phase : ∀ i, Phase (mine i net.called) (mine i (store.directly s net.handled).1) (mine i net.returned) (net.conns i)

section Mine

variable {α β : Type} {i j : Fin n} (events : List (Fin n × α)) (a : α)

@[simp] theorem mine_concat_self : mine i (events ++ [(i, a)]) = mine i events ++ [a] := by
  rw [mine, List.filterMap_append]
  simp [mine]

theorem mine_concat_of_ne (h : j ≠ i) : mine i (events ++ [(j, a)]) = mine i events := by
  rw [mine, List.filterMap_append]
  simp [mine, h]

end Mine

variable {store net} {net' : Network n σ} {s : σ} {i : Fin n} {turns : List Turn} {request : Request}
    {a : Action n} {maxFrame : Nat} {policy : ReadPolicy}

@[simp] theorem stream_arrive (r : FrameReader) (bytes : Bytes) : (r.arrive bytes).stream = r.stream ++ bytes := by
  rw [FrameReader.stream, FrameReader.stream, List.append_assoc]
  rfl

theorem serve_request (ask : Request → Reply) (hwell : request.WellFormed)
    (hfits : (encodeResponse (Server.responseOf request (ask request))).length ≤ kMaxFrameSize) :
    Server.serve ask (encodeRequest request) =
      .ok (Wire.framing.frame (encodeResponse (Server.responseOf request (ask request)))) := by
  rw [Server.serve, Server.handle_of_decoded ask (decodeRequest_encodeRequest hwell), ok_bind, writeFrame_eq hfits]
  rfl

theorem result_responseOf (hplain : store.Plain) (request : Request) (s : σ) :
    Client.result request (Server.responseOf request (store.call request s).1) = (store.call request s).1 := by
  cases hop : request.op with
  | get =>
    rw [Client.result, Server.responseOf, Store.call, hop]
    rcases store.get request.key s with ⟨f | value, s'⟩
    · have hcode : f.status.code ≠ .ok := by
        intro hok
        have hbad := f.bad
        rw [Status.isOk, hok] at hbad
        cases hbad
      have hstatus : toStatus ⟨f.status.code, f.status.message⟩ = f.status :=
        toStatus_of_status fun hok => absurd hok (by rw [f.bad]; exact Bool.false_ne_true)
      simp [f.bad, hcode, hstatus]
    · rfl
  | put =>
    rw [Client.result, Server.responseOf_of_write (by rw [hop]; decide), Store.call, hop]
    rw [toStatus_of_status (hplain.put _ _ _)]
  | delete =>
    rw [Client.result, Server.responseOf_of_write (by rw [hop]; decide), Store.call, hop]
    rw [toStatus_of_status (hplain.remove _ _)]

theorem Inv.of_conn (h : Inv store net s) (hstate : net'.store = (store.directly s net'.handled).2)
    (hothers : ∀ j, j ≠ i → net'.conns j = net.conns j ∧ mine j net'.called = mine j net.called ∧
      mine j (store.directly s net'.handled).1 = mine j (store.directly s net.handled).1 ∧
      mine j net'.returned = mine j net.returned) (hup : Up (net'.conns i))
    (hphase : Phase (mine i net'.called) (mine i (store.directly s net'.handled).1) (mine i net'.returned)
      (net'.conns i)) : Inv store net' s := by
  refine ⟨hstate, fun j => ?_, fun j => ?_⟩
  · by_cases hj : j = i
    · rwa [hj]
    · rw [(hothers j hj).1]
      exact h.up j
  · by_cases hj : j = i
    · rwa [hj]
    · obtain ⟨hconn, hcalled, hhandled, hreturned⟩ := hothers j hj
      rw [hconn, hcalled, hhandled, hreturned]
      exact h.phase j

theorem setConn_self (c : Connection) : (net.setConn i c).conns i = c := Function.update_self ..

theorem setConn_of_ne {j : Fin n} (h : j ≠ i) (c : Connection) : (net.setConn i c).conns j = net.conns j :=
  Function.update_of_ne h ..

theorem Inv.setConn (h : Inv store net s) {c : Connection} (hup : Up c)
    (hphase : Phase (mine i net.called) (mine i (store.directly s net.handled).1) (mine i net.returned) c) :
    Inv store (net.setConn i c) s := by
  refine Inv.of_conn h (i := i) h.state ?_ ?_ ?_
  · exact fun j hj => ⟨setConn_of_ne hj c, rfl, rfl, rfl⟩
  · rwa [setConn_self]
  · rwa [setConn_self]

section Readers

variable {called : List Request} {handled returned : List (Request × Reply)} {c : Connection} {r : FrameReader}

theorem Up.setServer (h : Up c) (hkeeps : c.server.Keeps r) : Up { c with server := r } :=
  ⟨hkeeps.ended.trans h.server, by rw [hkeeps.maxFrame]; exact h.serverCap, h.client, h.clientCap, h.serving⟩

theorem Up.setClient (h : Up c) (hkeeps : c.client.Keeps r) : Up { c with client := r } :=
  ⟨h.server, h.serverCap, hkeeps.ended.trans h.client, hkeeps.maxFrame.trans h.clientCap, h.serving⟩

theorem Phase.congr {c' : Connection} (h : Phase called handled returned c) (hpending : c'.pending = c.pending)
    (hserver : c'.server.stream = c.server.stream) (hclient : c'.client.stream = c.client.stream) :
    Phase called handled returned c' := by
  cases h with
  | idle pending server client answers order =>
    exact .idle (hpending.trans pending) (hserver.trans server) (hclient.trans client) answers order
  | asked pending wellFormed fits server client answers order =>
    exact .asked (hpending.trans pending) wellFormed fits (hserver.trans server) (hclient.trans client) answers order
  | answered pending fits rebuilt server client answers order =>
    exact .answered (hpending.trans pending) fits rebuilt (hserver.trans server) (hclient.trans client) answers order

end Readers

theorem Inv.serve_of_nothing (h : Inv store net s) (hcalm : Calm turns) (hstream : (net.conns i).server.stream = []) :
    Inv store (net.serve store i turns) s := by
  obtain ⟨r, hread, hkeeps, hnothing⟩ := FrameReader.readFrame_of_nothing hstream (h.up i).server hcalm
  rw [serve, Connection.serve_of_waiting hread]
  exact h.setConn ((h.up i).setServer hkeeps) ((h.phase i).congr rfl (hnothing.trans hstream.symm) rfl)

theorem handle_request (hwell : request.WellFormed) :
    net.handle store i (encodeRequest request) =
      { net with store := (store.call request net.store).2, handled := net.handled ++ [(i, request)] } := by
  rw [handle, Store.handle, decodeRequest_encodeRequest hwell]
  rfl

section

variable (hwell : request.WellFormed) {r : FrameReader} {turns' : List Turn}
    (hread : (net.conns i).server.readFrame turns = (some (.ok (.complete (encodeRequest request))), r, turns'))
include hwell hread

theorem handled_serve : (net.serve store i turns).handled = net.handled ++ [(i, request)] := by
  rw [serve]
  dsimp only
  rw [Connection.payload_serve hread, Option.elim_some, handle_request hwell]
  rfl

theorem serve_of_read
    (hfits : (encodeResponse (Server.responseOf request (store.call request net.store).1)).length ≤ kMaxFrameSize) :
    net.serve store i turns = Network.setConn { net with
      store := (store.call request net.store).2
      handled := net.handled ++ [(i, request)] } i { net.conns i with
        server := r
        client := (net.conns i).client.arrive (Wire.framing.frame
          (encodeResponse (Server.responseOf request (store.call request net.store).1))) } := by
  rw [serve, Connection.serve_of_frame hread (serve_request (store.ask net.store) hwell hfits)]
  dsimp only [Served.payload, Option.elim_some]
  rw [handle_request hwell]
  rfl

end

section

variable (h : Inv store net s) (hplain : store.Plain) (hcalm : Calm turns)
    (hwithin : Within store (net.serve store i turns) s)
include h hplain hcalm hwithin

theorem Inv.serve_of_request (hpending : (net.conns i).pending = some request) (hwell : request.WellFormed)
    (hfits : (encodeRequest request).length ≤ kMaxFrameSize)
    (hserver : (net.conns i).server.stream = Wire.framing.frame (encodeRequest request))
    (hclient : (net.conns i).client.stream = [])
    (hanswers : mine i net.returned = mine i (store.directly s net.handled).1)
    (horder : mine i net.called = (mine i (store.directly s net.handled).1).map Prod.fst ++ [request]) :
    Inv store (net.serve store i turns) s := by
  have hup := h.up i
  rcases FrameReader.readFrame_of_frame hserver hup.server (Nat.le_trans hfits hup.serverCap.1) hup.serverCap.2 hcalm with
    ⟨r, hread, hkeeps, hsame, _⟩ | ⟨r, turns', hread, hkeeps, hnothing⟩
  · rw [serve, Connection.serve_of_waiting hread]
    exact h.setConn (hup.setServer hkeeps) ((h.phase i).congr rfl hsame rfl)
  · set reply := (store.call request net.store).1 with hreply
    have hdirectly := store.directly_concat s net.handled i request
    rw [← h.state] at hdirectly
    have hresponse : (encodeResponse (Server.responseOf request reply)).length ≤ kMaxFrameSize := by
      apply hwithin.responses (i, request, reply)
      rw [handled_serve hwell hread, hdirectly]
      exact List.mem_append_right _ (List.mem_singleton.mpr rfl)
    rw [serve_of_read hwell hread hresponse]
    refine Inv.of_conn h (i := i) ?_ ?_ ?_ ?_
    · exact (congrArg Prod.snd hdirectly).symm
    · intro j hj
      refine ⟨setConn_of_ne hj _, rfl, ?_, rfl⟩
      have hmine := mine_concat_of_ne (store.directly s net.handled).1 (request, reply) (Ne.symm hj)
      exact (congrArg (fun d => mine j d.1) hdirectly).trans hmine
    · rw [setConn_self]
      have hup' := hup.setServer hkeeps
      exact ⟨hup'.server, hup'.serverCap, hup'.client, hup'.clientCap, hup'.serving⟩
    · rw [setConn_self]
      have hmine := mine_concat_self (i := i) (store.directly s net.handled).1 (request, reply)
      have hhandled : mine i (store.directly s (net.handled ++ [(i, request)])).1 =
          mine i (store.directly s net.handled).1 ++ [(request, reply)] :=
        (congrArg (fun d => mine i d.1) hdirectly).trans hmine
      refine .answered hpending hresponse (result_responseOf hplain request net.store) hnothing ?_ ?_ ?_
      · rw [stream_arrive, hclient, List.nil_append]
      · exact hhandled.trans (by rw [← hanswers]; rfl)
      · refine horder.trans (Eq.symm ?_)
        exact (congrArg (List.map Prod.fst) hhandled).trans List.map_append

theorem Inv.serve : Inv store (net.serve store i turns) s := by
  cases h.phase i with
  | idle pending server | answered pending fits rebuilt server =>
    exact h.serve_of_nothing hcalm server
  | asked pending wellFormed fits server client answers order =>
    exact h.serve_of_request hplain hcalm hwithin pending wellFormed fits server client answers order

end

theorem Inv.await (h : Inv store net s) (hcalm : Calm turns)
    (hpending : (net.conns i).pending = some request) (hawait : net.await i request turns = some net') :
    Inv store net' s := by
  have hup := h.up i
  cases h.phase i with
  | idle pending => cases hpending.symm.trans pending
  | asked pending wellFormed fits server client =>
    obtain ⟨r, hread, hkeeps, hnothing⟩ := FrameReader.readFrame_of_nothing client hup.client hcalm
    rw [Network.await, Connection.await_of_waiting hread] at hawait
    cases hawait
    exact h.setConn (hup.setClient hkeeps) ((h.phase i).congr rfl rfl (hnothing.trans client.symm))
  | @answered request' reply pending fits rebuilt server client answers order =>
    cases hpending.symm.trans pending
    have hcap : (net.conns i).client.maxFrame < 2 ^ 32 := by
      rw [hup.clientCap]
      decide
    rcases FrameReader.readFrame_of_frame client hup.client (by rwa [hup.clientCap]) hcap hcalm with
      ⟨r, hread, hkeeps, hsame, _⟩ | ⟨r, turns', hread, hkeeps, hnothing⟩
    · rw [Network.await, Connection.await_of_waiting hread] at hawait
      cases hawait
      exact h.setConn (hup.setClient hkeeps) ((h.phase i).congr rfl rfl hsame)
    · rw [Network.await, Connection.await_of_response hread, rebuilt] at hawait
      cases hawait
      refine Inv.of_conn h (i := i) h.state ?_ ?_ ?_
      · exact fun j hj => ⟨setConn_of_ne hj _, rfl, rfl, mine_concat_of_ne _ _ (Ne.symm hj)⟩
      · have hup' := hup.setClient hkeeps
        dsimp only
        rw [finishCall, setConn_self]
        exact ⟨hup'.server, hup'.serverCap, hup'.client, hup'.clientCap, hup'.serving⟩
      · dsimp only
        rw [finishCall, setConn_self]
        refine .idle rfl server hnothing ?_ order
        exact (mine_concat_self ..).trans answers.symm

theorem Inv.call (h : Inv store net s) {call : Client.Called} (hidle : (net.conns i).pending = none)
    (hfits : (encodeRequest call.request).length ≤ kMaxFrameSize) :
    Inv store { net.setConn i { net.conns i with
        server := (net.conns i).server.arrive (Wire.framing.frame (encodeRequest call.request))
        pending := some call.request } with called := net.called ++ [(i, call.request)] } s := by
  have hup := h.up i
  cases h.phase i with
  | asked pending | answered pending => cases hidle.symm.trans pending
  | idle pending server client answers order =>
    refine Inv.of_conn h (i := i) h.state ?_ ?_ ?_
    · exact fun j hj => ⟨setConn_of_ne hj _, mine_concat_of_ne _ _ (Ne.symm hj), rfl, rfl⟩
    · dsimp only
      rw [setConn_self]
      exact ⟨hup.server, hup.serverCap, hup.client, hup.clientCap, hup.serving⟩
    · dsimp only
      rw [setConn_self]
      refine .asked rfl (Client.Called.wellFormed hfits) hfits ?_ client answers ?_
      · rw [stream_arrive, server, List.nil_append]
      · rw [mine_concat_self, order]
        rfl

theorem Inv.step (h : Inv store net s) (hplain : store.Plain) {a : Action n} (hcalm : a.Calm)
    (hwithin : Within store net' s) (hstep : net.step store a = some net') : Inv store net' s := by
  cases a with
  | call i call =>
    have hlast (hcalled : net'.called = net.called ++ [(i, call.request)]) :
        (encodeRequest call.request).length ≤ kMaxFrameSize := by
      apply hwithin.requests (i, call.request)
      rw [hcalled]
      exact List.mem_append_right _ (List.mem_singleton.mpr rfl)
    rw [Network.step] at hstep
    split_ifs at hstep with hidle
    cases hframe : writeFrame (encodeRequest call.request) with
    | error =>
      rw [hframe] at hstep
      cases hstep
      cases hframe.symm.trans (writeFrame_eq (hlast rfl))
    | ok =>
      rw [hframe] at hstep
      cases hstep
      have hfits := hlast rfl
      cases hframe.symm.trans (writeFrame_eq hfits)
      exact h.call (by simpa using hidle) hfits
  | serve =>
    rw [Network.step] at hstep
    split_ifs at hstep
    cases hstep
    exact h.serve hplain hcalm hwithin
  | await =>
    obtain ⟨request, hpending, hawait⟩ := Option.bind_eq_some_iff.mp hstep
    exact h.await hcalm hpending hawait

theorem handle_grows (payload : Bytes) : net.called <+: (net.handle store i payload).called ∧
    ((net.handle store i payload).handled = net.handled ∨
      ∃ e, (net.handle store i payload).handled = net.handled ++ [e]) := by
  rw [handle, Store.handle]
  cases decodeRequest payload with
  | ok => exact ⟨List.prefix_refl _, .inr ⟨_, rfl⟩⟩
  | error => exact ⟨List.prefix_refl _, .inl (List.append_nil _)⟩

theorem step_grows (hstep : net.step store a = some net') :
    net.called <+: net'.called ∧ (net'.handled = net.handled ∨ ∃ e, net'.handled = net.handled ++ [e]) := by
  cases a with
  | call =>
    rw [Network.step] at hstep
    split_ifs at hstep
    split at hstep
    · cases hstep
      exact ⟨List.prefix_append .., .inl rfl⟩
    · cases hstep
      exact ⟨List.prefix_append .., .inl rfl⟩
  | serve =>
    rw [Network.step] at hstep
    split_ifs at hstep
    cases hstep
    rw [serve]
    dsimp only [setConn]
    cases Served.payload _ with
    | none => exact ⟨List.prefix_refl _, .inl rfl⟩
    | some payload => exact handle_grows payload
  | await =>
    obtain ⟨request, hpending, hawait⟩ := Option.bind_eq_some_iff.mp hstep
    obtain ⟨⟨awaited, c⟩, _, rfl⟩ := Option.map_eq_some_iff.mp hawait
    cases awaited with
    | waiting | answered | failed => exact ⟨List.prefix_refl _, .inl rfl⟩

theorem Within.before (h : Within store net' s) (hstep : net.step store a = some net') :
    Within store net s := by
  obtain ⟨hcalled, hhandled⟩ := step_grows hstep
  refine ⟨fun e he => h.requests e (hcalled.mem he), fun e he => h.responses e ?_⟩
  rcases hhandled with hsame | ⟨⟨j, request⟩, hmore⟩
  · rwa [hsame]
  · rw [hmore, store.directly_concat]
    exact List.mem_append_left _ he

theorem Inv.start (maxFrame : Nat) (policy : ReadPolicy) (s : σ) (hcap : kMaxFrameSize ≤ maxFrame)
    (hlimit : maxFrame < 2 ^ 32) : Inv store (Network.start maxFrame policy s : Network n σ) s :=
  ⟨rfl, fun _ => ⟨rfl, ⟨hcap, hlimit⟩, rfl, rfl, rfl⟩, fun _ => .idle rfl rfl rfl rfl rfl⟩

theorem Reachable.inv (h : Reachable store maxFrame policy s net)
    (hcap : kMaxFrameSize ≤ maxFrame) (hlimit : maxFrame < 2 ^ 32) (hplain : store.Plain)
    (hwithin : Within store net s) : Inv store net s := by
  induction h with
  | start => exact .start maxFrame policy s hcap hlimit
  | step before calm taken ih => exact (ih (hwithin.before taken)).step hplain calm hwithin taken

theorem Inv.await_returns (h : Inv store net s) (hcalm : Calm turns)
    (hpending : (net.conns i).pending = some request) (hhandled : (net.conns i).server.stream = [])
    (hreceives : (net.conns i).client.sock.incoming.length ≤ receives turns) :
    ∃ net', net.step store (.await i turns) = some net' ∧ (net'.conns i).pending = none := by
  have hup := h.up i
  cases h.phase i with
  | idle pending => cases hpending.symm.trans pending
  | @asked request' pending wellFormed fits server =>
    have hempty : (Wire.framing.frame (encodeRequest request')).length = 0 := by rw [← server, hhandled, List.length_nil]
    rw [Framing.length_frame] at hempty
    exact absurd (Nat.eq_zero_of_add_eq_zero_right hempty) (by decide)
  | @answered request' reply pending fits rebuilt server client =>
    cases hpending.symm.trans pending
    have hcap : (net.conns i).client.maxFrame < 2 ^ 32 := by
      rw [hup.clientCap]
      decide
    rcases FrameReader.readFrame_of_frame client hup.client (by rwa [hup.clientCap]) hcap hcalm with
      ⟨r, hread, hkeeps, hsame, hfew⟩ | ⟨r, turns', hread, hkeeps, hnothing⟩
    · omega
    · refine ⟨net.finishCall i request reply { net.conns i with client := r, pending := none }, ?_, ?_⟩
      · rw [Network.step, hpending, Option.bind_some, Network.await, Connection.await_of_response hread, rebuilt]
        rfl
      · rw [finishCall, setConn_self]

theorem Inv.returns (h : Inv store net s) (hplain : store.Plain) (hwithin : Within store net s)
    (hpending : (net.conns i).pending = some request)
    (hfits : (encodeResponse (Server.responseOf request (store.call request net.store).1)).length ≤ kMaxFrameSize)
    (hcalm : Calm turns) (hreceives : (net.conns i).server.sock.incoming.length ≤ receives turns) :
    ∃ net₁, net.step store (.serve i turns) = some net₁ ∧ ∀ turns', Calm turns' →
      (net₁.conns i).client.sock.incoming.length ≤ receives turns' →
      ∃ net₂, net₁.step store (.await i turns') = some net₂ ∧ (net₂.conns i).pending = none := by
  have hup := h.up i
  have hstep : net.step store (.serve i turns) = some (net.serve store i turns) := by
    rw [Network.step, hup.serving]
    rfl
  refine ⟨_, hstep, fun turns' hcalm' hreceives' => ?_⟩
  cases h.phase i with
  | idle pending => cases hpending.symm.trans pending
  | answered pending fits rebuilt server =>
    obtain ⟨r, hread, hkeeps, hnothing⟩ := FrameReader.readFrame_of_nothing server hup.server hcalm
    have hconn : (net.serve store i turns).conns i = { net.conns i with server := r } := by
      rw [Network.serve, Connection.serve_of_waiting hread]
      exact setConn_self _
    have hpending' : ((net.serve store i turns).conns i).pending = some request := by rwa [hconn]
    exact (h.serve_of_nothing hcalm server).await_returns hcalm' hpending' (by rw [hconn]; exact hnothing) hreceives'
  | @asked request' pending wellFormed fits server client =>
    cases hpending.symm.trans pending
    rcases FrameReader.readFrame_of_frame server hup.server (Nat.le_trans fits hup.serverCap.1) hup.serverCap.2 hcalm with
      ⟨r, hread, hkeeps, hsame, hfew⟩ | ⟨r, turns', hread, hkeeps, hnothing⟩
    · omega
    · have hnet := serve_of_read wellFormed hread hfits
      have hwithin' : Within store (net.serve store i turns) s := by
        rw [hnet]
        refine ⟨hwithin.requests, fun e he => ?_⟩
        have he : e ∈ (store.directly s (net.handled ++ [(i, request)])).1 := he
        rw [store.directly_concat] at he
        rcases List.mem_append.mp he with hold | hnew
        · exact hwithin.responses e hold
        · rw [List.mem_singleton.mp hnew, ← h.state]
          exact hfits
      have hpending' : ((net.serve store i turns).conns i).pending = some request := by
        rw [hnet, setConn_self]
        exact hpending
      refine (h.serve hplain hcalm hwithin').await_returns hcalm' hpending' ?_ hreceives'
      rw [hnet, setConn_self]
      exact hnothing

/-- A network hop is transparent: what a client's calls return is what the store itself returns
to the same calls, made in the order in which the server handled them; each connection's calls are
handled in the order in which they were made; and every call returns once the bytes under way are
delivered. -/
theorem Reachable.hop_transparent {maxFrame : Nat} {policy : ReadPolicy} (hcap : kMaxFrameSize ≤ maxFrame)
    (hlimit : maxFrame < 2 ^ 32) (hplain : store.Plain) (h : Reachable store maxFrame policy s net)
    (hwithin : Within store net s) :
    net.store = (store.directly s net.handled).2 ∧
    (∀ i, mine i net.returned <+: mine i (store.directly s net.handled).1 ∧
      (mine i (store.directly s net.handled).1).map Prod.fst <+: mine i net.called ∧
      ((net.conns i).pending = none → (mine i net.returned).map Prod.fst = mine i net.called)) ∧
    ∀ i request, (net.conns i).pending = some request →
      (encodeResponse (Server.responseOf request (store.call request net.store).1)).length ≤ kMaxFrameSize →
      ∀ turns, Calm turns → (net.conns i).server.sock.incoming.length ≤ receives turns →
      ∃ net₁, net.step store (.serve i turns) = some net₁ ∧ ∀ turns', Calm turns' →
        (net₁.conns i).client.sock.incoming.length ≤ receives turns' →
        ∃ net₂, net₁.step store (.await i turns') = some net₂ ∧ (net₂.conns i).pending = none := by
  have hinv := h.inv hcap hlimit hplain hwithin
  refine ⟨hinv.state, fun i => ?_, fun i request hpending hfits turns hcalm hreceives =>
    hinv.returns hplain hwithin hpending hfits hcalm hreceives⟩
  cases hinv.phase i with
  | idle pending server client answers order =>
    rw [answers, order]
    exact ⟨List.prefix_refl _, List.prefix_refl _, fun _ => rfl⟩
  | asked pending wellFormed fits server client answers order =>
    rw [answers, order]
    exact ⟨List.prefix_refl _, List.prefix_append .., fun hidle => nomatch hidle.symm.trans pending⟩
  | answered pending fits rebuilt server client answers order =>
    rw [order, answers]
    exact ⟨List.prefix_append .., List.prefix_refl _, fun hidle => nomatch hidle.symm.trans pending⟩

theorem Reachable.of_steps (h : Reachable store maxFrame policy s net)
    {actions : List (Action n)} (hcalm : ∀ a ∈ actions, a.Calm)
    (hrun : actions.foldlM (fun net a => net.step store a) net = some net') :
    Reachable store maxFrame policy s net' := by
  induction actions generalizing net with
  | nil =>
    cases hrun
    exact h
  | cons a actions ih =>
    rw [List.foldlM_cons] at hrun
    obtain ⟨net₁, hstep, hrest⟩ := Option.bind_eq_some_iff.mp hrun
    obtain ⟨ha, hactions⟩ := List.forall_mem_cons.mp hcalm
    exact ih (h.step ha hstep) hactions hrest

end Network

def MemoryStore.asStore : Store MemoryStore where
  put key value store := store.put key value
  get key store :=
    match store.map.lookup key with
    | none => (.error ⟨.notFound (text "no such key: " ++ key), rfl⟩, store)
    | some value => (.ok value, store)
  remove key store := store.remove key

theorem MemoryStore.plain_asStore : MemoryStore.asStore.Plain where
  put key value store := by
    dsimp only [asStore]
    unfold MemoryStore.put
    split
    · exact nofun
    · exact fun _ => rfl
  remove key store _ := rfl

namespace Network

/-- A put and a get through one connection, with the request and the answer cut into chunks. -/
theorem hop_transparent_put_get :
    ∃ net : Network 1 MemoryStore, Reachable MemoryStore.asStore kMaxFrameSize ⟨100, true⟩ ⟨∅⟩ net ∧
      net.returned = [(0, ⟨.put, text "a", text "x"⟩, (.ok, none)), (0, ⟨.get, text "a", []⟩, (.ok, some (text "x")))] ∧
      mine 0 net.returned <+: mine 0 (MemoryStore.asStore.directly ⟨∅⟩ net.handled).1 := by
  let actions : List (Action 1) := [.call 0 (.put (text "a") (text "x")), .serve 0 [.receive 2, .timeout false],
    .serve 0 [.receive 0, .receive 9], .await 0 [.receive 9], .call 0 (.get (text "a")), .serve 0 [.receive 9],
    .await 0 [.receive 1], .await 0 [.receive 9]]
  have hcalm : ∀ a ∈ actions, a.Calm := by simp [actions, Action.Calm, Calm, Turn.calm]
  have hrun : ∃ net ∈ actions.foldlM (fun (net : Network 1 MemoryStore) a => net.step MemoryStore.asStore a)
      (start kMaxFrameSize ⟨100, true⟩ ⟨∅⟩),
      (∀ e ∈ net.called, (encodeRequest e.2).length ≤ kMaxFrameSize) ∧
      (∀ e ∈ (MemoryStore.asStore.directly ⟨∅⟩ net.handled).1,
        (encodeResponse (Server.responseOf e.2.1 e.2.2)).length ≤ kMaxFrameSize) ∧
      net.returned = [(0, ⟨.put, text "a", text "x"⟩, (.ok, none)),
        (0, ⟨.get, text "a", []⟩, (.ok, some (text "x")))] := by decide +kernel
  obtain ⟨net, hnet, hrequests, hresponses, hreturned⟩ := hrun
  have hreach : Reachable MemoryStore.asStore kMaxFrameSize ⟨100, true⟩ ⟨∅⟩ net := .of_steps .start hcalm hnet
  have htransparent := hreach.hop_transparent (Nat.le_refl _) (by decide) MemoryStore.plain_asStore ⟨hrequests, hresponses⟩
  exact ⟨net, hreach, hreturned, (htransparent.2.1 0).1⟩

end Network

end KVStore
