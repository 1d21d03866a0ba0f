import KVStore.Protocol
import KVStore.Lib.Framing

namespace KVStore

open Lib Checked

def Wire.framing : Framing Byte where
  width := Protocol.kLengthPrefixSize
  limit := 2 ^ 32
  put := putU32
  get bytes := LittleEndian.get bytes.reverse
  width_pos := by decide
  length_put := length_putU32
  get_put n h := by
    rw [putU32, List.reverse_reverse]
    exact LittleEndian.get_put h

namespace Protocol

def kReadChunk : Nat := 4096

structure ReadPolicy where
  pollTimeoutMs : Int := 0
  /-- Whether a `cancelled` flag is given. -/
  flagged : Bool := false

/-- What happens when the reader turns to the socket: a poll times out, with the flag
raised or not by then; a receive returns with so many bytes and one more, or with what
there is; the poll or the receive fails. -/
inductive Turn
  | timeout (stop : Bool)
  | receive (size : Nat)
  | failure (f : Failure)

/-- The receiving side of a socket, with the receives made so far: the offset in the stream
and how many bytes were asked for. -/
structure Socket where
  incoming : Bytes
  /-- Whether the peer has closed its side behind those bytes. -/
  ended : Bool
  received : Nat
  asks : List (Nat × Nat)

/-- The receive blocks while there is nothing to receive. -/
def Socket.recvSome (sock : Socket) (ask size : Nat) : Option (Bytes × Socket) :=
  if sock.incoming = [] ∧ sock.ended = false then none
  else
    let got := sock.incoming.take (min ask (size + 1))
    some (got, { sock with
      incoming := sock.incoming.drop (min ask (size + 1))
      received := sock.received + got.length
      asks := sock.asks ++ [(sock.received, ask)] })

structure Socket.Receives (sock : Socket) (ask : Nat) (got : Bytes) (sock' : Socket) : Prop where
  incoming : sock.incoming = got ++ sock'.incoming
  ended : sock'.ended = sock.ended
  received : sock'.received = sock.received + got.length
  asks : sock'.asks = sock.asks ++ [(sock.received, ask)]
  nothing : got = [] → sock.ended = true ∧ sock.incoming = []

theorem Socket.receives_of_recvSome {sock sock' : Socket} {ask size : Nat} {got : Bytes} (hask : 0 < ask)
    (h : sock.recvSome ask size = some (got, sock')) : sock.Receives ask got sock' := by
  unfold recvSome at h
  split_ifs at h with hblocked
  cases h
  refine ⟨(List.take_append_drop ..).symm, rfl, rfl, rfl, fun hnothing => ?_⟩
  have hincoming : sock.incoming = [] := by
    rcases List.take_eq_nil_iff.mp hnothing with hzero | hnil
    · omega
    · exact hnil
  exact ⟨by simpa [hincoming] using hblocked, hincoming⟩

theorem Socket.length_le_of_recvSome {sock sock' : Socket} {ask size : Nat} {got : Bytes}
    (h : sock.recvSome ask size = some (got, sock')) : got.length ≤ ask := by
  unfold recvSome at h
  split_ifs at h
  cases h
  rw [List.length_take]
  omega

theorem Socket.of_recvSome_none {sock : Socket} {ask size : Nat} (h : sock.recvSome ask size = none) :
    sock.incoming = [] ∧ sock.ended = false := by
  unfold recvSome at h
  split_ifs at h with hblocked
  exact hblocked

structure FrameReader where
  sock : Socket
  maxFrame : Nat
  policy : ReadPolicy
  buf : Bytes

inductive Fill
  | filled
  | peerClosed
  | cancelled

/-- `Complete` with the payload that it hands over. -/
inductive FrameStatus
  | complete (payload : Bytes)
  | peerClosed
  | cancelled

namespace FrameReader

/-- One round of the loop of `fill_to`, with its result if the loop ends there. -/
def fillRound (wanted : Nat) (r : FrameReader) : Turn → Option (Read Fill) × FrameReader
  | .timeout stop =>
    if 0 < r.policy.pollTimeoutMs ∧ r.policy.flagged = true ∧ stop = true then (some (pure .cancelled), r) else (none, r)
  | .failure f => (some (fail f), r)
  | .receive size =>
    match r.sock.recvSome (max (wanted - r.buf.length) kReadChunk) size with
    | none => (none, r)
    | some (got, sock) =>
      if got = [] then (some (pure .peerClosed), { r with sock := sock })
      else (none, { r with sock := sock, buf := r.buf ++ got })

/-- Without a result the reader still waits when the turns are used up. -/
def fillTo (wanted : Nat) (r : FrameReader) : List Turn → Option (Read Fill) × FrameReader × List Turn
  | [] => if wanted ≤ r.buf.length then (some (pure .filled), r, []) else (none, r, [])
  | turn :: turns =>
    if wanted ≤ r.buf.length then (some (pure .filled), r, turn :: turns)
    else
      match r.fillRound wanted turn with
      | (some result, r) => (some result, r, turns)
      | (none, r) => fillTo wanted r turns

def prefixCut (r : FrameReader) : Failure :=
  .corruption (text "connection ended after " ++ number r.buf.length ++ text " of " ++ number kLengthPrefixSize ++
    text " length-prefix bytes")

def frameTooLarge (r : FrameReader) (length : Nat) : Failure :=
  .corruption (text "frame length " ++ number length ++ text " exceeds the " ++ number r.maxFrame ++ text "-byte cap")

def payloadCut (r : FrameReader) (length : Nat) : Failure :=
  .corruption (text "connection ended after " ++ number (r.buf.length - kLengthPrefixSize) ++ text " of " ++
    number length ++ text " payload bytes")

def readPayload (r : FrameReader) (length : Nat) (turns : List Turn) :
    Option (Read FrameStatus) × FrameReader × List Turn :=
  match r.fillTo (kLengthPrefixSize + length) turns with
  | (none, r, turns) => (none, r, turns)
  | (some (.error e), r, turns) => (some (.error e), r, turns)
  | (some (.ok .cancelled), r, turns) => (some (pure .cancelled), r, turns)
  | (some (.ok .peerClosed), r, turns) => (some (fail (r.payloadCut length)), r, turns)
  | (some (.ok .filled), r, turns) =>
    (some (do return .complete (← slice r.buf kLengthPrefixSize length)),
      { r with buf := r.buf.drop (kLengthPrefixSize + length) }, turns)

def readFrame (r : FrameReader) (turns : List Turn) : Option (Read FrameStatus) × FrameReader × List Turn :=
  match r.fillTo kLengthPrefixSize turns with
  | (none, r, turns) => (none, r, turns)
  | (some (.error e), r, turns) => (some (.error e), r, turns)
  | (some (.ok .cancelled), r, turns) => (some (pure .cancelled), r, turns)
  | (some (.ok .peerClosed), r, turns) =>
    if r.buf = [] then (some (pure .peerClosed), r, turns) else (some (fail r.prefixCut), r, turns)
  | (some (.ok .filled), r, turns) =>
    match Wire.readU32 r.buf 0 with
    | .error e => (some (.error e), r, turns)
    | .ok length =>
      if r.maxFrame < length then (some (fail (r.frameTooLarge length)), r, turns)
      else r.readPayload length turns

def stream (r : FrameReader) : Bytes := r.buf ++ r.sock.incoming

end FrameReader

def Turn.IsReceive : Turn → Bool
  | .receive _ => true
  | _ => false

def receives (turns : List Turn) : Nat := turns.countP Turn.IsReceive

def stops (turns : List Turn) : Nat := turns.countP fun
  | .timeout stop => stop
  | _ => false

namespace FrameReader

/-- What the reader does while it waits for its buffer to grow. -/
structure Advances (wanted : Nat) (r r' : FrameReader) (turns turns' : List Turn) : Prop where
  maxFrame : r'.maxFrame = r.maxFrame
  policy : r'.policy = r.policy
  ended : r'.sock.ended = r.sock.ended
  stream : r'.stream = r.stream
  position : r'.sock.received + r.buf.length = r.sock.received + r'.buf.length
  -- every receive is made with less than `wanted` bytes in the buffer
  asks : ∃ more, r'.sock.asks = r.sock.asks ++ more ∧
    ∀ ask ∈ more, ask.1 + r.buf.length < r.sock.received + wanted
  suffix : turns' <:+ turns

def Ready (wanted : Nat) (r : FrameReader) : Prop := r.sock.ended = true ∨ wanted ≤ r.stream.length

def Pays (r r' : FrameReader) (turns turns' : List Turn) : Prop :=
  receives turns + r'.sock.incoming.length ≤ receives turns' + r.sock.incoming.length

inductive Fills (wanted : Nat) (r : FrameReader) (turns : List Turn) :
    Option (Read Fill) → FrameReader → List Turn → Prop
  | filled {r' : FrameReader} {turns' : List Turn} (advances : Advances wanted r r' turns turns')
      (enough : wanted ≤ r'.buf.length) (pays : r.Ready wanted → Pays r r' turns turns') :
      Fills wanted r turns (some (.ok .filled)) r' turns'
  | peerClosed {r' : FrameReader} {turns' : List Turn} (advances : Advances wanted r r' turns turns')
      (short : r'.buf.length < wanted) (ended : r.sock.ended = true) (nothing : r'.sock.incoming = []) :
      Fills wanted r turns (some (.ok .peerClosed)) r' turns'
  | cancelled {r' : FrameReader} {turns' : List Turn} (advances : Advances wanted r r' turns turns')
      (stop : stops turns' < stops turns) (pays : r.Ready wanted → Pays r r' turns turns') :
      Fills wanted r turns (some (.ok .cancelled)) r' turns'
  | failed {r' : FrameReader} {turns' : List Turn} {f : Failure} (advances : Advances wanted r r' turns turns')
      (failure : .failure f ∈ turns) : Fills wanted r turns (some (.error (.status f))) r' turns'
  | waiting {r' : FrameReader} (advances : Advances wanted r r' turns []) (short : r'.buf.length < wanted)
      (pays : r.Ready wanted → Pays r r' turns []) : Fills wanted r turns none r' []

variable {wanted : Nat} {r r₁ r' : FrameReader} {turns turns' : List Turn} {turn : Turn} {ask size : Nat}
    {got : Bytes} {sock : Socket} {result : Option (Read Fill)} {wanted' : Nat} {r₁ : FrameReader}
    {turns₁ : List Turn}

theorem Advances.refl (wanted : Nat) (r : FrameReader) (turns : List Turn) : Advances wanted r r turns turns where
  maxFrame := rfl
  policy := rfl
  ended := rfl
  stream := rfl
  position := rfl
  asks := ⟨[], (List.append_nil _).symm, by simp⟩
  suffix := List.suffix_refl _

theorem Advances.skip (h : Advances wanted r r' turns turns') (turn : Turn) :
    Advances wanted r r' (turn :: turns) turns' :=
  { h with suffix := h.suffix.trans (List.suffix_cons ..) }

theorem Advances.receive (hshort : r.buf.length < wanted) (hrecv : r.sock.Receives ask got sock)
    (h : Advances wanted { r with sock := sock, buf := r.buf ++ got } r' turns turns') :
    Advances wanted r r' (.receive size :: turns) turns' where
  maxFrame := h.maxFrame
  policy := h.policy
  ended := h.ended.trans hrecv.ended
  stream := by
    rw [h.stream, FrameReader.stream, FrameReader.stream, hrecv.incoming, List.append_assoc]
  position := by
    have hposition := h.position
    have hreceived := hrecv.received
    simp only [List.length_append] at hposition
    omega
  asks := by
    obtain ⟨more, hasks, hmore⟩ := h.asks
    have hreceived := hrecv.received
    simp only [List.length_append] at hmore
    refine ⟨(r.sock.received, ask) :: more, ?_, ?_⟩
    · rw [hasks, hrecv.asks, List.append_assoc]
      rfl
    · intro a ha
      rcases List.mem_cons.mp ha with rfl | ha
      · dsimp only
        omega
      · have := hmore a ha
        omega
  suffix := h.suffix.trans (List.suffix_cons ..)

theorem Pays.skip (h : Pays r r' turns turns') (hturn : turn.IsReceive = false) :
    Pays r r' (turn :: turns) turns' := by
  rw [Pays, receives, List.countP_cons_of_neg (by simp [hturn])]
  exact h

theorem Pays.receive (hrecv : r.sock.Receives ask got sock)
    (hgot : got ≠ []) (h : Pays { r with sock := sock, buf := r.buf ++ got } r' turns turns') :
    Pays r r' (.receive size :: turns) turns' := by
  have hlength := List.length_pos_iff.mpr hgot
  rw [Pays] at h ⊢
  rw [receives, List.countP_cons_of_pos rfl, hrecv.incoming, List.length_append]
  rw [receives] at h
  dsimp only at h
  omega

theorem Fills.skip (h : Fills wanted r turns result r' turns')
    (hturn : r.Ready wanted → turn.IsReceive = false) : Fills wanted r (turn :: turns) result r' turns' := by
  cases h with
  | filled advances enough pays =>
    exact .filled (advances.skip turn) enough fun hready => (pays hready).skip (hturn hready)
  | peerClosed advances short ended nothing => exact .peerClosed (advances.skip turn) short ended nothing
  | cancelled advances stop pays =>
    apply Fills.cancelled (advances.skip turn)
    · exact Nat.lt_of_lt_of_le stop ((List.sublist_cons_self ..).countP_le)
    · exact fun hready => (pays hready).skip (hturn hready)
  | failed advances failure => exact .failed (advances.skip turn) (List.mem_cons_of_mem _ failure)
  | waiting advances short pays =>
    exact .waiting (advances.skip turn) short fun hready => (pays hready).skip (hturn hready)

theorem Ready.receive {ask : Nat} (hrecv : r.sock.Receives ask got sock)
    (h : r.Ready wanted) : Ready wanted { r with sock := sock, buf := r.buf ++ got } := by
  rcases h with hended | hlength
  · exact .inl (hrecv.ended.trans hended)
  · apply Or.inr
    rw [FrameReader.stream, List.append_assoc, ← hrecv.incoming]
    exact hlength

theorem Fills.receive
    (hshort : r.buf.length < wanted) (hrecv : r.sock.Receives ask got sock) (hgot : got ≠ [])
    (h : Fills wanted { r with sock := sock, buf := r.buf ++ got } turns result r' turns') :
    Fills wanted r (.receive size :: turns) result r' turns' := by
  cases h with
  | filled advances enough pays =>
    exact .filled (advances.receive hshort hrecv) enough fun hready => (pays (hready.receive hrecv)).receive hrecv hgot
  | peerClosed advances short ended nothing =>
    exact .peerClosed (advances.receive hshort hrecv) short (hrecv.ended.symm.trans ended) nothing
  | cancelled advances stop pays =>
    exact .cancelled (advances.receive hshort hrecv) stop fun hready => (pays (hready.receive hrecv)).receive hrecv hgot
  | failed advances failure => exact .failed (advances.receive hshort hrecv) (List.mem_cons_of_mem _ failure)
  | waiting advances short pays =>
    exact .waiting (advances.receive hshort hrecv) short fun hready =>
      (pays (hready.receive hrecv)).receive hrecv hgot

theorem fills_fillTo (wanted : Nat) (r : FrameReader) (turns : List Turn) :
    Fills wanted r turns (r.fillTo wanted turns).1 (r.fillTo wanted turns).2.1 (r.fillTo wanted turns).2.2 := by
  induction turns generalizing r with
  | nil =>
    unfold fillTo
    split
    next henough => exact .filled (.refl ..) henough fun _ => Nat.le_refl _
    next hshort => exact .waiting (.refl ..) (Nat.not_le.mp hshort) fun _ => Nat.le_refl _
  | cons turn turns ih =>
    unfold fillTo
    split
    next henough => exact .filled (.refl ..) henough fun _ => Nat.le_refl _
    next hshort =>
      have hshort := Nat.not_le.mp hshort
      cases turn with
      | timeout =>
        rw [fillRound]
        split_ifs with hstop
        · obtain ⟨_, _, rfl⟩ := hstop
          apply Fills.cancelled ((Advances.refl ..).skip _)
          · simp [stops]
          · intro _
            simp [Pays, receives, Turn.IsReceive]
        · exact (ih r).skip fun _ => rfl
      | failure => exact .failed ((Advances.refl ..).skip _) List.mem_cons_self
      | receive size =>
        rw [fillRound]
        cases hrecv : r.sock.recvSome (max (wanted - r.buf.length) kReadChunk) size with
        | none =>
          obtain ⟨hnothing, hended⟩ := Socket.of_recvSome_none hrecv
          apply (ih r).skip
          rintro (hends | hlength)
          · rw [hended] at hends
            cases hends
          · rw [FrameReader.stream, hnothing, List.append_nil] at hlength
            omega
        | some received =>
          obtain ⟨got, sock⟩ := received
          have hrecv := Socket.receives_of_recvSome (by rw [kReadChunk]; omega) hrecv
          dsimp only
          split_ifs with hgot
          · obtain ⟨hended, hnothing⟩ := hrecv.nothing hgot
            subst hgot
            have hadvances : Advances wanted r { r with sock := sock, buf := r.buf ++ [] } (.receive size :: turns)
                turns := (Advances.refl ..).receive hshort hrecv
            rw [List.append_nil] at hadvances
            apply Fills.peerClosed hadvances hshort hended
            rw [← List.nil_append sock.incoming, ← hrecv.incoming, hnothing]
          · exact (ih _).receive hshort hrecv hgot

theorem Advances.mono (h : Advances wanted r r' turns turns') (hle : wanted ≤ wanted') :
    Advances wanted' r r' turns turns' :=
  { h with
    asks := by
      obtain ⟨more, hasks, hmore⟩ := h.asks
      exact ⟨more, hasks, fun ask hask => Nat.lt_of_lt_of_le (hmore ask hask) (Nat.add_le_add_left hle _)⟩ }

theorem Advances.trans (h : Advances wanted r r₁ turns turns₁)
    (h' : Advances wanted r₁ r' turns₁ turns') : Advances wanted r r' turns turns' where
  maxFrame := h'.maxFrame.trans h.maxFrame
  policy := h'.policy.trans h.policy
  ended := h'.ended.trans h.ended
  stream := h'.stream.trans h.stream
  position := by
    have := h.position
    have := h'.position
    omega
  asks := by
    obtain ⟨more, hasks, hmore⟩ := h.asks
    obtain ⟨more', hasks', hmore'⟩ := h'.asks
    refine ⟨more ++ more', by rw [hasks', hasks, List.append_assoc], ?_⟩
    intro ask hask
    rcases List.mem_append.mp hask with hask | hask
    · exact hmore ask hask
    · have hlt := hmore' ask hask
      have hposition := h.position
      omega
  suffix := h'.suffix.trans h.suffix

theorem Pays.trans (h : Pays r r₁ turns turns₁) (h' : Pays r₁ r' turns₁ turns') : Pays r r' turns turns' := by
  rw [Pays] at h h' ⊢
  omega

def next (r : FrameReader) : Framing.Next Byte := Wire.framing.next r.maxFrame r.stream

def need (r : FrameReader) : Nat := Wire.framing.need r.maxFrame r.stream

def Due (r : FrameReader) : Prop := r.sock.ended = true ∨ ∃ payload rest, r.next = .frame payload rest

/-- How a `read_frame` ends: by what the stream begins with, however it is cut into chunks. -/
inductive Reads (r : FrameReader) (turns : List Turn) : Option (Read FrameStatus) → FrameReader → List Turn → Prop
  | complete {r' : FrameReader} {turns' : List Turn} {payload : Bytes} (advances : Advances r.need r r' turns turns')
      (enough : r.need ≤ r'.buf.length) (next : r.next = .frame payload (r'.buf.drop r.need ++ r'.sock.incoming))
      (pays : Pays r r' turns turns') :
      Reads r turns (some (.ok (.complete payload))) { r' with buf := r'.buf.drop r.need } turns'
  | peerClosed {r' : FrameReader} {turns' : List Turn} (advances : Advances r.need r r' turns turns')
      (ended : r.sock.ended = true) (next : r.next = .boundary) : Reads r turns (some (.ok .peerClosed)) r' turns'
  | cancelled {r' : FrameReader} {turns' : List Turn} (advances : Advances r.need r r' turns turns')
      (stop : stops turns' < stops turns) (pays : r.Due → Pays r r' turns turns') :
      Reads r turns (some (.ok .cancelled)) r' turns'
  | corrupt {r' : FrameReader} {turns' : List Turn} {f : Failure} (advances : Advances r.need r r' turns turns')
      (corruption : f.IsCorruption) (broken : r.next = .oversized ∨ r.sock.ended = true ∧ r.next = .cut) :
      Reads r turns (some (.error (.status f))) r' turns'
  | failed {r' : FrameReader} {turns' : List Turn} {f : Failure} (advances : Advances r.need r r' turns turns')
      (failure : .failure f ∈ turns) : Reads r turns (some (.error (.status f))) r' turns'
  | waiting {r' : FrameReader} (advances : Advances r.need r r' turns [])
      (pays : r.Due → Pays r r' turns []) (more : (∃ payload rest, r.next = .frame payload rest) → r'.sock.incoming ≠ []) :
      Reads r turns none r' []

theorem Due.ready (h : r.Due) : r.Ready r.need := by
  rcases h with hended | ⟨payload, rest, hnext⟩
  · exact .inl hended
  · exact .inr (Framing.need_le_of_next_frame hnext)

theorem Ready.mono (h : r.Ready wanted) (hle : wanted' ≤ wanted) : r.Ready wanted' := by
  rcases h with hended | hlength
  · exact .inl hended
  · exact .inr (Nat.le_trans hle hlength)

theorem Ready.advance (h : r.Ready wanted) (hadvances : Advances wanted' r r' turns turns') :
    r'.Ready wanted := by
  rcases h with hended | hlength
  · exact .inl (hadvances.ended.trans hended)
  · exact .inr (by rwa [hadvances.stream])

theorem Advances.more (h : Advances r.need r r' turns turns') (hshort : r'.buf.length < r.need)
    (hframe : ∃ payload rest, r.next = .frame payload rest) : r'.sock.incoming ≠ [] := by
  obtain ⟨payload, rest, hnext⟩ := hframe
  have hneed : r.need ≤ r.stream.length := Framing.need_le_of_next_frame hnext
  intro hnothing
  rw [← h.stream, FrameReader.stream, hnothing, List.append_nil] at hneed
  omega

theorem width_le_need (r : FrameReader) : kLengthPrefixSize ≤ r.need := Framing.width_le_need (c := Wire.framing)

theorem take_stream (h : kLengthPrefixSize ≤ r.buf.length) :
    r.stream.take kLengthPrefixSize = r.buf.take kLengthPrefixSize := List.take_append_of_le_length h

theorem readU32_buf (h : kLengthPrefixSize ≤ r.buf.length) :
    Wire.readU32 r.buf 0 = .ok (Wire.framing.get (r.stream.take kLengthPrefixSize)) := by
  rw [take_stream h, Wire.readU32, slice_of_le (by rwa [Nat.zero_add])]
  rfl

theorem reads_readPayload {length : Nat}
    (advances : Advances r.need r r₁ turns turns₁) (pays : r.Due → Pays r r₁ turns turns₁)
    (hlength : kLengthPrefixSize ≤ r₁.buf.length)
    (hlength : length = Wire.framing.get (r.stream.take kLengthPrefixSize)) (hsize : length ≤ r.maxFrame) :
    Reads r turns (r₁.readPayload length turns₁).1 (r₁.readPayload length turns₁).2.1
      (r₁.readPayload length turns₁).2.2 := by
  have hstream : kLengthPrefixSize ≤ r.stream.length := by
    rw [← advances.stream, FrameReader.stream, List.length_append]
    omega
  have hneed : kLengthPrefixSize + length = r.need := by
    rw [hlength]
    exact (Framing.need_of_size (c := Wire.framing) hstream (hlength ▸ hsize)).symm
  have hfill := fills_fillTo (kLengthPrefixSize + length) r₁ turns₁
  unfold readPayload
  generalize r₁.fillTo (kLengthPrefixSize + length) turns₁ = filling at hfill
  obtain ⟨result, r₂, turns₂⟩ := filling
  dsimp only at hfill
  rw [hneed] at hfill
  cases hfill with
  | filled advances' enough pays' =>
    have hstream₂ : r.stream = r₂.buf ++ r₂.sock.incoming := (advances.trans advances').stream.symm
    have hwhole : kLengthPrefixSize + length ≤ r.stream.length := by
      rw [hneed, hstream₂, List.length_append]
      omega
    have hnext : r.next =
        .frame ((r.stream.drop kLengthPrefixSize).take length) (r.stream.drop (kLengthPrefixSize + length)) := by
      subst hlength
      exact Framing.next_of_whole (c := Wire.framing) hwhole hsize
    have hdue : r.Due := .inr ⟨_, _, hnext⟩
    have hpayload : (r.stream.drop kLengthPrefixSize).take length = (r₂.buf.drop kLengthPrefixSize).take length := by
      rw [hstream₂, List.drop_append_of_le_length (by omega), List.take_append_of_le_length]
      rw [List.length_drop]
      omega
    rw [hpayload, hneed, hstream₂, List.drop_append_of_le_length enough] at hnext
    dsimp only
    rw [slice_of_le (by omega), ok_bind, hneed]
    exact .complete (advances.trans advances') enough hnext ((pays hdue).trans (pays' (hdue.ready.advance advances)))
  | peerClosed advances' short ended nothing =>
    have hstream₂ : r.stream = r₂.buf := by
      rw [← (advances.trans advances').stream, FrameReader.stream, nothing, List.append_nil]
    have hcorruption : (r₂.payloadCut length).IsCorruption := rfl
    apply Reads.corrupt (advances.trans advances') hcorruption
    refine .inr ⟨advances.ended.symm.trans ended, ?_⟩
    rw [← hstream₂, ← hneed] at short
    subst hlength
    exact Framing.next_of_cut (c := Wire.framing) hstream hsize short
  | cancelled advances' stop pays' =>
    apply Reads.cancelled (advances.trans advances')
    · exact Nat.lt_of_lt_of_le stop (advances.suffix.sublist.countP_le)
    · intro hdue
      exact (pays hdue).trans (pays' (hdue.ready.advance advances))
  | failed advances' failure => exact .failed (advances.trans advances') (advances.suffix.mem failure)
  | waiting advances' short pays' =>
    apply Reads.waiting (advances.trans advances')
    · intro hdue
      exact (pays hdue).trans (pays' (hdue.ready.advance advances))
    · exact (advances.trans advances').more short

theorem reads_readFrame (r : FrameReader) (turns : List Turn) :
    Reads r turns (r.readFrame turns).1 (r.readFrame turns).2.1 (r.readFrame turns).2.2 := by
  have hfill := fills_fillTo kLengthPrefixSize r turns
  unfold readFrame
  generalize r.fillTo kLengthPrefixSize turns = filling at hfill
  obtain ⟨result, r₁, turns₁⟩ := filling
  have hready : r.Due → r.Ready kLengthPrefixSize := fun hdue => hdue.ready.mono r.width_le_need
  cases hfill with
  | filled advances enough pays =>
    have hread := readU32_buf enough
    rw [advances.stream] at hread
    dsimp only
    rw [hread]
    dsimp only
    split
    next hlarge =>
      have hcorruption : (r₁.frameTooLarge (Wire.framing.get (r.stream.take kLengthPrefixSize))).IsCorruption := rfl
      apply Reads.corrupt (advances.mono r.width_le_need) hcorruption
      apply Or.inl
      apply Framing.next_of_oversized
      · rw [← advances.stream, FrameReader.stream, List.length_append]
        exact Nat.le_trans enough (Nat.le_add_right ..)
      · rw [← advances.maxFrame]
        exact hlarge
    next hsize =>
      apply reads_readPayload (advances.mono r.width_le_need) (fun hdue => pays (hready hdue)) enough rfl
      rw [← advances.maxFrame]
      exact Nat.not_lt.mp hsize
  | peerClosed advances short ended nothing =>
    have hstream : r.stream = r₁.buf := by rw [← advances.stream, FrameReader.stream, nothing, List.append_nil]
    dsimp only
    split
    next hempty =>
      apply Reads.peerClosed (advances.mono r.width_le_need) ended
      exact Framing.next_eq_boundary_iff.mpr (hstream.trans hempty)
    next hne =>
      have hcorruption : r₁.prefixCut.IsCorruption := rfl
      apply Reads.corrupt (advances.mono r.width_le_need) hcorruption
      refine .inr ⟨ended, Framing.next_of_short ?_ ?_⟩
      · rwa [hstream]
      · rwa [hstream]
  | cancelled advances stop pays =>
    exact .cancelled (advances.mono r.width_le_need) stop fun hdue => pays (hready hdue)
  | failed advances failure => exact .failed (advances.mono r.width_le_need) failure
  | waiting advances short pays =>
    apply Reads.waiting (advances.mono r.width_le_need) (fun hdue => pays (hready hdue))
    exact (advances.mono r.width_le_need).more (Nat.lt_of_lt_of_le short r.width_le_need)

end FrameReader

end Protocol

end KVStore
