import KVStore.FrameReader

namespace KVStore.Protocol.FrameReader

open Lib Checked

/-- How things stand after some calls: the next one can be made, the last one still waits,
the peer has closed, or a call failed. -/
inductive Standing
  | more
  | waiting
  | closed
  | failed (fault : Fault Failure)
  deriving DecidableEq

/-- Successive calls of `read_frame`, also after one that was cancelled, with the payloads
that they hand over. -/
def readFrames : Nat → FrameReader → List Turn → List Bytes × Standing × FrameReader
  | 0, r, _ => ([], .more, r)
  | calls + 1, r, turns =>
    match r.readFrame turns with
    | (none, r, _) => ([], .waiting, r)
    | (some (.error e), r, _) => ([], .failed e, r)
    | (some (.ok .peerClosed), r, _) => ([], .closed, r)
    | (some (.ok .cancelled), r, turns) => readFrames calls r turns
    | (some (.ok (.complete payload)), r, turns) =>
      let (payloads, rest) := readFrames calls r turns
      (payload :: payloads, rest)

/-- A reader on a connection over which the peer sends these bytes and then closes. -/
def onStream (maxFrame : Nat) (policy : ReadPolicy) (stream : Bytes) : FrameReader :=
  ⟨⟨stream, true, 0, []⟩, maxFrame, policy, []⟩

/-- The frames of these payloads are still to be read, and then the tail. -/
structure Holds (r : FrameReader) (payloads : List Bytes) (tail : Bytes) : Prop where
  stream : r.stream = payloads.flatMap Wire.framing.frame ++ tail
  ended : r.sock.ended = true
  cap : r.maxFrame < 2 ^ 32
  sizes : ∀ payload ∈ payloads, payload.length ≤ r.maxFrame
  broken : ∀ payload rest, Wire.framing.next r.maxFrame tail ≠ .frame payload rest

/-- What successive calls hand over and where they ask for more. -/
structure Delivers (r : FrameReader) (payloads : List Bytes) (tail : Bytes) (delivered : List Bytes)
    (standing : Standing) (r' : FrameReader) : Prop where
  inOrder : delivered <+: payloads
  closed : standing = .closed → delivered = payloads ∧ tail = []
  failed : ∀ e, standing = .failed e → delivered = payloads ∧ tail ≠ [] ∧ ∃ f, e = .status f ∧ f.IsCorruption
  asks : ∃ more, r'.sock.asks = r.sock.asks ++ more ∧ ∀ ask ∈ more, ask.1 + r.buf.length <
    r.sock.received + ((payloads.flatMap Wire.framing.frame).length + Wire.framing.need r.maxFrame tail)

variable {r r' : FrameReader} {payloads : List Bytes} {tail payload : Bytes} {turns turns' : List Turn}

theorem Holds.next_nil (h : Holds r [] tail) : r.next = Wire.framing.next r.maxFrame tail := by
  rw [FrameReader.next, h.stream]
  rfl

theorem Holds.next_cons (h : Holds r (payload :: payloads) tail) :
    r.next = .frame payload (payloads.flatMap Wire.framing.frame ++ tail) := by
  rw [FrameReader.next, h.stream, List.flatMap_cons, List.append_assoc]
  exact Framing.next_frame (h.sizes payload List.mem_cons_self) h.cap _

theorem Holds.need_cons (h : Holds r (payload :: payloads) tail) :
    r.need = (Wire.framing.frame payload).length := by
  rw [need, h.stream, List.flatMap_cons, List.append_assoc, Framing.length_frame]
  exact Framing.need_frame (h.sizes payload List.mem_cons_self) h.cap _

theorem Holds.need_le (h : Holds r payloads tail) :
    r.need ≤ (payloads.flatMap Wire.framing.frame).length + Wire.framing.need r.maxFrame tail := by
  cases payloads with
  | nil =>
    rw [need, h.stream]
    exact Nat.le_add_left ..
  | cons =>
    rw [h.need_cons, List.flatMap_cons, List.length_append]
    omega

theorem Holds.advance {wanted : Nat} (h : Holds r payloads tail) (ha : Advances wanted r r' turns turns') :
    Holds r' payloads tail where
  stream := ha.stream.trans h.stream
  ended := ha.ended.trans h.ended
  cap := by rw [ha.maxFrame]; exact h.cap
  sizes := by rw [ha.maxFrame]; exact h.sizes
  broken := by rw [ha.maxFrame]; exact h.broken

theorem Holds.deliver (h : Holds r (payload :: payloads) tail) (ha : Advances r.need r r' turns turns')
    (hrest : r'.buf.drop r.need ++ r'.sock.incoming = payloads.flatMap Wire.framing.frame ++ tail) :
    Holds { r' with buf := r'.buf.drop r.need } payloads tail where
  stream := hrest
  ended := ha.ended.trans h.ended
  cap := by
    rw [ha.maxFrame]
    exact h.cap
  sizes := by
    rw [ha.maxFrame]
    exact fun payload' hmem => h.sizes payload' (List.mem_cons_of_mem _ hmem)
  broken := by
    rw [ha.maxFrame]
    exact h.broken

variable {delivered : List Bytes} {standing : Standing} {r₁ : FrameReader}

theorem Holds.stops (h : Holds r payloads tail) (ha : Advances r.need r r' turns turns')
    (hinOrder : delivered <+: payloads) (hclosed : standing = .closed → delivered = payloads ∧ tail = [])
    (hfailed : ∀ e, standing = .failed e → delivered = payloads ∧ tail ≠ [] ∧ ∃ f, e = .status f ∧ f.IsCorruption) :
    Delivers r payloads tail delivered standing r' := by
  refine ⟨hinOrder, hclosed, hfailed, ?_⟩
  obtain ⟨more, hasks, hmore⟩ := ha.asks
  have hneed := h.need_le
  refine ⟨more, hasks, fun ask hask => ?_⟩
  have := hmore ask hask
  omega

theorem Delivers.advance (h : Holds r payloads tail) (ha : Advances r.need r r₁ turns turns')
    (hd : Delivers r₁ payloads tail delivered standing r') : Delivers r payloads tail delivered standing r' := by
  refine ⟨hd.inOrder, hd.closed, hd.failed, ?_⟩
  obtain ⟨more, hasks, hmore⟩ := ha.asks
  obtain ⟨more', hasks', hmore'⟩ := hd.asks
  have hneed := h.need_le
  have hposition := ha.position
  rw [ha.maxFrame] at hmore'
  refine ⟨more ++ more', by rw [hasks', hasks, List.append_assoc], fun ask hask => ?_⟩
  rcases List.mem_append.mp hask with hask | hask
  · have := hmore ask hask
    omega
  · have := hmore' ask hask
    omega

theorem Delivers.deliver (h : Holds r (payload :: payloads) tail) (ha : Advances r.need r r₁ turns turns')
    (henough : r.need ≤ r₁.buf.length)
    (hd : Delivers { r₁ with buf := r₁.buf.drop r.need } payloads tail delivered standing r') :
    Delivers r (payload :: payloads) tail (payload :: delivered) standing r' := by
  refine ⟨(List.prefix_cons_inj payload).mpr hd.inOrder, fun hclosed => ?_, fun e he => ?_, ?_⟩
  · obtain ⟨hall, htail⟩ := hd.closed hclosed
    exact ⟨by rw [hall], htail⟩
  · obtain ⟨hall, hrest⟩ := hd.failed e he
    exact ⟨by rw [hall], hrest⟩
  · obtain ⟨more, hasks, hmore⟩ := ha.asks
    obtain ⟨more', hasks', hmore'⟩ := hd.asks
    have hneed := h.need_cons
    have hposition := ha.position
    simp only [List.length_drop, ha.maxFrame] at hmore'
    refine ⟨more ++ more', by rw [hasks', hasks, List.append_assoc], fun ask hask => ?_⟩
    rw [List.flatMap_cons, List.length_append, ← hneed]
    rcases List.mem_append.mp hask with hask | hask
    · have := hmore ask hask
      omega
    · have := hmore' ask hask
      omega

theorem Holds.eq_nil (h : Holds r payloads tail) (hnext : ∀ payload rest, r.next ≠ .frame payload rest) :
    payloads = [] := by
  cases payloads with
  | nil => rfl
  | cons => exact absurd h.next_cons (hnext _ _)

theorem Holds.of_frame {rest : Bytes} (h : Holds r payloads tail) (hnext : r.next = .frame payload rest) :
    ∃ others, payloads = payload :: others ∧ rest = others.flatMap Wire.framing.frame ++ tail := by
  cases payloads with
  | nil => exact absurd (h.next_nil.symm.trans hnext) (h.broken _ _)
  | cons payload' others =>
    cases h.next_cons.symm.trans hnext
    exact ⟨others, rfl, rfl⟩

theorem delivers_readFrames (calls : Nat) (h : Holds r payloads tail) (hturns : ∀ f, .failure f ∉ turns) :
    Delivers r payloads tail (r.readFrames calls turns).1 (r.readFrames calls turns).2.1
      (r.readFrames calls turns).2.2 := by
  induction calls generalizing r payloads turns with
  | zero => exact h.stops (.refl _ _ turns) List.nil_prefix nofun nofun
  | succ calls ih =>
    have hread := reads_readFrame r turns
    rw [readFrames]
    generalize r.readFrame turns = reading at hread
    obtain ⟨result, r₁, turns₁⟩ := reading
    cases hread with
    | complete advances enough next =>
      obtain ⟨others, rfl, hrest⟩ := h.of_frame next
      exact (ih (h.deliver advances hrest) fun f hf => hturns f (advances.suffix.mem hf)).deliver h advances enough
    | peerClosed advances ended next =>
      obtain rfl := h.eq_nil (by rw [next]; exact fun _ _ => nofun)
      have htail : tail = [] := Framing.next_eq_boundary_iff.mp (h.next_nil.symm.trans next)
      exact h.stops advances List.nil_prefix (fun _ => ⟨rfl, htail⟩) nofun
    | cancelled advances =>
      exact (ih (h.advance advances) fun f hf => hturns f (advances.suffix.mem hf)).advance h advances
    | @corrupt _ _ f advances corruption broken =>
      obtain rfl := h.eq_nil (by
        rcases broken with hnext | ⟨_, hnext⟩ <;> rw [hnext] <;> exact fun _ _ => nofun)
      have htail : tail ≠ [] := by
        rintro rfl
        have hboundary := h.next_nil.trans (Framing.next_eq_boundary_iff.mpr rfl)
        rcases broken with hnext | ⟨_, hnext⟩ <;> rw [hboundary] at hnext <;> cases hnext
      refine h.stops advances List.nil_prefix nofun ?_
      rintro e he
      cases he
      exact ⟨rfl, htail, f, rfl, corruption⟩
    | failed advances failure => exact absurd failure (hturns _)
    | waiting advances => exact h.stops advances List.nil_prefix nofun nofun

theorem ends_readFrames (calls : Nat) (h : Holds r payloads tail) (hturns : ∀ f, .failure f ∉ turns)
    (hreceives : r.sock.incoming.length < receives turns) (hcalls : payloads.length + stops turns < calls) :
    (r.readFrames calls turns).2.1 = .closed ∨ ∃ e, (r.readFrames calls turns).2.1 = .failed e := by
  induction calls generalizing r payloads turns with
  | zero => exact absurd hcalls (Nat.not_lt_zero _)
  | succ calls ih =>
    have hread := reads_readFrame r turns
    rw [readFrames]
    generalize r.readFrame turns = reading at hread
    obtain ⟨result, r₁, turns₁⟩ := reading
    dsimp only at hread
    have hpaid {r₁ : FrameReader} {turns₁ : List Turn} (hpays : Pays r r₁ turns turns₁) :
        r₁.sock.incoming.length < receives turns₁ := by
      rw [Pays] at hpays
      omega
    cases hread with
    | complete advances enough next pays =>
      obtain ⟨others, rfl, hrest⟩ := h.of_frame next
      have hstops : stops turns₁ ≤ stops turns := advances.suffix.sublist.countP_le
      rw [List.length_cons] at hcalls
      exact ih (h.deliver advances hrest) (fun f hf => hturns f (advances.suffix.mem hf)) (hpaid pays) (by omega)
    | peerClosed => exact .inl rfl
    | cancelled advances stop pays =>
      exact ih (h.advance advances) (fun f hf => hturns f (advances.suffix.mem hf)) (hpaid (pays (.inl h.ended)))
        (by omega)
    | corrupt => exact .inr ⟨_, rfl⟩
    | failed => exact .inr ⟨_, rfl⟩
    | waiting advances pays =>
      have := hpaid (pays (.inl h.ended))
      exact absurd this (Nat.not_lt_zero _)

/-- The payloads come out as they went in, however the stream is cut into chunks and however
often a wait is broken off; the end is clean exactly at a frame boundary; and once a length
above the cap has arrived nothing more is asked for. -/
theorem read_frames_deliver {maxFrame : Nat} (hcap : maxFrame < 2 ^ 32) (policy : ReadPolicy) {payloads : List Bytes}
    (hsizes : ∀ payload ∈ payloads, payload.length ≤ maxFrame) {tail : Bytes}
    (hbroken : ∀ payload rest, Wire.framing.next maxFrame tail ≠ .frame payload rest) {turns : List Turn}
    (hturns : ∀ f, .failure f ∉ turns) (calls : Nat) :
    let stream := payloads.flatMap Wire.framing.frame ++ tail
    let (delivered, standing, r) := (onStream maxFrame policy stream).readFrames calls turns
    delivered <+: payloads ∧
    (standing = .closed → delivered = payloads ∧ tail = []) ∧
    (∀ e, standing = .failed e → delivered = payloads ∧ tail ≠ [] ∧ ∃ f, e = .status f ∧ f.IsCorruption) ∧
    (stream.length < receives turns → payloads.length + stops turns < calls →
      delivered = payloads ∧ (standing = .closed ∨ ∃ e, standing = .failed e)) ∧
    (Wire.framing.next maxFrame tail = .oversized → ∀ ask ∈ r.sock.asks,
      ask.1 < (payloads.flatMap Wire.framing.frame).length + kLengthPrefixSize) := by
  intro stream
  have hholds : Holds (onStream maxFrame policy stream) payloads tail := ⟨rfl, rfl, hcap, hsizes, hbroken⟩
  have hd := delivers_readFrames calls hholds hturns
  have hends := ends_readFrames calls hholds hturns
  generalize (onStream maxFrame policy stream).readFrames calls turns = run at hd hends ⊢
  obtain ⟨delivered, standing, r⟩ := run
  refine ⟨hd.inOrder, hd.closed, hd.failed, fun hreceives hcalls => ?_, fun hoversized ask hask => ?_⟩
  · have hended := hends hreceives hcalls
    refine ⟨?_, hended⟩
    rcases hended with hclosed | ⟨e, hfailed⟩
    · exact (hd.closed hclosed).1
    · exact (hd.failed e hfailed).1
  · obtain ⟨more, hasks, hmore⟩ := hd.asks
    dsimp only [onStream] at hasks
    rw [List.nil_append] at hasks
    have hlt := hmore ask (hasks ▸ hask)
    rw [onStream, Framing.need_of_oversized hoversized, List.length_nil, Nat.zero_add, Nat.add_zero] at hlt
    exact hlt

/-- Two payloads cut into single bytes, with a cancelled call before the first. -/
theorem read_frames_deliver_two :
    let r := onStream kMaxFrameSize ⟨100, true⟩ ([[7], [8, 9]].flatMap Wire.framing.frame ++ [])
    let turns := Turn.timeout true :: List.replicate 12 (Turn.receive 0)
    (r.readFrames 4 turns).1 = [[7], [8, 9]] ∧ (r.readFrames 4 turns).2.1 = .closed := by
  have hdeliver := read_frames_deliver (show kMaxFrameSize < 2 ^ 32 by decide) ⟨100, true⟩
    (show ∀ payload ∈ [[7], [8, 9]], payload.length ≤ kMaxFrameSize by decide)
    (show ∀ payload rest, Wire.framing.next kMaxFrameSize [] ≠ .frame payload rest from fun _ _ => nofun)
    (show ∀ f, Turn.failure f ∉ Turn.timeout true :: List.replicate 12 (Turn.receive 0) by simp) 4
  obtain ⟨_, _, hfailed, hends, _⟩ := hdeliver
  obtain ⟨hall, hclosed | ⟨e, he⟩⟩ := hends (by decide) (by decide)
  · exact ⟨hall, hclosed⟩
  · exact absurd rfl (hfailed e he).2.1

/-- The receive that brings a length above the cap also asks for bytes of the payload behind it,
and what it brings of them stands in the buffer when the frame is refused. -/
theorem payload_of_oversized_frame_requested :
    let tail : Bytes := [255, 255, 255, 255, 7]
    let (_, standing, r) := (onStream kMaxFrameSize {} tail).readFrames 1 [.receive 4]
    (Wire.framing.next kMaxFrameSize tail matches .oversized) ∧ (standing matches .failed _) ∧
      (∃ ask ∈ r.sock.asks, kLengthPrefixSize < ask.1 + ask.2) ∧ r.buf = tail := by
  decide +kernel

end KVStore.Protocol.FrameReader
