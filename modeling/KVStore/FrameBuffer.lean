import KVStore.FrameReader

namespace KVStore.Protocol.FrameReader

/-- The size `fill_to` gives the buffer before a receive. -/
def grown (wanted : Nat) (r : FrameReader) : Nat := r.buf.length + max (wanted - r.buf.length) kReadChunk

/-- The sizes in one round of `fill_to`: the buffer is grown before a receive, also one that blocks
or fails, and shrunk back to what has arrived. -/
def roundSizes (wanted : Nat) (r : FrameReader) (turn : Turn) : List Nat :=
  match turn with
  | .timeout _ => []
  | .failure _ => [r.grown wanted, r.buf.length]
  | .receive size =>
    if (r.sock.recvSome (max (wanted - r.buf.length) kReadChunk) size).isNone then [r.grown wanted]
    else [r.grown wanted, (r.fillRound wanted turn).2.buf.length]

/-- The sizes the buffer is given during a `fill_to`. -/
def fillSizes (wanted : Nat) (r : FrameReader) : List Turn → List Nat
  | [] => if wanted ≤ r.buf.length then [] else [r.grown wanted]
  | turn :: turns =>
    if wanted ≤ r.buf.length then []
    else r.roundSizes wanted turn ++
      match r.fillRound wanted turn with
      | (some _, _) => []
      | (none, r) => fillSizes wanted r turns

def payloadSizes (r : FrameReader) (turns : List Turn) : List Nat :=
  match Wire.readU32 r.buf 0 with
  | .error _ => []
  | .ok length => if r.maxFrame < length then [] else r.fillSizes (kLengthPrefixSize + length) turns

/-- The sizes during a `read_frame`, and the one that it leaves. -/
def readSizes (r : FrameReader) (turns : List Turn) : List Nat :=
  r.fillSizes kLengthPrefixSize turns ++
    (match r.fillTo kLengthPrefixSize turns with
    | (some (.ok .filled), r, turns) => r.payloadSizes turns
    | _ => []) ++ [(r.readFrame turns).2.1.buf.length]

/-- The readers that calls of `read_frame` lead to, whatever their outcomes, with the sizes the
buffer has had. The peer may do anything to the stream between the calls. -/
inductive Used (maxFrame : Nat) : FrameReader → List Nat → Prop
  | opened (sock : Socket) (policy : ReadPolicy) : Used maxFrame ⟨sock, maxFrame, policy, []⟩ [0]
  | stream {r : FrameReader} {sizes : List Nat} (used : Used maxFrame r sizes) (sock : Socket) :
      Used maxFrame { r with sock := sock } sizes
  | called {r : FrameReader} {sizes : List Nat} (used : Used maxFrame r sizes) (turns : List Turn) :
      Used maxFrame (r.readFrame turns).2.1 (sizes ++ r.readSizes turns)

variable {wanted limit length : Nat} {r r' : FrameReader} {turns turns' : List Turn}
    {filling : Option (Read Fill)} {reading : Option (Read FrameStatus)} {sizes : List Nat}

theorem grown_le (hwanted : wanted + kReadChunk ≤ limit) (hshort : ¬ wanted ≤ r.buf.length) :
    r.grown wanted ≤ limit := by
  rw [grown]
  omega

theorem length_fillRound_le (hwanted : wanted + kReadChunk ≤ limit) (hbuf : r.buf.length ≤ limit)
    (hshort : ¬ wanted ≤ r.buf.length) (turn : Turn) : (r.fillRound wanted turn).2.buf.length ≤ limit := by
  have hgrown := grown_le hwanted hshort
  cases turn with
  | timeout =>
    rw [fillRound]
    split_ifs
    · exact hbuf
    · exact hbuf
  | failure => exact hbuf
  | receive size =>
    rw [fillRound]
    cases hrecv : r.sock.recvSome (max (wanted - r.buf.length) kReadChunk) size with
    | none => exact hbuf
    | some received =>
      have hask := Socket.length_le_of_recvSome hrecv
      dsimp only
      split_ifs
      · exact hbuf
      · rw [grown] at hgrown
        rw [List.length_append]
        omega

theorem roundSizes_le (hwanted : wanted + kReadChunk ≤ limit) (hbuf : r.buf.length ≤ limit)
    (hshort : ¬ wanted ≤ r.buf.length) (turn : Turn) : ∀ n ∈ r.roundSizes wanted turn, n ≤ limit := by
  have hgrown := grown_le hwanted hshort
  have hleft := length_fillRound_le hwanted hbuf hshort turn
  cases turn with
  | timeout => simp [roundSizes]
  | failure => simpa [roundSizes] using ⟨hgrown, hbuf⟩
  | receive =>
    rw [roundSizes]
    split_ifs
    · simpa using hgrown
    · simpa using ⟨hgrown, hleft⟩

theorem fillSizes_le (hwanted : wanted + kReadChunk ≤ limit) (hbuf : r.buf.length ≤ limit) :
    (∀ n ∈ r.fillSizes wanted turns, n ≤ limit) ∧ (r.fillTo wanted turns).2.1.buf.length ≤ limit := by
  induction turns generalizing r with
  | nil =>
    unfold fillSizes fillTo
    split
    next => exact ⟨by simp, hbuf⟩
    next hshort => exact ⟨by simpa using grown_le hwanted hshort, hbuf⟩
  | cons turn turns ih =>
    unfold fillSizes fillTo
    split
    next => exact ⟨by simp, hbuf⟩
    next hshort =>
      have hsizes := roundSizes_le hwanted hbuf hshort turn
      have hleft := length_fillRound_le hwanted hbuf hshort turn
      generalize r.fillRound wanted turn = round at hleft ⊢
      obtain ⟨result, r'⟩ := round
      cases result with
      | some => exact ⟨by simpa using hsizes, hleft⟩
      | none => exact ⟨List.forall_mem_append.mpr ⟨hsizes, (ih hleft).1⟩, (ih hleft).2⟩

theorem length_readPayload_le (hwanted : kLengthPrefixSize + length + kReadChunk ≤ limit)
    (hbuf : r.buf.length ≤ limit) : (r.readPayload length turns).2.1.buf.length ≤ limit := by
  have hleft := (@fillSizes_le _ _ _ turns hwanted hbuf).2
  unfold readPayload
  generalize r.fillTo (kLengthPrefixSize + length) turns = filling at hleft
  obtain ⟨_ | _ | _ | _ | _, r', turns'⟩ := filling
  case filled => exact Nat.le_trans (List.drop_sublist ..).length_le hleft
  all_goals exact hleft

theorem payloadSizes_le (hlimit : kLengthPrefixSize + r.maxFrame + kReadChunk ≤ limit)
    (hbuf : r.buf.length ≤ limit) : ∀ n ∈ r.payloadSizes turns, n ≤ limit := by
  unfold payloadSizes
  split
  next => simp
  next length _ =>
    split
    next => simp
    next => exact (fillSizes_le (by omega) hbuf).1

theorem Fills.maxFrame (h : Fills wanted r turns filling r' turns') : r'.maxFrame = r.maxFrame := by
  cases h with
  | filled advances | peerClosed advances | cancelled advances | failed advances | waiting advances =>
    exact advances.maxFrame

theorem Reads.maxFrame (h : Reads r turns reading r' turns') : r'.maxFrame = r.maxFrame := by
  cases h with
  | complete advances | peerClosed advances | cancelled advances | corrupt advances | failed advances
  | waiting advances => exact advances.maxFrame

theorem readSizes_le (hlimit : kLengthPrefixSize + r.maxFrame + kReadChunk ≤ limit)
    (hbuf : r.buf.length ≤ limit) : ∀ n ∈ r.readSizes turns, n ≤ limit := by
  have hwanted : kLengthPrefixSize + kReadChunk ≤ limit := by omega
  obtain ⟨hsizes, hleft⟩ := @fillSizes_le _ _ _ turns hwanted hbuf
  have hkept := (fills_fillTo kLengthPrefixSize r turns).maxFrame
  unfold readSizes readFrame
  generalize r.fillTo kLengthPrefixSize turns = filling at hleft hkept
  obtain ⟨result, r', turns'⟩ := filling
  dsimp only at hleft hkept
  rw [← hkept] at hlimit
  simp only [List.forall_mem_append, List.forall_mem_singleton]
  obtain _ | _ | _ | _ | _ := result
  case some.ok.filled =>
    refine ⟨⟨hsizes, payloadSizes_le hlimit hleft⟩, ?_⟩
    dsimp only
    split
    next => exact hleft
    next =>
      split
      next => exact hleft
      next => exact length_readPayload_le (by omega) hleft
  case some.ok.peerClosed =>
    refine ⟨⟨hsizes, by simp⟩, ?_⟩
    dsimp only
    split <;> exact hleft
  all_goals exact ⟨⟨hsizes, by simp⟩, hleft⟩

/-- A peer cannot make the reader hold more than one frame and a page. -/
theorem Used.buffer_bounded {maxFrame : Nat} (h : Used maxFrame r sizes) :
    r.buf.length ∈ sizes ∧ ∀ n ∈ sizes, n ≤ kLengthPrefixSize + maxFrame + kReadChunk := by
  have hkept : r.maxFrame = maxFrame := by
    induction h with
    | opened sock policy => rfl
    | stream used sock ih => exact ih
    | called used turns ih => exact (reads_readFrame ..).maxFrame.trans ih
  induction h with
  | opened sock policy => simp
  | stream used sock ih => exact ih hkept
  | called used turns ih =>
    rw [(reads_readFrame ..).maxFrame] at hkept
    obtain ⟨hleft, hsizes⟩ := ih hkept
    refine ⟨by simp [readSizes], ?_⟩
    intro n hn
    rcases List.mem_append.mp hn with hn | hn
    · exact hsizes n hn
    · exact readSizes_le (by rw [hkept]) (hsizes _ hleft) n hn

/-- A reader behind a peer that announces one byte and then sends nothing. -/
def starved : FrameReader where
  sock := ⟨Wire.putU32 1, false, 0, []⟩
  maxFrame := 1
  policy := {}
  buf := []

theorem Used.buffer_bounded_starved :
    [0] ++ starved.readSizes [.receive 3, .receive 0] = [0, 4096, 4, 4100, 4100, 4] ∧
      ∀ n ∈ [0] ++ starved.readSizes [.receive 3, .receive 0], n ≤ kLengthPrefixSize + 1 + kReadChunk :=
  ⟨by decide, (Used.buffer_bounded ((Used.opened ..).called _)).2⟩

end KVStore.Protocol.FrameReader
