import KVStore.Network
import KVStore.Lib.FairRun

namespace KVStore

open Lib Checked Protocol

namespace Protocol.FrameReader

variable {r r' : FrameReader} {wanted : Nat} {turn : Turn} {turns' : List Turn}

/-- A turn that does not leave the reader waiting with nothing new: a receive of bytes that are
there or of the end, a failure, or a timeout with the flag up. -/
def Rouses (r : FrameReader) : Turn → Prop
  | .timeout stop => 0 < r.policy.pollTimeoutMs ∧ r.policy.flagged = true ∧ stop = true
  | .failure _ => True
  | .receive _ => ¬ (r.sock.incoming = [] ∧ r.sock.ended = false)

structure Grows (bound : Nat) (r r' : FrameReader) : Prop where
  more : r.buf.length < r'.buf.length
  short : r'.buf.length ≤ bound
  maxFrame : r'.maxFrame = r.maxFrame
  policy : r'.policy = r.policy

theorem fillTo_rouses {result : Option (Read Fill)} (hturn : r.Rouses turn)
    (h : r.fillTo wanted [turn] = (result, r', turns')) :
    result = none ∧ Grows wanted r r' ∧ turns' = [] ∨
      result = some (.ok .filled) ∧
        (r' = r ∧ turns' = [turn] ∨ turns' = [] ∧ r.buf.length < r'.buf.length ∧ wanted ≤ r'.buf.length ∧
          r'.maxFrame = r.maxFrame ∧ r'.policy = r.policy) ∨
      result = some (.ok .peerClosed) ∨ result = some (.ok .cancelled) ∨ ∃ e, result = some (.error e) := by
  unfold fillTo at h
  split at h
  next henough =>
    cases h
    exact .inr (.inl ⟨rfl, .inl ⟨rfl, rfl⟩⟩)
  next hshort =>
    cases turn with
    | timeout stop =>
      have hflag : 0 < r.policy.pollTimeoutMs ∧ r.policy.flagged = true ∧ stop = true := hturn
      rw [fillRound, if_pos hflag] at h
      cases h
      exact .inr (.inr (.inr (.inl rfl)))
    | failure =>
      cases h
      exact .inr (.inr (.inr (.inr ⟨_, rfl⟩)))
    | receive size =>
      rw [fillRound] at h
      cases hrecv : r.sock.recvSome (max (wanted - r.buf.length) kReadChunk) size with
      | none => exact absurd (Socket.of_recvSome_none hrecv) hturn
      | some received =>
        obtain ⟨got, sock⟩ := received
        rw [hrecv] at h
        dsimp only at h
        split_ifs at h with hgot
        · cases h
          exact .inr (.inr (.inl rfl))
        · have hmore : 0 < got.length := List.length_pos_iff.mpr hgot
          dsimp only [fillTo] at h
          split_ifs at h with hwanted
          · cases h
            refine .inr (.inl ⟨rfl, .inr ⟨rfl, ?_, hwanted, rfl, rfl⟩⟩)
            simpa using hmore
          · cases h
            refine .inl ⟨rfl, ⟨?_, Nat.le_of_lt (Nat.lt_of_not_le hwanted), rfl, rfl⟩, rfl⟩
            simpa using hmore

theorem Grows.mono {bound bound' : Nat} (h : Grows bound r r') (hle : bound ≤ bound') : Grows bound' r r' :=
  ⟨h.more, Nat.le_trans h.short hle, h.maxFrame, h.policy⟩

theorem readPayload_rouses {length : Nat} (hturn : r.Rouses turn)
    (h : r.readPayload length [turn] = (none, r', turns')) : Grows (kLengthPrefixSize + length) r r' := by
  unfold readPayload at h
  generalize hfill : r.fillTo (kLengthPrefixSize + length) [turn] = filled at h
  obtain ⟨result, r₁, turns₁⟩ := filled
  rcases fillTo_rouses hturn hfill with ⟨rfl, hgrows, _⟩ | ⟨rfl, _⟩ | rfl | rfl | ⟨e, rfl⟩
  · cases h
    exact hgrows
  all_goals cases h

theorem readFrame_rouses (hturn : r.Rouses turn) (h : r.readFrame [turn] = (none, r', turns')) :
    Grows (kLengthPrefixSize + r.maxFrame) r r' := by
  unfold readFrame at h
  generalize hfill : r.fillTo kLengthPrefixSize [turn] = filled at h
  obtain ⟨result, r₁, turns₁⟩ := filled
  rcases fillTo_rouses hturn hfill with ⟨rfl, hgrows, _⟩ | ⟨rfl, hfilled⟩ | rfl | rfl | ⟨e, rfl⟩
  · cases h
    exact hgrows.mono (Nat.le_add_right _ _)
  · dsimp only at h
    split at h
    next => cases h
    next length hlength =>
      split at h
      next => cases h
      next hcap =>
        have hle : length ≤ r₁.maxFrame := Nat.not_lt.mp hcap
        rcases hfilled with ⟨rfl, rfl⟩ | ⟨rfl, hmore, _, hmax, hpolicy⟩
        · exact (readPayload_rouses hturn h).mono (Nat.add_le_add_left hle _)
        · -- the turn went into the prefix, and the payload is not all there
          unfold readPayload fillTo at h
          split at h
          next _ _ _ hwait =>
            split at hwait
            next => cases hwait
            next hshort =>
              cases hwait
              cases h
              exact ⟨hmore, by omega, hmax, hpolicy⟩
          all_goals cases h
  · dsimp only at h
    split at h <;> cases h
  · cases h
  · cases h

end Protocol.FrameReader

namespace Server

structure Options where
  pollTimeoutMs : Int := 100
  maxFrame : Nat := kMaxFrameSize

/-- What a thread's next call meets: the bytes that have arrived by then and whether the peer
has closed its side behind them, how many bytes a receive hands over at most (one less), a failure
of the call, whether a connection waits to be accepted, what the store replies, and how many bytes
a send takes. A send that never returns has no result. -/
structure Moment where
  arrived : Bytes := []
  closes : Bool := false
  size : Nat := 0
  failure : Option Failure := none
  ready : Bool := false
  reply : Reply := (.ok, none)
  send : Option (Except Failure Nat) := none

/-- Where a connection's thread stands between two calls. -/
inductive Serving
  | head (r : FrameReader)
  | reading (r : FrameReader)
  | handling (r : FrameReader) (payload : Bytes)
  | sending (r : FrameReader) (rest : Bytes)
  | finished

def Serving.sends : Serving → Bool
  | .sending _ _ => true
  | _ => false

def Moment.deliver (m : Moment) (r : FrameReader) : FrameReader :=
  if m.closes then (r.arrive m.arrived).hangUp else r.arrive m.arrived

def Moment.turn (m : Moment) (stopping : Bool) (r : FrameReader) : Turn :=
  match m.failure with
  | some f => .failure f
  | none => if r.sock.incoming = [] ∧ r.sock.ended = false then .timeout stopping else .receive m.size

/-- `serve_connection`, up to the return of the thread's next call. -/
def Serving.step (stopping : Bool) (m : Moment) : Serving → Serving
  | .head r => if stopping then .finished else .reading r
  | .reading r =>
    match (m.deliver r).readFrame [m.turn stopping (m.deliver r)] with
    | (none, r, _) => .reading r
    | (some (.ok (.complete payload)), r, _) => .handling r payload
    | (some _, _, _) => .finished
  | .handling r payload =>
    match serve (fun _ => m.reply) payload with
    | .ok frame => .sending r frame
    | .error _ => .finished
  | .sending r rest =>
    match m.send with
    | none => .sending r rest
    | some (.error _) => .finished
    | some (.ok n) =>
      if n = 0 then .finished
      else if rest.length ≤ n then .head r
      else .sending r (rest.drop n)
  | .finished => .finished

def Serving.runs (stopping : Bool) (moments : Nat → Moment) (c : Serving) : Nat → Serving
  | 0 => c
  | k + 1 => (c.runs stopping moments k).step stopping (moments k)

def Serving.isFinished : Serving → Bool
  | .finished => true
  | _ => false

inductive Accepting
  | head
  | polling
  | accepting
  | finished
  deriving DecidableEq

structure Threads where
  stopping : Bool
  accept : Accepting
  conns : List Serving

inductive Thread
  | accept
  | conn (i : Nat)
  deriving DecidableEq

inductive Action
  | run (t : Thread) (m : Moment)
  | stop

namespace Threads

variable (opts : Options) (s : Threads)

def start : Threads := ⟨false, .head, []⟩

def newConnection : Serving := .head ⟨⟨[], false, 0, []⟩, opts.maxFrame, ⟨opts.pollTimeoutMs, true⟩, []⟩

/-- `accept_loop`, up to the return of its next call. A negative timeout waits for ever. -/
def stepAccept (m : Moment) : Threads :=
  match s.accept with
  | .head => { s with accept := if s.stopping then .finished else .polling }
  | .polling =>
    if m.failure.isSome then { s with accept := .finished }
    else if m.ready then { s with accept := if s.stopping then .finished else .accepting }
    else if opts.pollTimeoutMs < 0 then s
    else { s with accept := .head }
  | .accepting =>
    if m.failure.isSome then { s with accept := .head }
    else { s with accept := .head, conns := s.conns ++ [newConnection opts] }
  | .finished => s

def step : Action → Threads
  | .run .accept m => s.stepAccept opts m
  | .run (.conn i) m => { s with conns := s.conns.modify i (Serving.step s.stopping m) }
  | .stop => { s with stopping := true }

/-- `stop` has joined every thread: it returns. -/
def Stopped : Prop := s.accept = .finished ∧ ∀ c ∈ s.conns, c = .finished

inductive Reachable : Threads → Prop
  | start : Reachable .start
  | step {s : Threads} (before : Reachable s) (a : Action) : Reachable (s.step opts a)

def after (schedule : Nat → Thread × Moment) : Nat → Threads
  | 0 => s
  | k + 1 => (after schedule k).step opts (.run (schedule k).1 (schedule k).2)

end Threads

theorem length_serve {ask : Request → Reply} {payload frame : Bytes} (h : serve ask payload = .ok frame) :
    frame.length ≤ kLengthPrefixSize + kMaxFrameSize := by
  obtain ⟨response, _, h⟩ := bind_eq_ok.mp h
  by_cases hsize : (encodeResponse response).length ≤ kMaxFrameSize
  · rw [writeFrame_eq hsize] at h
    cases h
    rw [Framing.length_frame]
    exact Nat.add_le_add_left hsize _
  · rw [writeFrame, if_pos (Nat.lt_of_not_le hsize)] at h
    cases h

namespace Serving

variable {opts : Options} {c : Serving} {m : Moment} {r : FrameReader}

def WellFormed (opts : Options) : Serving → Prop
  | .head r | .reading r | .handling r _ | .sending r _ =>
    r.maxFrame = opts.maxFrame ∧ r.policy = ⟨opts.pollTimeoutMs, true⟩
  | .finished => True

/-- How many calls of its own a thread makes at most before it ends, once the flag is up. -/
def rank (opts : Options) : Serving → Nat
  | .finished => 0
  | .head _ => 1
  | .sending _ rest => rest.length + 2
  | .handling _ _ => kLengthPrefixSize + kMaxFrameSize + 3
  | .reading r => kLengthPrefixSize + kMaxFrameSize + 4 + (kLengthPrefixSize + opts.maxFrame - r.buf.length)

theorem keeps_deliver (m : Moment) (r : FrameReader) :
    (m.deliver r).buf = r.buf ∧ (m.deliver r).maxFrame = r.maxFrame ∧ (m.deliver r).policy = r.policy := by
  unfold Moment.deliver
  split <;> exact ⟨rfl, rfl, rfl⟩

theorem keeps_readFrame {r r' : FrameReader} {turns turns' : List Turn} {result : Option (Read FrameStatus)}
    (h : r.readFrame turns = (result, r', turns')) : r'.maxFrame = r.maxFrame ∧ r'.policy = r.policy := by
  have hread := FrameReader.reads_readFrame r turns
  rw [h] at hread
  cases hread with
  | complete advances | peerClosed advances | cancelled advances | corrupt advances | failed advances
  | waiting advances => exact ⟨advances.maxFrame, advances.policy⟩

theorem WellFormed.step (h : c.WellFormed opts) (stopping : Bool) (m : Moment) :
    (c.step stopping m).WellFormed opts := by
  cases c with
  | head =>
    rw [Serving.step]
    split
    · trivial
    · exact h
  | reading r =>
    obtain ⟨_, hmax, hpolicy⟩ := keeps_deliver m r
    rw [Serving.step]
    split
    next r' _ hread =>
      have hkeeps := keeps_readFrame hread
      exact ⟨(hkeeps.1.trans hmax).trans h.1, (hkeeps.2.trans hpolicy).trans h.2⟩
    next payload r' _ hread =>
      have hkeeps := keeps_readFrame hread
      exact ⟨(hkeeps.1.trans hmax).trans h.1, (hkeeps.2.trans hpolicy).trans h.2⟩
    next => trivial
  | handling =>
    rw [Serving.step]
    split
    · exact h
    · trivial
  | sending =>
    rw [Serving.step]
    split
    · exact h
    · trivial
    · split
      · trivial
      · split
        · exact h
        · exact h
  | finished => trivial

theorem rouses_turn (hpoll : 0 < r.policy.pollTimeoutMs) (hflag : r.policy.flagged = true) (m : Moment) :
    r.Rouses (m.turn true r) := by
  unfold Moment.turn
  split
  · trivial
  · split
    · exact ⟨hpoll, hflag, rfl⟩
    · assumption

theorem rank_reading (hpoll : 0 < opts.pollTimeoutMs) (h : (Serving.reading r).WellFormed opts) (m : Moment) :
    ((Serving.reading r).step true m).rank opts < (Serving.reading r).rank opts := by
  obtain ⟨hbuf, hmax, hpolicy⟩ := keeps_deliver m r
  have hrouses : (m.deliver r).Rouses (m.turn true (m.deliver r)) := by
    apply rouses_turn
    · rw [hpolicy, h.2]
      exact hpoll
    · rw [hpolicy, h.2]
  rw [Serving.step]
  split
  next r' _ hread =>
    have hgrows := FrameReader.readFrame_rouses hrouses hread
    have hmore := hgrows.more
    have hshort := hgrows.short
    rw [hbuf] at hmore
    rw [hmax, h.1] at hshort
    simp only [rank]
    omega
  next payload r' _ hread =>
    simp only [rank]
    omega
  next =>
    simp only [rank]
    omega

theorem rank_step (hpoll : 0 < opts.pollTimeoutMs) (h : c.WellFormed opts) (hsend : m.send ≠ none)
    (hc : c ≠ .finished) : (c.step true m).rank opts < c.rank opts := by
  cases c with
  | finished => exact absurd rfl hc
  | head => exact Nat.zero_lt_one
  | reading => exact rank_reading hpoll h m
  | handling =>
    rw [Serving.step]
    split
    next frame hframe =>
      have hlength := length_serve hframe
      simp only [rank]
      omega
    next => exact Nat.succ_pos _
  | sending =>
    rw [Serving.step]
    split
    next hnone => exact absurd hnone hsend
    next => exact Nat.succ_pos _
    next n _ =>
      split
      · exact Nat.succ_pos _
      next hn =>
        split
        · simp only [rank]
          omega
        · simp only [rank, List.length_drop]
          omega

theorem isFinished_iff : c.isFinished = true ↔ c = .finished := by
  cases c <;> simp [isFinished]

theorem runs_finished (hpoll : 0 < opts.pollTimeoutMs) (h : c.WellFormed opts) {moments : Nat → Moment}
    (hsends : ∀ k, (moments k).send ≠ none) : c.runs true moments (c.rank opts) = .finished := by
  have hwell (k : Nat) : (c.runs true moments k).WellFormed opts := by
    induction k with
    | zero => exact h
    | succ k ih => exact ih.step true (moments k)
  have hbound (k : Nat) : c.runs true moments k = .finished ∨
      (c.runs true moments k).rank opts + k ≤ c.rank opts := by
    induction k with
    | zero => exact .inr (Nat.le_refl _)
    | succ k ih =>
      by_cases hc : c.runs true moments k = .finished
      · left
        rw [runs, hc]
        rfl
      · right
        have hdrop := rank_step hpoll (hwell k) (hsends k) hc
        have hk := ih.resolve_left hc
        rw [runs]
        omega
  rcases hbound (c.rank opts) with hdone | hle
  · exact hdone
  · by_contra hc
    have hdrop := rank_step hpoll (hwell (c.rank opts)) (hsends (c.rank opts)) hc
    omega

end Serving

namespace Accepting

def rank : Accepting → Nat
  | .finished => 0
  | .head => 1
  | .polling => 2
  | .accepting => 3

end Accepting

namespace Threads

variable {opts : Options} {s : Threads} {m : Moment} {conns : List Serving} {i : Nat}
    {f : Serving → Serving}

def rank (opts : Options) (s : Threads) : Nat := s.accept.rank + (s.conns.map (Serving.rank opts)).sum

def unfinished (s : Threads) : Thread :=
  if s.accept = .finished then .conn (s.conns.findIdx fun c => !c.isFinished) else .accept

theorem sum_rank_modify {c : Serving} (hi : conns[i]? = some c) (hf : (f c).rank opts < c.rank opts) :
    ((conns.modify i f).map (Serving.rank opts)).sum < (conns.map (Serving.rank opts)).sum := by
  induction conns generalizing i with
  | nil => simp at hi
  | cons d conns ih =>
    cases i with
    | zero =>
      obtain rfl : d = c := by simpa using hi
      simpa using hf
    | succ =>
      have hlt := ih (by simpa using hi)
      simpa using hlt

theorem modify_of_fixed (hf : ∀ c, conns[i]? = some c → f c = c) : conns.modify i f = conns := by
  induction conns generalizing i with
  | nil => simp
  | cons d conns ih =>
    cases i with
    | zero => simp [hf d (by simp)]
    | succ => simp [ih fun c hc => hf c (by simpa using hc)]

theorem wellFormed_newConnection : (newConnection opts).WellFormed opts := ⟨rfl, rfl⟩

theorem Reachable.wellFormed (h : Reachable opts s) : ∀ c ∈ s.conns, c.WellFormed opts := by
  induction h with
  | start => exact fun c hc => absurd hc List.not_mem_nil
  | @step s before a ih =>
    cases a with
    | stop => exact ih
    | run t m =>
      cases t with
      | accept =>
        intro c hc
        change c ∈ (s.stepAccept opts m).conns at hc
        unfold stepAccept at hc
        split at hc
        · exact ih c hc
        · split_ifs at hc
          all_goals exact ih c hc
        · split at hc
          · exact ih c hc
          · rcases List.mem_append.mp hc with hc | hc
            · exact ih c hc
            · rw [List.mem_singleton.mp hc]
              exact wellFormed_newConnection
        · exact ih c hc
      | conn i =>
        intro c hc
        change c ∈ s.conns.modify i (Serving.step s.stopping m) at hc
        obtain ⟨j, hj⟩ := List.mem_iff_getElem?.mp hc
        rw [List.getElem?_modify] at hj
        obtain ⟨d, hd, rfl⟩ := Option.map_eq_some_iff.mp hj
        have hwell := ih d (List.mem_of_getElem? hd)
        split
        · exact hwell.step _ _
        · exact hwell

theorem rank_stepAccept (hpoll : 0 < opts.pollTimeoutMs) (hstop : s.stopping = true)
    (ha : s.accept ≠ .finished) (m : Moment) : (s.stepAccept opts m).rank opts < s.rank opts := by
  have hsigned : ¬ opts.pollTimeoutMs < 0 := by omega
  unfold stepAccept
  cases hc : s.accept with
  | finished => exact absurd hc ha
  | head => simp [rank, hc, hstop, Accepting.rank]
  | polling =>
    dsimp only
    split
    · simp [rank, hc, Accepting.rank]
    · split
      · simp [rank, hc, Accepting.rank]
      · simp [rank, hc, Accepting.rank]
  | accepting =>
    dsimp only
    split
    · simp [rank, hc, Accepting.rank]
    · simp [rank, hc, Accepting.rank, newConnection, Serving.rank]
      omega

theorem stopped_or_unfinished_ne (hi : ∀ c, s.conns[i]? = some c → c = .finished) :
    s.Stopped ∨ s.unfinished ≠ .conn i := by
  by_cases ha : s.accept = .finished
  · by_cases hall : ∀ c ∈ s.conns, c = .finished
    · exact .inl ⟨ha, hall⟩
    · right
      rw [unfinished, if_pos ha]
      rintro ⟨rfl⟩
      push Not at hall
      obtain ⟨c, hc, hne⟩ := hall
      have hlt := List.findIdx_lt_length_of_exists (p := fun c => !c.isFinished)
        ⟨c, hc, by simpa [Serving.isFinished_iff, ← Bool.not_eq_true] using hne⟩
      have hp := List.findIdx_getElem (w := hlt)
      rw [hi _ (List.getElem?_eq_getElem hlt)] at hp
      cases hp
  · right
    simp [unfinished, ha]

theorem step_descends (hpoll : 0 < opts.pollTimeoutMs) (hstop : s.stopping = true)
    (hwell : ∀ c ∈ s.conns, c.WellFormed opts) (hsend : m.send ≠ none) (t : Thread) :
    (s.step opts (.run t m)).rank opts < s.rank opts ∨
      s.step opts (.run t m) = s ∧ (s.Stopped ∨ s.unfinished ≠ t) := by
  cases t with
  | accept =>
    by_cases ha : s.accept = .finished
    · right
      refine ⟨?_, .inr ?_⟩
      · rw [step, stepAccept, ha]
      · simp [unfinished, ha]
    · exact .inl (rank_stepAccept hpoll hstop ha m)
  | conn i =>
    by_cases hi : ∀ c, s.conns[i]? = some c → c = .finished
    · right
      refine ⟨?_, stopped_or_unfinished_ne hi⟩
      rw [step, modify_of_fixed fun c hc => ?_]
      rw [hi c hc]
      rfl
    · left
      push Not at hi
      obtain ⟨c, hi, hc⟩ := hi
      have hdrop := sum_rank_modify hi
        (Serving.rank_step hpoll (hwell c (List.mem_of_getElem? hi)) hsend hc)
      simp only [step, rank, hstop]
      omega

theorem stopping_step (h : s.stopping = true) (a : Action) : (s.step opts a).stopping = true := by
  cases a with
  | stop => rfl
  | run t =>
    cases t with
    | conn => exact h
    | accept =>
      rw [step]
      unfold stepAccept
      split
      · exact h
      · split
        · exact h
        · split
          · exact h
          · split <;> exact h
      · split <;> exact h
      · exact h

theorem reachable_after (h : Reachable opts s) (schedule : Nat → Thread × Moment) (k : Nat) :
    Reachable opts (s.after opts schedule k) := by
  induction k with
  | zero => exact h
  | succ k ih => exact ih.step _

theorem stopping_after (h : s.stopping = true) (schedule : Nat → Thread × Moment) (k : Nat) :
    (s.after opts schedule k).stopping = true := by
  induction k with
  | zero => exact h
  | succ k ih => exact stopping_step ih _

/-- Once `stopping_` is set, with a poll timeout and peers that do not keep a send from returning,
every thread ends after a bounded number of its own calls, so that `stop` returns however the
threads are scheduled and whatever else the peers do. -/
theorem stop_returns (hpoll : 0 < opts.pollTimeoutMs) (hs : Reachable opts s) (hstop : s.stopping = true)
    {schedule : Nat → Thread × Moment} (hfair : ∀ t i, ∃ j, i ≤ j ∧ (schedule j).1 = t)
    (hsends : ∀ k, (schedule k).2.send ≠ none) :
    (∃ k, (s.after opts schedule k).Stopped) ∧
      ∀ c ∈ s.conns, ∀ moments : Nat → Moment, (∀ k, (moments k).send ≠ none) →
        c.runs true moments (c.rank opts) = .finished := by
  constructor
  · have hdescends : ∀ k, ¬ (s.after opts schedule k).Stopped →
        FairRun.Descends (· < ·) (fun k => (s.after opts schedule k).Stopped)
          (fun k => (s.after opts schedule k).rank opts) (fun k => (s.after opts schedule k).unfinished)
          (fun k t => (schedule k).1 = t) k := by
      intro k hrunning
      have hreach := reachable_after hs schedule k
      rcases step_descends hpoll (stopping_after hstop schedule k) hreach.wellFormed (hsends k) (schedule k).1 with
        hdrop | ⟨hsame, hother⟩
      · exact .inr (.inl hdrop)
      · refine .inr (.inr ⟨congrArg (rank opts) hsame, congrArg unfinished hsame, fun hturn => ?_⟩)
        exact hother.resolve_left hrunning hturn.symm
    obtain ⟨k, _, hk⟩ := FairRun.reaches_done _ _ _ _ Nat.lt_wfRel.wf hdescends (fun k _ => by
      obtain ⟨j, hle, hj⟩ := hfair (s.after opts schedule k).unfinished k
      exact ⟨j, hle, .inr hj⟩) 0
    exact ⟨k, hk⟩
  · intro c hc moments hmoments
    exact Serving.runs_finished hpoll (hs.wellFormed c hc) hmoments

theorem reachable_foldl (h : Reachable opts s) (actions : List Action) :
    Reachable opts (actions.foldl (step opts) s) := by
  induction actions generalizing s with
  | nil => exact h
  | cons a actions ih => exact ih (h.step a)

def roundRobin (m : Moment) (k : Nat) : Thread × Moment :=
  match k.unpair.1 with
  | 0 => (.accept, m)
  | i + 1 => (.conn i, m)

theorem roundRobin_fair (m : Moment) (t : Thread) (i : Nat) : ∃ j, i ≤ j ∧ (roundRobin m j).1 = t := by
  cases t with
  | accept => exact ⟨Nat.pair 0 i, Nat.right_le_pair 0 i, by simp [roundRobin]⟩
  | conn c => exact ⟨Nat.pair (c + 1) i, Nat.right_le_pair (c + 1) i, by simp [roundRobin]⟩

theorem roundRobin_moment (m : Moment) (k : Nat) : (roundRobin m k).2 = m := by
  unfold roundRobin
  split <;> rfl

def acceptOne : List Action :=
  [.run .accept {}, .run .accept { ready := true }, .run .accept {}, .run (.conn 0) {}]

/-- A peer that sends without end, one byte at a time, and takes its answers so. -/
theorem stop_returns_endless_peer :
    ∃ s : Threads, Reachable {} s ∧ s.conns.length = 1 ∧
      ∃ k, (s.after {} (roundRobin { arrived := [9], send := some (.ok 1) }) k).Stopped := by
  let s := (acceptOne ++ [Action.stop]).foldl (step {}) start
  have hs : Reachable {} s := reachable_foldl .start _
  refine ⟨s, hs, by decide, (stop_returns (by decide) hs (by decide) (roundRobin_fair _) fun k => ?_).1⟩
  rw [roundRobin_moment]
  exact nofun

def answering : List Action :=
  acceptOne ++ [.run (.conn 0) { arrived := Wire.framing.frame (encodeRequest ⟨.get, text "a", []⟩), size := 99 },
    .run (.conn 0) { reply := (.ok, some (text "x")) }, .stop]

theorem sending_step {r : FrameReader} {rest : Bytes} (h : s.conns[0]? = some (.sending r rest)) (t : Thread)
    (hsend : m.send = none) : (s.step opts (.run t m)).conns[0]? = some (.sending r rest) := by
  cases t with
  | conn i =>
    change (s.conns.modify i (Serving.step s.stopping m))[0]? = _
    rw [List.getElem?_modify, h]
    by_cases hi : i = 0
    · simp [hi, Serving.step, hsend]
    · simp [hi]
  | accept =>
    rw [step]
    unfold stepAccept
    have happend : (s.conns ++ [newConnection opts])[0]? = some (.sending r rest) := by
      rw [List.getElem?_append_left (List.getElem?_eq_some_iff.mp h).1]
      exact h
    split
    · exact h
    · split
      · exact h
      · split
        · exact h
        · split <;> exact h
    · split
      · exact h
      · exact happend
    · exact h

/-- A peer that never reads its answer: the send does not return, and neither does `stop`. -/
theorem stop_waits_for_peer :
    ∃ s : Threads, Reachable {} s ∧ s.stopping = true ∧
      ∃ schedule : Nat → Thread × Moment, (∀ t i, ∃ j, i ≤ j ∧ (schedule j).1 = t) ∧
        ∀ k, ¬ (s.after {} schedule k).Stopped := by
  let s := answering.foldl (step {}) start
  have hs : Reachable {} s := reachable_foldl .start _
  obtain ⟨r, rest, hsending⟩ : ∃ r rest, s.conns[0]? = some (.sending r rest) := by
    have h : ∃ conn ∈ s.conns[0]?, conn.sends = true := by decide +kernel
    obtain ⟨conn, hconn, hsends⟩ := h
    cases conn with
    | sending r rest => exact ⟨r, rest, hconn⟩
    | head | reading | handling | finished => cases hsends
  refine ⟨s, hs, by decide +kernel, roundRobin {}, roundRobin_fair _, fun k hstopped => ?_⟩
  have hstays : (s.after {} (roundRobin {}) k).conns[0]? = some (.sending r rest) := by
    clear hstopped
    induction k with
    | zero => exact hsending
    | succ k ih =>
      refine sending_step ih _ ?_
      rw [roundRobin_moment]
  cases hstopped.2 _ (List.mem_of_getElem? hstays)

end Threads

end Server

end KVStore
