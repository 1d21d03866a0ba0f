import KVStore.LsmAccepted
import KVStore.LsmRequests
import KVStore.LsmWriterLock

namespace KVStore

open Lib CrashProgram

namespace Memtable

theorem approximateBytes_insert_le (m : Memtable) (key : Key) (value : Value) (tombstone : Bool) :
    (m.insert key value tombstone).approximateBytes ≤ m.approximateBytes + entryBytes key value := by
  simp only [approximateBytes, insert]
  split <;> omega

end Memtable

def largestWrite : List Entry → Nat
  | [] => 0
  | e :: older => max (entryBytes e.1 e.2.value) (largestWrite older)

def Client.filling : Client → Bool
  | .rotating _ _ | .rotated _ _ | .appending _ | .inserting _ => true
  | _ => false

namespace Engine

variable {n : Nat} (e : Engine n)

def memtables : List Memtable := e.mem :: e.imm.toList

end Engine

namespace System

variable {n : Nat} {opts : LsmOptions} {listing : Listing} {s s' : System n} {c : Fin n} {e e' : Entry}

theorem afterStall_room (hover : s.engine.stallOver = true)
    (hrun : s.engine.stopping = false) (hhalt : s.engine.haltedByFailPoint = false)
    (h : (s.afterStall opts c e).engine.clients c = .appending e') : s.engine.full opts = false := by
  unfold afterStall at h
  split at h
  next =>
    simp [respond, note, setClient, Engine.setClient] at h
  next hok =>
    have hidle : s.engine.idle = false := by
      simp [Engine.idle, hrun, hhalt, isOk_of_not hok]
    have hthawed : s.engine.imm.isNone = true := by
      simpa [Engine.stallOver, hidle] using hover
    split at h
    next => simp [rotate, Engine.setClient] at h
    next hroom => simpa [hthawed] using hroom

theorem room_of_proceed (h : s.clientStep opts c = some s')
    (pc : s.engine.clients c = .checking e ∨ s.engine.clients c = .stalled e)
    (hrun : s.engine.stopping = false) (hhalt : s.engine.haltedByFailPoint = false)
    (hpc : s'.engine.clients c = .appending e') : s.engine.full opts = false := by
  unfold clientStep at h
  rcases pc with pc | pc
  · rw [pc] at h
    cases h
    unfold checkWrite at hpc
    split at hpc
    next => simp [respond, note, setClient, Engine.setClient] at hpc
    next =>
      split at hpc
      next =>
        split at hpc
        next hover => exact afterStall_room hover hrun hhalt hpc
        next => simp [setClient, Engine.setClient] at hpc
      next hroom => exact Bool.eq_false_of_not_eq_true hroom
  · rw [pc] at h
    dsimp only at h
    split_ifs at h with hover
    cases h
    exact afterStall_room hover hrun hhalt hpc

/-- What bounds the memtables along a run in which the thread is never halted. -/
structure Bounded (opts : LsmOptions) (s : System n) : Prop where
  serving : s.engine.haltedByFailPoint = false
  stopped : s.engine.stopping = true → ∀ c, s.engine.clients c = .idle
  locked : s.engine.Locked
  room : ∀ c, (s.engine.clients c).filling = true →
    s.engine.mem.approximateBytes < opts.memtableSize
  small : ∀ m ∈ s.engine.memtables,
    m.approximateBytes < opts.memtableSize + largestWrite (written s.trace)

section

variable (h : Bounded opts s)
include h

theorem Bounded.keep (hlocked : s'.engine.Locked)
    (hframe : s.engine.Untouched s'.engine) (hmem : s'.engine.mem = s.engine.mem)
    (himm : s'.engine.imm = s.engine.imm) (htrace : written s'.trace = written s.trace)
    (hothers : ∀ d, d ≠ c → s'.engine.clients d = s.engine.clients d) (hactive : s.engine.stopping = false)
    (hroom : (s'.engine.clients c).filling = true → s.engine.mem.approximateBytes < opts.memtableSize) :
    Bounded opts s' where
  serving := hframe.halted.trans h.serving
  stopped := by
    rw [hframe.stopping, hactive]
    exact nofun
  locked := hlocked
  room := by
    intro d hd
    rw [hmem]
    by_cases hc : d = c
    · subst hc
      exact hroom hd
    · rw [hothers d hc] at hd
      exact h.room d hd
  small := by
    rw [Engine.memtables, hmem, himm, htrace]
    exact h.small

theorem Bounded.enter {call : Call} (pc : s.engine.clients c = .idle)
    (running : s.engine.stopping = false) (hnext : EnterStep (s.note (.invoke c call)) c call s') :
    Bounded opts s' := by
  have hcontents := hnext.sameContents
  refine h.keep (c := c) (hnext.locked pc (h.locked.congr rfl rfl)) ?_ hcontents.1.mem hcontents.1.imm
    hcontents.2 (fun d hd => hnext.clients_of_ne hd) running ?_
  · have hframe := hnext.untouched
    exact ⟨hframe.levels, hframe.current, hframe.compactPointer, hframe.background, hframe.busy,
      hframe.halted, hframe.stopping, hframe.status, hframe.obsolete⟩
  · intro hfilling
    cases hnext <;> simp [setClient, Engine.setClient, respond, note, Client.filling] at hfilling

theorem Bounded.rotate (hsize : 1 ≤ opts.memtableSize)
    (resume : Resume) (hlocked : (s.rotate c resume).engine.Locked) (hactive : s.engine.stopping = false) :
    Bounded opts (s.rotate c resume) where
  serving := h.serving
  stopped := by
    rw [show (s.rotate c resume).engine.stopping = s.engine.stopping from rfl, hactive]
    exact nofun
  locked := hlocked
  room := fun _ _ => hsize
  small := by
    intro m hm
    have hcases : m = .empty ∨ m = s.engine.mem := by
      simpa [Engine.memtables, System.rotate, Engine.rotate, Engine.setClient] using hm
    rcases hcases with rfl | rfl
    · exact Nat.lt_of_lt_of_le hsize (Nat.le_add_right _ _)
    · exact h.small _ List.mem_cons_self

theorem Bounded.insert {c : Fin n} {e : Entry} (pc : s.engine.clients c = .inserting e)
    (hlocked : (s.insert c e).engine.Locked) (hactive : s.engine.stopping = false) :
    Bounded opts (s.insert c e) where
  serving := h.serving
  stopped := by
    rw [show (s.insert c e).engine.stopping = s.engine.stopping from rfl, hactive]
    exact nofun
  locked := hlocked
  room := by
    intro d hd
    exfalso
    by_cases hc : d = c
    · subst hc
      simp [System.insert, respond, note, setClient, Engine.setClient, release, Client.filling] at hd
    · have hd' : (s.engine.clients d).filling = true := by
        simpa [System.insert, respond, note, setClient, Engine.setClient, release, hc] using hd
      have hlock : (s.engine.clients d).locked = true := by
        cases hpc : s.engine.clients d <;> first | rfl | simp [hpc, Client.filling] at hd'
      exact hc (h.locked.holder_unique hlock (by rw [pc]; rfl))
  small := by
    intro m hm
    have hlargest : largestWrite (written (s.insert c e).trace) =
        max (entryBytes e.1 e.2.value) (largestWrite (written s.trace)) := rfl
    rw [hlargest]
    rcases List.mem_cons.mp hm with rfl | hm
    · have hroom := h.room c (by rw [pc]; rfl)
      have hinsert := s.engine.mem.approximateBytes_insert_le e.1 e.2.value e.2.tombstone
      have hmem : (s.insert c e).engine.mem = s.engine.mem.insert e.1 e.2.value e.2.tombstone := rfl
      rw [hmem]
      omega
    · have hold := h.small m (List.mem_cons_of_mem _ hm)
      omega

theorem Bounded.client {c : Fin n} (hsize : 1 ≤ opts.memtableSize)
    (hstep : s.clientStep opts c = some s') : Bounded opts s' := by
  have hnext := clientStep_cases hstep
  have hlocked := hnext.locked h.locked
  have hactive : s.engine.stopping = false := by
    by_contra hne
    have hidle := h.stopped (Bool.eq_true_of_not_eq_false hne) c
    simp [clientStep, hidle] at hstep
  have hframe := hnext.untouched
  have hothers : ∀ d, d ≠ c → s'.engine.clients d = s.engine.clients d :=
    fun d hd => hnext.clients_of_ne hd
  cases hnext with
  | rotateWrite | rotateFlush => exact h.rotate hsize _ hlocked hactive
  | insert pc => exact h.insert pc hlocked hactive
  | proceed pc =>
    refine h.keep hlocked hframe rfl rfl rfl hothers hactive fun _ => ?_
    have hroom := room_of_proceed hstep pc hactive h.serving (setClient_self _ _ _)
    exact Nat.lt_of_not_le (of_decide_eq_false hroom)
  | createLog pc | switchWrite pc | append pc =>
    exact h.keep hlocked hframe rfl rfl rfl hothers hactive fun _ => h.room c (by rw [pc]; rfl)
  | _ =>
    refine h.keep hlocked hframe rfl rfl rfl hothers hactive fun hfilling => ?_
    simp [setClient, Engine.setClient, respond, note, release, Client.filling] at hfilling

theorem Bounded.background (hnext : BackgroundStep opts listing s s')
    (hserving : s'.engine.haltedByFailPoint = false) : Bounded opts s' := by
  have hsame := hnext.sameWriter
  obtain ⟨htrace, hcontents⟩ := hnext.contents
  have hmem : s'.engine.mem = s.engine.mem := by
    rcases hcontents with hc | ⟨_, _, _, he⟩ | ⟨_, _, _, _, he⟩
    · exact hc.mem
    · rw [he]
    · rw [he]
  have himm : s'.engine.imm = s.engine.imm ∨ s'.engine.imm = none := by
    rcases hcontents with hc | ⟨_, _, _, he⟩ | ⟨_, _, _, _, he⟩
    · exact Or.inl hc.imm
    · exact Or.inr (by rw [he])
    · exact Or.inl (by rw [he])
  refine ⟨hserving, ?_, h.locked.congr hsame.writer hsame.clients, ?_, ?_⟩
  · rw [hnext.stopping_eq, hsame.clients]
    exact h.stopped
  · rw [hsame.clients, hmem]
    exact h.room
  · intro m hm
    rw [htrace]
    refine h.small m ?_
    rw [Engine.memtables, hmem] at hm
    rcases List.mem_cons.mp hm with rfl | hm
    · exact List.mem_cons_self
    · rcases himm with hi | hi
      · rw [hi] at hm
        exact List.mem_cons_of_mem _ hm
      · rw [hi] at hm
        cases hm

theorem bounded_step {a : Action n} (hfail : opts.failAt = .none) (hsize : 1 ≤ opts.memtableSize)
    (hquiet : ¬ TakesQuietRequest opts s a) (hstep : s.step opts listing a = some s') :
    Bounded opts s' := by
  cases step_cases hfail hstep with
  | call pc running => exact h.enter pc running (enter_cases _ _ _)
  | @client c =>
    refine h.client (c := c) hsize ?_
    unfold step at hstep
    split at hstep
    next => cases hstep
    next => exact hstep
  | background hnext =>
    refine h.background hnext (Bool.eq_false_iff.mpr fun hhalted => hquiet ?_)
    exact (step_halted_iff hfail hstep h.serving).mp hhalted
  | unlink => exact ⟨h.serving, h.stopped, h.locked.congr rfl rfl, h.room, h.small⟩
  | stop quiet => exact ⟨h.serving, fun _ => quiet, h.locked.congr rfl rfl, h.room, h.small⟩

end

/-- As long as no request is taken up with nothing to compact, each memtable stays
below its size limit plus one write, and there are at most two. -/
theorem memtables_bounded {env : Env} {r : Recovered} {past : List (System n × Action n)}
    (hfail : opts.failAt = .none) (hsize : 1 ≤ opts.memtableSize)
    (hrun : Run opts listing (opened n env r) past s)
    (hquiet : ∀ x ∈ past, ¬ TakesQuietRequest opts x.1 x.2) :
    (∀ m ∈ s.engine.memtables,
      m.approximateBytes < opts.memtableSize + largestWrite (written s.trace)) ∧
      s.engine.memtables.length ≤ 2 := by
  have hbounded : Bounded opts s := by
    induction hrun with
    | start =>
      refine ⟨rfl, fun _ _ => rfl, fun c => ?_, fun c hc => ?_, fun m hm => ?_⟩
      · simp [opened, Engine.ofRecovered, Client.locked]
      · simp [opened, Engine.ofRecovered, Client.filling] at hc
      · simp only [Engine.memtables, opened, Engine.ofRecovered, Option.toList_none,
          List.mem_singleton] at hm
        subst hm
        exact Nat.lt_of_lt_of_le hsize (Nat.le_add_right _ _)
    | step _ next ih =>
      simp only [List.mem_cons, forall_eq_or_imp] at hquiet
      exact bounded_step (ih hquiet.2) hfail hsize hquiet.1 next
  refine ⟨hbounded.small, ?_⟩
  cases himm : s.engine.imm <;> simp [Engine.memtables, himm]

def putOne (key : Key) (pieces : Nat) : List (Action 1) :=
  calling 0 (.put key (text "x")) pieces

/-- Two puts, the second of which rotates, and the flush of the first. -/
theorem memtables_bounded_two_puts :
    ∃ past s start, fresh 1 { memtableSize := 1 } .asStored = some start ∧
      Run { memtableSize := 1 } .asStored start past s ∧
      ∀ m ∈ s.engine.memtables, m.approximateBytes < 1 + largestWrite (written s.trace) := by
  have h : ∃ r ∈ runFresh 1 { memtableSize := 1 }
      (putOne (text "a") 4 ++ putOne (text "b") 6 ++ List.replicate 3 .background),
      ∀ x ∈ r.1, x.1.engine.compactRequested = false := by decide +kernel
  obtain ⟨_, _, past, s, hstart, hrun, hnone⟩ := exists_fresh_run h
  have hquiet : ∀ x ∈ past, ¬ TakesQuietRequest { memtableSize := 1 } x.1 x.2 := fun x hx ht =>
    absurd ((hnone x hx).symm.trans ht.2.2.2.2.1) (by decide)
  exact ⟨past, s, _, hstart, hrun, (memtables_bounded rfl (le_refl 1) hrun hquiet).1⟩

/-- `compact()` on an empty store halts the background thread without a failure.
From the third put on nothing is flushed and no writer waits: the live memtable
takes write after write. -/
theorem memtable_grows_after_compact :
    ∃ past s start, fresh 1 { memtableSize := 1 } .asStored = some start ∧
      Run { memtableSize := 1 } .asStored start past s ∧ s.engine.backgroundStatus = .ok ∧
      ¬ s.engine.mem.approximateBytes < 1 + largestWrite (written s.trace) := by
  have h : ∃ r ∈ runFresh 1 { memtableSize := 1 }
      ([.call 0 .compact, .client 0, .background, .client 0] ++ putOne (text "a") 4 ++
        putOne (text "b") 6 ++ putOne (text "c") 4 ++ putOne (text "d") 4),
      r.2.engine.backgroundStatus = .ok ∧
        ¬ r.2.engine.mem.approximateBytes < 1 + largestWrite (written r.2.trace) := by decide +kernel
  obtain ⟨_, _, past, s, hstart, hrun, hok, hgrown⟩ := exists_fresh_run h
  exact ⟨past, s, _, hstart, hrun, hok, hgrown⟩

end System

end KVStore
