import KVStore.LsmTransitions

namespace KVStore

open Lib CrashProgram

namespace Engine

variable {n : Nat}

def cleared (e : Engine n) : Engine n := { e with compactRequested := false, backgroundBusy := false }

def rested (e : Engine n) : Engine n := { e with backgroundBusy := false }

def failed (e : Engine n) (f : Failure) : Engine n := { e with backgroundStatus := f.status }

def converged : Failure := .ioError (text "compaction failed to converge")

section

variable (opts : LsmOptions) (env : Env) (e : Engine n)
include opts env e

theorem endRun_ok : e.endRun opts env .ok true = e.cleared.backgroundLoop opts env := by
  simp [endRun, cleared]

theorem endRun_error (f : Failure) (p : Bool) :
    e.endRun opts env f.status p = (e.failed f).cleared.backgroundLoop opts env := by
  simp [endRun, cleared, failed, f.bad]

theorem endFlush_ok : e.endFlush opts env .ok true = e.rested.backgroundLoop opts env := by
  simp [endFlush, rested]

theorem endFlush_error (f : Failure) :
    e.endFlush opts env f.status false = (e.failed f).rested.backgroundLoop opts env := by
  simp [endFlush, rested, failed, f.bad]

end

end Engine

def Call.entry : Call → Option Entry
  | .put key value => some (key, ⟨value, false⟩)
  | .remove key => some (key, ⟨[], true⟩)
  | _ => none

/-- What `write_entry` lets through. -/
def Writable (e : Entry) : Prop :=
  e.1 ≠ [] ∧ e.1.length + (if e.2.tombstone then 0 else e.2.value.length) ≤ System.payloadLimit

theorem find_nil_of_writable {history : List Entry} (h : ∀ e ∈ history, Writable e) :
    SortedRun.find ([] : Key) history = none := by
  rw [SortedRun.find_eq_none_iff]
  intro hm
  obtain ⟨e, he, hnil⟩ := List.mem_map.mp hm
  exact (h e he).1 hnil

namespace System

variable {n : Nat} {opts : LsmOptions} {c : Fin n} {s s' : System n}

inductive ClientStep (opts : LsmOptions) (s : System n) (c : Fin n) : System n → Prop
  | acquire {e : Entry} (pc : s.engine.clients c = .wantWriter e) (free : s.engine.writer = none) :
      ClientStep opts s c ((s.acquire c).setClient c (.checking e))
  | refuse (pc : (∃ e, s.engine.clients c = .checking e) ∨ (∃ e, s.engine.clients c = .stalled e) ∨
        s.engine.clients c = .flushChecking ∨ s.engine.clients c = .flushStalled)
      (bad : s.engine.backgroundStatus.isOk = false) :
      ClientStep opts s c (s.release.respond c (.status s.engine.backgroundStatus))
  | stall {e : Entry} (pc : s.engine.clients c = .checking e) :
      ClientStep opts s c (s.setClient c (.stalled e))
  | rotateWrite {e : Entry}
      (pc : s.engine.clients c = .checking e ∨ s.engine.clients c = .stalled e)
      (thawed : s.engine.imm = none) (full : s.engine.full opts = true) :
      ClientStep opts s c (s.rotate c (.write e))
  | proceed {e : Entry} (pc : s.engine.clients c = .checking e ∨ s.engine.clients c = .stalled e) :
      ClientStep opts s c (s.setClient c (.appending e))
  | createLog {next : FileId} {resume : Resume} (pc : s.engine.clients c = .rotating next resume) :
      ClientStep opts s c
        (({ s with env := s.env.createLog next } : System n).setClient c (.rotated next resume))
  | switchWrite {next : FileId} {e : Entry} (pc : s.engine.clients c = .rotated next (.write e)) :
      ClientStep opts s c
        (({ s with engine := { s.engine with walId := next } } : System n).setClient c (.appending e))
  | switchFlush {next : FileId} (pc : s.engine.clients c = .rotated next .flush) :
      ClientStep opts s c
        (({ s with engine := { s.engine with walId := next } } : System n).release.setClient c
          (.waiting .flush))
  | append {e : Entry} (pc : s.engine.clients c = .appending e) :
      ClientStep opts s c
        (({ s with env := s.env.appendLog s.engine.walId e } : System n).setClient c (.inserting e))
  | insert {e : Entry} (pc : s.engine.clients c = .inserting e) : ClientStep opts s c (s.insert c e)
  | hit {key : Key} {e : MemEntry} (pc : s.engine.clients c = .probing key)
      (found : (s.engine.mem.get key).or (s.engine.imm.bind fun m => m.get key) = some e) :
      ClientStep opts s c ((s.note (.probe c key)).respond c
        (.got ((Lookup.ofEntry (some e)).answer key)))
  | miss {key : Key} (pc : s.engine.clients c = .probing key)
      (absent : (s.engine.mem.get key).or (s.engine.imm.bind fun m => m.get key) = none) :
      ClientStep opts s c ((s.note (.probe c key)).setClient c (.searching key s.engine.current))
  | search {key : Key} {version : Levels} (pc : s.engine.clients c = .searching key version) :
      ClientStep opts s c (s.respond c (.got ((version.search key).answer key)))
  | snapshot {b e : Key} (pc : s.engine.clients c = .scanCalled b e) :
      ClientStep opts s c (s.setClient c (.scanning b e
        (s.engine.mem.map :: (s.engine.imm.map Memtable.map).toList) s.engine.current))
  | rows {b e : Key} {memtables : List (List Entry)} {version : Levels}
      (pc : s.engine.clients c = .scanning b e memtables version) :
      ClientStep opts s c (s.respond c (.rows (scanRows b e memtables version)))
  | flushAcquire (pc : s.engine.clients c = .flushWantWriter) (free : s.engine.writer = none) :
      ClientStep opts s c ((s.acquire c).setClient c .flushChecking)
  | flushNothing (pc : s.engine.clients c = .flushChecking) (empty : s.engine.mem.isEmpty = true)
      (thawed : s.engine.imm = none) : ClientStep opts s c (s.release.respond c (.status .ok))
  | flushWait (pc : s.engine.clients c = .flushChecking ∨ s.engine.clients c = .flushStalled)
      (ok : s.engine.backgroundStatus.isOk = true)
      (reason : s.engine.mem.isEmpty = true ∨ s.engine.idle = true) :
      ClientStep opts s c (s.release.setClient c (.waiting .flush))
  | flushStall (pc : s.engine.clients c = .flushChecking) :
      ClientStep opts s c (s.setClient c .flushStalled)
  | rotateFlush (pc : s.engine.clients c = .flushChecking ∨ s.engine.clients c = .flushStalled)
      (thawed : s.engine.imm = none) (live : s.engine.mem.isEmpty = false) :
      ClientStep opts s c (s.rotate c .flush)
  | refuseCompact (pc : s.engine.clients c = .compactCalled)
      (bad : s.engine.backgroundStatus.isOk = false) :
      ClientStep opts s c (s.respond c (.status s.engine.backgroundStatus))
  | request (pc : s.engine.clients c = .compactCalled)
      (ok : s.engine.backgroundStatus.isOk = true) :
      ClientStep opts s c
        (({ s with engine := { s.engine with compactRequested := true } } : System n).setClient c
          (.waiting .compact))
  | settle {call : Call} (pc : s.engine.clients c = .waiting call)
      (settled : s.engine.settled = true) :
      ClientStep opts s c (s.respond c (.status s.engine.backgroundStatus))

/-- What entering a call does: refuse it, answer it at once, or start it. -/
inductive EnterStep (s : System n) (c : Fin n) : Call → System n → Prop
  | refuse {call : Call} {st : Status} (bad : st.isOk = false) :
      EnterStep s c call (s.respond c (.status st))
  | absent : EnterStep s c (.get []) (s.respond c (.got (Lookup.notPresent.answer [])))
  | write {call : Call} {e : Entry} (writes : call.entry = some e) (writable : Writable e) :
      EnterStep s c call (s.setClient c (.wantWriter e))
  | get {key : Key} (nonempty : key ≠ []) : EnterStep s c (.get key) (s.setClient c (.probing key))
  | scan {b e : Key} : EnterStep s c (.scan b e) (s.setClient c (.scanCalled b e))
  | flush : EnterStep s c .flush (s.setClient c .flushWantWriter)
  | compact : EnterStep s c .compact (s.setClient c .compactCalled)
  | wait : EnterStep s c .waitForBackground (s.setClient c (.waiting .waitForBackground))

theorem beginWrite_cases (s : System n) (c : Fin n) {call : Call} {key : Key} {value : Value}
    {tombstone : Bool} (hcall : call.entry = some (key, ⟨value, tombstone⟩)) :
    EnterStep s c call (s.beginWrite c key value tombstone) := by
  unfold beginWrite
  by_cases hk : key = []
  · rw [if_pos hk]
    exact .refuse rfl
  · rw [if_neg hk]
    by_cases hp : payloadLimit < key.length + (if tombstone then 0 else value.length)
    · rw [if_pos hp]
      exact .refuse rfl
    · rw [if_neg hp]
      exact .write hcall ⟨hk, Nat.le_of_not_lt hp⟩

theorem enter_cases (s : System n) (c : Fin n) (call : Call) : EnterStep s c call (s.enter c call) := by
  cases call with
  | put | remove => exact beginWrite_cases s c rfl
  | get key =>
    rw [enter]
    by_cases hk : key = []
    · subst hk
      exact .absent
    · rw [if_neg hk]
      exact .get hk
  | scan => exact .scan
  | flush => exact .flush
  | compact => exact .compact
  | waitForBackground => exact .wait

theorem isOk_of_not {st : Status} (h : ¬(!st.isOk) = true) : st.isOk = true := by
  cases hs : st.isOk
  · simp [hs] at h
  · rfl

theorem afterStall_cases {s : System n} {e : Entry}
    (pc : s.engine.clients c = .checking e ∨ s.engine.clients c = .stalled e) :
    ClientStep opts s c (s.afterStall opts c e) := by
  unfold afterStall
  split
  next h =>
    exact .refuse (pc.elim (fun h => Or.inl ⟨e, h⟩) (fun h => Or.inr (Or.inl ⟨e, h⟩))) (by simpa using h)
  next =>
    split
    next h =>
      simp only [Bool.and_eq_true, Option.isNone_iff_eq_none] at h
      exact .rotateWrite pc h.1 h.2
    next => exact .proceed pc

theorem afterFlushStall_cases {s : System n}
    (pc : s.engine.clients c = .flushChecking ∨ s.engine.clients c = .flushStalled)
    (stallOver : s.engine.stallOver = true) : ClientStep opts s c (s.afterFlushStall c) := by
  unfold afterFlushStall
  split
  next h => exact .refuse (Or.inr (Or.inr pc)) (by simpa using h)
  next hok =>
    split
    next h =>
      simp only [Bool.and_eq_true, Option.isNone_iff_eq_none, Bool.not_eq_true'] at h
      exact .rotateFlush pc h.1.2 h.2
    next h =>
      refine .flushWait pc (isOk_of_not hok) ?_
      cases hm : s.engine.mem.isEmpty
      · right
        cases hi : s.engine.idle
        · have hs := Engine.stopping_of_idle_eq_false hi
          simp only [Engine.stallOver, hi, Bool.false_or] at stallOver
          simp [hs, stallOver, hm] at h
        · rfl
      · exact Or.inl rfl

theorem step_client {listing : Listing}
    (h : s.step opts listing (.client c) = some s') : s.clientStep opts c = some s' := by
  simp only [step] at h
  split at h
  · cases h
  · exact h

theorem clientStep_cases (h : s.clientStep opts c = some s') : ClientStep opts s c s' := by
  unfold clientStep at h
  split at h
  next => cases h
  next e pc =>
    split_ifs at h with hw
    cases h
    exact .acquire pc hw
  next e pc =>
    cases h
    unfold checkWrite
    split
    next hb => exact .refuse (Or.inl ⟨e, pc⟩) (by simpa using hb)
    next =>
      split
      next =>
        split
        next => exact afterStall_cases (Or.inl pc)
        next => exact .stall pc
      next => exact .proceed (Or.inl pc)
  next e pc =>
    split_ifs at h
    cases h
    exact afterStall_cases (Or.inr pc)
  next next resume pc =>
    cases h
    exact .createLog pc
  next next resume pc =>
    split at h
    next =>
      cases h
      exact .switchWrite pc
    next =>
      cases h
      exact .switchFlush pc
  next e pc =>
    cases h
    exact .append pc
  next e pc =>
    cases h
    exact .insert pc
  next key pc =>
    cases h
    unfold probe
    split
    next e he => exact .hit pc he
    next he => exact .miss pc he
  next key version pc =>
    cases h
    exact .search pc
  next b e pc =>
    cases h
    exact .snapshot pc
  next b e memtables version pc =>
    cases h
    exact .rows pc
  next pc =>
    split_ifs at h with hw
    cases h
    exact .flushAcquire pc hw
  next pc =>
    cases h
    unfold checkFlush
    split
    next hb => exact .refuse (Or.inr (Or.inr (Or.inl pc))) (by simpa using hb)
    next hok =>
      split
      next he =>
        simp only [Bool.and_eq_true, Option.isNone_iff_eq_none] at he
        exact .flushNothing pc he.1 he.2
      next =>
        split
        next hm => exact .flushWait (Or.inl pc) (isOk_of_not hok) (Or.inl hm)
        next =>
          split
          next ho => exact afterFlushStall_cases (Or.inl pc) ho
          next => exact .flushStall pc
  next pc =>
    split_ifs at h with ho
    cases h
    exact afterFlushStall_cases (Or.inr pc) ho
  next pc =>
    cases h
    unfold requestCompaction
    split
    next hb => exact .refuseCompact pc (by simpa using hb)
    next hok => exact .request pc (isOk_of_not hok)
  next call pc =>
    split_ifs at h with hs
    cases h
    exact .settle pc hs

end System

end KVStore
