import KVStore.LsmManifest

namespace KVStore

open Lib CrashProgram

namespace Client

def locked : Client → Bool
  | .checking _ | .stalled _ | .rotating _ _ | .rotated _ _ | .appending _ | .inserting _ => true
  | .flushChecking | .flushStalled => true
  | _ => false

/-- A client at which the log of the live memtable holds the live memtable. -/
def plain : Client → Bool
  | .rotating _ _ | .rotated _ _ | .inserting _ => false
  | _ => true

end Client

namespace Engine

variable {n : Nat} {e e' : Engine n}

/-- The lock has a holder exactly when a client is in the locked part of its call. -/
def Locked (e : Engine n) : Prop := ∀ c, e.writer = some c ↔ (e.clients c).locked = true

/-- Where the holder of the writer lock stands. -/
def writerPc (e : Engine n) : Client :=
  match e.writer with
  | some c => e.clients c
  | none => .idle

namespace Locked

variable {e e' : Engine n} {c : Fin n} {pc : Client}

section

variable (h : e.Locked)
include h

theorem keep (hpc : pc.locked = (e.clients c).locked) : (e.setClient c pc).Locked := by
  intro d
  by_cases hd : d = c
  · subst hd
    simpa [setClient, hpc] using h d
  · simpa [setClient, Function.update_of_ne hd] using h d

theorem acquire (hfree : e.writer = none) (hpc : pc.locked = true) :
    ({ e with writer := some c }.setClient c pc).Locked := by
  intro d
  by_cases hd : d = c
  · subst hd
    simp [setClient, hpc]
  · have hun := h d
    simp only [hfree, reduceCtorEq, false_iff] at hun
    simp [setClient, Function.update_of_ne hd, hun, Ne.symm hd]

theorem release (hc : (e.clients c).locked = true) (hpc : pc.locked = false) :
    ({ e with writer := none }.setClient c pc).Locked := by
  intro d
  by_cases hd : d = c
  · subst hd
    simp [setClient, hpc]
  · have hun := h d
    rw [(h c).mpr hc, Option.some_inj, eq_comm] at hun
    simp only [hd, false_iff] at hun
    simp [setClient, Function.update_of_ne hd, hun]

theorem congr (hw : e'.writer = e.writer) (hc : e'.clients = e.clients) : e'.Locked := by
  intro d
  rw [hw, hc]
  exact h d

theorem writerPc_eq (hc : (e.clients c).locked = true) : e.writerPc = e.clients c := by
  unfold writerPc
  rw [(h c).mpr hc]

theorem holder_unique {d : Fin n} (hc : (e.clients c).locked = true)
    (hd : (e.clients d).locked = true) : c = d :=
  Option.some.inj (((h c).mpr hc).symm.trans ((h d).mpr hd))

theorem writerPc_step (h' : e'.Locked) (hothers : ∀ d, d ≠ c → e'.clients d = e.clients d)
    (hc : (e.clients c).plain = true) (hc' : (e'.clients c).plain = true) :
    e'.writerPc = e.writerPc ∨ e.writerPc.plain = true ∧ e'.writerPc.plain = true := by
  have hlater : ∀ d, e'.writer = some d → d ≠ c → e.writer = some d := by
    intro d hd hne
    rw [h d, ← hothers d hne]
    exact (h' d).mp hd
  have hplain : e'.writer = none ∨ e'.writer = some c → e'.writerPc.plain = true := by
    rintro (hw | hw)
    · simp [writerPc, hw, Client.plain]
    · simp [writerPc, hw, hc']
  cases hw : e.writer with
  | none =>
    refine Or.inr ⟨by simp [writerPc, hw, Client.plain], hplain ?_⟩
    cases hw' : e'.writer with
    | none => exact Or.inl rfl
    | some d =>
      by_cases hd : d = c
      · exact Or.inr (hd ▸ rfl)
      · simp [hlater d hw' hd] at hw
  | some d =>
    by_cases hd : d = c
    · subst hd
      refine Or.inr ⟨by simpa [writerPc, hw] using hc, hplain ?_⟩
      cases hw' : e'.writer with
      | none => exact Or.inl rfl
      | some d' =>
        by_cases hd : d' = d
        · exact Or.inr (hd ▸ rfl)
        · exact absurd (Option.some.inj ((hlater d' hw' hd).symm.trans hw)) hd
    · left
      have hlocked : (e'.clients d).locked = true := by
        rw [hothers d hd]
        exact (h d).mp hw
      rw [h'.writerPc_eq hlocked, hothers d hd, writerPc, hw]

end

end Locked

structure SameWriter (e e' : Engine n) : Prop where
  writer : e'.writer = e.writer
  clients : e'.clients = e.clients
  walId : e'.walId = e.walId
  immWalId : e'.immWalId = e.immWalId

theorem SameWriter.writerPc_eq (h : e.SameWriter e') : e'.writerPc = e.writerPc := by
  unfold writerPc
  rw [h.writer, h.clients]

theorem LoopTurn.sameWriter {opts : LsmOptions} {env : Env}
    (h : LoopTurn opts env e e') : e.SameWriter e' := by
  cases h <;> exact ⟨rfl, rfl, rfl, rfl⟩

end Engine

namespace System

variable {n : Nat} {opts : LsmOptions} {listing : Listing} {s s' : System n} {c : Fin n}

theorem BackgroundStep.sameWriter (h : BackgroundStep opts listing s s') : s.engine.SameWriter s'.engine := by
  cases h with
  | turn pc next | flushEnded pc next | runEnded pc _ next | flushFailed pc next
  | compactFailed pc next | runExhausted pc next =>
    have h := next.sameWriter
    exact ⟨h.writer, h.clients, h.walId, h.immWalId⟩
  | _ => exact ⟨rfl, rfl, rfl, rfl⟩

theorem ClientStep.locked (h : ClientStep opts s c s') (hs : s.engine.Locked) : s'.engine.Locked := by
  cases h with
  | acquire pc free => exact hs.acquire free rfl
  | flushAcquire pc free => exact hs.acquire free rfl
  | refuse pc =>
    refine hs.release ?_ rfl
    rcases pc with ⟨e, pc⟩ | ⟨e, pc⟩ | pc | pc <;> rw [pc] <;> rfl
  | flushNothing pc => exact hs.release (by rw [pc]; rfl) rfl
  | flushWait pc =>
    refine hs.release ?_ rfl
    rcases pc with pc | pc <;> rw [pc] <;> rfl
  | switchFlush pc =>
    exact (hs.release (by rw [pc]; rfl) rfl).congr rfl rfl
  | insert pc =>
    have hr : ({ s.engine with writer := none }.setClient c .idle).Locked :=
      hs.release (by rw [pc]; rfl) rfl
    exact hr.congr rfl rfl
  | rotateWrite pc | proceed pc | rotateFlush pc =>
    refine (hs.keep (c := c) ?_).congr rfl rfl
    rcases pc with pc | pc <;> rw [pc] <;> rfl
  | stall pc | flushStall pc | createLog pc | switchWrite pc | append pc | hit pc | miss pc
  | search pc | snapshot pc | rows pc | refuseCompact pc | request pc | settle pc =>
    exact (hs.keep (c := c) (by rw [pc]; rfl)).congr rfl rfl

theorem EnterStep.locked {call : Call} (h : EnterStep s c call s')
    (hc : s.engine.clients c = .idle) (hs : s.engine.Locked) : s'.engine.Locked := by
  cases h <;> exact hs.keep (congrArg Client.locked hc).symm

theorem locked_step {a : Action n} (hs : s.engine.Locked) (h : Step opts listing s a s') :
    s'.engine.Locked := by
  cases h with
  | call pc => exact (enter_cases (s.note _) _ _).locked pc (hs.congr rfl rfl)
  | client next => exact next.locked hs
  | background next => exact hs.congr next.sameWriter.writer next.sameWriter.clients
  | unlink | stop => exact hs.congr rfl rfl

end System

end KVStore
