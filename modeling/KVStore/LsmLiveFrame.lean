import KVStore.LsmWriterLock

namespace KVStore

open Lib CrashProgram

namespace Engine

variable {n : Nat} {opts : LsmOptions} {env : Env} {e e' : Engine n}

structure SameLive (e e' : Engine n) : Prop where
  writer : e'.writer = e.writer
  clients : e'.clients = e.clients
  mem : e'.mem = e.mem

theorem LoopTurn.sameLive (h : LoopTurn opts env e e') : e.SameLive e' := by
  cases h <;> exact ⟨rfl, rfl, rfl⟩

section

variable (opts : LsmOptions) (env : Env)

theorem SameLive.loop {e e' : Engine n} (h : e.SameLive e') : e.SameLive (e'.backgroundLoop opts env) := by
  have hturn := (backgroundLoop_turn opts env e').sameLive
  exact ⟨hturn.writer.trans h.writer, hturn.clients.trans h.clients, hturn.mem.trans h.mem⟩

theorem sameLive_endFlush (e : Engine n) (st : Status) (p : Bool) :
    e.SameLive (e.endFlush opts env st p) := SameLive.loop opts env ⟨rfl, rfl, rfl⟩

theorem sameLive_endRun (e : Engine n) (st : Status) (p : Bool) :
    e.SameLive (e.endRun opts env st p) := SameLive.loop opts env ⟨rfl, rfl, rfl⟩

theorem sameLive_installFlush (e : Engine n) (wal : FileId) (built : Except Failure Levels) :
    e.SameLive (e.installFlush opts env wal built) := by
  cases built with
  | error => exact sameLive_endFlush opts env e _ _
  | ok levels =>
    rw [installFlush]
    split
    · exact sameLive_endFlush opts env e _ _
    · split
      · have h := sameLive_endFlush opts env
          { e with levels := levels, current := levels } .ok false
        exact ⟨h.writer, h.clients, h.mem⟩
      · exact ⟨rfl, rfl, rfl⟩

theorem sameLive_nextStep (e : Engine n) (run : CompactionRun) : e.SameLive (e.nextStep opts env run) := by
  unfold nextStep
  split
  · exact sameLive_endRun opts env e _ _
  · split
    · exact sameLive_endRun opts env e _ _
    · split
      · exact sameLive_endRun opts env e _ _
      · exact ⟨rfl, rfl, rfl⟩
      · exact ⟨rfl, rfl, rfl⟩

end

end Engine

namespace System

variable {n : Nat} {opts : LsmOptions} {listing : Listing} {s s' : System n} {a : Action n}

theorem backgroundStep_sameLive (h : s.backgroundStep opts listing = some s') :
    s.engine.SameLive s'.engine ∧ s'.trace = s.trace := by
  unfold backgroundStep at h
  dsimp only at h
  split at h
  any_goals cases h
  any_goals exact ⟨⟨rfl, rfl, rfl⟩, rfl⟩
  any_goals exact ⟨Engine.sameLive_endRun _ _ _ _ _, rfl⟩
  next => exact ⟨(Engine.backgroundLoop_turn opts s.env s.engine).sameLive, rfl⟩
  next => exact ⟨Engine.sameLive_installFlush _ _ _ _ _, rfl⟩
  next => exact ⟨Engine.sameLive_endFlush _ _ _ _ _, rfl⟩
  any_goals split at h <;> cases h
  any_goals exact ⟨Engine.sameLive_endRun _ _ _ _ _, rfl⟩
  any_goals exact ⟨⟨rfl, rfl, rfl⟩, rfl⟩
  exact ⟨Engine.sameLive_nextStep _ _ _ _, rfl⟩

/-- A step enters a call, is the next piece of one, or leaves the writer alone. -/
inductive LiveStep (opts : LsmOptions) (s : System n) : Action n → System n → Prop
  | call {c : Fin n} {call : Call} {s' : System n} (pc : s.engine.clients c = .idle)
      (next : EnterStep (s.note (.invoke c call)) c call s') : LiveStep opts s (.call c call) s'
  | client {c : Fin n} {s' : System n} (next : ClientStep opts s c s') : LiveStep opts s (.client c) s'
  | other {a : Action n} {s' : System n} (frame : s.engine.SameLive s'.engine)
      (trace : s'.trace = s.trace) : LiveStep opts s a s'

theorem step_live (h : s.step opts listing a = some s') : LiveStep opts s a s' := by
  unfold step at h
  split at h
  · cases h
  split at h
  next c call =>
    split at h
    next pc =>
      split_ifs at h
      cases h
      exact .call pc (enter_cases _ _ _)
    next => cases h
  next c => exact .client (clientStep_cases h)
  next =>
    obtain ⟨hframe, htrace⟩ := backgroundStep_sameLive h
    exact .other hframe htrace
  next t =>
    split_ifs at h
    cases h
    exact .other ⟨rfl, rfl, rfl⟩ rfl
  next =>
    split_ifs at h
    cases h
    exact .other ⟨rfl, rfl, rfl⟩ rfl

theorem LiveStep.locked (h : LiveStep opts s a s') (hs : s.engine.Locked) : s'.engine.Locked := by
  cases h with
  | call pc next => exact next.locked pc (hs.congr rfl rfl)
  | client next => exact next.locked hs
  | other frame => exact hs.congr frame.writer frame.clients

end System

end KVStore
