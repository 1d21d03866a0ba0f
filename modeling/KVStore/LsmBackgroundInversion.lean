import KVStore.LsmInversion

namespace KVStore.System

open Lib CrashProgram Engine

variable {n : Nat} {opts : LsmOptions} {listing : Listing} {s s' : System n}

def setBackground (s : System n) (pc : Background) : System n :=
  { s with engine := { s.engine with background := pc } }

/-- The pieces of the background thread when no fail point is set. -/
inductive BackgroundStep (opts : LsmOptions) (listing : Listing) (s : System n) : System n → Prop
  | turn {e : Engine n} (pc : s.engine.background = .waiting)
      (next : Engine.LoopTurn opts s.env s.engine e) :
      BackgroundStep opts listing s { s with engine := e }
  | flushOp {wal : FileId} {o : Op} {k : Res o → LsmIo (Except Failure Levels)}
      (pc : s.engine.background = .flushing wal (.op o k)) :
      BackgroundStep opts listing s
        (({ s with env := (s.env.exec listing o).2 } : System n).setBackground
          (.flushing wal (k (s.env.exec listing o).1)))
  | flushFailed {wal : FileId} {f : Failure} {e : Engine n}
      (pc : s.engine.background = .flushing wal (.ret (.error f)))
      (next : Engine.LoopTurn opts s.env (s.engine.failed f).rested e) :
      BackgroundStep opts listing s { s with engine := e }
  | flushInstalled {wal : FileId} {levels : Levels}
      (pc : s.engine.background = .flushing wal (.ret (.ok levels))) :
      BackgroundStep opts listing s
        { s with engine := { s.engine with
          levels := levels, current := levels, imm := none, background := .retiring wal } }
  | retire {wal : FileId} (pc : s.engine.background = .retiring wal) :
      BackgroundStep opts listing s
        (({ s with env := { s.env with logs := s.env.logs.erase wal } } : System n).setBackground
          .retired)
  | flushEnded {e : Engine n} (pc : s.engine.background = .retired)
      (next : Engine.LoopTurn opts s.env s.engine.rested e) :
      BackgroundStep opts listing s { s with engine := e }
  | compactOp {run : CompactionRun} {work : Compaction} {o : Op}
      {k : Res o → LsmIo (Except Failure (List FileId))}
      (pc : s.engine.background = .compacting run work (.op o k)) :
      BackgroundStep opts listing s
        (({ s with env := (s.env.exec listing o).2 } : System n).setBackground
          (.compacting run work (k (s.env.exec listing o).1)))
  | written {run : CompactionRun} {work : Compaction} {ids : List FileId}
      (pc : s.engine.background = .compacting run work (.ret (.ok ids))) :
      BackgroundStep opts listing s
        (s.setBackground (.renamingOutputs run work ids (LsmStore.renameOutputs ids)))
  | renameOp {run : CompactionRun} {work : Compaction} {ids : List FileId} {o : Op}
      {k : Res o → LsmIo (Except Failure Unit)}
      (pc : s.engine.background = .renamingOutputs run work ids (.op o k)) :
      BackgroundStep opts listing s
        (({ s with env := (s.env.exec listing o).2 } : System n).setBackground
          (.renamingOutputs run work ids (k (s.env.exec listing o).1)))
  | renamed {run : CompactionRun} {work : Compaction} {ids : List FileId}
      (pc : s.engine.background = .renamingOutputs run work ids (.ret (.ok ()))) :
      BackgroundStep opts listing s
        (s.setBackground (.committing run work
          (LsmStore.commitCompaction work s.engine.levels ids)))
  | commitOp {run : CompactionRun} {work : Compaction} {o : Op}
      {k : Res o → LsmIo (Except Failure Levels)}
      (pc : s.engine.background = .committing run work (.op o k)) :
      BackgroundStep opts listing s
        (({ s with env := (s.env.exec listing o).2 } : System n).setBackground
          (.committing run work (k (s.env.exec listing o).1)))
  | compactFailed {run : CompactionRun} {work : Compaction} {f : Failure} {e : Engine n}
      (pc : s.engine.background = .compacting run work (.ret (.error f)) ∨
        (∃ ids, s.engine.background = .renamingOutputs run work ids (.ret (.error f))) ∨
        s.engine.background = .committing run work (.ret (.error f)))
      (next : Engine.LoopTurn opts s.env (s.engine.failed f).cleared e) :
      BackgroundStep opts listing s { s with engine := e }
  | installed {run : CompactionRun} {work : Compaction} {levels : Levels}
      (pc : s.engine.background = .committing run work (.ret (.ok levels))) :
      BackgroundStep opts listing s
        { s with engine := { s.engine with
          levels := levels
          current := levels
          compactPointer := Engine.setPointer s.engine.compactPointer work.level work.endKey
          background := .marking ⟨run.force, run.steps + 1⟩ work } }
  | mark {run : CompactionRun} {work : Compaction} (pc : s.engine.background = .marking run work) :
      BackgroundStep opts listing s
        { s with engine := { s.engine with
          obsolete := work.tables ++ s.engine.obsolete
          background := .finishing run } }
  | runEnded {run : CompactionRun} {e : Engine n} (pc : s.engine.background = .finishing run)
      (reason : run.force = false ∨ s.engine.stopping = true ∨ s.engine.Quiet opts)
      (next : Engine.LoopTurn opts s.env s.engine.cleared e) :
      BackgroundStep opts listing s { s with engine := e }
  | runExhausted {run : CompactionRun} {e : Engine n} (pc : s.engine.background = .finishing run)
      (next : Engine.LoopTurn opts s.env (s.engine.failed Engine.converged).cleared e)
      (limit : Engine.maxSteps ≤ run.steps) : BackgroundStep opts listing s { s with engine := e }
  | nextUndefined {run : CompactionRun} (pc : s.engine.background = .finishing run)
      (pick : s.engine.pickStep opts true = .undefined) :
      BackgroundStep opts listing s (s.setBackground .undefined)
  | nextWork {run : CompactionRun} {c : Compaction} (pc : s.engine.background = .finishing run)
      (forced : run.force = true) (pick : s.engine.pickStep opts true = .work c) :
      BackgroundStep opts listing s
        (s.setBackground (.compacting run c (LsmStore.writeCompaction opts c)))

theorem nextStep_cases {s : System n} {run : CompactionRun}
    (pc : s.engine.background = .finishing run) (forced : run.force = true) :
    BackgroundStep opts listing s { s with engine := s.engine.nextStep opts s.env run } := by
  unfold nextStep
  split
  next limit =>
    have he := endRun_error opts s.env s.engine converged true
    rw [show (Failure.status converged) =
      Status.ioError (text "compaction failed to converge") from rfl] at he
    rw [he]
    exact .runExhausted pc (backgroundLoop_turn _ _ _) limit
  next =>
    split
    next hs =>
      rw [endRun_ok]
      exact .runEnded pc (Or.inr (Or.inl hs)) (backgroundLoop_turn _ _ _)
    next =>
      rw [forced]
      split
      next hp =>
        rw [endRun_ok]
        exact .runEnded pc (Or.inr (Or.inr (quiet_of_pickStep hp)))
          (backgroundLoop_turn _ _ _)
      next hp => exact .nextUndefined pc hp
      next c hp => exact .nextWork pc forced hp

theorem backgroundStep_cases (hfail : opts.failAt = .none) (h : s.backgroundStep opts listing = some s') :
    BackgroundStep opts listing s s' := by
  unfold backgroundStep at h
  dsimp only at h
  split at h
  next pc =>
    cases h
    exact .turn pc (backgroundLoop_turn _ _ _)
  next => cases h
  next => cases h
  next wal o k pc =>
    cases h
    exact .flushOp pc
  next wal built pc =>
    cases h
    cases built with
    | error =>
      simp only [installFlush, endFlush_error]
      exact .flushFailed pc (backgroundLoop_turn _ _ _)
    | ok =>
      simp only [installFlush, hfail, reduceCtorEq, or_self, if_false]
      exact .flushInstalled pc
  next wal pc =>
    cases h
    exact .retire pc
  next pc =>
    cases h
    rw [endFlush_ok]
    exact .flushEnded pc (backgroundLoop_turn _ _ _)
  next run work o k pc =>
    cases h
    exact .compactOp pc
  next run work f pc =>
    cases h
    rw [endRun_error]
    exact .compactFailed (Or.inl pc) (backgroundLoop_turn _ _ _)
  next run work ids pc =>
    simp only [hfail, reduceCtorEq, if_false] at h
    cases h
    exact .written pc
  next run work ids o k pc =>
    cases h
    exact .renameOp pc
  next run work ids f pc =>
    cases h
    rw [endRun_error]
    exact .compactFailed (Or.inr (Or.inl ⟨ids, pc⟩)) (backgroundLoop_turn _ _ _)
  next run work ids _ pc =>
    simp only [hfail, reduceCtorEq, if_false] at h
    cases h
    exact .renamed pc
  next run work o k pc =>
    cases h
    exact .commitOp pc
  next run work f pc =>
    cases h
    rw [endRun_error]
    exact .compactFailed (Or.inr (Or.inr pc)) (backgroundLoop_turn _ _ _)
  next run work levels pc =>
    cases h
    simp only [installCompaction, hfail, reduceCtorEq, if_false]
    exact .installed pc
  next run work pc =>
    cases h
    exact .mark pc
  next run pc =>
    split at h
    next hf =>
      cases h
      exact nextStep_cases pc hf
    next hf =>
      cases h
      rw [endRun_ok]
      exact .runEnded pc (Or.inl (Bool.eq_false_of_not_eq_true hf)) (backgroundLoop_turn _ _ _)

/-- Everything a step of a running store can be. -/
inductive Step (opts : LsmOptions) (listing : Listing) (s : System n) : Action n → System n → Prop
  | call {c : Fin n} {call : Call} (pc : s.engine.clients c = .idle)
      (running : s.engine.stopping = false) :
      Step opts listing s (.call c call) ((s.note (.invoke c call)).enter c call)
  | client {c : Fin n} {s' : System n} (next : ClientStep opts s c s') :
      Step opts listing s (.client c) s'
  | background {s' : System n} (next : BackgroundStep opts listing s s') :
      Step opts listing s .background s'
  | unlink {t : SSTable} (obsolete : t ∈ s.engine.obsolete) (unused : s.referenced t = false) :
      Step opts listing s (.unlink t)
        { s with
          env := { s.env with tables := s.env.tables.erase t.id }
          engine := { s.engine with obsolete := s.engine.obsolete.erase t } }
  | stop (quiet : ∀ c, s.engine.clients c = .idle) :
      Step opts listing s .stop { s with engine := { s.engine with stopping := true } }

theorem step_cases {a : Action n} (hfail : opts.failAt = .none) (h : s.step opts listing a = some s') :
    Step opts listing s a s' := by
  unfold step at h
  split at h
  · cases h
  split at h
  next c call =>
    split at h
    next pc =>
      split_ifs at h with hr
      cases h
      exact .call pc (Bool.eq_false_of_not_eq_true hr)
    next => cases h
  next c => exact .client (clientStep_cases h)
  next => exact .background (backgroundStep_cases hfail h)
  next t =>
    split_ifs at h with hu
    cases h
    exact .unlink hu.1 hu.2
  next =>
    split_ifs at h with hs
    cases h
    refine .stop fun c => ?_
    have hc := hs c
    cases hpc : s.engine.clients c <;> simp_all

end KVStore.System
