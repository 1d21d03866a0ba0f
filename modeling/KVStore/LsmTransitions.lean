import KVStore.LsmRun

namespace KVStore.Engine

open Lib CrashProgram

variable {n : Nat} {opts : LsmOptions} {e : Engine n}

/-- No compaction work, forced or not: nothing over its trigger or budget, and at
most one level that holds a table. -/
def Quiet (opts : LsmOptions) (e : Engine n) : Prop :=
  e.pick opts false = .nothing ∧ e.pick opts true = .nothing

instance (opts : LsmOptions) (e : Engine n) : Decidable (e.Quiet opts) :=
  inferInstanceAs (Decidable (_ ∧ _))

/-- What one turn of the background loop can come to. -/
inductive LoopTurn (opts : LsmOptions) (env : Env) (e : Engine n) : Engine n → Prop
  | exit (stopping : e.stopping = true) : LoopTurn opts env e { e with background := .exited }
  | sleep (running : e.stopping = false)
      (reason : e.idle = true ∨
        e.imm = none ∧ e.compactRequested = false ∧ e.pick opts false = .nothing) :
      LoopTurn opts env e { e with background := .waiting }
  | flush {table : Memtable} (busy : e.idle = false) (frozen : e.imm = some table) :
      LoopTurn opts env e (e.beginFlush opts env table)
  | halt (busy : e.idle = false) (thawed : e.imm = none) (requested : e.compactRequested = true)
      (quiet : e.Quiet opts) : LoopTurn opts env e e.haltRun
  | undefined (busy : e.idle = false)
      (pick : e.pickStep opts e.compactRequested = .undefined) :
      LoopTurn opts env e { e with background := .undefined }
  | compact {c : Compaction} (busy : e.idle = false) (thawed : e.imm = none)
      (pick : e.pickStep opts e.compactRequested = .work c) :
      LoopTurn opts env e
        { e with
          backgroundBusy := true
          background := .compacting ⟨e.compactRequested, 0⟩ c (LsmStore.writeCompaction opts c) }

theorem quiet_of_pickStep (h : e.pickStep opts true = .nothing) : e.Quiet opts := by
  unfold pickStep at h
  cases hp : e.pick opts false with
  | nothing =>
    rw [hp] at h
    exact ⟨hp, by simpa using h⟩
  | undefined => simp [hp] at h
  | work => simp [hp] at h

theorem pickStep_of_quiet (h : e.Quiet opts) (force : Bool) : e.pickStep opts force = .nothing := by
  unfold pickStep
  rw [h.1]
  cases force
  · rfl
  · simpa using h.2

theorem stopping_of_idle_eq_false (h : e.idle = false) : e.stopping = false := by
  unfold idle at h
  cases hs : e.stopping
  · rfl
  · simp [hs] at h

theorem backgroundLoop_turn (opts : LsmOptions) (env : Env) (e : Engine n) :
    LoopTurn opts env e (e.backgroundLoop opts env) := by
  unfold backgroundLoop
  split
  next h => exact .exit h
  next hrun =>
    have hrun' : e.stopping = false := Bool.eq_false_of_not_eq_true hrun
    split
    next h => exact .sleep hrun' (Or.inl h)
    next hidle =>
      have hidle' : e.idle = false := Bool.eq_false_of_not_eq_true hidle
      split
      next table himm => exact .flush hidle' himm
      next himm =>
        split
        next hwork =>
          split
          next hpick =>
            have hreq : e.compactRequested = true := by
              by_contra hne
              have hfalse := Bool.eq_false_of_not_eq_true hne
              have hneeds : e.pick opts false ≠ .nothing := by
                simpa [hfalse, Levels.needsCompaction, pick] using hwork
              rw [hfalse] at hpick
              unfold pickStep at hpick
              cases hp : e.pick opts false with
              | nothing => exact hneeds hp
              | undefined => simp [hp] at hpick
              | work => simp [hp] at hpick
            rw [hreq] at hpick
            exact .halt hidle' himm hreq (quiet_of_pickStep hpick)
          next hpick => exact .undefined hidle' hpick
          next c hpick => exact .compact hidle' himm hpick
        next hwork =>
          simp only [Bool.or_eq_true, not_or, Bool.not_eq_true] at hwork
          exact .sleep hrun' (Or.inr ⟨himm, hwork.1, by
            simpa [Levels.needsCompaction, pick] using hwork.2⟩)

end KVStore.Engine
