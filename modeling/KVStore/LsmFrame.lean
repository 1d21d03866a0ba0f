import KVStore.LsmBackgroundInversion

namespace KVStore

open Lib CrashProgram

namespace Engine

variable {n : Nat} {opts : LsmOptions} {env : Env} {e e' : Engine n}

structure Untouched (e e' : Engine n) : Prop where
  levels : e'.levels = e.levels
  current : e'.current = e.current
  compactPointer : e'.compactPointer = e.compactPointer
  background : e'.background = e.background
  busy : e'.backgroundBusy = e.backgroundBusy
  halted : e'.haltedByFailPoint = e.haltedByFailPoint
  stopping : e'.stopping = e.stopping
  status : e'.backgroundStatus = e.backgroundStatus
  obsolete : e'.obsolete = e.obsolete

section

variable (h : LoopTurn opts env e e')
include h

theorem LoopTurn.clients_eq : e'.clients = e.clients := by
  cases h <;> rfl

theorem LoopTurn.status_eq : e'.backgroundStatus = e.backgroundStatus := by
  cases h <;> rfl

theorem LoopTurn.stopping_eq : e'.stopping = e.stopping := by
  cases h <;> rfl

theorem LoopTurn.levels_eq : e'.levels = e.levels ∧ e'.compactPointer = e.compactPointer := by
  cases h <;> exact ⟨rfl, rfl⟩

end

end Engine

structure Env.SameFiles (s s' : Env) : Prop where
  manifest : s'.manifest = s.manifest
  manifestTemp : s'.manifestTemp = s.manifestTemp
  tables : s'.tables = s.tables
  tableTemps : s'.tableTemps = s.tableTemps
  nextId : s'.nextId = s.nextId
  issued : s'.issued = s.issued

namespace Env

theorem SameFiles.refl (s : Env) : s.SameFiles s := ⟨rfl, rfl, rfl, rfl, rfl, rfl⟩

theorem sameFiles_createLog (s : Env) (id : FileId) : s.SameFiles (s.createLog id) :=
  ⟨rfl, rfl, rfl, rfl, rfl, rfl⟩

theorem sameFiles_appendLog (s : Env) (id : FileId) (e : Entry) : s.SameFiles (s.appendLog id e) := by
  unfold appendLog
  split
  · exact ⟨rfl, rfl, rfl, rfl, rfl, rfl⟩
  · exact .refl s

end Env

structure Engine.SameFrozen {n : Nat} (e e' : Engine n) : Prop where
  imm : e'.imm = e.imm
  immTableId : e'.immTableId = e.immTableId
  immWalId : e'.immWalId = e.immWalId

namespace System

variable {n : Nat} {s s' : System n} {c : Fin n} {call : Call} {opts : LsmOptions} {listing : Listing}

theorem EnterStep.untouched (h : EnterStep s c call s') : s.engine.Untouched s'.engine := by
  cases h <;> exact ⟨rfl, rfl, rfl, rfl, rfl, rfl, rfl, rfl, rfl⟩

theorem ClientStep.untouched (h : ClientStep opts s c s') : s.engine.Untouched s'.engine := by
  cases h <;> exact ⟨rfl, rfl, rfl, rfl, rfl, rfl, rfl, rfl, rfl⟩

theorem EnterStep.sameFrozen (h : EnterStep s c call s') : s'.env = s.env ∧ s.engine.SameFrozen s'.engine := by
  cases h <;> exact ⟨rfl, rfl, rfl, rfl⟩

theorem ClientStep.clients_of_ne {c c' : Fin n}
    (h : ClientStep opts s c s') (hne : c' ≠ c) : s'.engine.clients c' = s.engine.clients c' := by
  cases h <;> exact Function.update_of_ne hne _ _

theorem EnterStep.clients_of_ne {c c' : Fin n}
    (h : EnterStep s c call s') (hne : c' ≠ c) : s'.engine.clients c' = s.engine.clients c' := by
  cases h <;> exact Function.update_of_ne hne _ _

theorem BackgroundStep.clients_eq
    (h : BackgroundStep opts listing s s') : s'.engine.clients = s.engine.clients := by
  cases h
  case turn next | flushFailed next | flushEnded next | compactFailed next | runEnded next |
      runExhausted next _ => exact next.clients_eq
  all_goals rfl

theorem BackgroundStep.stopping_eq
    (h : BackgroundStep opts listing s s') : s'.engine.stopping = s.engine.stopping := by
  cases h with
  | turn pc next | flushEnded pc next | runEnded pc _ next => exact next.stopping_eq
  | flushFailed pc next | compactFailed pc next | runExhausted pc next => exact next.stopping_eq
  | _ => rfl

theorem ClientStep.sameFrozen (h : ClientStep opts s c s') :
    (s.env.SameFiles s'.env ∧ s.engine.SameFrozen s'.engine) ∨
      s.engine.imm = none ∧ ∃ resume, s' = s.rotate c resume := by
  cases h with
  | rotateWrite _ thawed | rotateFlush _ thawed => exact Or.inr ⟨thawed, _, rfl⟩
  | createLog => exact Or.inl ⟨Env.sameFiles_createLog _ _, rfl, rfl, rfl⟩
  | append => exact Or.inl ⟨Env.sameFiles_appendLog _ _ _, rfl, rfl, rfl⟩
  | _ => exact Or.inl ⟨.refl _, rfl, rfl, rfl⟩

theorem BackgroundStep.issued_le (h : BackgroundStep opts listing s s') : s.env.issued ≤ s'.env.issued := by
  cases h with
  | flushOp | compactOp | renameOp | commitOp => exact Env.issued_le_exec listing _ _
  | _ => exact le_rfl

theorem Step.issued_le {a : Action n} (h : Step opts listing s a s') : s.env.issued ≤ s'.env.issued := by
  cases h with
  | call =>
    rw [(enter_cases _ _ _).sameFrozen.1]
    exact le_rfl
  | client next =>
    rcases next.sameFrozen with ⟨hf, _⟩ | ⟨_, _, rfl⟩
    · exact hf.issued.ge
    · exact Nat.le_add_right _ 2
  | background next => exact next.issued_le
  | unlink | stop => exact le_rfl

end System

end KVStore
