import KVStore.Lib.ProgHeight
import KVStore.LsmRequests
import KVStore.LsmWriterLock

namespace KVStore

open Lib CrashProgram

inductive Operation
  | flush
  | compaction
  deriving DecidableEq

namespace Client

def stalls : Client → Bool
  | .stalled _ | .flushStalled => true
  | _ => false

def rotates : Client → Bool
  | .rotating _ _ | .rotated _ _ => true
  | _ => false

end Client

namespace System

variable {n : Nat} (opts : LsmOptions)

/-- The operation that the next piece of the background thread ends. -/
def ends (s : System n) : Option Operation :=
  match s.engine.background with
  | .flushing _ (.ret (.error _)) | .retired => some .flush
  | .flushing _ (.ret (.ok _)) => if opts.failAt = .none then none else some .flush
  | .compacting _ _ (.ret (.error _)) | .renamingOutputs _ _ _ (.ret (.error _))
  | .committing _ _ (.ret (.error _)) => some .compaction
  | .compacting _ _ (.ret (.ok _)) => if opts.failAt = .afterWritingTable then some .compaction else none
  | .renamingOutputs _ _ _ (.ret (.ok _)) =>
    if opts.failAt = .afterInstallingTable then some .compaction else none
  | .finishing run =>
    if run.force ∧ run.steps < Engine.maxSteps ∧ ¬ s.engine.stopping ∧ s.engine.pickStep opts true ≠ .nothing
    then none else some .compaction
  | _ => none

/-- The background thread calls `notify_all` at the end of every operation, also of
a compaction run that found nothing to do. -/
def notifies (s s' : System n) : Bool :=
  (s.ends opts).isSome || (s'.engine.haltedByFailPoint && !s.engine.haltedByFailPoint)

/-- A writer calls `notify_all` at the end of a rotation, and after an insert that
fills the memtable with none frozen. -/
def clientNotifies (c : Fin n) (s s' : System n) : Bool :=
  match s.engine.clients c with
  | .rotated _ _ => true
  | .inserting _ => s'.engine.full opts && s'.engine.imm.isNone
  | _ => false

end System

/-- The condition that a wait of a client is for. -/
def Engine.condition {n : Nat} (e : Engine n) (c : Fin n) : Bool :=
  match e.clients c with
  | .stalled _ | .flushStalled => e.stallOver
  | .waiting _ => e.settled
  | _ => true

/-- A running store with its condition variable: who is blocked on it, and who has
left the lock and has still to call `notify_all`. The operations that have ended,
newest first, are for the statements only. -/
structure Monitor (n : Nat) where
  system : System n
  asleep : Bool
  blocked : Fin n → Bool
  owes : Fin n → Bool
  finished : List Operation

/-- A thread has its turn, or a wake-up comes unasked. -/
inductive Monitor.Turn (n : Nat)
  | act (a : Action n)
  | wake
  | wakeClient (c : Fin n)

namespace Monitor

variable {n : Nat} (opts : LsmOptions) (listing : Listing) (m : Monitor n)

def opened (n : Nat) (env : Env) (r : Recovered) : Monitor n :=
  ⟨.opened n env r, false, fun _ => false, fun _ => false, []⟩

def notifyAll : Monitor n := { m with asleep := false, blocked := fun _ => false }

def block (c : Fin n) : Monitor n := { m with blocked := Function.update m.blocked c true }

/-- The thread sleeps whenever a turn of its loop leaves it without work. -/
def afterBackground (s : System n) : Monitor n where
  system := s
  asleep := s.engine.background matches .waiting
  blocked := if m.system.notifies opts s then fun _ => false else m.blocked
  owes := m.owes
  finished := (m.system.ends opts).toList ++ m.finished

/-- A client that finds its condition false blocks in the same locked piece; one
that gets to `wait_for_background` has released the lock and calls `notify_all`. -/
def afterClient (c : Fin n) (s : System n) : Monitor n where
  system := s
  asleep := m.asleep && !m.system.clientNotifies opts c s
  blocked := if m.system.clientNotifies opts c s then fun _ => false
    else Function.update m.blocked c (s.engine.clients c).stalls
  owes := Function.update m.owes c (s.engine.clients c matches .waiting _)
  finished := m.finished

def turn : Turn n → Option (Monitor n)
  | .act .background =>
    if m.asleep then none
    else (m.system.step opts listing .background).map (m.afterBackground opts)
  | .act (.client c) =>
    if m.blocked c then none
    else if m.owes c then some { m.notifyAll with owes := Function.update m.owes c false }
    else if m.system.engine.condition c then
      (m.system.step opts listing (.client c)).map (m.afterClient opts c)
    else some (m.block c)
  | .act .stop =>
    (m.system.step opts listing .stop).map fun s => ({ m with system := s } : Monitor n).notifyAll
  | .act a => (m.system.step opts listing a).map fun s => { m with system := s }
  | .wake => some { m with asleep := false }
  | .wakeClient c => some { m with blocked := Function.update m.blocked c false }

inductive Reachable : Monitor n → Prop
  | opened (env : Env) (r : Recovered) : Reachable (opened n env r)
  | turn {m m' : Monitor n} {t : Turn n} (reached : Reachable m) (next : m.turn opts listing t = some m') :
      Reachable m'

variable {opts listing m} {m' : Monitor n}

theorem turn_act {a : Action n} (h : m.turn opts listing (.act a) = some m') :
    m'.system = m.system ∨ m.system.step opts listing a = some m'.system := by
  cases a with
  | background =>
    rw [turn] at h
    split_ifs at h
    obtain ⟨s, hs, rfl⟩ := Option.map_eq_some_iff.mp h
    exact Or.inr hs
  | client =>
    rw [turn] at h
    split_ifs at h
    · cases h
      exact Or.inl rfl
    · obtain ⟨s, hs, rfl⟩ := Option.map_eq_some_iff.mp h
      exact Or.inr hs
    · cases h
      exact Or.inl rfl
  | stop | call | unlink =>
    obtain ⟨s, hs, rfl⟩ := Option.map_eq_some_iff.mp h
    exact Or.inr hs

theorem turn_system {t : Turn n} (h : m.turn opts listing t = some m') :
    m'.system = m.system ∨ ∃ a, m.system.step opts listing a = some m'.system := by
  cases t with
  | act a => exact (turn_act h).imp_right fun hs => ⟨a, hs⟩
  | wake | wakeClient =>
    cases h
    exact Or.inl rfl

/-- Every run with the condition variable is a run of the store. -/
theorem Reachable.run (h : Reachable opts listing m) :
    ∃ env r past, System.Run opts listing (System.opened n env r) past m.system := by
  induction h with
  | opened env r => exact ⟨env, r, [], .start⟩
  | @turn m m' t _ next ih =>
    obtain ⟨env, r, past, hrun⟩ := ih
    rcases turn_system next with hsame | ⟨a, hstep⟩
    · exact ⟨env, r, past, hsame ▸ hrun⟩
    · exact ⟨env, r, _, hrun.step hstep⟩

end Monitor

end KVStore
