import KVStore.LsmRecover

namespace KVStore

open Lib CrashProgram

inductive Call
  | put (key : Key) (value : Value)
  | remove (key : Key)
  | get (key : Key)
  | scan (beginKey endKey : Key)
  | flush
  | compact
  | waitForBackground
  deriving DecidableEq

inductive Response
  | status (s : Status)
  | got (answer : Status × Option Value)
  | rows (rows : List (Key × Value))
  deriving DecidableEq

/-- What a rotation returns to: the write that found the memtable full, or `flush`. -/
inductive Resume
  | write (e : Entry)
  | flush
  deriving DecidableEq

/-- Where a client stands between two lock operations. -/
inductive Client
  | idle
  | wantWriter (e : Entry)
  | checking (e : Entry)
  | stalled (e : Entry)
  | rotating (next : FileId) (resume : Resume)
  | rotated (next : FileId) (resume : Resume)
  | appending (e : Entry)
  | inserting (e : Entry)
  | probing (key : Key)
  | searching (key : Key) (version : Levels)
  | scanCalled (beginKey endKey : Key)
  | scanning (beginKey endKey : Key) (memtables : List (List Entry)) (version : Levels)
  | flushWantWriter
  | flushChecking
  | flushStalled
  | compactCalled
  | waiting (call : Call)
  deriving DecidableEq

/-- The locals of a compaction run: was it requested, and how many steps it has done. -/
structure CompactionRun where
  force : Bool
  steps : Nat

/-- Where the background thread stands between two lock or file operations. -/
inductive Background
  | waiting
  | exited
  | undefined
  | flushing (retiringWal : FileId) (io : LsmIo (Except Failure Levels))
  | retiring (wal : FileId)
  | retired
  | compacting (run : CompactionRun) (work : Compaction) (io : LsmIo (Except Failure (List FileId)))
  | renamingOutputs (run : CompactionRun) (work : Compaction) (ids : List FileId)
      (io : LsmIo (Except Failure Unit))
  | committing (run : CompactionRun) (work : Compaction) (io : LsmIo (Except Failure Levels))
  | marking (run : CompactionRun) (work : Compaction)
  | finishing (run : CompactionRun)

structure Engine (n : Nat) where
  mem : Memtable
  imm : Option Memtable
  immWalId : FileId
  immTableId : FileId
  walId : FileId
  levels : Levels
  current : Levels
  compactPointer : List Key
  backgroundBusy : Bool
  compactRequested : Bool
  haltedByFailPoint : Bool
  stopping : Bool
  backgroundStatus : Status
  writer : Option (Fin n)
  clients : Fin n → Client
  background : Background
  obsolete : List SSTable

/-- What happened, newest first, for the statements only. -/
inductive Event (n : Nat)
  | invoke (c : Fin n) (call : Call)
  | insert (e : Entry)
  | probe (c : Fin n) (key : Key)
  | respond (c : Fin n) (response : Response)
  deriving DecidableEq

structure System (n : Nat) where
  env : Env
  engine : Engine n
  trace : List (Event n)

-- The clients of the stores of one and of two are numerals.
instance neZero_one : NeZero 1 := ⟨by decide⟩
instance neZero_two : NeZero 2 := ⟨by decide⟩

namespace Engine

variable {n : Nat} (opts : LsmOptions) (e : Engine n)

def ofRecovered (n : Nat) (r : Recovered) : Engine n where
  mem := .empty
  imm := none
  immWalId := 0
  immTableId := 0
  walId := r.walId
  levels := r.levels
  current := r.levels
  compactPointer := []
  backgroundBusy := false
  compactRequested := false
  haltedByFailPoint := false
  stopping := false
  backgroundStatus := .ok
  writer := none
  clients := fun _ => .idle
  background := .waiting
  obsolete := []

def setClient (c : Fin n) (pc : Client) : Engine n :=
  { e with clients := Function.update e.clients c pc }

def idle : Bool := e.stopping || !e.backgroundStatus.isOk || e.haltedByFailPoint

def pick (force : Bool) : Pick := Levels.pickCompaction opts e.levels e.compactPointer force

def pickStep (force : Bool) : Pick :=
  match e.pick opts false with
  | .nothing => if force then e.pick opts true else .nothing
  | picked => picked

def stallOver : Bool := e.idle || e.imm.isNone

def settled : Bool :=
  e.idle || (!e.backgroundBusy && e.imm.isNone && !e.compactRequested)

def full : Bool := opts.memtableSize ≤ e.mem.approximateBytes

/-- The locked first half of `rotate_memtable`; the ids were just claimed. -/
def rotate (tableId : FileId) : Engine n :=
  { e with imm := some e.mem, immWalId := e.walId, immTableId := tableId, mem := .empty }

/-- `run_flush` up to the unlock. -/
def beginFlush (env : Env) (table : Memtable) : Engine n :=
  { e with
    backgroundBusy := true
    background := .flushing e.immWalId
      (LsmStore.buildTableUnlocked opts table.map e.immTableId e.levels env.nextId) }

/-- The end of a compaction run that found nothing to do at all: no progress, so
the flag goes up, and the loop finds the thread idle. -/
def haltRun : Engine n :=
  { e with
    haltedByFailPoint := true
    compactRequested := false
    backgroundBusy := false
    background := .waiting }

/-- One turn of `background_loop`, with the lock held, up to the next unlock. -/
def backgroundLoop (env : Env) : Engine n :=
  if e.stopping then { e with background := .exited }
  else if e.idle then { e with background := .waiting }
  else
    match e.imm with
    | some table => e.beginFlush opts env table
    | none =>
      if e.compactRequested || Levels.needsCompaction opts e.levels e.compactPointer then
        match e.pickStep opts e.compactRequested with
        | .nothing => e.haltRun
        | .undefined => { e with background := .undefined }
        | .work c =>
          { e with
            backgroundBusy := true
            background := .compacting ⟨e.compactRequested, 0⟩ c
              (LsmStore.writeCompaction opts c) }
      else { e with background := .waiting }

/-- A background operation returned: record a failure, and go round the loop. -/
def endFlush (env : Env) (s : Status) (progressed : Bool) : Engine n :=
  backgroundLoop opts
    { e with
      backgroundStatus := if s.isOk then e.backgroundStatus else s
      haltedByFailPoint := e.haltedByFailPoint || (s.isOk && !progressed)
      backgroundBusy := false } env

def endRun (env : Env) (s : Status) (progressed : Bool) : Engine n :=
  backgroundLoop opts
    { e with
      backgroundStatus := if s.isOk then e.backgroundStatus else s
      haltedByFailPoint := e.haltedByFailPoint || (s.isOk && !progressed)
      compactRequested := false
      backgroundBusy := false } env

def maxSteps : Nat := 10000

/-- The head of the loop in `run_compaction` after at least one step. -/
def nextStep (env : Env) (run : CompactionRun) : Engine n :=
  if maxSteps ≤ run.steps then
    e.endRun opts env (.ioError (text "compaction failed to converge")) true
  else if e.stopping then e.endRun opts env .ok true
  else
    match e.pickStep opts run.force with
    | .nothing => e.endRun opts env .ok true
    | .undefined => { e with background := .undefined }
    | .work c => { e with background := .compacting run c (LsmStore.writeCompaction opts c) }

def installFlush (env : Env) (retiringWal : FileId) : Except Failure Levels → Engine n
  | .error f => e.endFlush opts env f.status false
  | .ok levels =>
    if opts.failAt = .afterWritingTable ∨ opts.failAt = .afterInstallingTable then
      e.endFlush opts env .ok false
    else if opts.failAt = .afterManifestCommit then
      endFlush opts { e with levels := levels, current := levels } env .ok false
    else
      { e with levels := levels, current := levels, imm := none, background := .retiring retiringWal }

def setPointer (pointers : List Key) (level : Nat) (key : Key) : List Key :=
  (pointers ++ List.replicate (level + 1 - pointers.length) []).set level key

def installCompaction (run : CompactionRun) (work : Compaction) (levels : Levels) : Engine n :=
  { e with
    levels := levels
    current := levels
    compactPointer := setPointer e.compactPointer work.level work.endKey
    background := if opts.failAt = .afterManifestCommit then .finishing ⟨run.force, run.steps + 1⟩
      else .marking ⟨run.force, run.steps + 1⟩ work }

end Engine

namespace Client

def holds : Client → List SSTable
  | .searching _ version => version.flatten
  | .scanning _ _ _ version => version.flatten
  | _ => []

end Client

namespace Background

def holds : Background → List SSTable
  | .compacting _ work _ => work.tables
  | .renamingOutputs _ work _ _ => work.tables
  | .committing _ work _ => work.tables
  | .marking _ work => work.tables
  | _ => []

end Background

end KVStore
