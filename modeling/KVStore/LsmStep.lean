import KVStore.LsmEngine

namespace KVStore

open Lib CrashProgram

/-- What one scheduler step runs: a client enters a call, a client or the
background thread runs its next lock-delimited piece or file operation, the last
reference to an obsolete table goes, or the destructor raises `stopping_`. -/
inductive Action (n : Nat)
  | call (c : Fin n) (call : Call)
  | client (c : Fin n)
  | background
  | unlink (t : SSTable)
  | stop

namespace System

variable {n : Nat} (opts : LsmOptions) (s : System n)

def setClient (c : Fin n) (pc : Client) : System n := { s with engine := s.engine.setClient c pc }

def note (ev : Event n) : System n := { s with trace := ev :: s.trace }

def respond (c : Fin n) (r : Response) : System n := (s.setClient c .idle).note (.respond c r)

def release : System n := { s with engine := { s.engine with writer := none } }

def acquire (c : Fin n) : System n := { s with engine := { s.engine with writer := some c } }

def payloadLimit : Nat := Record.kMaxRecordSize - Record.kHeaderSize

/-- The argument checks of `write_entry`. -/
def beginWrite (c : Fin n) (key : Key) (value : Value) (tombstone : Bool) : System n :=
  if key = [] then s.respond c (.status (.invalidArgument (text "key must not be empty")))
  else if payloadLimit < key.length + (if tombstone then 0 else value.length) then
    s.respond c (.status (.invalidArgument (text "record exceeds the maximum record size")))
  else s.setClient c (.wantWriter (key, ⟨value, tombstone⟩))

def enter (c : Fin n) : Call → System n
  | .put key value => s.beginWrite c key value false
  | .remove key => s.beginWrite c key [] true
  | .get key =>
    if key = [] then s.respond c (.got (Lookup.notPresent.answer key))
    else s.setClient c (.probing key)
  | .scan beginKey endKey => s.setClient c (.scanCalled beginKey endKey)
  | .flush => s.setClient c .flushWantWriter
  | .compact => s.setClient c .compactCalled
  | .waitForBackground => s.setClient c (.waiting .waitForBackground)

/-- The first half of `rotate_memtable`: the table's id, then the new log's. -/
def rotate (c : Fin n) (resume : Resume) : System n :=
  { s with
    env := s.env.fetchNextId.fetchNextId
    engine := (s.engine.rotate s.env.nextId).setClient c
      (.rotating s.env.fetchNextId.nextId resume) }

def afterStall (c : Fin n) (e : Entry) : System n :=
  if !s.engine.backgroundStatus.isOk then
    s.release.respond c (.status s.engine.backgroundStatus)
  else if s.engine.imm.isNone && s.engine.full opts then s.rotate c (.write e)
  else s.setClient c (.appending e)

def checkWrite (c : Fin n) (e : Entry) : System n :=
  if !s.engine.backgroundStatus.isOk then
    s.release.respond c (.status s.engine.backgroundStatus)
  else if s.engine.full opts then
    if s.engine.stallOver then s.afterStall opts c e else s.setClient c (.stalled e)
  else s.setClient c (.appending e)

/-- `flush` past its wait for the memtable already being flushed. -/
def afterFlushStall (c : Fin n) : System n :=
  if !s.engine.backgroundStatus.isOk then
    s.release.respond c (.status s.engine.backgroundStatus)
  else if !s.engine.stopping && s.engine.imm.isNone && !s.engine.mem.isEmpty then s.rotate c .flush
  else s.release.setClient c (.waiting .flush)

def checkFlush (c : Fin n) : System n :=
  if !s.engine.backgroundStatus.isOk then
    s.release.respond c (.status s.engine.backgroundStatus)
  else if s.engine.mem.isEmpty && s.engine.imm.isNone then s.release.respond c (.status .ok)
  else if s.engine.mem.isEmpty then s.release.setClient c (.waiting .flush)
  else if s.engine.stallOver then s.afterFlushStall c
  else s.setClient c .flushStalled

def insert (c : Fin n) (e : Entry) : System n :=
  (({ s with engine := { s.engine with mem := s.engine.mem.insert e.1 e.2.value e.2.tombstone } }
    : System n).note (.insert e)).release.respond c (.status .ok)

def probe (c : Fin n) (key : Key) : System n :=
  let s' := s.note (.probe c key)
  match (s.engine.mem.get key).or (s.engine.imm.bind fun m => m.get key) with
  | some e => s'.respond c (.got ((Lookup.ofEntry (some e)).answer key))
  | none => s'.setClient c (.searching key s.engine.current)

/-- The rows of a scan: the merge of all sources, newest first, without tombstones. -/
def scanRows (beginKey endKey : Key) (memtables : List (List Entry)) (version : Levels) :
    List (Key × Value) :=
  let sources := memtables ++ version.flatten.map SSTable.entries
  ((KWayMerge.merge (sources.map (List.filter (inRange beginKey endKey)))).filter
    fun e => !e.2.tombstone).map fun e => (e.1, e.2.value)

def requestCompaction (c : Fin n) : System n :=
  if !s.engine.backgroundStatus.isOk then s.respond c (.status s.engine.backgroundStatus)
  else
    ({ s with engine := { s.engine with compactRequested := true } } : System n).setClient c
      (.waiting .compact)

def clientStep (c : Fin n) : Option (System n) :=
  match s.engine.clients c with
  | .idle => none
  | .wantWriter e =>
    if s.engine.writer = none then some ((s.acquire c).setClient c (.checking e)) else none
  | .checking e => some (s.checkWrite opts c e)
  | .stalled e => if s.engine.stallOver then some (s.afterStall opts c e) else none
  | .rotating next resume =>
    some (({ s with env := s.env.createLog next } : System n).setClient c (.rotated next resume))
  | .rotated next resume =>
    let s' : System n := { s with engine := { s.engine with walId := next } }
    match resume with
    | .write e => some (s'.setClient c (.appending e))
    | .flush => some (s'.release.setClient c (.waiting .flush))
  | .appending e =>
    some (({ s with env := s.env.appendLog s.engine.walId e } : System n).setClient c
      (.inserting e))
  | .inserting e => some (s.insert c e)
  | .probing key => some (s.probe c key)
  | .searching key version => some (s.respond c (.got ((version.search key).answer key)))
  | .scanCalled beginKey endKey =>
    some (s.setClient c (.scanning beginKey endKey
      (s.engine.mem.map :: (s.engine.imm.map Memtable.map).toList) s.engine.current))
  | .scanning beginKey endKey memtables version =>
    some (s.respond c (.rows (scanRows beginKey endKey memtables version)))
  | .flushWantWriter =>
    if s.engine.writer = none then some ((s.acquire c).setClient c .flushChecking) else none
  | .flushChecking => some (s.checkFlush c)
  | .flushStalled => if s.engine.stallOver then some (s.afterFlushStall c) else none
  | .compactCalled => some (s.requestCompaction c)
  | .waiting _ =>
    if s.engine.settled then some (s.respond c (.status s.engine.backgroundStatus)) else none

def backgroundStep (listing : Listing) : Option (System n) :=
  let e := s.engine
  match e.background with
  | .waiting => some { s with engine := e.backgroundLoop opts s.env }
  | .exited => none
  | .undefined => none
  | .flushing wal (.op o k) =>
    let r := s.env.exec listing o
    some { s with env := r.2, engine := { e with background := .flushing wal (k r.1) } }
  | .flushing wal (.ret built) => some { s with engine := e.installFlush opts s.env wal built }
  | .retiring wal =>
    some { s with
      env := { s.env with logs := s.env.logs.erase wal }
      engine := { e with background := .retired } }
  | .retired => some { s with engine := e.endFlush opts s.env .ok true }
  | .compacting run work (.op o k) =>
    let r := s.env.exec listing o
    some { s with env := r.2, engine := { e with background := .compacting run work (k r.1) } }
  | .compacting run _ (.ret (.error f)) =>
    some { s with engine := e.endRun opts s.env f.status (0 < run.steps) }
  | .compacting run work (.ret (.ok ids)) =>
    if opts.failAt = .afterWritingTable then
      some { s with engine := e.endRun opts s.env .ok (0 < run.steps) }
    else
      some { s with engine := { e with
        background := .renamingOutputs run work ids (LsmStore.renameOutputs ids) } }
  | .renamingOutputs run work ids (.op o k) =>
    let r := s.env.exec listing o
    some { s with env := r.2, engine := { e with background := .renamingOutputs run work ids (k r.1) } }
  | .renamingOutputs run _ _ (.ret (.error f)) =>
    some { s with engine := e.endRun opts s.env f.status (0 < run.steps) }
  | .renamingOutputs run work ids (.ret (.ok _)) =>
    if opts.failAt = .afterInstallingTable then
      some { s with engine := e.endRun opts s.env .ok (0 < run.steps) }
    else
      some { s with engine := { e with
        background := .committing run work (LsmStore.commitCompaction work e.levels ids) } }
  | .committing run work (.op o k) =>
    let r := s.env.exec listing o
    some { s with env := r.2, engine := { e with background := .committing run work (k r.1) } }
  | .committing run _ (.ret (.error f)) =>
    some { s with engine := e.endRun opts s.env f.status (0 < run.steps) }
  | .committing run work (.ret (.ok levels)) =>
    some { s with engine := e.installCompaction opts run work levels }
  | .marking run work =>
    some { s with engine := { e with
      obsolete := work.tables ++ e.obsolete
      background := .finishing run } }
  | .finishing run =>
    if run.force then some { s with engine := e.nextStep opts s.env run }
    else some { s with engine := e.endRun opts s.env .ok true }

def referenced (t : SSTable) : Bool :=
  t ∈ s.engine.levels.flatten || t ∈ s.engine.current.flatten ||
    t ∈ s.engine.background.holds || decide (∃ c, t ∈ (s.engine.clients c).holds)

/-- The step function of a running store. Undefined behaviour ends every run. -/
def step (listing : Listing) (a : Action n) : Option (System n) :=
  match s.engine.background with
  | .undefined => none
  | _ =>
    match a with
    | .call c call =>
      match s.engine.clients c with
      | .idle =>
        if s.engine.stopping then none else some ((s.note (.invoke c call)).enter c call)
      | _ => none
    | .client c => s.clientStep opts c
    | .background => s.backgroundStep opts listing
    | .unlink t =>
      if t ∈ s.engine.obsolete ∧ s.referenced t = false then
        some { s with
          env := { s.env with tables := s.env.tables.erase t.id }
          engine := { s.engine with obsolete := s.engine.obsolete.erase t } }
      else none
    | .stop =>
      if ∀ c, s.engine.clients c matches .idle then
        some { s with engine := { s.engine with stopping := true } }
      else none

end System

end KVStore
