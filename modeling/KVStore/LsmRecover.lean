import KVStore.LsmPrograms

namespace KVStore

open Lib CrashProgram

/-- What recovery hands to the store: the level set and the id of the open log.
The memtable is empty. -/
structure Recovered where
  levels : Levels
  walId : FileId

namespace LsmStore

def sweepTempFiles : LsmIo Unit :=
  .op .listTemps fun names => Prog.forEach names fun name => .op (.removeTemp name) .ret

def disagrees (id : FileId) : Failure :=
  .corruption (text "manifest disagrees with " ++ sstFileName id)

def beyondNextId : Failure := .corruption (text "manifest names a table at or beyond next_id")

def idsExhausted : Failure := .ioError (text "file ids exhausted")

def openLevel (nextId : FileId) : List TableMeta → LsmIo (Except Failure (List SSTable))
  | [] => .ret (.ok [])
  | m :: metas =>
    if nextId ≤ m.id then .ret (.error beyondNextId)
    else
      .op (.openTable m.id) fun
      | none => .ret (.error (noSuchTable m.id))
      | some file =>
        let t : SSTable := ⟨m.id, file⟩
        if t.entryCount ≠ m.entryCount ∨ t.minKey ≠ m.minKey ∨ t.maxKey ≠ m.maxKey then
          .ret (.error (disagrees m.id))
        else LsmIo.andThen (openLevel nextId metas) fun rest => .ret (.ok (t :: rest))

def openLevels (nextId : FileId) : List (List TableMeta) → LsmIo (Except Failure Levels)
  | [] => .ret (.ok [])
  | level :: levels =>
    LsmIo.andThen (openLevel nextId level) fun l =>
    LsmIo.andThen (openLevels nextId levels) fun rest => .ret (.ok (l :: rest))

/-- Tables the manifest does not name are removed. -/
def sweepOrphanTables (named : List FileId) : LsmIo Unit :=
  .op .listTables fun ids =>
  Prog.forEach (ids.filter fun id => id ∉ named) fun id => .op (.removeTable id) .ret

def openFromManifest (set : LevelSet) : LsmIo (Except Failure Levels) :=
  .op (.storeNextId set.nextId) fun _ =>
  LsmIo.andThen (openLevels set.nextId set.levels) fun levels =>
  (sweepOrphanTables (set.levels.flatten.map TableMeta.id)).bind fun _ =>
  .ret (.ok levels)

def passIds : List FileId → LsmIo (Except Failure Unit)
  | [] => .ret (.ok ())
  | id :: ids =>
    if id = maxUInt32 then .ret (.error idsExhausted)
    else
      .op .loadNextId fun nextId =>
      .op (.storeNextId (max nextId (id + 1))) fun _ =>
      passIds ids

def sortIds (ids : List FileId) : List FileId := ids.insertionSort (· ≤ ·)

/-- A directory without a manifest: every table in it is an L0 table. -/
def adoptUnmanifestedLayout : LsmIo (Except Failure Levels) :=
  .op .listTables fun found =>
  .op (.storeNextId kFirstFileId) fun _ =>
  LsmIo.andThen (passIds (sortIds found)) fun _ =>
  LsmIo.andThen (openTables (sortIds found).reverse) fun l0 =>
  .ret (.ok [l0])

def replayInto (mem : Memtable) (records : List Entry) : Memtable :=
  records.foldr
    (fun e m => if e.2.tombstone then m.remove e.1 else m.put e.1 e.2.value) mem

def replayLogs (mem : Memtable) : List FileId → LsmIo Memtable
  | [] => .ret mem
  | id :: ids =>
    .op (.replayLog id) fun log =>
    if log.torn then .op (.truncateLog id) fun _ => replayLogs (replayInto mem log.records) ids
    else replayLogs (replayInto mem log.records) ids

/-- The replayed writes become a table before the logs that hold them go. -/
def installReplayed (opts : LsmOptions) (mem : Memtable) (levels : Levels) (hadManifest : Bool) :
    LsmIo (Except Failure Levels) :=
  if mem.isEmpty then
    if hadManifest then .ret (.ok levels)
    else
      .op .loadNextId fun nextId =>
      LsmIo.andThen (commitManifest levels nextId) fun _ =>
      .ret (.ok levels)
  else
    .op .fetchNextId fun id =>
    .op .loadNextId fun nextId =>
    buildTableUnlocked { opts with failAt := .none } mem.map id levels nextId

def recover (opts : LsmOptions) : LsmIo (Except Failure Recovered) :=
  sweepTempFiles.bind fun _ =>
  .op .readManifest fun stored =>
  LsmIo.andThen
    (match stored with
    | some set => openFromManifest set
    | none => adoptUnmanifestedLayout) fun levels =>
  .op .listLogs fun found =>
  LsmIo.andThen (passIds (sortIds found)) fun _ =>
  (replayLogs Memtable.empty (sortIds found)).bind fun mem =>
  LsmIo.andThen (installReplayed opts mem levels stored.isSome) fun levels' =>
  (Prog.forEach (sortIds found) fun id => .op (.removeLog id) .ret).bind fun _ =>
  .op .fetchNextId fun id =>
  .op (.createLog id) fun _ =>
  .ret (.ok ⟨levels', id⟩)

/-- `open` before the background thread starts. -/
def openStore (opts : LsmOptions) : LsmIo (Except Failure Recovered) :=
  if opts.blockSize = 0 then
    .ret (.error (.invalidArgument (text "block size must not be zero")))
  else recover opts

end LsmStore

end KVStore
