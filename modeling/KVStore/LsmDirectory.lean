import KVStore.CompactOnce
import KVStore.Lib.CrashProgram

namespace KVStore

open Lib CrashProgram

structure TableMeta where
  id : FileId
  fileSize : Nat
  entryCount : Nat
  minKey : Key
  maxKey : Key
  deriving DecidableEq, Repr

structure LevelSet where
  nextId : FileId
  levels : List (List TableMeta)
  deriving DecidableEq, Repr

def SSTable.tableMeta (t : SSTable) : TableMeta :=
  ⟨t.id, t.fileSize, t.entryCount, t.minKey, t.maxKey⟩

/-- The manifest is a projection of the level set in memory. -/
def levelSetOf (levels : Levels) (nextId : FileId) : LevelSet :=
  ⟨nextId, levels.map fun level => level.map SSTable.tableMeta⟩

theorem flatten_levelSetOf (levels : Levels) (nextId : FileId) :
    (levelSetOf levels nextId).levels.flatten = levels.flatten.map SSTable.tableMeta :=
  List.map_flatten.symm

/-- A write-ahead log: the records that are whole, newest first, and whether a
torn one follows them. -/
structure Log where
  records : List Entry
  torn : Bool
  deriving DecidableEq

inductive TempName
  | manifest
  | table (id : FileId)
  deriving DecidableEq, Repr

/-- The directory and the id counter, which the threads share outside the locks.
A temp file holds `none` until it is complete. `issued` counts the ids handed out
over the life of the directory, for the statements only. -/
structure Env where
  manifest : Option LevelSet
  manifestTemp : Option (Option LevelSet)
  tables : AList fun _ : FileId => TableFile
  tableTemps : AList fun _ : FileId => Option TableFile
  logs : AList fun _ : FileId => Log
  nextId : FileId
  issued : Nat

namespace Env

def empty : Env := ⟨none, none, ∅, ∅, ∅, kFirstFileId, 0⟩

def temps (s : Env) : List TempName :=
  (if s.manifestTemp.isSome then [.manifest] else []) ++ s.tableTemps.keys.map .table

def removeTemp (s : Env) : TempName → Env
  | .manifest => { s with manifestTemp := none }
  | .table id => { s with tableTemps := s.tableTemps.erase id }

def renameTable (s : Env) (id : FileId) : Bool × Env :=
  match s.tableTemps.lookup id with
  | some (some f) =>
    (true, { s with tables := s.tables.insert id f, tableTemps := s.tableTemps.erase id })
  | _ => (false, s)

def renameManifest (s : Env) : Bool × Env :=
  match s.manifestTemp with
  | some (some set) => (true, { s with manifest := some set, manifestTemp := none })
  | _ => (false, s)

/-- Opening a log creates it when it is missing. -/
def createLog (s : Env) (id : FileId) : Env :=
  { s with logs := s.logs.insert id ((s.logs.lookup id).getD ⟨[], false⟩) }

def appendLog (s : Env) (id : FileId) (e : Entry) : Env :=
  match s.logs.lookup id with
  | some log => { s with logs := s.logs.insert id { log with records := e :: log.records } }
  | none => s

def tearLog (s : Env) (id : FileId) : Env :=
  match s.logs.lookup id with
  | some log => { s with logs := s.logs.insert id { log with torn := true } }
  | none => s

def truncateLog (s : Env) (id : FileId) : Env :=
  match s.logs.lookup id with
  | some log => { s with logs := s.logs.insert id { log with torn := false } }
  | none => s

def fetchNextId (s : Env) : Env :=
  { s with nextId := (s.nextId + 1) % fileIdLimit, issued := s.issued + 1 }

end Env

/-- The operations of the engine on the directory and the id counter. -/
inductive Op
  | listTemps
  | removeTemp (name : TempName)
  | readManifest
  | listTables
  | openTable (id : FileId)
  | removeTable (id : FileId)
  | listLogs
  | replayLog (id : FileId)
  | truncateLog (id : FileId)
  | createLog (id : FileId)
  | removeLog (id : FileId)
  | loadNextId
  | storeNextId (id : FileId)
  | fetchNextId
  | createTableTemp (id : FileId)
  | writeTableTemp (id : FileId) (file : TableFile)
  | renameTable (id : FileId)
  | createManifestTemp
  | writeManifestTemp (set : LevelSet)
  | renameManifest

abbrev Res : Op → Type
  | .listTemps => List TempName
  | .readManifest => Option LevelSet
  | .listTables => List FileId
  | .openTable _ => Option TableFile
  | .listLogs => List FileId
  | .replayLog _ => Log
  | .loadNextId => FileId
  | .fetchNextId => FileId
  | .renameTable _ => Bool
  | .renameManifest => Bool
  | _ => Unit

/-- File names with id zero are not recognised. -/
def recognised (ids : List FileId) : List FileId := ids.filter (kFirstFileId ≤ ·)

def Env.exec (listing : Listing) : (o : Op) → Env → Res o × Env
  | .listTemps, s => (listing.order s.temps, s)
  | .removeTemp name, s => ((), s.removeTemp name)
  | .readManifest, s => (s.manifest, s)
  | .listTables, s => (listing.order (recognised s.tables.keys), s)
  | .openTable id, s => (s.tables.lookup id, s)
  | .removeTable id, s => ((), { s with tables := s.tables.erase id })
  | .listLogs, s => (listing.order (recognised s.logs.keys), s)
  | .replayLog id, s => ((s.logs.lookup id).getD ⟨[], false⟩, s)
  | .truncateLog id, s => ((), s.truncateLog id)
  | .createLog id, s => ((), s.createLog id)
  | .removeLog id, s => ((), { s with logs := s.logs.erase id })
  | .loadNextId, s => (s.nextId, s)
  | .storeNextId id, s => ((), { s with nextId := id })
  | .fetchNextId, s => (s.nextId, s.fetchNextId)
  | .createTableTemp id, s => ((), { s with tableTemps := s.tableTemps.insert id none })
  | .writeTableTemp id f, s => ((), { s with tableTemps := s.tableTemps.insert id (some f) })
  | .renameTable id, s => s.renameTable id
  | .createManifestTemp, s => ((), { s with manifestTemp := some none })
  | .writeManifestTemp set, s => ((), { s with manifestTemp := some (some set) })
  | .renameManifest, s => s.renameManifest

/-- What an operation does to the files under their names and to the counter. -/
inductive Env.Executes (s : Env) : Op → Env → Prop
  | aside {o : Op} {s' : Env} (manifest : s'.manifest = s.manifest) (tables : s'.tables = s.tables)
      (logs : s'.logs = s.logs) (nextId : s'.nextId = s.nextId) (issued : s'.issued = s.issued) : Executes s o s'
  | place {id : FileId} {f : TableFile} (temp : s.tableTemps.lookup id = some (some f)) :
      Executes s (.renameTable id) { s with tables := s.tables.insert id f, tableTemps := s.tableTemps.erase id }
  | removeTable (id : FileId) : Executes s (.removeTable id) { s with tables := s.tables.erase id }
  | truncate {id : FileId} {log : Log} (found : s.logs.lookup id = some log) :
      Executes s (.truncateLog id) { s with logs := s.logs.insert id { log with torn := false } }
  | createLog (id : FileId) : Executes s (.createLog id) (s.createLog id)
  | removeLog (id : FileId) : Executes s (.removeLog id) { s with logs := s.logs.erase id }
  | storeNextId (id : FileId) : Executes s (.storeNextId id) { s with nextId := id }
  | fetchNextId : Executes s .fetchNextId s.fetchNextId
  | commit {set : LevelSet} (temp : s.manifestTemp = some (some set)) :
      Executes s .renameManifest { s with manifest := some set, manifestTemp := none }

theorem Env.executes (s : Env) (listing : Listing) (o : Op) : s.Executes o (s.exec listing o).2 := by
  cases o with
  | removeTable id => exact .removeTable id
  | createLog id => exact .createLog id
  | removeLog id => exact .removeLog id
  | storeNextId id => exact .storeNextId id
  | fetchNextId => exact .fetchNextId
  | removeTemp name => cases name <;> exact .aside rfl rfl rfl rfl rfl
  | truncateLog =>
    simp only [exec, truncateLog]
    split
    next hfound => exact .truncate hfound
    next => exact .aside rfl rfl rfl rfl rfl
  | renameTable =>
    simp only [exec, renameTable]
    split
    next htemp => exact .place htemp
    next => exact .aside rfl rfl rfl rfl rfl
  | renameManifest =>
    simp only [exec, renameManifest]
    split
    next htemp => exact .commit htemp
    next => exact .aside rfl rfl rfl rfl rfl
  | _ => exact .aside rfl rfl rfl rfl rfl

theorem Env.Executes.issued_eq {s s' : Env} {o : Op} (h : s.Executes o s') :
    s'.issued = s.issued ∨ o = .fetchNextId := by
  cases h with
  | aside _ _ _ _ issued => exact Or.inl issued
  | fetchNextId => exact Or.inr rfl
  | _ => exact Or.inl rfl

theorem Env.issued_le_exec (listing : Listing) (o : Op) (s : Env) : s.issued ≤ (s.exec listing o).2.issued := by
  rcases (s.executes listing o).issued_eq with hsame | rfl
  · exact hsame.ge
  · exact Nat.le_succ _

/-- A crash inside an operation leaves what was there before it: only temp files
are written piecewise, and a temp file is incomplete until its last byte. -/
def lsmMachine (listing : Listing) : Machine Op Res Env where
  exec := Env.exec listing
  torn := fun _ s s' => s' = s

abbrev LsmIo (α : Type) := Prog Op Res α

end KVStore
