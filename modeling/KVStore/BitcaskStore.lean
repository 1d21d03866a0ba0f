import KVStore.BitcaskFiles
import KVStore.Hint
import KVStore.Lib.SortedRun

namespace KVStore

open Lib CrashProgram

inductive SyncMode
  | always
  | never
  deriving DecidableEq, Repr

structure LogFile where
  name : FileName
  endOffset : Nat
  syncMode : SyncMode
  isOpen : Bool
  deriving DecidableEq, Repr

namespace LogFile

open Bitcask

def closed (what : String) (name : FileName) : Failure :=
  .ioError (text what ++ text " on a closed file: " ++ name.text)

def shortRead (name : FileName) : Failure :=
  .corruption (text "short read: " ++ name.text ++ text " ends inside the record")

def openAt (name : FileName) (mode : SyncMode) : Io (Except Failure LogFile) :=
  .op (.openFile name) fun
    | .error f => .ret (.error f)
    | .ok size => .ret (.ok ⟨name, size, mode, true⟩)

def sync (file : LogFile) : Io (Except Failure Unit) :=
  if file.isOpen then .op (.sync file.name) .ret else .ret (.error (closed "fsync" file.name))

/-- The offset moves before the fsync, and whether or not the fsync succeeds. -/
def append (file : LogFile) (bytes : Bytes) : Io (Except Failure Nat × LogFile) :=
  if file.isOpen then
    .op (.pwrite file.name file.endOffset bytes) fun
      | .error f => .ret (.error f, file)
      | .ok _ =>
        let file' := { file with endOffset := file.endOffset + bytes.length }
        match file.syncMode with
        | .never => .ret (.ok file.endOffset, file')
        | .always => file'.sync.bind fun
            | .error f => .ret (.error f, file')
            | .ok _ => .ret (.ok file.endOffset, file')
  else .ret (.error (closed "append" file.name), file)

/-- The `read_at` calls on the file, as a function of offset and size. -/
def reader (file : LogFile) : Io (Nat → Nat → Option Bytes) :=
  if file.isOpen then
    .op (.reader file.name) fun
      | .error _ => .ret fun _ _ => none
      | .ok read => .ret read
  else .ret fun _ _ => none

def readAt (file : LogFile) (offset size : Nat) : Io (Except Failure Bytes) :=
  if file.isOpen then
    .op (.reader file.name) fun
      | .error f => .ret (.error f)
      | .ok read =>
        match read offset size with
        | none => .ret (.error (shortRead file.name))
        | some bytes => .ret (.ok bytes)
  else .ret (.error (closed "read" file.name))

def truncate (file : LogFile) (length : Nat) : Io (Except Failure LogFile) :=
  if file.isOpen then
    .op (.truncate file.name length) fun
      | .error f => .ret (.error f)
      | .ok _ =>
        let file' := { file with endOffset := length }
        file'.sync.bind fun
          | .error f => .ret (.error f)
          | .ok _ => .ret (.ok file')
  else .ret (.error (closed "truncate" file.name))

/-- The descriptor is gone even when closing it reports an error. -/
def close (file : LogFile) : Io (Except Failure Unit × LogFile) :=
  if file.isOpen then .op (.close file.name) fun r => .ret (r, { file with isOpen := false })
  else .ret (.ok (), file)

end LogFile

structure ValuePointer where
  offset : Nat
  timestamp : Timestamp
  fileId : FileId
  size : Nat
  deriving DecidableEq, Repr

/-- The index and the dead bytes counted beside it. -/
structure Keydir where
  index : AList fun _ : Key => ValuePointer
  deadBytes : AList fun _ : FileId => Nat

namespace Keydir

def empty : Keydir := ⟨∅, ∅⟩

def markDead (k : Keydir) (id : FileId) (size : Nat) : Keydir :=
  { k with deadBytes := k.deadBytes.insert id ((k.deadBytes.lookup id).getD 0 + size) }

def put (k : Keydir) (key : Key) (pointer : ValuePointer) : Keydir :=
  let k' := { k with index := k.index.insert key pointer }
  match k.index.lookup key with
  | none => k'
  | some displaced => k'.markDead displaced.fileId displaced.size

def erase (k : Keydir) (key : Key) : Keydir :=
  match k.index.lookup key with
  | none => k
  | some buried => ({ k with index := k.index.erase key } : Keydir).markDead buried.fileId buried.size

def replayRecord (id : FileId) (k : Keydir) (v : Visited) : Keydir :=
  if v.record.isTombstone then (k.erase v.record.key).markDead id v.record.totalSize
  else k.put v.record.key ⟨v.offset, v.record.timestamp, id, v.record.totalSize⟩

def replayEntry (id : FileId) (k : Keydir) (e : Hint.Entry) : Keydir :=
  k.put e.key ⟨e.recordOffset, e.timestamp, id, e.recordSize⟩

end Keydir

inductive CompactionFailPoint
  | none
  | afterWritingTemp
  | afterInstallingOutput
  | midInputDelete
  deriving DecidableEq, Repr

structure BitcaskOptions where
  syncMode : SyncMode := .always
  maxFileSize : Nat := 64 * 2 ^ 20
  ignoreHints : Bool := false
  failAt : CompactionFailPoint := .none
  deriving DecidableEq, Repr

/-- An open store. `files_` is kept as the active file and the sealed ones, whose
ids are all smaller, in ascending order. -/
structure Bitcask where
  options : BitcaskOptions
  sealedFiles : List (FileId × LogFile)
  activeId : FileId
  active : LogFile
  keydir : Keydir

namespace Bitcask

/-- `KVSTORE_RETURN_IF_ERROR` in a member function. -/
def andThen {α β : Type} (p : Io (Except Failure α × Bitcask))
    (f : α → Bitcask → Io (Except Failure β × Bitcask)) : Io (Except Failure β × Bitcask) :=
  p.bind fun
    | (.error e, s) => .ret (.error e, s)
    | (.ok a, s) => f a s

def orFail {α β : Type} (p : Io (Except Failure α)) (f : α → Io (Except Failure β)) :
    Io (Except Failure β) :=
  p.bind fun
    | .error e => .ret (.error e)
    | .ok a => f a

def attempt {β : Type} (s : Bitcask) (o : Op) (f : Val o → Io (Except Failure β × Bitcask)) :
    Io (Except Failure β × Bitcask) :=
  .op o fun
    | .error e => .ret (.error e, s)
    | .ok a => f a

def idsExhausted : Failure := .ioError (text "file ids exhausted")
def emptyKey : Failure := .invalidArgument (text "key must not be empty")
def recordTooLarge : Failure := .invalidArgument (text "record exceeds the maximum record size")

def rotate (s : Bitcask) : Io (Except Failure Unit × Bitcask) :=
  s.active.sync.bind fun
    | .error e => .ret (.error e, s)
    | .ok _ =>
      if s.activeId = maxUInt32 then .ret (.error idsExhausted, s)
      else
        attempt s (.openFile (.log (s.activeId + 1))) fun size =>
        let s' := { s with
          sealedFiles := s.sealedFiles ++ [(s.activeId, s.active)]
          activeId := s.activeId + 1
          active := ⟨.log (s.activeId + 1), size, s.options.syncMode, true⟩ }
        attempt s' .syncDir fun _ => .ret (.ok (), s')

def rotateIfNeeded (s : Bitcask) (incoming : Nat) : Io (Except Failure Unit × Bitcask) :=
  if s.active.endOffset = 0 then .ret (.ok (), s)
  else if s.active.endOffset + incoming ≤ s.options.maxFileSize then .ret (.ok (), s)
  else s.rotate

variable [Crc]

def appendRecord (s : Bitcask) (bytes : Bytes) : Io (Except Failure Nat × Bitcask) :=
  andThen (s.rotateIfNeeded bytes.length) fun _ s =>
  (s.active.append bytes).bind fun (r, file) => .ret (r, { s with active := file })

def put (s : Bitcask) (key : Key) (value : Value) (now : Timestamp) :
    Io (Except Failure Unit × Bitcask) :=
  if key = [] then .ret (.error emptyKey, s)
  else if ¬ Record.Fits key value then .ret (.error recordTooLarge, s)
  else
    let bytes := Record.encode key value now false
    andThen (s.appendRecord bytes) fun offset s =>
    .ret (.ok (), { s with keydir := s.keydir.put key ⟨offset, now, s.activeId, bytes.length⟩ })

def remove (s : Bitcask) (key : Key) (now : Timestamp) : Io (Except Failure Unit × Bitcask) :=
  if key = [] then .ret (.error emptyKey, s)
  else if ¬ Record.Fits key [] then .ret (.error recordTooLarge, s)
  else
    let bytes := Record.encode key [] now true
    andThen (s.appendRecord bytes) fun _ s =>
    .ret (.ok (), { s with keydir := (s.keydir.erase key).markDead s.activeId bytes.length })

def file (s : Bitcask) (id : FileId) : Option LogFile :=
  if id = s.activeId then some s.active else SortedRun.find id s.sealedFiles

def noSuchKey (key : Key) : Status := .notFound (text "no such key: " ++ key)

def get (s : Bitcask) (key : Key) : Io (Status × Option Value) :=
  match s.keydir.index.lookup key with
  | none => .ret (noSuchKey key, none)
  | some pointer =>
    match s.file pointer.fileId with
    | none => .ret (.corruption (text "index points at file " ++ text (toString pointer.fileId) ++
        text ", which is not open"), none)
    | some file =>
      (file.readAt pointer.offset pointer.size).bind fun
        | .error e => .ret (e.status, none)
        | .ok bytes =>
          match Record.decode bytes with
          | .error e => .ret (e.status, none)
          | .ok record =>
            if record.key ≠ key then
              .ret (.corruption (text "index points at a record for a different key"), none)
            else if record.isTombstone then
              .ret (.corruption (text "index points at a tombstone"), none)
            else .ret (.ok, some record.value)

def damaged (name : FileName) (goodEnd : Nat) : Failure :=
  .corruption (text "sealed data file " ++ name.text ++ text " fails to verify at offset " ++
    text (toString goodEnd) ++
    text "; it was written and fsynced in full, so this is damage, not a torn write")

def replayFile (id : FileId) (file : LogFile) (isActive : Bool) (k : Keydir) :
    Io (Except Failure (LogFile × Keydir)) :=
  file.reader.bind fun read =>
  let scan := scanRecords read file.endOffset
  let k' := scan.1.foldl (Keydir.replayRecord id) k
  if scan.2 = file.endOffset then .ret (.ok (file, k'))
  else if isActive then orFail (file.truncate scan.2) fun file' => .ret (.ok (file', k'))
  else .ret (.error (damaged file.name scan.2))

/-- `none` when the hint is not there or not to be trusted. -/
def replayHint (id : FileId) (file : LogFile) : Io (Option (List Hint.Entry)) :=
  .op (.fileExists (.hint id)) fun
    | .error _ | .ok false => .ret none
    | .ok true =>
      .op (.openFile (.hint id)) fun
        | .error _ => .ret none
        | .ok size =>
          .op (.reader (.hint id)) fun
            | .error _ => .ret none
            | .ok read => .ret (Hint.readHint read size file.endOffset)

def openSealedFile (opts : BitcaskOptions) (id : FileId) (k : Keydir) :
    Io (Except Failure (LogFile × Keydir)) :=
  orFail (LogFile.openAt (.log id) opts.syncMode) fun file =>
  if opts.ignoreHints then replayFile id file false k
  else
    (replayHint id file).bind fun
      | some entries => .ret (.ok (file, entries.foldl (Keydir.replayEntry id) k))
      | none => replayFile id file false k

def openSealedFiles (opts : BitcaskOptions) :
    List FileId → Keydir → Io (Except Failure (List (FileId × LogFile) × Keydir))
  | [], k => .ret (.ok ([], k))
  | id :: ids, k =>
    orFail (openSealedFile opts id k) fun (file, k') =>
    orFail (openSealedFiles opts ids k') fun (files, k'') =>
    .ret (.ok ((id, file) :: files, k''))

/-- The files in ascending order, the last one as the active file. -/
def openFiles (opts : BitcaskOptions) (sealedIds : List FileId) (activeId : FileId) :
    Io (Except Failure Bitcask) :=
  orFail (openSealedFiles opts sealedIds .empty) fun (sealedFiles, k) =>
  orFail (LogFile.openAt (.log activeId) opts.syncMode) fun file =>
  orFail (replayFile activeId file true k) fun (file', k') =>
  .ret (.ok ⟨opts, sealedFiles, activeId, file', k'⟩)

def removeTemps : List FileName → Io (Except Failure Unit)
  | [] => .ret (.ok ())
  | name :: names =>
    .op (.remove name) fun
      | .error e => .ret (.error e)
      | .ok _ => removeTemps names

def sweepTempFiles : Io (Except Failure Unit) :=
  .op .list fun
    | .error e => .ret (.error e)
    | .ok names =>
      let temps := names.filter FileName.isTempName
      orFail (removeTemps temps) fun _ =>
      if temps = [] then .ret (.ok ()) else .op .syncDir .ret

/-- A hint without its data file goes; the removal may fail. -/
def removeOrphanHints (ids hintIds : List FileId) : Io Unit :=
  Prog.forEach (hintIds.filter fun id => id ∉ ids) fun id => .op (.remove (.hint id)) fun _ => .ret ()

def recover (opts : BitcaskOptions) : Io (Except Failure Bitcask) :=
  orFail sweepTempFiles fun _ =>
  .op .list fun
    | .error e => .ret (.error e)
    | .ok names =>
      let found := (names.filterMap FileName.parseLogFileId).insertionSort (· ≤ ·)
      (removeOrphanHints found (names.filterMap FileName.parseHintFileId)).bind fun _ =>
      let ids := if found = [] then [kFirstFileId] else found
      openFiles opts ids.dropLast (ids.getLastD kFirstFileId)

end Bitcask

end KVStore
