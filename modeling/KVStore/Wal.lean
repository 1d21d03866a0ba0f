import KVStore.BitcaskStore
import KVStore.Memtable

namespace KVStore

open Lib CrashProgram

/-- The log beside a memtable. It keeps its records in a log file, as Bitcask does. -/
structure Wal where
  file : LogFile

namespace Wal

open Bitcask

def openAt (name : FileName) (mode : SyncMode) : Io (Except Failure Wal) :=
  orFail (LogFile.openAt name mode) fun file => .ret (.ok ⟨file⟩)

def apply (into : Memtable) (v : Visited) : Memtable :=
  if v.record.isTombstone then into.remove v.record.key else into.put v.record.key v.record.value

variable [Crc]

def append (w : Wal) (key : Key) (value : Value) (tombstone : Bool) (now : Timestamp) :
    Io (Except Failure Unit × Wal) :=
  (w.file.append (Record.encode key (if tombstone then [] else value) now tombstone)).bind fun
    | (.error e, file) => .ret (.error e, ⟨file⟩)
    | (.ok _, file) => .ret (.ok (), ⟨file⟩)

/-- The records go to the memtable in order, and the file is cut off after the last one
that verifies. -/
def replayInto (w : Wal) (into : Memtable) : Io (Except Failure (Nat × Memtable × Wal)) :=
  w.file.reader.bind fun read =>
  let scan := scanRecords read w.file.endOffset
  let mem := scan.1.foldl apply into
  if scan.2 = w.file.endOffset then .ret (.ok (scan.1.length, mem, w))
  else orFail (w.file.truncate scan.2) fun file => .ret (.ok (scan.1.length, mem, ⟨file⟩))

end Wal

end KVStore
