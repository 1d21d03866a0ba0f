import KVStore.BitcaskRecover
import KVStore.LsmRecover
import KVStore.Wal

namespace KVStore

open Lib CrashProgram Bitcask

/-- The machine on which the reads of data files may fail. -/
def Bitcask.flakyMachine (listing : Listing) (fails : FileName → Nat → Nat → Bool) :
    Machine Bitcask.Op Bitcask.Res Directory where
  exec
    | .reader name, d => (.ok (flakyRead (fails name) ((d.lookup name).getD [])), d)
    | o, d => exec listing o d
  torn := Torn

section Scan

variable {α : Type} {size : α → Nat} {fails : Nat → Nat → Bool} {records : List α}

def ReadsAll (size : α → Nat) (fails : Nat → Nat → Bool) : Nat → List α → Prop
  | _, [] => True
  | offset, c :: records =>
    fails offset Record.kHeaderSize = false ∧ fails offset (size c) = false ∧
      ReadsAll size fails (offset + size c) records

theorem readable_isPrefixOf (size : α → Nat) (fails : Nat → Nat → Bool) (offset : Nat) (records : List α) :
    readable size fails offset records <+: records := by
  induction records generalizing offset with
  | nil => exact List.prefix_rfl
  | cons c records ih =>
    unfold readable
    split
    · exact List.nil_prefix
    · exact List.cons_prefix_cons.mpr ⟨rfl, ih _⟩

variable [Crc] {chunks : List Intact}

end Scan

namespace Bitcask

section Run

variable {listing : Listing} {fails : FileName → Nat → Nat → Bool} {d : Directory} {name : FileName}
    {content : Bytes} {file : LogFile}

theorem run_truncate (hopen : file.isOpen = true) (length : Nat) :
    (file.truncate length).run (flakyMachine listing fails) d =
      (.ok { file with endOffset := length }, d.truncate file.name length) := by
  rw [LogFile.truncate, if_pos hopen, Prog.run]
  dsimp only [flakyMachine, exec]
  rw [LogFile.sync, if_pos hopen]
  rfl

end Run

end Bitcask

def Intact.entry [Crc] (c : Intact) : Entry := (c.record.key, ⟨c.record.value, c.record.isTombstone⟩)

/-- The bytes that the record of an entry takes up in a log. -/
def recordSize (e : Entry) : Nat := Record.kHeaderSize + e.1.length + e.2.value.length

namespace Wal

variable [Crc]

end Wal

end KVStore
