import KVStore.FileNames
import KVStore.RecordScan
import KVStore.Lib.CrashProgram

namespace KVStore

open Lib CrashProgram

inductive FileName
  | log (id : FileId)
  | hint (id : FileId)
  | logTemp (id : FileId)
  | hintTemp (id : FileId)
  deriving DecidableEq, Repr

namespace FileName

def text : FileName → Bytes
  | .log id => logFileName id
  | .hint id => hintFileName id
  | .logTemp id => tempName (logFileName id)
  | .hintTemp id => tempName (hintFileName id)

def id : FileName → FileId
  | .log id | .hint id | .logTemp id | .hintTemp id => id

def parseLogFileId : FileName → Option FileId
  | .log id => if IsFileId id then some id else none
  | _ => none

def parseHintFileId : FileName → Option FileId
  | .hint id => if IsFileId id then some id else none
  | _ => none

def isTempName : FileName → Bool
  | .logTemp id | .hintTemp id => IsFileId id
  | _ => false

/-- The names of a directory stand for their texts: the parsers of the two agree, as
long as the id fits the 32 bits of the source's. -/
theorem parsed_text {name : FileName} (hid : name.id ≤ maxUInt32) :
    KVStore.parseLogFileId name.text = name.parseLogFileId ∧
      KVStore.parseHintFileId name.text = name.parseHintFileId ∧
      KVStore.isTempName name.text = name.isTempName := by
  cases name with
  | log id | hint id =>
    replace hid : id ≤ maxUInt32 := hid
    simp [text, logFileName, hintFileName, KVStore.parseLogFileId, KVStore.parseHintFileId,
      parseIdWithSuffix_fileName _ _ hid, isTempName_fileName, parseLogFileId, parseHintFileId, isTempName]
  | logTemp id | hintTemp id =>
    exact ⟨parseIdWithSuffix_tempName .log _, parseIdWithSuffix_tempName .hint _, isTempName_tempName_fileName _ hid⟩

end FileName

abbrev Directory := AList fun _ : FileName => Bytes

/-- `pwrite`: a gap before the offset reads as zeros. -/
def overwrite (content : Bytes) (offset : Nat) (bytes : Bytes) : Bytes :=
  content.take offset ++ List.replicate (offset - content.length) 0 ++ bytes ++
    content.drop (offset + bytes.length)

theorem overwrite_append (before after bytes : Bytes) :
    overwrite (before ++ after) before.length bytes = before ++ (bytes ++ after.drop bytes.length) := by
  have hgap : before.length - (before ++ after).length = 0 := by
    rw [List.length_append]
    omega
  rw [overwrite, List.take_left, hgap, List.replicate_zero, List.append_nil, ← List.drop_drop,
    List.drop_left, List.append_assoc]

theorem overwrite_end (content bytes : Bytes) : overwrite content content.length bytes = content ++ bytes := by
  have h := overwrite_append content [] bytes
  rwa [List.append_nil, List.drop_nil, List.append_nil] at h

namespace Directory

/-- A file that has been unlinked is no longer in the directory it is written in. -/
def pwrite (d : Directory) (name : FileName) (offset : Nat) (bytes : Bytes) : Directory :=
  match d.lookup name with
  | some content => d.insert name (overwrite content offset bytes)
  | none => d

def truncate (d : Directory) (name : FileName) (length : Nat) : Directory :=
  match d.lookup name with
  | some content =>
    d.insert name (content.take length ++ List.replicate (length - content.length) 0)
  | none => d

def openFile (d : Directory) (name : FileName) : Directory :=
  match d.lookup name with
  | some _ => d
  | none => d.insert name []

def size (d : Directory) (name : FileName) : Nat := ((d.lookup name).getD []).length

def rename (d : Directory) (source target : FileName) : Directory :=
  match d.lookup source with
  | some content => (d.erase source).insert target content
  | none => d

variable {d : Directory} {name : FileName} {content : Bytes}

theorem mem_keys_iff : name ∈ d.keys ↔ (d.lookup name).isSome := by
  rw [← AList.mem_keys, AList.lookup_isSome]

theorem lookup_pwrite_ne {name name' : FileName} (h : name' ≠ name) (offset : Nat)
    (bytes : Bytes) : (d.pwrite name offset bytes).lookup name' = d.lookup name' := by
  unfold pwrite
  split
  · exact AList.lookup_insert_ne h
  · rfl

theorem lookup_pwrite (h : d.lookup name = some content) (offset : Nat) (bytes : Bytes) :
    (d.pwrite name offset bytes).lookup name = some (overwrite content offset bytes) := by
  rw [pwrite, h]
  exact AList.lookup_insert _

theorem lookup_truncate_ne {name name' : FileName} (h : name' ≠ name) (length : Nat) :
    (d.truncate name length).lookup name' = d.lookup name' := by
  unfold truncate
  split
  · exact AList.lookup_insert_ne h
  · rfl

theorem lookup_truncate {before after : Bytes} (h : d.lookup name = some (before ++ after)) :
    (d.truncate name before.length).lookup name = some before := by
  have hgap : before.length - (before ++ after).length = 0 := by
    rw [List.length_append]
    omega
  rw [truncate, h]
  dsimp only
  rw [List.take_left, hgap, List.replicate_zero, List.append_nil]
  exact AList.lookup_insert _

theorem openFile_of_lookup (h : d.lookup name = some content) : d.openFile name = d := by
  rw [openFile, h]

theorem lookup_openFile_ne {name name' : FileName} (h : name' ≠ name) :
    (d.openFile name).lookup name' = d.lookup name' := by
  unfold openFile
  split
  · rfl
  · exact AList.lookup_insert_ne h

theorem lookup_openFile_of_none (h : d.lookup name = none) : (d.openFile name).lookup name = some [] := by
  rw [openFile, h]
  exact AList.lookup_insert _

theorem lookup_rename {d : Directory} {source target : FileName} {content : Bytes}
    (h : d.lookup source = some content) (name : FileName) :
    (d.rename source target).lookup name =
      if name = target then some content else if name = source then none else d.lookup name := by
  rw [rename, h]
  by_cases ht : name = target
  · subst ht
    rw [AList.lookup_insert, if_pos rfl]
  · rw [AList.lookup_insert_ne ht, if_neg ht]
    by_cases hs : name = source
    · subst hs
      rw [AList.lookup_erase, if_pos rfl]
    · rw [AList.lookup_erase_ne hs, if_neg hs]

end Directory

namespace Bitcask

/-- The system calls of the engine on its directory. `reader` stands for the
`read_at` calls on one file, by offset and size. -/
inductive Op
  | list
  | fileExists (name : FileName)
  | openFile (name : FileName)
  | reader (name : FileName)
  | pwrite (name : FileName) (offset : Nat) (bytes : Bytes)
  | sync (name : FileName)
  | truncate (name : FileName) (length : Nat)
  | close (name : FileName)
  | remove (name : FileName)
  | rename (source target : FileName)
  | syncDir

abbrev Val : Op → Type
  | .list => List FileName
  | .fileExists _ => Bool
  | .openFile _ => Nat
  | .reader _ => Nat → Nat → Option Bytes
  | _ => Unit

abbrev Res (o : Op) : Type := Except Failure (Val o)

def noSuchFile (source target : FileName) : Failure :=
  .ioError (text "rename " ++ source.text ++ text " -> " ++ target.text ++
    text ": No such file or directory")

def exec (listing : Listing) : (o : Op) → Directory → Res o × Directory
  | .list, d => (.ok (listing.order d.keys), d)
  | .fileExists name, d => (.ok (decide (name ∈ d)), d)
  | .openFile name, d => (.ok (d.size name), d.openFile name)
  | .reader name, d => (.ok (readAt ((d.lookup name).getD [])), d)
  | .pwrite name offset bytes, d => (.ok (), d.pwrite name offset bytes)
  | .sync _, d => (.ok (), d)
  | .truncate name length, d => (.ok (), d.truncate name length)
  | .close _, d => (.ok (), d)
  | .remove name, d => (.ok (), d.erase name)
  | .rename source target, d =>
    if source ∈ d then (.ok (), d.rename source target)
    else (.error (noSuchFile source target), d)
  | .syncDir, d => (.ok (), d)

/-- A crash inside a write leaves any part of it short of all of it. -/
inductive Torn : Op → Directory → Directory → Prop
  | pwrite {name : FileName} {offset : Nat} {bytes : Bytes} {d : Directory} (n : Nat)
      (short : n < bytes.length) :
      Torn (.pwrite name offset bytes) d (d.pwrite name offset (bytes.take n))

def machine (listing : Listing) : Machine Op Res Directory where
  exec := exec listing
  torn := Torn

abbrev Io (α : Type) := Prog Op Res α

end Bitcask

end KVStore
