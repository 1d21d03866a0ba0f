import KVStore.BitcaskStore

namespace KVStore.Bitcask

open Lib CrashProgram

structure Merge where
  temp : LogFile
  hintTemp : LogFile
  hintEntries : Nat
  staged : AList fun _ : Key => ValuePointer

variable [Crc]

/-- The visitor of the merge scan: a record moves when the index points at it. -/
def copyRecord (s : Bitcask) (outId id : FileId) (m : Merge) (v : Visited) :
    Io (Except Failure Merge) :=
  if v.record.isTombstone then .ret (.ok m)
  else
    match s.keydir.index.lookup v.record.key with
    | none => .ret (.ok m)
    | some live =>
      if live.fileId ≠ id ∨ live.offset ≠ v.offset then .ret (.ok m)
      else
        (m.temp.append v.raw).bind fun
          | (.error e, _) => .ret (.error e)
          | (.ok newOffset, temp) =>
            (m.hintTemp.append (Hint.encodeEntry
                ⟨v.record.timestamp, newOffset, v.record.totalSize, v.record.key⟩)).bind fun
              | (.error e, _) => .ret (.error e)
              | (.ok _, hintTemp) => .ret (.ok
                  { temp := temp
                    hintTemp := hintTemp
                    hintEntries := m.hintEntries + 1
                    staged := m.staged.insert v.record.key
                      ⟨newOffset, v.record.timestamp, outId, v.record.totalSize⟩ })

def copyRecords (s : Bitcask) (outId id : FileId) : List Visited → Merge → Io (Except Failure Merge)
  | [], m => .ret (.ok m)
  | v :: vs, m => orFail (s.copyRecord outId id m v) fun m' => copyRecords s outId id vs m'

def stoppedVerifying (name : FileName) (goodEnd : Nat) : Failure :=
  .corruption (text "data file " ++ name.text ++ text " stopped verifying at offset " ++
    text (toString goodEnd) ++ text " during compaction")

def copyInputs (s : Bitcask) (outId : FileId) :
    List (FileId × LogFile) → Merge → Io (Except Failure Merge)
  | [], m => .ret (.ok m)
  | (id, input) :: inputs, m =>
    input.reader.bind fun read =>
    let scan := scanRecords read input.endOffset
    orFail (s.copyRecords outId id scan.1 m) fun m' =>
    if scan.2 = input.endOffset then copyInputs s outId inputs m'
    else .ret (.error (stoppedVerifying input.name scan.2))

/-- The footer commits the hint; then both files are fsynced and closed. -/
def finishMerge (m : Merge) : Io (Except Failure Merge) :=
  (m.hintTemp.append (Hint.encodeFooter ⟨m.temp.endOffset, m.hintEntries⟩)).bind fun
    | (.error e, _) => .ret (.error e)
    | (.ok _, hintTemp) =>
      orFail m.temp.sync fun _ =>
      orFail hintTemp.sync fun _ =>
      m.temp.close.bind fun
        | (.error e, _) => .ret (.error e)
        | (.ok _, _) =>
          hintTemp.close.bind fun
            | (.error e, _) => .ret (.error e)
            | (.ok _, _) => .ret (.ok m)

/-- Steps 1 and 2: the merged file and its hint, under temp names. -/
def writeMerge (s : Bitcask) (outId : FileId) : Io (Except Failure Merge) :=
  .op (.remove (.logTemp outId)) fun _ =>
  .op (.remove (.hintTemp outId)) fun _ =>
  orFail (LogFile.openAt (.logTemp outId) .never) fun temp =>
  orFail (LogFile.openAt (.hintTemp outId) .never) fun hintTemp =>
  orFail (s.copyInputs outId s.sealedFiles ⟨temp, hintTemp, 0, ∅⟩) fun m =>
  finishMerge m

def setSealed (s : Bitcask) (id : FileId) (file : LogFile) : Bitcask :=
  { s with sealedFiles := SortedRun.insert id file s.sealedFiles }

def dropSealed (s : Bitcask) (id : FileId) : Bitcask :=
  { s with sealedFiles := s.sealedFiles.filter fun f => f.1 ≠ id }

/-- The index moves over to the merged file, and the inputs hold no dead bytes any more. -/
def adopt (s : Bitcask) (inputs : List FileId) (staged : AList fun _ : Key => ValuePointer) : Bitcask :=
  { s with keydir :=
    { index := staged.entries.foldl (fun index e => index.insert e.1 e.2) s.keydir.index
      deadBytes := inputs.foldl (fun dead id => dead.erase id) s.keydir.deadBytes } }

def renameFailed (source target : FileName) (e : Failure) : Failure :=
  .ioError (text "rename " ++ source.text ++ text " -> " ++ target.text ++ text ": " ++ e.status.message)

/-- Step 3, up to the rename: the old hint goes first, so that it never meets the
merged file. -/
def install (s : Bitcask) (outId : FileId) (out : LogFile) : Io (Except Failure Unit × Bitcask) :=
  .op (.remove (.hint outId)) fun _ =>
  attempt s .syncDir fun _ =>
  out.close.bind fun
    | (.error e, out') => .ret (.error e, s.setSealed outId out')
    | (.ok _, _) =>
      .op (.rename (.logTemp outId) (.log outId)) fun
        | .error e =>
          (LogFile.openAt (.log outId) s.options.syncMode).bind fun
            | .error _ => .ret (.error (renameFailed (.logTemp outId) (.log outId) e),
                s.dropSealed outId)
            | .ok reopened => .ret (.error (renameFailed (.logTemp outId) (.log outId) e),
                s.setSealed outId reopened)
        | .ok _ => attempt (s.dropSealed outId) .syncDir fun _ => .ret (.ok (), s.dropSealed outId)

/-- Step 4: the merged file is opened and takes over the index; its hint follows. -/
def adoptMerged (s : Bitcask) (outId : FileId) (inputs : List FileId)
    (staged : AList fun _ : Key => ValuePointer) : Io (Except Failure Unit × Bitcask) :=
  (LogFile.openAt (.log outId) s.options.syncMode).bind fun
    | .error e => .ret (.error e, s)
    | .ok merged =>
      let s' := (s.setSealed outId merged).adopt inputs staged
      .op (.rename (.hintTemp outId) (.hint outId)) fun
        | .error _ =>
          .op (.remove (.hintTemp outId)) fun _ => attempt s' .syncDir fun _ => .ret (.ok (), s')
        | .ok _ => attempt s' .syncDir fun _ => .ret (.ok (), s')

def removeFailed (id : FileId) (e : Failure) : Failure :=
  .ioError (text "remove " ++ (FileName.log id).text ++ text ": " ++ e.status.message)

def removeInputs (s : Bitcask) : List (FileId × LogFile) → Io (Except Failure Unit × Bitcask)
  | [] => attempt s .syncDir fun _ => .ret (.ok (), s)
  | (id, input) :: inputs =>
    input.close.bind fun
      | (.error e, input') => .ret (.error e, s.setSealed id input')
      | (.ok _, _) =>
        let s' := s.dropSealed id
        .op (.remove (.log id)) fun
          | .error e => .ret (.error (removeFailed id e), s')
          | .ok _ =>
            .op (.remove (.hint id)) fun _ =>
            if s.options.failAt = .midInputDelete then
              attempt s' .syncDir fun _ => .ret (.ok (), s')
            else removeInputs s' inputs

/-- `compact` once the active file is empty. -/
def mergeSealed (s : Bitcask) : Io (Except Failure Unit × Bitcask) :=
  match s.sealedFiles with
  | [] => .ret (.ok (), s)
  | (outId, out) :: others =>
    if others = [] ∧ (s.keydir.deadBytes.lookup outId).getD 0 = 0 then .ret (.ok (), s)
    else
      (s.writeMerge outId).bind fun
        | .error e => .ret (.error e, s)
        | .ok m =>
          if s.options.failAt = .afterWritingTemp then .ret (.ok (), s)
          else
            andThen (s.install outId out) fun _ s' =>
            if s.options.failAt = .afterInstallingOutput then .ret (.ok (), s')
            else
              andThen (s'.adoptMerged outId (s.sealedFiles.map Prod.fst) m.staged) fun _ s'' =>
              s''.removeInputs others

def compact (s : Bitcask) : Io (Except Failure Unit × Bitcask) :=
  andThen (if 0 < s.active.endOffset then s.rotate else .ret (.ok (), s)) fun _ s => s.mergeSealed

end KVStore.Bitcask
