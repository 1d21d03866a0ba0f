import KVStore.FileNames
import KVStore.LsmDirectory

namespace KVStore

open Lib CrashProgram

namespace LsmIo

def andThen {α β : Type} (p : LsmIo (Except Failure α)) (f : α → LsmIo (Except Failure β)) :
    LsmIo (Except Failure β) :=
  p.bind fun
    | .error s => .ret (.error s)
    | .ok a => f a

end LsmIo

namespace LsmStore

def renameFailed (name : Bytes) : Failure :=
  .ioError (text "rename " ++ name ++ text ".tmp to " ++ name ++ text ": No such file or directory")

/-- Remove a stale temp, write the new one, rename it over the manifest. -/
def commitManifest (levels : Levels) (nextId : FileId) : LsmIo (Except Failure Unit) :=
  .op (.removeTemp .manifest) fun _ =>
  .op .createManifestTemp fun _ =>
  .op (.writeManifestTemp (levelSetOf levels nextId)) fun _ =>
  .op .renameManifest fun renamed =>
  .ret (if renamed then .ok () else .error (renameFailed (text "MANIFEST")))

def prependL0 (t : SSTable) : Levels → Levels
  | [] => [[t]]
  | l0 :: deeper => (t :: l0) :: deeper

def noSuchTable (id : FileId) : Failure := .ioError (text "no such sstable: " ++ sstFileName id)

def buildTableUnlocked (opts : LsmOptions) (entries : List Entry) (id : FileId) (base : Levels)
    (nextId : FileId) : LsmIo (Except Failure Levels) :=
  .op (.removeTemp (.table id)) fun _ =>
  .op (.createTableTemp id) fun _ =>
  match buildTable opts.blockSize opts.bitsPerKey entries with
  | .error s => .ret (.error s)
  | .ok f =>
    .op (.writeTableTemp id f) fun _ =>
    if opts.failAt = .afterWritingTable then .ret (.ok base)
    else
      .op (.renameTable id) fun renamed =>
      if !renamed then .ret (.error (renameFailed (sstFileName id)))
      else
        .op (.openTable id) fun
        | none => .ret (.error (noSuchTable id))
        | some file =>
          if opts.failAt = .afterInstallingTable then .ret (.ok base)
          else
            LsmIo.andThen (commitManifest (prependL0 ⟨id, file⟩ base) nextId) fun _ =>
            .ret (.ok (prependL0 ⟨id, file⟩ base))

/-- One output of a compaction under a fresh id. The id is claimed when the
output is started. -/
def writeOutput (f : TableFile) : LsmIo FileId :=
  .op .fetchNextId fun id =>
  .op (.removeTemp (.table id)) fun _ =>
  .op (.createTableTemp id) fun _ =>
  .op (.writeTableTemp id f) fun _ =>
  .ret id

def writeFiles : List TableFile → LsmIo (List FileId)
  | [] => .ret []
  | f :: files =>
    (writeOutput f).bind fun id =>
    (writeFiles files).bind fun ids =>
    .ret (id :: ids)

/-- The output a refused entry leaves unfinished. -/
def abandonOutput : LsmIo Unit :=
  .op .fetchNextId fun id =>
  .op (.removeTemp (.table id)) fun _ =>
  .op (.createTableTemp id) fun _ =>
  .ret ()

/-- The first part of `compact_once`: write every output under its temp name. -/
def writeCompaction (opts : LsmOptions) (work : Compaction) : LsmIo (Except Failure (List FileId)) :=
  (writeFiles (work.outputs opts).1).bind fun ids =>
  match (work.outputs opts).2 with
  | some s => abandonOutput.bind fun _ => .ret (.error s)
  | none => .ret (.ok ids)

/-- The second part: rename each output into place. -/
def renameOutputs : List FileId → LsmIo (Except Failure Unit)
  | [] => .ret (.ok ())
  | id :: ids =>
    .op (.renameTable id) fun renamed =>
    if renamed then renameOutputs ids else .ret (.error (renameFailed (sstFileName id)))

def openTables : List FileId → LsmIo (Except Failure (List SSTable))
  | [] => .ret (.ok [])
  | id :: ids =>
    .op (.openTable id) fun
    | none => .ret (.error (noSuchTable id))
    | some file => LsmIo.andThen (openTables ids) fun rest => .ret (.ok (⟨id, file⟩ :: rest))

/-- The third part: open the outputs, rebuild the level set, commit it. -/
def commitCompaction (work : Compaction) (levels : Levels) (ids : List FileId) :
    LsmIo (Except Failure Levels) :=
  LsmIo.andThen (openTables ids) fun outs =>
  .op .loadNextId fun nextId =>
  LsmIo.andThen (commitManifest (work.rebuild levels outs) nextId) fun _ =>
  .ret (.ok (work.rebuild levels outs))

end LsmStore

end KVStore
