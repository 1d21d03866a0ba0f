import KVStore.BitcaskFailedSync
import KVStore.FlakyReads

namespace KVStore.Bitcask

open Lib SortedRun CrashProgram

variable {listing : Listing} {fails : FileName → Nat → Nat → Bool} {d : Directory}

def Op.steady : Op → Prop
  | .reader _ => False
  | _ => True

variable [Crc]

section OpenFiles

variable {opts : BitcaskOptions} {sealedOnes : DataFiles} {activeId : FileId} {active : DataFile}
    {ids : List FileId}

theorem run_replayHint_flaky (id : FileId) (file : LogFile) :
    (replayHint id file).run (flakyMachine listing fails) d =
      ((d.lookup (.hint id)).bind fun content =>
        Hint.readHint (flakyRead (fails (.hint id)) content) content.length file.endOffset, d) := by
  unfold replayHint
  rw [Prog.run]
  dsimp only [flakyMachine, exec]
  cases hb : d.lookup (.hint id) with
  | none =>
    rw [decide_eq_false (AList.lookup_eq_none.mp hb)]
    rfl
  | some =>
    rw [decide_eq_true (AList.lookup_isSome.mp (by rw [hb]; rfl))]
    rw [Prog.run]
    dsimp only
    rw [Directory.openFile_of_lookup hb, Prog.run]
    dsimp only
    rw [Directory.size, hb]
    rfl

/-- A sealed file is opened by its hint, or else each of its records can be read. -/
def SealedReads (opts : BitcaskOptions) (fails : FileName → Nat → Nat → Bool) (d : Directory)
    (f : FileId × DataFile) : Prop :=
  opts.ignoreHints = false ∧ ((d.lookup (.hint f.1)).bind fun content =>
      Hint.readHint (flakyRead (fails (.hint f.1)) content) content.length f.2.bytes.length).isSome = true ∨
    ReadsAll Intact.size (fails (.log f.1)) 0 f.2.chunks

section Sealed

variable {f : FileId × DataFile} (hfile : d.lookup (.log f.1) = some f.2.bytes) (hwhole : f.2.tail = [])
include hfile hwhole

end Sealed

theorem SealedReads.congr {d' : Directory} {f : FileId × DataFile} (hd : Swept ids d d') (hf : f.1 ∈ ids) :
    SealedReads opts fails d' f ↔ SealedReads opts fails d f := by
  rw [SealedReads, SealedReads, hd.kept f.1 hf]

end OpenFiles

end KVStore.Bitcask
