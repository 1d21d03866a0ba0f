import KVStore.LsmInversion
import KVStore.Manifest

namespace KVStore

open Lib Checked

namespace Manifest

def kManifestName : Bytes := text "MANIFEST"

def tempName (name : Bytes) : Bytes := name ++ text ".tmp"

structure Directory where
  manifest : Option Bytes
  temp : Option Bytes
  deriving DecidableEq

/-- Which system calls of a `write_atomic` fail, and how far the write gets that does. -/
structure Faults where
  removeFails : Bool
  openFails : Bool
  writeStops : Option Nat
  syncFails : Bool
  closeFails : Bool
  renameFails : Bool
  syncDirectoryFails : Bool
  deriving DecidableEq

def Faults.none : Faults := ⟨false, false, .none, false, false, false, false⟩

variable [Crc]

def read (dir : Directory) : Read (Option LevelSet) :=
  match dir.manifest with
  | none => pure none
  | some file => do
      refuse (file.length < kHeaderSize + kTrailerSize ∨ kMaxManifestSize < file.length)
        (.corruption (text "manifest is not a plausible size: " ++ kManifestName))
      let bytes ← readFile kManifestName file 0 (file.length % 2 ^ 32)
      let set ← decode bytes
      return some set

/-- A failed `remove` goes unnoticed, and then the bytes go after what it left. -/
def writeAtomic (faults : Faults) (dir : Directory) (set : LevelSet) : Status × Directory :=
  let temp := tempName kManifestName
  let leftover := if faults.removeFails then dir.temp else none
  if faults.openFails then (.ioError (text "open " ++ temp), { dir with temp := leftover })
  else
    match faults.writeStops with
    | some written =>
      (.ioError (text "write " ++ temp), { dir with temp := some (leftover.getD [] ++ (encode set).take written) })
    | none =>
      let written := leftover.getD [] ++ encode set
      if faults.syncFails then (.ioError (text "fsync " ++ temp), { dir with temp := some written })
      else if faults.closeFails then (.ioError (text "close " ++ temp), { dir with temp := some written })
      else if faults.renameFails then
        (.ioError (text "rename " ++ temp ++ text " to " ++ kManifestName), { dir with temp := some written })
      else if faults.syncDirectoryFails then
        (.ioError (text "fsync directory"), ⟨some written, none⟩)
      else (.ok, ⟨some written, none⟩)

theorem writeAtomic_of_ok {faults : Faults} {dir : Directory} {set : LevelSet}
    (h : (writeAtomic faults dir set).1 = .ok) :
    (writeAtomic faults dir set).2 =
      ⟨some ((if faults.removeFails then dir.temp else none).getD [] ++ encode set), none⟩ := by
  revert h
  unfold writeAtomic
  dsimp only
  repeat' split
  all_goals
    intro h
    first
      | rfl
      | cases h

end Manifest

/-- A level set that the engine can hold, its keys and its tables as many and as long
as they come. -/
structure LevelSet.Held (set : LevelSet) : Prop where
  nextId : set.nextId < 2 ^ 32
  tables : ∀ level ∈ set.levels, ∀ table ∈ level, kFirstFileId ≤ table.id ∧ table.id < 2 ^ 32 ∧
    table.fileSize < 2 ^ 64 ∧ table.entryCount < 2 ^ 64 ∧ table.minKey ≤ table.maxKey

namespace Manifest

theorem length_le_flatMap {α : Type} (encode : α → Bytes) {l : List α} {a : α} (h : a ∈ l) :
    (encode a).length ≤ (l.flatMap encode).length := by
  obtain ⟨l₁, l₂, rfl⟩ := List.append_of_mem h
  simp only [List.flatMap_append, List.flatMap_cons, List.length_append]
  omega

variable [Crc]

theorem encodable_of_held {set : LevelSet} (hset : set.Held) (hsize : (encode set).length ≤ kMaxManifestSize) :
    set.Encodable := by
  rw [length_encode, length_body, kMaxManifestSize] at hsize
  constructor
  · exact hset.nextId
  · have hleast : set.levels.length * 4 ≤ (set.levels.flatMap encodeLevel).length := by
      apply mul_length_le_flatMap
      intro level _
      rw [length_encodeLevel]
      omega
    omega
  · intro level hlevel
    have hle := length_le_flatMap encodeLevel hlevel
    rw [length_encodeLevel] at hle
    constructor
    · have hleast : level.length * kTableFixedSize ≤ (level.flatMap encodeTable).length := by
        apply mul_length_le_flatMap
        intro table _
        rw [length_encodeTable]
        omega
      rw [kTableFixedSize] at hleast
      omega
    · intro table htable
      have hle' := length_le_flatMap encodeTable htable
      rw [length_encodeTable] at hle'
      obtain ⟨hfirst, hid, hfileSize, hentryCount, hordered⟩ := hset.tables level hlevel table htable
      exact ⟨hfirst, hid, hfileSize, hentryCount, by omega, by omega, not_lt.mpr hordered⟩

theorem read_encode {set : LevelSet} {temp : Option Bytes} (hset : set.Encodable)
    (hsize : (encode set).length ≤ kMaxManifestSize) : read ⟨some (encode set), temp⟩ = .ok (some set) := by
  have hleast := length_encode set
  rw [length_body] at hleast
  have hmod : (encode set).length % 2 ^ 32 = (encode set).length := by
    rw [kMaxManifestSize] at hsize
    omega
  unfold read
  dsimp only
  rw [refuse_bind (by omega), hmod, readFile_of_stands kManifestName (.whole _), ok_bind,
    decode_encode hset, ok_bind]
  rfl

theorem yields_read (file : Bytes) (temp : Option Bytes) :
    Yields Failure.IsCorruption (fun set => ∃ s, set = some s ∧ encode s = file ∧ file.length ≤ kMaxManifestSize)
      (read ⟨some file, temp⟩) := by
  apply yields_refused
  intro hsize
  rw [not_or, Nat.not_lt, Nat.not_lt] at hsize
  have hmod : file.length % 2 ^ 32 = file.length := by
    have := hsize.2
    rw [kMaxManifestSize] at this
    omega
  rw [hmod]
  apply (yields_readFile _ _ _ _).bind
  rintro bytes ⟨hlength, rest, hrest⟩
  rw [List.drop_zero] at hrest
  have hbytes : bytes = file := by
    rw [hrest, List.length_append] at hlength
    rw [hrest, List.length_eq_zero_iff.mp (by omega : rest.length = 0), List.append_nil]
  apply (yields_decode bytes).bind
  rintro set ⟨_, hencode⟩
  apply yields_pure
  exact ⟨set, rfl, hencode.trans hbytes, hsize.2⟩

/-- What was committed is read back, exactly if the manifest is no larger than the reader
allows and no leftover that could not be removed stands before it. -/
theorem read_committed_iff (faults : Faults) (dir : Directory) {set : LevelSet} (hset : set.Held)
    (hok : (writeAtomic faults dir set).1 = .ok) :
    read (writeAtomic faults dir set).2 = .ok (some set) ↔
      (encode set).length ≤ kMaxManifestSize ∧ (faults.removeFails = true → dir.temp.getD [] = []) := by
  rw [writeAtomic_of_ok hok]
  constructor
  · intro h
    obtain ⟨s, hs, hfile, hsize⟩ := (yields_read _ _).of_ok h
    cases hs
    rw [← hfile] at hsize
    refine ⟨hsize, fun hfails => ?_⟩
    rw [hfails, if_pos rfl] at hfile
    exact List.append_left_eq_self.mp hfile.symm
  · rintro ⟨hsize, hleftover⟩
    have hnone : (if faults.removeFails then dir.temp else none).getD [] = [] := by
      split
      next hfails => exact hleftover hfails
      next => rfl
    rw [hnone, List.nil_append]
    exact read_encode (encodable_of_held hset hsize) hsize

end Manifest

namespace Manifest

/-- A leftover that is removed does no harm. -/
theorem read_committed_over_leftover :
    let set : LevelSet := ⟨3, [[⟨2, 120, 1, [98], [99]⟩], [⟨1, 90, 2, [97], [97]⟩]]⟩
    read (writeAtomic .none ⟨none, some [1]⟩ set).2 = .ok (some set) := by
  intro set
  have hheld : set.Held := ⟨by decide, by decide⟩
  exact (read_committed_iff .none ⟨none, some [1]⟩ hheld rfl).mpr ⟨by decide, by decide⟩

/-- A table whose one key has 32 MiB makes a manifest that is committed and then refused,
and so does a leftover that cannot be removed. -/
theorem committed_manifest_refused :
    (∃ key : Key, Writable (key, ⟨[], false⟩) ∧
      let set : LevelSet := ⟨2, [[⟨1, 90, 1, key, key⟩]]⟩
      set.Held ∧ (writeAtomic .none ⟨none, none⟩ set).1 = .ok ∧
        read (writeAtomic .none ⟨none, none⟩ set).2 =
          .error (.status (.corruption (text "manifest is not a plausible size: MANIFEST")))) ∧
    (let faults : Faults := { Faults.none with removeFails := true }
      let set : LevelSet := ⟨2, [[⟨1, 90, 1, [97], [97]⟩]]⟩
      set.Held ∧ (writeAtomic faults ⟨none, some [0]⟩ set).1 = .ok ∧
        read (writeAtomic faults ⟨none, some [0]⟩ set).2 =
          .error (.status (.corruption (text "not a manifest: bad magic")))) := by
  constructor
  · obtain ⟨key, hkey⟩ : ∃ key : Key, key.length = 2 ^ 25 := ⟨List.replicate _ 0, List.length_replicate⟩
    have hne : key ≠ [] := by
      rintro rfl
      cases hkey
    refine ⟨key, ⟨hne, ?_⟩, ?_⟩
    · show key.length + 0 ≤ System.payloadLimit
      rw [hkey]
      decide
    · intro set
      have hheld : set.Held := ⟨by simp [set], by simp [set, kFirstFileId]⟩
      have hlarge : kMaxManifestSize < (encode set).length := by
        rw [length_encode, length_body]
        simp only [set, List.flatMap_cons, List.flatMap_nil, List.append_nil, length_encodeLevel,
          length_encodeTable, hkey, kMaxManifestSize]
        omega
      refine ⟨hheld, rfl, ?_⟩
      show read ⟨some (encode set), none⟩ = _
      unfold read
      dsimp only
      rw [refuse_of _ (.inr hlarge)]
      rfl
  · refine ⟨⟨by decide, by decide⟩, rfl, ?_⟩
    decide +kernel

end Manifest

end KVStore
