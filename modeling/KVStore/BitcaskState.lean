import KVStore.BitcaskIndex

namespace KVStore.Bitcask

open Lib SortedRun CrashProgram

variable [Crc]

/-- The data files of the directory are exactly these. -/
structure FilesAre (d : Directory) (files : List (FileId × DataFile)) : Prop where
  ascending : SortedRun.Sorted files
  ids : ∀ f ∈ files, kFirstFileId ≤ f.1 ∧ f.1 ≤ maxUInt32
  stored : ∀ id, d.lookup (.log id) = (SortedRun.find id files).map DataFile.bytes

/-- What a compaction writes beside its output, if the output ends where its records do. -/
structure HintOf (c : DataFile) (bytes : Bytes) : Prop where
  whole : c.tail = []
  live : ∀ chunk ∈ c.chunks, chunk.record.isTombstone = false
  encodable : ∀ e ∈ entriesFrom 0 c.chunks, e.Encodable
  written : ∃ f, bytes = Hint.entriesBytes (entriesFrom 0 c.chunks) ++ Hint.encodeFooter f

/-- Every hint belongs to a sealed file, or its file is gone. -/
structure HintsAre (d : Directory) (files : List (FileId × DataFile)) (activeId : FileId) : Prop where
  below : ∀ id bytes, d.lookup (.hint id) = some bytes → id < activeId
  written : ∀ id bytes c, d.lookup (.hint id) = some bytes → SortedRun.find id files = some c →
    HintOf c bytes

/-- A replay of these records gives every key the value the history does. -/
def Answers (ps : List Placed) (history : List Write) : Prop :=
  ∀ key, (currentAt key ps).map Placed.value = valueAfter key history

/-- A directory with data files that recovery rebuilds the history from. -/
structure Durable (d : Directory) (sealedOnes : List (FileId × DataFile)) (activeId : FileId)
    (active : DataFile) (history : List Write) : Prop where
  files : FilesAre d (sealedOnes ++ [(activeId, active)])
  whole : ∀ f ∈ sealedOnes, f.2.tail = []
  torn : NoRecord active.tail
  hints : HintsAre d sealedOnes activeId
  answers : Answers (placed (sealedOnes ++ [(activeId, active)])) history

inductive Recoverable (d : Directory) (history : List Write) : Prop
  | fresh (logs : ∀ id, d.lookup (.log id) = none) (hints : ∀ id, d.lookup (.hint id) = none)
      (history : history = [])
  | durable {sealedOnes : List (FileId × DataFile)} {activeId : FileId} {active : DataFile}
      (durable : Durable d sealedOnes activeId active history)

def openedFile (mode : SyncMode) (id : FileId) (c : DataFile) : LogFile :=
  ⟨.log id, (bytesOf c.chunks).length, mode, true⟩

def openedFiles (mode : SyncMode) (files : List (FileId × DataFile)) : List (FileId × LogFile) :=
  files.map fun f => (f.1, openedFile mode f.1 f.2)

/-- The open files of a store are those of the directory. -/
structure Describes (s : Bitcask) (d : Directory) (sealedOnes : List (FileId × DataFile))
    (active : DataFile) : Prop where
  files : FilesAre d (sealedOnes ++ [(s.activeId, active)])
  sealedFiles : s.sealedFiles = openedFiles s.options.syncMode sealedOnes
  active : s.active = openedFile s.options.syncMode s.activeId active
  hints : ∀ id bytes, d.lookup (.hint id) = some bytes → id < s.activeId

/-- A store between two calls, when no system call has failed. -/
structure StoreInv (s : Bitcask) (d : Directory) (sealedOnes : List (FileId × DataFile))
    (active : DataFile) (history : List Write) : Prop where
  describes : Describes s d sealedOnes active
  durable : Durable d sealedOnes s.activeId active history
  clean : active.tail = []
  index : Indexes s.keydir (placed (sealedOnes ++ [(s.activeId, active)]))

theorem DataFile.eq_empty {c : DataFile} (hclean : c.tail = []) (hend : ¬ 0 < (bytesOf c.chunks).length) :
    c = ⟨[], []⟩ := by
  obtain ⟨chunks, tail⟩ := c
  obtain rfl : tail = [] := hclean
  cases chunks with
  | nil => rfl
  | cons c =>
    have hpos := c.length_pos
    rw [bytesOf_cons, List.length_append] at hend
    omega

section Files

variable {d d' : Directory} {files sealedOnes : DataFiles} {activeId : FileId}
  {active : DataFile} {history : List Write} {f : FileId × DataFile} {id : FileId}

theorem FilesAre.congr (h : FilesAre d files) (hsame : ∀ id, d'.lookup (.log id) = d.lookup (.log id)) :
    FilesAre d' files :=
  ⟨h.ascending, h.ids, fun id => (hsame id).trans (h.stored id)⟩

theorem FilesAre.lookup (h : FilesAre d files) (hf : f ∈ files) : d.lookup (.log f.1) = some f.2.bytes := by
  rw [h.stored, find_of_mem h.ascending.nodup_keys hf, Option.map_some]

theorem FilesAre.lookup_none (h : FilesAre d files) (hid : id ∉ keys files) : d.lookup (.log id) = none := by
  rw [h.stored, (find_eq_none_iff id files).mpr hid, Option.map_none]

section

variable (h : FilesAre d (sealedOnes ++ [(activeId, active)]))
include h

theorem FilesAre.sealed_lt (hf : f ∈ sealedOnes) : f.1 < activeId :=
  (List.pairwise_append.mp h.ascending).2.2 f hf _ (List.mem_singleton_self _)

theorem FilesAre.sealed_ascending : Sorted sealedOnes := (List.pairwise_append.mp h.ascending).1

theorem FilesAre.le_active (hid : id ∈ keys (sealedOnes ++ [(activeId, active)])) : id ≤ activeId := by
  obtain ⟨f, hf, rfl⟩ := List.mem_map.mp hid
  rcases List.mem_append.mp hf with hf | hf
  · exact (h.sealed_lt hf).le
  · rw [List.mem_singleton.mp hf]

theorem FilesAre.active_mem : d.lookup (.log activeId) = some active.bytes :=
  h.lookup (f := (activeId, active)) (List.mem_append_right _ (List.mem_singleton_self _))

theorem FilesAre.setActive {active' : DataFile} (hactive : d'.lookup (.log activeId) = some active'.bytes)
    (hsame : ∀ id, id ≠ activeId → d'.lookup (.log id) = d.lookup (.log id)) :
    FilesAre d' (sealedOnes ++ [(activeId, active')]) := by
  have hsorted := h.sealed_ascending
  have hkeys : ∀ a ∈ sealedOnes, ∀ b ∈ [(activeId, active')], a.1 < b.1 := by
    intro a ha b hb
    rw [List.mem_singleton.mp hb]
    exact h.sealed_lt ha
  refine ⟨List.pairwise_append.mpr ⟨hsorted, List.pairwise_singleton .., hkeys⟩, fun f hf => ?_,
    fun id => ?_⟩
  · rcases List.mem_append.mp hf with hf | hf
    · exact h.ids f (List.mem_append_left _ hf)
    · rw [List.mem_singleton.mp hf]
      exact h.ids (activeId, active) (List.mem_append_right _ (List.mem_singleton_self _))
  · rw [find_append]
    by_cases hid : id = activeId
    · subst hid
      have hnone : find id sealedOnes = none := by
        rw [find_eq_none_iff]
        intro hm
        obtain ⟨f, hf, he⟩ := List.mem_map.mp hm
        exact (h.sealed_lt hf).ne he
      rw [hactive, hnone]
      simp [find]
    · rw [hsame id hid, h.stored, find_append]
      simp [find, hid]

end

theorem FilesAre.concat (h : FilesAre d files) {c : DataFile}
    (hlt : ∀ f ∈ files, f.1 < id) (hpos : kFirstFileId ≤ id) (hmax : id ≤ maxUInt32)
    (hnew : d'.lookup (.log id) = some c.bytes)
    (hsame : ∀ id', id' ≠ id → d'.lookup (.log id') = d.lookup (.log id')) :
    FilesAre d' (files ++ [(id, c)]) := by
  refine ⟨List.pairwise_append.mpr ⟨h.ascending, List.pairwise_singleton .., fun a ha b hb => ?_⟩,
    fun f hf => ?_, fun id' => ?_⟩
  · rw [List.mem_singleton.mp hb]
    exact hlt a ha
  · rcases List.mem_append.mp hf with hf | hf
    · exact h.ids f hf
    · rw [List.mem_singleton.mp hf]
      exact ⟨hpos, hmax⟩
  · rw [find_append]
    by_cases hid : id' = id
    · subst hid
      have hnone : find id' files = none := by
        rw [find_eq_none_iff]
        intro hm
        obtain ⟨f, hf, he⟩ := List.mem_map.mp hm
        exact (hlt f hf).ne he
      rw [hnew, hnone]
      simp [find]
    · rw [hsame id' hid, h.stored]
      simp [find, hid]

theorem HintsAre.congr (h : HintsAre d files activeId)
    (hsame : ∀ id bytes, d'.lookup (.hint id) = some bytes → d.lookup (.hint id) = some bytes) :
    HintsAre d' files activeId :=
  ⟨fun id bytes hb => h.below id bytes (hsame id bytes hb),
    fun id bytes c hb hc => h.written id bytes c (hsame id bytes hb) hc⟩

theorem Durable.congr (h : Durable d sealedOnes activeId active history)
    (hlogs : ∀ id, d'.lookup (.log id) = d.lookup (.log id))
    (hhints : ∀ id bytes, d'.lookup (.hint id) = some bytes → d.lookup (.hint id) = some bytes) :
    Durable d' sealedOnes activeId active history :=
  ⟨h.files.congr hlogs, h.whole, h.torn, h.hints.congr hhints, h.answers⟩

end Files

end KVStore.Bitcask
