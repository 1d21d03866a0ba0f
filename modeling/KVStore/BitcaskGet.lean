import KVStore.BitcaskState

namespace KVStore.Bitcask

open Lib SortedRun CrashProgram

variable [Crc]

def answer (key : Key) : Option Value → Status × Option Value
  | none => (noSuchKey key, none)
  | some value => (.ok, some value)

/-- The pointer names an open file and the offset and size of a live record of the key. -/
structure PointsAtRecord (s : Bitcask) (d : Directory) (key : Key) (pointer : ValuePointer)
    (file : LogFile) (bytes : Bytes) (record : Record) : Prop where
  named : s.file pointer.fileId = some file
  isOpen : file.isOpen = true
  read : ∃ content, d.lookup file.name = some content ∧
    readAt content pointer.offset pointer.size = some bytes
  decoded : Record.decode bytes = .ok record
  size : record.totalSize = pointer.size
  key : record.key = key
  live : record.isTombstone = false

section Describes

variable {listing : Listing} {s : Bitcask} {d : Directory} {sealedOnes : DataFiles}
  {active : DataFile} {id : FileId} {c : DataFile} {p : Placed} {key : Key} {pointer : ValuePointer}
    {history : List Write}

theorem find_openedFiles (mode : SyncMode) {files : DataFiles}
    (hsorted : Sorted files) (h : (id, c) ∈ files) :
    find id (openedFiles mode files) = some (openedFile mode id c) := by
  have hkeys : keys (openedFiles mode files) = keys files := by
    simp [keys, openedFiles]
  refine find_of_mem (hkeys ▸ hsorted.nodup_keys) ?_
  exact List.mem_map.mpr ⟨(id, c), h, rfl⟩

theorem Describes.file (h : Describes s d sealedOnes active)
    (hc : (id, c) ∈ sealedOnes ++ [(s.activeId, active)]) :
    s.file id = some (openedFile s.options.syncMode id c) := by
  have hsorted := h.files.sealed_ascending
  unfold Bitcask.file
  rcases List.mem_append.mp hc with hc | hc
  · rw [if_neg (h.files.sealed_lt hc).ne, h.sealedFiles]
    exact find_openedFiles s.options.syncMode hsorted hc
  · cases List.mem_singleton.mp hc
    rw [if_pos rfl, h.active]

theorem readAt_placed (hp : p ∈ placedFrom p.fileId 0 c.chunks) :
    readAt c.bytes p.offset p.chunk.record.totalSize = some p.chunk.raw := by
  obtain ⟨_, _, rest, hrest⟩ := of_mem_placedFrom hp
  rw [Nat.sub_zero] at hrest
  have hle : p.offset ≤ (bytesOf c.chunks).length := by
    by_contra hlt
    have hlen := congrArg List.length hrest
    have hpos := p.chunk.length_pos
    rw [List.length_drop, List.length_append] at hlen
    omega
  have hdrop : c.bytes.drop p.offset = p.chunk.raw ++ (rest ++ c.tail) := by
    rw [DataFile.bytes, List.drop_append_of_le_length hle, hrest, List.append_assoc]
  rw [← p.chunk.whole]
  exact readAt_of_append hdrop

theorem Describes.points (h : Describes s d sealedOnes active)
    (hp : p ∈ placed (sealedOnes ++ [(s.activeId, active)])) (hgone : p.gone = false) :
    ∃ file, PointsAtRecord s d p.key p.pointer file p.chunk.raw p.chunk.record := by
  obtain ⟨c, hc, hplaced⟩ := of_mem_placed hp
  exact ⟨_, h.file hc, rfl, ⟨_, h.files.lookup hc, readAt_placed hplaced⟩, p.chunk.decodes, rfl, rfl, hgone⟩

theorem run_get_of_points {file : LogFile} {bytes : Bytes} {record : Record}
    (hindex : s.keydir.index.lookup key = some pointer)
    (h : PointsAtRecord s d key pointer file bytes record) :
    (s.get key).run (machine listing) d = ((.ok, some record.value), d) := by
  obtain ⟨content, hcontent, hread⟩ := h.read
  unfold get
  rw [hindex]
  dsimp only
  rw [h.named]
  dsimp only
  rw [LogFile.readAt, if_pos h.isOpen, Prog.op_bind]
  simp [Prog.run, machine, exec, hcontent, hread, Prog.ret_bind, h.decoded, h.key, h.live]

theorem Describes.run_get (h : Describes s d sealedOnes active)
    (hindex : Indexes s.keydir (placed (sealedOnes ++ [(s.activeId, active)]))) (key : Key) :
    (s.get key).run (machine listing) d =
      (answer key ((currentAt key (placed (sealedOnes ++ [(s.activeId, active)]))).map Placed.value), d) := by
  have hlookup := hindex key
  cases hc : currentAt key (placed (sealedOnes ++ [(s.activeId, active)])) with
  | none =>
    rw [hc, Option.map_none] at hlookup
    unfold get
    rw [hlookup]
    rfl
  | some =>
    rw [hc, Option.map_some] at hlookup
    obtain ⟨hmem, rfl, hgone⟩ := ReplayLog.of_current hc
    obtain ⟨file, hpoints⟩ := h.points hmem hgone
    rw [run_get_of_points hlookup hpoints]
    rfl

theorem StoreInv.run_get (h : StoreInv s d sealedOnes active history) (key : Key) :
    (s.get key).run (machine listing) d = (answer key (valueAfter key history), d) := by
  rw [h.describes.run_get h.index key, h.durable.answers key]

theorem StoreInv.points (h : StoreInv s d sealedOnes active history)
    (hlookup : s.keydir.index.lookup key = some pointer) :
    ∃ file bytes record, PointsAtRecord s d key pointer file bytes record := by
  rw [h.index key, Option.map_eq_some_iff] at hlookup
  obtain ⟨p, hc, rfl⟩ := hlookup
  obtain ⟨hmem, rfl, hgone⟩ := ReplayLog.of_current hc
  obtain ⟨file, hpoints⟩ := h.describes.points hmem hgone
  exact ⟨file, _, _, hpoints⟩

end Describes

end KVStore.Bitcask
