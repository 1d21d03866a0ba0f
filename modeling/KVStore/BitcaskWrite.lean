import KVStore.BitcaskReopen

namespace KVStore.Bitcask

open Lib SortedRun CrashProgram Directory

def rotated (s : Bitcask) : Bitcask :=
  { s with
    sealedFiles := s.sealedFiles ++ [(s.activeId, s.active)]
    activeId := s.activeId + 1
    active := ⟨.log (s.activeId + 1), 0, s.options.syncMode, true⟩ }

def appended (s : Bitcask) (bytes : Bytes) : Bitcask :=
  { s with active := { s.active with endOffset := s.active.endOffset + bytes.length } }

section Rotate

variable {listing : Listing} {legal I : Directory → Prop} {s : Bitcask} {d : Directory}

inductive Rotation (s : Bitcask) (d : Directory) : Except Failure Unit × Bitcask → Directory → Prop
  | exhausted (max : s.activeId = maxUInt32) : Rotation s d (.error idsExhausted, s) d
  | rotated (room : s.activeId ≠ maxUInt32) :
      Rotation s d (.ok (), s.rotated) (d.openFile (.log (s.activeId + 1)))

theorem alone_rotate (hopen : s.active.isOpen = true) (habsent : d.lookup (.log (s.activeId + 1)) = none)
    (hI : I d) (hI' : s.activeId ≠ maxUInt32 → I (d.openFile (.log (s.activeId + 1)))) (hl : legal d) :
    Alone listing legal I (Rotation s d) s.rotate d := by
  refine (returns_sync hopen hI).bind hl ?_
  dsimp only
  split
  next hmax => exact .alone_ret hI (.exhausted hmax)
  next hroom =>
    refine alone_op hI (fun _ h => by cases h) fun _ => ?_
    have hexec : exec listing (.openFile (.log (s.activeId + 1))) d =
        (.ok 0, d.openFile (.log (s.activeId + 1))) := by
      rw [exec, Directory.size, habsent]
      rfl
    rw [hexec]
    exact alone_op (hI' hroom) (fun _ h => by cases h) fun _ => .alone_ret (hI' hroom) (.rotated hroom)

def Full (s : Bitcask) (size : Nat) : Prop :=
  s.active.endOffset ≠ 0 ∧ s.options.maxFileSize < s.active.endOffset + size

inductive Room (s : Bitcask) (incoming : Nat) (d : Directory) :
    Except Failure Unit × Bitcask → Directory → Prop
  | same (fits : ¬ s.Full incoming) : Room s incoming d (.ok (), s) d
  | rotation {r : Except Failure Unit × Bitcask} {d' : Directory} (full : s.Full incoming)
      (rotation : Rotation s d r d') : Room s incoming d r d'

theorem alone_rotateIfNeeded (incoming : Nat) (hopen : s.active.isOpen = true)
    (habsent : d.lookup (.log (s.activeId + 1)) = none) (hI : I d)
    (hI' : s.activeId ≠ maxUInt32 → I (d.openFile (.log (s.activeId + 1)))) (hl : legal d) :
    Alone listing legal I (Room s incoming d) (s.rotateIfNeeded incoming) d := by
  unfold rotateIfNeeded
  split
  next hempty => exact .alone_ret hI (.same fun hfull => hfull.1 hempty)
  next hsome =>
    split
    next hfits => exact .alone_ret hI (.same fun hfull => hfull.2.not_ge hfits)
    next hfull =>
      exact (alone_rotate hopen habsent hI hI' hl).mono fun r d' hr =>
        .rotation ⟨hsome, Nat.lt_of_not_ge hfull⟩ hr

end Rotate

variable [Crc]

section Directories

variable {d : Directory} {sealedOnes : DataFiles} {activeId : FileId} {active : DataFile}
  {history : List Write}

theorem FilesAre.next_absent (h : FilesAre d (sealedOnes ++ [(activeId, active)])) :
    d.lookup (.log (activeId + 1)) = none :=
  h.lookup_none fun hm => Nat.not_succ_le_self activeId (h.le_active hm)

theorem FilesAre.rotate (h : FilesAre d (sealedOnes ++ [(activeId, active)])) (hmax : activeId ≠ maxUInt32) :
    FilesAre (d.openFile (.log (activeId + 1)))
      (sealedOnes ++ [(activeId, active)] ++ [(activeId + 1, ⟨[], []⟩)]) := by
  have hactive := h.ids (activeId, active) (List.mem_append_right _ (List.mem_singleton_self _))
  refine h.concat (fun f hf => ?_) (hactive.1.trans (Nat.le_succ _))
    (Nat.lt_of_le_of_ne hactive.2 hmax) (lookup_openFile_of_none h.next_absent)
    fun id hid => lookup_openFile_ne (by simpa using hid)
  exact Nat.lt_succ_of_le (h.le_active (mem_keys_of_mem hf))

theorem Durable.rotate (h : Durable d sealedOnes activeId active history) (hclean : active.tail = [])
    (hmax : activeId ≠ maxUInt32) :
    Durable (d.openFile (.log (activeId + 1))) (sealedOnes ++ [(activeId, active)]) (activeId + 1)
      ⟨[], []⟩ history := by
  have hsame : ∀ id, (d.openFile (.log (activeId + 1))).lookup (.hint id) = d.lookup (.hint id) :=
    fun id => lookup_openFile_ne (by simp)
  refine ⟨h.files.rotate hmax, fun f hf => ?_, noRecord_nil, ⟨fun id bytes hb => ?_,
    fun id bytes c hb hc => ?_⟩, ?_⟩
  · rcases List.mem_append.mp hf with hf | hf
    · exact h.whole f hf
    · rwa [List.mem_singleton.mp hf]
  · exact (h.hints.below id bytes (hsame id ▸ hb)).trans (Nat.lt_succ_self _)
  · -- the hints are all older than the file that was active
    rw [hsame id] at hb
    have hne : id ≠ activeId := (h.hints.below id bytes hb).ne
    rw [find_append] at hc
    exact h.hints.written id bytes c hb (by simpa [find, hne] using hc)
  · have hanswers := h.answers
    simpa [placed_append, placed_cons, placed_nil, placedFrom] using hanswers

theorem lookup_append (hactive : d.lookup (.log activeId) = some active.bytes) (bytes : Bytes) :
    (d.pwrite (.log activeId) (bytesOf active.chunks).length bytes).lookup (.log activeId) =
      some (bytesOf active.chunks ++ (bytes ++ active.tail.drop bytes.length)) := by
  rw [lookup_pwrite hactive, DataFile.bytes, overwrite_append]

theorem FilesAre.pwrite (h : FilesAre d (sealedOnes ++ [(activeId, active)])) {bytes : Bytes}
    {active' : DataFile}
    (hbytes : active'.bytes = bytesOf active.chunks ++ (bytes ++ active.tail.drop bytes.length)) :
    FilesAre (d.pwrite (.log activeId) (bytesOf active.chunks).length bytes)
      (sealedOnes ++ [(activeId, active')]) := by
  refine h.setActive ?_ fun id hid => lookup_pwrite_ne (by simpa using hid) _ _
  rw [lookup_append h.active_mem, hbytes]

theorem Answers.concat {ps : List Placed} (h : Answers ps history) (p : Placed) :
    Answers (ps ++ [p]) (history ++ [p.chunk.write]) := by
  intro key
  rw [currentAt_concat, valueAfter_concat]
  have hkey : p.chunk.write.key = p.key := rfl
  rw [hkey]
  by_cases hk : p.key = key
  · rw [if_pos hk, if_pos hk, Intact.write]
    cases hg : p.gone with
    | true =>
      have : p.chunk.record.isTombstone = true := hg
      simp [this]
    | false =>
      have : p.chunk.record.isTombstone = false := hg
      simp [this, Placed.value]
  · rw [if_neg hk, if_neg hk, h key]

theorem placed_active_concat (sealedOnes : DataFiles) (activeId : FileId)
    (chunks : List Intact) (c : Intact) (tail tail' : Bytes) :
    placed (sealedOnes ++ [(activeId, ⟨chunks ++ [c], tail'⟩)]) =
      placed (sealedOnes ++ [(activeId, ⟨chunks, tail⟩)]) ++ [⟨activeId, (bytesOf chunks).length, c⟩] := by
  simp [placedFrom_append, placedFrom]

theorem Durable.append (h : Durable d sealedOnes activeId active history) (hclean : active.tail = [])
    (c : Intact) :
    Durable (d.pwrite (.log activeId) (bytesOf active.chunks).length c.raw) sealedOnes activeId
      ⟨active.chunks ++ [c], []⟩ (history ++ [c.write]) := by
  have hbytes : DataFile.bytes ⟨active.chunks ++ [c], []⟩ =
      bytesOf active.chunks ++ (c.raw ++ active.tail.drop c.raw.length) := by
    simp [DataFile.bytes, hclean]
  refine ⟨h.files.pwrite hbytes, h.whole, noRecord_nil, h.hints.congr fun id bytes hb => ?_, ?_⟩
  · rwa [lookup_pwrite_ne (by simp)] at hb
  · rw [placed_active_concat _ _ _ _ active.tail]
    exact h.answers.concat _

theorem Durable.torn_append (h : Durable d sealedOnes activeId active history) (hclean : active.tail = [])
    (c : Intact) {n : Nat} (hn : n < c.raw.length) :
    Durable (d.pwrite (.log activeId) (bytesOf active.chunks).length (c.raw.take n)) sealedOnes activeId
      ⟨active.chunks, c.raw.take n⟩ history := by
  have hbytes : DataFile.bytes ⟨active.chunks, c.raw.take n⟩ =
      bytesOf active.chunks ++ (c.raw.take n ++ active.tail.drop (c.raw.take n).length) := by
    simp [DataFile.bytes, hclean]
  refine ⟨h.files.pwrite hbytes, h.whole, noRecord_take c hn, h.hints.congr fun id bytes hb => ?_, ?_⟩
  · rwa [lookup_pwrite_ne (by simp)] at hb
  · have hanswers := h.answers
    simpa [placed_append, placed_cons] using hanswers

end Directories

/-- What is left of an accepted `put` or `remove`: its record is appended, and the index
follows as in a replay. -/
def writeRecord (s : Bitcask) (c : Intact) : Io (Except Failure Unit × Bitcask) :=
  andThen (s.appendRecord c.raw) fun offset s =>
  .ret (.ok (), { s with keydir := s.keydir.replayRecord s.activeId ⟨offset, c.record, c.raw⟩ })

inductive Writing (s : Bitcask) (key : Key) (value : Value) (w : Write) :
    Io (Except Failure Unit × Bitcask) → Prop
  | refused (message : Bytes) (bad : ¬ (key ≠ [] ∧ Record.Fits key value)) :
      Writing s key value w (.ret (.error (.invalidArgument message), s))
  | record (c : Intact) (accepted : key ≠ [] ∧ Record.Fits key value)
      (size : c.raw.length = Record.kHeaderSize + key.length + value.length) (write : c.write = w) :
      Writing s key value w (s.writeRecord c)

theorem writing_put (s : Bitcask) (key : Key) (value : Value) (now : Timestamp) :
    s.Writing key value ⟨key, some value⟩ (s.put key value now) := by
  unfold put
  split
  next hempty => exact .refused _ fun h => h.1 hempty
  next hkey =>
    split
    next hlarge => exact .refused _ fun h => hlarge h.2
    next hfits =>
      have hfits := not_not.mp hfits
      exact .record (.ofWrite key value now false hkey hfits) ⟨hkey, hfits⟩ (Record.length_encode ..) rfl

theorem writing_remove (s : Bitcask) (key : Key) (now : Timestamp) :
    s.Writing key [] ⟨key, none⟩ (s.remove key now) := by
  unfold remove
  split
  next hempty => exact .refused _ fun h => h.1 hempty
  next hkey =>
    split
    next hlarge => exact .refused _ fun h => hlarge h.2
    next hfits =>
      have hfits := not_not.mp hfits
      exact .record (.ofWrite key [] now true hkey hfits) ⟨hkey, hfits⟩ (Record.length_encode ..) rfl

section Stores

variable {s : Bitcask} {d : Directory} {sealedOnes : DataFiles} {active : DataFile}
  {history : List Write}

theorem Describes.rotated (h : Describes s d sealedOnes active) (hmax : s.activeId ≠ maxUInt32) :
    Describes s.rotated (d.openFile (.log (s.activeId + 1))) (sealedOnes ++ [(s.activeId, active)])
      ⟨[], []⟩ := by
  refine ⟨h.files.rotate hmax, ?_, rfl, fun id bytes hb => ?_⟩
  · rw [Bitcask.rotated, h.sealedFiles, h.active, openedFiles, openedFiles, List.map_append]
    rfl
  · rw [lookup_openFile_ne (by simp)] at hb
    exact (h.hints id bytes hb).trans (Nat.lt_succ_self _)

theorem Describes.appended (h : Describes s d sealedOnes active) (c : Intact) :
    Describes (s.appended c.raw) (d.pwrite (.log s.activeId) (bytesOf active.chunks).length c.raw) sealedOnes
      ⟨active.chunks ++ [c], active.tail.drop c.raw.length⟩ := by
  refine ⟨h.files.pwrite (by simp [DataFile.bytes]), h.sealedFiles, ?_, fun id bytes hb => ?_⟩
  · rw [Bitcask.appended, h.active]
    simp [openedFile]
  · rw [lookup_pwrite_ne (by simp)] at hb
    exact h.hints id bytes hb

theorem StoreInv.rotated (h : StoreInv s d sealedOnes active history) (hmax : s.activeId ≠ maxUInt32) :
    StoreInv s.rotated (d.openFile (.log (s.activeId + 1))) (sealedOnes ++ [(s.activeId, active)])
      ⟨[], []⟩ history := by
  refine ⟨h.describes.rotated hmax, h.durable.rotate h.clean hmax, rfl, ?_⟩
  have hindex := h.index
  have hkeydir : s.rotated.keydir = s.keydir := rfl
  rw [hkeydir]
  simpa [placed_append, placed_cons, placed_nil, placedFrom] using hindex

theorem StoreInv.appended (h : StoreInv s d sealedOnes active history) (c : Intact) :
    StoreInv { s.appended c.raw with
        keydir := s.keydir.replayRecord s.activeId ⟨(bytesOf active.chunks).length, c.record, c.raw⟩ }
      (d.pwrite (.log s.activeId) (bytesOf active.chunks).length c.raw) sealedOnes
      ⟨active.chunks ++ [c], []⟩ (history ++ [c.write]) := by
  have hdescribes := h.describes.appended c
  rw [h.clean, List.drop_nil] at hdescribes
  refine ⟨⟨hdescribes.files, hdescribes.sealedFiles, hdescribes.active, hdescribes.hints⟩,
    h.durable.append h.clean c, rfl, ?_⟩
  rw [placed_active_concat _ _ _ _ active.tail]
  exact h.index.replayRecord ⟨s.activeId, (bytesOf active.chunks).length, c⟩

end Stores

end KVStore.Bitcask
