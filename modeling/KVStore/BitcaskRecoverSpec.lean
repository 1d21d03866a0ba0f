import KVStore.BitcaskRecover

namespace KVStore

open Lib SortedRun CrashProgram

variable [Crc]

def Keydir.replayFiles (files : List (FileId × DataFile)) (k : Keydir) : Keydir :=
  files.foldl (fun k f => (visitedFrom 0 f.2.chunks).foldl (Keydir.replayRecord f.1) k) k

theorem Indexes.replayFiles {k : Keydir} {ps : List Placed} (h : Indexes k ps)
    (files : DataFiles) : Indexes (k.replayFiles files) (ps ++ placed files) := by
  induction files generalizing k ps with
  | nil => simpa [Keydir.replayFiles] using h
  | cons f files ih =>
    have hnext := ih (h.replayRecords f.1 0 f.2.chunks)
    rwa [List.append_assoc] at hnext

namespace Bitcask

section Sealed

variable {opts : BitcaskOptions} {d : Directory} {id : FileId} {c : DataFile}

theorem scannedFile_whole (mode : SyncMode) (k : Keydir) (hwhole : c.tail = []) :
    scannedFile mode id c.bytes k = .ok (openedFile mode id c,
      (visitedFrom 0 c.chunks).foldl (Keydir.replayRecord id) k) := by
  have hscan := scanRecords_bytesOf c.chunks noRecord_nil
  unfold scannedFile
  rw [DataFile.bytes, hwhole, hscan, List.append_nil]
  simp [openedFile]

theorem replayedFile_whole (k : Keydir) (hwhole : c.tail = [])
    (hhint : ∀ bytes, d.lookup (.hint id) = some bytes → HintOf c bytes) :
    replayedFile opts d id c.bytes k = .ok (openedFile opts.syncMode id c,
      (visitedFrom 0 c.chunks).foldl (Keydir.replayRecord id) k) := by
  unfold replayedFile
  split
  next entries he =>
    split_ifs at he
    unfold hintEntries at he
    split at he
    · cases he
    next bytes hb =>
      have hof := hhint bytes hb
      obtain ⟨f, rfl⟩ := hof.written
      rw [Hint.eq_of_readHint hof.encodable he, Indexes.replayEntries id k hof.live]
      rw [openedFile, DataFile.bytes, hwhole, List.append_nil]
  next => exact scannedFile_whole opts.syncMode k hwhole

theorem replayedFiles_whole {files : DataFiles} (k : Keydir)
    (hstored : ∀ f ∈ files, d.lookup (.log f.1) = some f.2.bytes) (hwhole : ∀ f ∈ files, f.2.tail = [])
    (hhint : ∀ f ∈ files, ∀ bytes, d.lookup (.hint f.1) = some bytes → HintOf f.2 bytes) :
    replayedFiles opts d (keys files) k =
      .ok (openedFiles opts.syncMode files, k.replayFiles files) := by
  induction files generalizing k with
  | nil => rfl
  | cons f files ih =>
    obtain ⟨hs, hstored⟩ := List.forall_mem_cons.mp hstored
    obtain ⟨hw, hwhole⟩ := List.forall_mem_cons.mp hwhole
    obtain ⟨hh, hhint⟩ := List.forall_mem_cons.mp hhint
    have hnext := ih ((visitedFrom 0 f.2.chunks).foldl (Keydir.replayRecord f.1) k) hstored hwhole hhint
    unfold keys at hnext ⊢
    rw [List.map_cons, replayedFiles, hs, Option.getD_some, replayedFile_whole k hw hh]
    dsimp only
    rw [hnext]
    rfl

end Sealed

section Listing

variable {listing : Listing} {d : Directory} {files : DataFiles}

theorem FilesAre.found (h : FilesAre d files) :
    ((listing.order d.keys).filterMap FileName.parseLogFileId).insertionSort (· ≤ ·) =
      keys files := by
  have hmem : ∀ id, id ∈ (listing.order d.keys).filterMap FileName.parseLogFileId ↔
      id ∈ keys files := by
    intro id
    rw [List.mem_filterMap]
    constructor
    · rintro ⟨name, hname, hparse⟩
      rw [(listing.perm _).mem_iff, Directory.mem_keys_iff] at hname
      cases name with
      | log =>
        simp only [FileName.parseLogFileId] at hparse
        split_ifs at hparse
        cases hparse
        by_contra hnot
        rw [h.lookup_none hnot] at hname
        cases hname
      | hint | logTemp | hintTemp => cases hparse
    · intro hid
      obtain ⟨f, hf, rfl⟩ := List.mem_map.mp hid
      refine ⟨.log f.1, ?_, ?_⟩
      · rw [(listing.perm _).mem_iff, Directory.mem_keys_iff, h.lookup hf]
        rfl
      · have hrange : IsFileId f.1 := h.ids f hf
        rw [FileName.parseLogFileId, if_pos hrange]
  have hnodup : ((listing.order d.keys).filterMap FileName.parseLogFileId).Nodup := by
    refine List.Nodup.filterMap (fun a b id ha hb => ?_) ((listing.perm _).nodup_iff.mpr d.keys_nodup)
    cases a <;> cases b <;> simp_all [FileName.parseLogFileId]
  have hperm := (List.perm_ext_iff_of_nodup hnodup h.ascending.nodup_keys).mpr hmem
  refine ((List.perm_insertionSort _ _).trans hperm).eq_of_pairwise' (List.pairwise_insertionSort _ _) ?_
  exact List.pairwise_map.mpr (h.ascending.imp fun hlt => hlt.le)

end Listing

theorem Swept.replayedFiles {opts : BitcaskOptions} {d d' : Directory} {ids ids' : List FileId}
    (h : Swept ids d d') (k : Keydir)
    (hsub : ∀ id ∈ ids', id ∈ ids) : replayedFiles opts d' ids' k = replayedFiles opts d ids' k := by
  induction ids' generalizing k with
  | nil => rfl
  | cons id ids' ih =>
    obtain ⟨hid, hsub⟩ := List.forall_mem_cons.mp hsub
    have hsame : ∀ content, replayedFile opts d' id content k = replayedFile opts d id content k := by
      intro content
      unfold replayedFile hintEntries
      rw [h.kept id hid]
    rw [Bitcask.replayedFiles, Bitcask.replayedFiles, h.logs id, hsame]
    split
    · rfl
    next k' _ => rw [ih k' hsub]

/-- A directory that recovery has opened: the active file ends with its last record. -/
structure Opened (ids : List FileId) (activeId : FileId) (active : DataFile) (d d' : Directory) : Prop where
  active : d'.lookup (.log activeId) = some (bytesOf active.chunks)
  logs : ∀ id, id ≠ activeId → d'.lookup (.log id) = d.lookup (.log id)
  kept : ∀ id ∈ ids, d'.lookup (.hint id) = d.lookup (.hint id)
  hints : ∀ id bytes, d'.lookup (.hint id) = some bytes → d.lookup (.hint id) = some bytes

section Recover

variable {listing : Listing} {I : Directory → Prop} {opts : BitcaskOptions} {d d' : Directory}
  {sealedOnes : DataFiles} {activeId : FileId} {active : DataFile} {ids : List FileId}

theorem Swept.cut {more : Bytes} (hd : Swept ids d d')
    (hfile : d'.lookup (.log activeId) = some (bytesOf active.chunks ++ more)) :
    Opened ids activeId active d (d'.truncate (.log activeId) (bytesOf active.chunks).length) := by
  refine ⟨Directory.lookup_truncate hfile, fun id hid => ?_, fun id hid => ?_, fun id bytes hb => ?_⟩
  · rw [Directory.lookup_truncate_ne (by simpa using hid), hd.logs]
  · rw [Directory.lookup_truncate_ne (by simp), hd.kept id hid]
  · rw [Directory.lookup_truncate_ne (by simp)] at hb
    exact hd.hints id bytes hb

theorem Swept.stored (hd : Swept ids d d') (hfiles : FilesAre d (sealedOnes ++ [(activeId, active)])) :
    (∀ id ∈ keys sealedOnes, ∃ content, d'.lookup (.log id) = some content) ∧
      d'.lookup (.log activeId) = some active.bytes := by
  refine ⟨fun id hid => ?_, (hd.logs activeId).trans hfiles.active_mem⟩
  obtain ⟨f, hf, rfl⟩ := List.mem_map.mp hid
  exact ⟨_, (hd.logs f.1).trans (hfiles.lookup (List.mem_append_left _ hf))⟩

theorem alone_replayActive (mode : SyncMode) (k : Keydir) (hd : Swept ids d d')
    (hfile : d'.lookup (.log activeId) = some active.bytes) (htail : NoRecord active.tail)
    (hI : I d') (hI' : ∀ d', Opened ids activeId active d d' → I d') :
    Alone listing (fun _ => True) I
      (fun r d' => r = .ok (openedFile mode activeId active,
        (visitedFrom 0 active.chunks).foldl (Keydir.replayRecord activeId) k) ∧
        Opened ids activeId active d d')
      (replayFile activeId ⟨.log activeId, active.bytes.length, mode, true⟩ true k) d' := by
  have hread : Returns listing (fun _ => True) I
    (LogFile.reader ⟨.log activeId, active.bytes.length, mode, true⟩) d' (readAt active.bytes) :=
    returns_reader rfl hfile hI
  refine hread.bind trivial ?_
  have hscan := scanRecords_bytesOf active.chunks htail
  rw [← DataFile.bytes] at hscan
  dsimp only
  rw [hscan]
  split
  next hend =>
    have hnil : active.tail = [] := by
      rw [DataFile.bytes, List.length_append] at hend
      exact List.eq_nil_of_length_eq_zero (by omega)
    have hbytes : active.bytes = bytesOf active.chunks := by
      rw [DataFile.bytes, hnil, List.append_nil]
    refine .alone_ret hI ⟨?_, ?_, fun id _ => hd.logs id, hd.kept, hd.hints⟩
    · rw [hbytes, openedFile]
    · rw [hfile, hbytes]
  next =>
    have hcut := hd.cut hfile
    rw [if_pos rfl]
    refine alone_orFail (Q := fun r d' => r = .ok (openedFile mode activeId active) ∧
      Opened ids activeId active d d') ?_ trivial (fun _ _ h => nomatch h.1) fun file d' hr _ => ?_
    · rw [LogFile.truncate, if_pos rfl]
      refine alone_op hI (fun _ h => nomatch h) fun _ => ?_
      exact (returns_sync rfl (hI' _ hcut)).bind trivial (.alone_ret (hI' _ hcut) ⟨rfl, hcut⟩)
    · obtain ⟨hfile', hcut⟩ := hr
      cases hfile'
      exact .alone_ret (hI' d' hcut) ⟨rfl, hcut⟩

/-- What recovery returns: an error if a sealed file neither has a hint nor verifies,
the replayed store otherwise. -/
def RecoverResult (opts : BitcaskOptions) (d : Directory) (sealedOnes : List (FileId × DataFile))
    (activeId : FileId) (active : DataFile) (r : Except Failure Bitcask) (d' : Directory) : Prop :=
  match replayedFiles opts d (SortedRun.keys sealedOnes) .empty with
  | .error e => r = .error e
  | .ok (files, k) =>
    r = .ok ⟨opts, files, activeId, openedFile opts.syncMode activeId active,
      (visitedFrom 0 active.chunks).foldl (Keydir.replayRecord activeId) k⟩ ∧
    Opened (SortedRun.keys (sealedOnes ++ [(activeId, active)])) activeId active d d'

theorem alone_openFiles (hfiles : FilesAre d (sealedOnes ++ [(activeId, active)]))
    (htail : NoRecord active.tail) (hd : Swept (keys (sealedOnes ++ [(activeId, active)])) d d') (hI : I d')
    (hI' : ∀ d', Opened (keys (sealedOnes ++ [(activeId, active)])) activeId active d d' → I d') :
    Alone listing (fun _ => True) I (RecoverResult opts d sealedOnes activeId active)
      (openFiles opts (keys sealedOnes) activeId) d' := by
  obtain ⟨hstored, hactive⟩ := hd.stored hfiles
  have hreplayed : replayedFiles opts d' (keys sealedOnes) .empty =
      replayedFiles opts d (keys sealedOnes) .empty := by
    refine hd.replayedFiles .empty fun id hid => ?_
    rw [keys_append]
    exact List.mem_append_left _ hid
  refine Returns.bind (returns_openSealedFiles .empty hstored hI trivial) trivial ?_
  unfold RecoverResult
  rw [hreplayed]
  cases replayedFiles opts d (keys sealedOnes) .empty with
  | error => exact .alone_ret hI rfl
  | ok r =>
    obtain ⟨files, k⟩ := r
    refine (returns_openAt opts.syncMode hactive hI).orFail trivial ?_
    refine alone_orFail (alone_replayActive opts.syncMode k hd hactive htail hI hI') trivial
      (fun _ _ h => nomatch h.1) fun file d'' hr _ => ?_
    obtain ⟨hfile, hopened⟩ := hr
    cases hfile
    exact .alone_ret (hI' d'' hopened) ⟨rfl, hopened⟩

theorem alone_recover (hfiles : FilesAre d (sealedOnes ++ [(activeId, active)]))
    (htail : NoRecord active.tail) (hI : ∀ d', Swept (keys (sealedOnes ++ [(activeId, active)])) d d' → I d')
    (hI' : ∀ d', Opened (keys (sealedOnes ++ [(activeId, active)])) activeId active d d' → I d') :
    Alone listing (fun _ => True) I (RecoverResult opts d sealedOnes activeId active) (recover opts) d := by
  refine alone_orFail (alone_sweepTempFiles hI) trivial (fun _ _ h => nomatch h.1) fun _ d' hd' _ => ?_
  obtain ⟨_, hd'⟩ := hd'
  refine alone_op (hI d' hd') (fun _ h => nomatch h) fun _ => ?_
  have hfound : ((listing.order d'.keys).filterMap FileName.parseLogFileId).insertionSort (· ≤ ·) =
      keys (sealedOnes ++ [(activeId, active)]) := (hfiles.congr hd'.logs).found
  simp only [exec, hfound]
  refine Guarded.bind (fun _ => rfl) (alone_removeOrphanHints _ hI hd') (fun _ d'' hd'' _ => ?_) trivial
  have hkeys : keys (sealedOnes ++ [(activeId, active)]) = keys sealedOnes ++ [activeId] :=
    keys_append ..
  rw [hkeys, if_neg (by simp), List.dropLast_concat, List.getLastD_concat]
  exact alone_openFiles hfiles htail hd'' (hI d'' hd'') hI'

end Recover

end Bitcask

end KVStore
