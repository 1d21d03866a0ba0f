import KVStore.BitcaskRecoverSpec

namespace KVStore.Bitcask

open Lib CrashProgram

variable [Crc] {listing : Listing} {opts : BitcaskOptions} {d d' : Directory}
  {sealedOnes : DataFiles} {activeId : FileId} {active : DataFile} {history : List Write}

section

variable (h : Durable d sealedOnes activeId active history)
include h

theorem Durable.swept {ids : List FileId}
    (hd : Swept ids d d') : Durable d' sealedOnes activeId active history :=
  h.congr hd.logs hd.hints

theorem Durable.opened {ids : List FileId} (hd : Opened ids activeId active d d') :
    Durable d' sealedOnes activeId ⟨active.chunks, []⟩ history := by
  have hactive : d'.lookup (.log activeId) = some (DataFile.bytes ⟨active.chunks, []⟩) := by
    rw [hd.active, DataFile.bytes, List.append_nil]
  refine ⟨h.files.setActive hactive hd.logs, h.whole, noRecord_nil, h.hints.congr hd.hints, ?_⟩
  · have hanswers := h.answers
    simpa [placed_append, placed_cons] using hanswers

def replayedStore (opts : BitcaskOptions) (sealedOnes : List (FileId × DataFile)) (activeId : FileId)
    (active : DataFile) : Bitcask where
  options := opts
  sealedFiles := openedFiles opts.syncMode sealedOnes
  activeId := activeId
  active := openedFile opts.syncMode activeId active
  keydir := Keydir.empty.replayFiles (sealedOnes ++ [(activeId, active)])

theorem Durable.storeInv (hclean : active.tail = []) :
    StoreInv (replayedStore opts sealedOnes activeId active) d sealedOnes active history := by
  refine ⟨⟨h.files, rfl, rfl, h.hints.below⟩, h, hclean, ?_⟩
  have hindex := Indexes.nil.replayFiles (sealedOnes ++ [(activeId, active)])
  rwa [List.nil_append] at hindex

theorem Durable.replayedFiles :
    replayedFiles opts d (SortedRun.keys sealedOnes) .empty =
      .ok (openedFiles opts.syncMode sealedOnes, Keydir.empty.replayFiles sealedOnes) := by
  refine replayedFiles_whole .empty (fun f hf => h.files.lookup (List.mem_append_left _ hf)) h.whole
    fun f hf bytes hb => h.hints.written f.1 bytes f.2 hb ?_
  have hsorted := h.files.sealed_ascending
  exact SortedRun.find_of_mem hsorted.nodup_keys hf

def Reopened (opts : BitcaskOptions) (history : List Write) (r : Except Failure Bitcask) (d : Directory) :
    Prop :=
  ∃ sealedOnes activeId active, r = .ok (replayedStore opts sealedOnes activeId active) ∧
    StoreInv (replayedStore opts sealedOnes activeId active) d sealedOnes active history

def ReopenedTo (opts : BitcaskOptions) (sealedOnes : List (FileId × DataFile)) (activeId : FileId)
    (active : DataFile) (history : List Write) (r : Except Failure Bitcask) (d : Directory) : Prop :=
  r = .ok (replayedStore opts sealedOnes activeId active) ∧
    StoreInv (replayedStore opts sealedOnes activeId active) d sealedOnes active history

theorem Durable.alone_reopen :
    Alone listing (fun _ => True) (fun d => Recoverable d history)
      (ReopenedTo opts sealedOnes activeId ⟨active.chunks, []⟩ history) (recover opts) d := by
  refine (Bitcask.alone_recover h.files h.torn (fun d' hd => .durable (h.swept hd))
    fun d' hd => .durable (h.opened hd)).mono fun r d' hr => ?_
  unfold RecoverResult at hr
  rw [h.replayedFiles] at hr
  obtain ⟨rfl, hd⟩ := hr
  refine ⟨?_, (h.opened hd).storeInv rfl⟩
  simp [replayedStore, openedFile, Keydir.replayFiles]

theorem Durable.alone_recover :
    Alone listing (fun _ => True) (fun d => Recoverable d history) (Reopened opts history)
      (recover opts) d :=
  h.alone_reopen.mono fun _ _ hr => ⟨_, _, _, hr⟩

end

theorem filesAre_nil (hlogs : ∀ id, d.lookup (.log id) = none) : FilesAre d [] :=
  ⟨.nil, nofun, fun id => hlogs id⟩

theorem durable_first (hlogs : ∀ id, id ≠ kFirstFileId → d.lookup (.log id) = none)
    (hfirst : d.lookup (.log kFirstFileId) = some []) (hhints : ∀ id, d.lookup (.hint id) = none) :
    Durable d [] kFirstFileId ⟨[], []⟩ [] := by
  have hnone : FilesAre (d.erase (.log kFirstFileId)) [] := by
    refine filesAre_nil fun id => ?_
    by_cases hid : id = kFirstFileId
    · rw [hid, AList.lookup_erase]
    · rw [AList.lookup_erase_ne (by simpa using hid), hlogs id hid]
  refine ⟨hnone.concat (c := ⟨[], []⟩) nofun le_rfl (by decide) hfirst fun id hid => ?_, nofun, noRecord_nil,
    ⟨fun id bytes hb => ?_, fun id bytes c hb => ?_⟩, fun key => rfl⟩
  · rw [hlogs id hid, AList.lookup_erase_ne (by simpa using hid), hlogs id hid]
  · cases (hhints id).symm.trans hb
  · cases (hhints id).symm.trans hb

theorem alone_reopen_fresh (hlogs : ∀ id, d.lookup (.log id) = none)
    (hhints : ∀ id, d.lookup (.hint id) = none) :
    Alone listing (fun _ => True) (fun d => Recoverable d []) (ReopenedTo opts [] kFirstFileId ⟨[], []⟩ [])
      (recover opts) d := by
  have hfresh : ∀ d', Swept [] d d' → (∀ id, d'.lookup (.log id) = none) ∧ ∀ id, d'.lookup (.hint id) = none := by
    intro d' hd
    refine ⟨fun id => (hd.logs id).trans (hlogs id), fun id => ?_⟩
    cases hb : d'.lookup (.hint id) with
    | none => rfl
    | some bytes => cases (hhints id).symm.trans (hd.hints id bytes hb)
  have hI : ∀ d', Swept [] d d' → Recoverable d' [] := fun d' hd => .fresh (hfresh d' hd).1 (hfresh d' hd).2 rfl
  refine alone_orFail (alone_sweepTempFiles hI) trivial (fun _ _ h => by cases h.1) fun _ d' hd' _ => ?_
  obtain ⟨_, hd'⟩ := hd'
  refine alone_op (hI d' hd') (fun _ h => by cases h) fun _ => ?_
  have hfound : ((listing.order d'.keys).filterMap FileName.parseLogFileId).insertionSort (· ≤ ·) = [] :=
    (filesAre_nil (hfresh d' hd').1).found
  simp only [exec, hfound, if_true]
  refine Guarded.bind (fun _ => rfl) (alone_removeOrphanHints _ hI hd') (fun _ d'' hd'' _ => ?_) trivial
  obtain ⟨hlogs'', hhints''⟩ := hfresh d'' hd''
  have hdurable : Durable (d''.openFile (.log kFirstFileId)) [] kFirstFileId ⟨[], []⟩ [] := by
    refine durable_first (fun id hid => ?_) (Directory.lookup_openFile_of_none (hlogs'' _)) fun id => ?_
    · rw [Directory.lookup_openFile_ne (by simpa using hid), hlogs'']
    · rw [Directory.lookup_openFile_ne (by simp), hhints'']
  show Alone listing _ _ _ (openFiles opts [] kFirstFileId) d''
  refine alone_op (hI d'' hd'') (fun _ h => by cases h) fun _ => ?_
  have hexec : exec listing (.openFile (.log kFirstFileId)) d'' =
      (.ok 0, d''.openFile (.log kFirstFileId)) := by
    rw [exec, Directory.size, hlogs'']
    rfl
  rw [hexec]
  have hreplay := @alone_replayActive _ listing (fun d => Recoverable d []) _ _ kFirstFileId ⟨[], []⟩ []
    opts.syncMode .empty (Swept.refl [] (d''.openFile (.log kFirstFileId))) hdurable.files.active_mem
    noRecord_nil (.durable hdurable) fun d' hd => .durable (hdurable.opened hd)
  show Alone listing _ _ _ (orFail (replayFile kFirstFileId ⟨.log kFirstFileId, 0, opts.syncMode, true⟩ true
    .empty) _) (d''.openFile (.log kFirstFileId))
  refine alone_orFail hreplay trivial (fun _ _ h => by cases h.1) fun file d' hr _ => ?_
  obtain ⟨hfile, hd⟩ := hr
  cases hfile
  exact .alone_ret (.durable (hdurable.opened hd)) ⟨rfl, (hdurable.opened hd).storeInv rfl⟩

theorem alone_recover_fresh (hlogs : ∀ id, d.lookup (.log id) = none)
    (hhints : ∀ id, d.lookup (.hint id) = none) :
    Alone listing (fun _ => True) (fun d => Recoverable d []) (Reopened opts []) (recover opts) d :=
  (alone_reopen_fresh hlogs hhints).mono fun _ _ hr => ⟨_, _, _, hr⟩

theorem Recoverable.alone_reopen (h : Recoverable d history) : ∃ sealedOnes activeId active, ∀ opts,
    Alone listing (fun _ => True) (fun d => Recoverable d history)
      (ReopenedTo opts sealedOnes activeId active history) (recover opts) d := by
  cases h with
  | fresh logs hints history =>
    subst history
    exact ⟨_, _, _, fun _ => alone_reopen_fresh logs hints⟩
  | durable durable => exact ⟨_, _, _, fun _ => durable.alone_reopen⟩

theorem Recoverable.alone_recover (h : Recoverable d history) :
    Alone listing (fun _ => True) (fun d => Recoverable d history) (Reopened opts history)
      (recover opts) d := by
  obtain ⟨sealedOnes, activeId, active, hopen⟩ := h.alone_reopen
  exact (hopen opts).mono fun _ _ hr => ⟨_, _, _, hr⟩

end KVStore.Bitcask
