import KVStore.BitcaskReopen

namespace KVStore.Bitcask

open Lib SortedRun CrashProgram

variable [Crc]

section Files

variable {d : Directory} {files : DataFiles}

def onDisk (files : List (FileId × DataFile)) : List (FileId × Bytes) := files.map fun f => (f.1, f.2.bytes)

theorem FilesAre.resplit {files' : DataFiles} (h : FilesAre d files)
    (hsame : onDisk files' = onDisk files) : FilesAre d files' := by
  have hkeys : keys files' = keys files := by
    have := congrArg keys hsame
    simpa [onDisk, keys, Function.comp_def] using this
  refine ⟨List.pairwise_map.mp ?_, fun f hf => ?_, fun id => ?_⟩
  · show (keys files').Pairwise _
    rw [hkeys]
    exact List.pairwise_map.mpr h.ascending
  · have hmem : f.1 ∈ keys files := hkeys ▸ mem_keys_of_mem hf
    obtain ⟨g, hg, he⟩ := List.mem_map.mp hmem
    exact he ▸ h.ids g hg
  · rw [h.stored, ← find_map, ← find_map]
    exact congrArg (find id) hsame.symm

theorem exists_wholes (hverify : ∀ f ∈ files, Verifies f.2.bytes) :
    ∃ wholes, onDisk wholes = onDisk files ∧ ∀ f ∈ wholes, f.2.tail = [] := by
  induction files with
  | nil => exact ⟨[], rfl, nofun⟩
  | cons f files ih =>
    obtain ⟨hf, hverify⟩ := List.forall_mem_cons.mp hverify
    obtain ⟨wholes, hsame, hwhole⟩ := ih hverify
    obtain ⟨chunks, hchunks⟩ := verifies_iff.mp hf
    refine ⟨(f.1, ⟨chunks, []⟩) :: wholes, ?_, List.forall_mem_cons.mpr ⟨rfl, hwhole⟩⟩
    have hbytes : DataFile.bytes ⟨chunks, []⟩ = f.2.bytes := by
      rw [DataFile.bytes, List.append_nil, hchunks]
    show (f.1, DataFile.bytes ⟨chunks, []⟩) :: onDisk wholes = (f.1, f.2.bytes) :: onDisk files
    rw [hbytes, hsame]

end Files

section Replayed

variable (opts : BitcaskOptions) {d : Directory} {id : FileId}

theorem replayedFile_opens (d : Directory) (id : FileId) {c : DataFile} (hwhole : c.tail = []) (k : Keydir) :
    ∃ k', replayedFile opts d id c.bytes k = .ok (openedFile opts.syncMode id c, k') := by
  have hlength : c.bytes.length = (bytesOf c.chunks).length := by
    rw [DataFile.bytes, hwhole, List.append_nil]
  unfold replayedFile
  split
  next entries _ =>
    rw [hlength]
    exact ⟨_, rfl⟩
  next => exact ⟨_, scannedFile_whole opts.syncMode k hwhole⟩

theorem replayedFiles_opens {files : DataFiles}
    (hstored : ∀ f ∈ files, d.lookup (.log f.1) = some f.2.bytes) (hwhole : ∀ f ∈ files, f.2.tail = [])
    (k : Keydir) : ∃ k', replayedFiles opts d (keys files) k = .ok (openedFiles opts.syncMode files, k') := by
  induction files generalizing k with
  | nil => exact ⟨k, rfl⟩
  | cons f files ih =>
    obtain ⟨hs, hstored⟩ := List.forall_mem_cons.mp hstored
    obtain ⟨hw, hwhole⟩ := List.forall_mem_cons.mp hwhole
    obtain ⟨k₁, hfile⟩ := replayedFile_opens opts d f.1 hw k
    obtain ⟨k₂, hfiles⟩ := ih hstored hwhole k₁
    refine ⟨k₂, ?_⟩
    show replayedFiles opts d (f.1 :: keys files) k = _
    rw [replayedFiles, hs, Option.getD_some, hfile]
    dsimp only
    rw [hfiles]
    rfl

theorem replayedFiles_damaged {ids : List FileId} {content : Bytes} (hid : id ∈ ids)
    (hfile : d.lookup (.log id) = some content) (hhint : d.lookup (.hint id) = none)
    (hdamaged : ¬ Verifies content) (k : Keydir) : ∃ e, replayedFiles opts d ids k = .error e := by
  have hnone : hintEntries d id content.length = none := by
    rw [hintEntries, hhint]
  have hself : ∀ k, replayedFile opts d id content k =
      .error (damaged (.log id) (scanRecords (readAt content) content.length).2) := by
    intro k
    rw [replayedFile, hnone, ite_self]
    exact if_neg hdamaged
  induction ids generalizing k with
  | nil => cases hid
  | cons id' ids ih =>
    rw [replayedFiles]
    by_cases hfirst : id' = id
    · subst hfirst
      rw [hfile, Option.getD_some, hself k]
      exact ⟨_, rfl⟩
    · have hrest : id ∈ ids := List.mem_of_ne_of_mem (Ne.symm hfirst) hid
      cases replayedFile opts d id' ((d.lookup (.log id')).getD []) k with
      | error e => exact ⟨e, rfl⟩
      | ok r =>
        obtain ⟨e, he⟩ := ih hrest r.2
        refine ⟨e, ?_⟩
        dsimp only
        rw [he]

end Replayed

def Opens (listing : Listing) (d : Directory) : Prop :=
  ∀ opts, ∃ s d', (recover opts).run (machine listing) d = (.ok s, d')

section Recover

variable (listing : Listing) {d : Directory} {sealedOnes : DataFiles} {activeId : FileId}
  {active : DataFile}

theorem run_recover (opts : BitcaskOptions) (h : FilesAre d (sealedOnes ++ [(activeId, active)]))
    (htail : NoRecord active.tail) :
    RecoverResult opts d sealedOnes activeId active ((recover opts).run (machine listing) d).1
      ((recover opts).run (machine listing) d).2 := by
  have hrecover : Alone listing (fun _ => True) (fun _ => True)
      (RecoverResult opts d sealedOnes activeId active) (recover opts) d :=
    alone_recover h htail (fun _ _ => trivial) fun _ _ => trivial
  exact hrecover.alone_run (fun _ _ hl => hl) trivial

theorem run_recover_verified (opts : BitcaskOptions) (h : FilesAre d (sealedOnes ++ [(activeId, active)]))
    (hhints : ∀ id bytes, d.lookup (.hint id) = some bytes → id < activeId)
    (hverify : ∀ f ∈ sealedOnes, Verifies f.2.bytes) :
    ∃ s d' wholes active', (recover opts).run (machine listing) d = (.ok s, d') ∧ s.options = opts ∧
      Describes s d' wholes active' ∧ (∀ f ∈ wholes, f.2.tail = []) ∧ active'.tail = [] := by
  obtain ⟨wholes, hsame, hwhole⟩ := exists_wholes hverify
  obtain ⟨chunks, tail, hsplit, htail⟩ := exists_chunks active.bytes
  have hfiles : FilesAre d (wholes ++ [(activeId, ⟨chunks, tail⟩)]) := by
    refine h.resplit ?_
    have hactive : DataFile.bytes ⟨chunks, tail⟩ = active.bytes := hsplit.symm
    simp only [onDisk, List.map_append, List.map_cons, List.map_nil, hactive]
    exact congrArg (· ++ [(activeId, active.bytes)]) hsame
  obtain ⟨k, hopened⟩ := replayedFiles_opens opts
    (fun f hf => hfiles.lookup (List.mem_append_left _ hf)) hwhole .empty
  have hresult := run_recover listing opts hfiles htail
  unfold RecoverResult at hresult
  rw [hopened] at hresult
  obtain ⟨hr, hd⟩ := hresult
  have hactive : ((recover opts).run (machine listing) d).2.lookup (.log activeId) =
      some (DataFile.bytes ⟨chunks, []⟩) := by
    rw [hd.active, DataFile.bytes, List.append_nil]
  refine ⟨_, _, wholes, ⟨chunks, []⟩, Prod.ext hr rfl, rfl, ⟨hfiles.setActive hactive hd.logs, rfl, rfl,
    fun id bytes hb => hhints id bytes (hd.hints id bytes hb)⟩, hwhole, rfl⟩

theorem opens_of_verified (h : FilesAre d (sealedOnes ++ [(activeId, active)]))
    (hhints : ∀ id bytes, d.lookup (.hint id) = some bytes → id < activeId)
    (hverify : ∀ f ∈ sealedOnes, Verifies f.2.bytes) : Opens listing d := by
  intro opts
  obtain ⟨s, d', _, _, hr, _⟩ := run_recover_verified listing opts h hhints hverify
  exact ⟨s, d', hr⟩

variable {listing} in
theorem verifies_of_opens (h : FilesAre d (sealedOnes ++ [(activeId, active)])) (hopens : Opens listing d)
    {f : FileId × DataFile} (hf : f ∈ sealedOnes) (hhint : d.lookup (.hint f.1) = none) :
    Verifies f.2.bytes := by
  by_contra hdamaged
  obtain ⟨chunks, tail, hsplit, htail⟩ := exists_chunks active.bytes
  have hfiles : FilesAre d (sealedOnes ++ [(activeId, ⟨chunks, tail⟩)]) := by
    refine h.resplit ?_
    have hactive : DataFile.bytes ⟨chunks, tail⟩ = active.bytes := hsplit.symm
    simp [onDisk, hactive]
  obtain ⟨e, he⟩ := replayedFiles_damaged {} (mem_keys_of_mem hf)
    (h.lookup (List.mem_append_left _ hf)) hhint hdamaged .empty
  have hresult := run_recover listing {} hfiles htail
  unfold RecoverResult at hresult
  rw [he] at hresult
  obtain ⟨s, d', hr⟩ := hopens {}
  rw [hr] at hresult
  cases hresult

end Recover

end KVStore.Bitcask
