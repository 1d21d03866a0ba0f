import KVStore.BitcaskWrite

namespace KVStore.Bitcask

open Lib CrashProgram Directory

structure SameFiles (d d' : Directory) : Prop where
  logs : ∀ id, d'.lookup (.log id) = d.lookup (.log id)
  hints : ∀ id, d'.lookup (.hint id) = d.lookup (.hint id)

namespace SameFiles

variable {d d' : Directory}

theorem refl (d : Directory) : SameFiles d d := ⟨fun _ => rfl, fun _ => rfl⟩

theorem temp (h : SameFiles d d') {d'' : Directory} {name : FileName} {id : FileId}
    (hname : name = .logTemp id ∨ name = .hintTemp id)
    (hsame : ∀ name', name' ≠ name → d''.lookup name' = d'.lookup name') : SameFiles d d'' := by
  have hlog : ∀ id, FileName.log id ≠ name := by rcases hname with rfl | rfl <;> simp
  have hhint : ∀ id, FileName.hint id ≠ name := by rcases hname with rfl | rfl <;> simp
  exact ⟨fun id => (hsame _ (hlog id)).trans (h.logs id), fun id => (hsame _ (hhint id)).trans (h.hints id)⟩

end SameFiles

section Append

variable {listing : Listing} {legal I : Directory → Prop} {d : Directory} {file : LogFile}

theorem alone_append (content bytes : Bytes) (hopen : file.isOpen = true) (hmode : file.syncMode = .never)
    (hend : file.endOffset = content.length) (hI : I d)
    (hI' : ∀ bytes', I (d.pwrite file.name content.length bytes')) :
    Alone listing legal I
      (fun r d' => r = (.ok content.length, { file with endOffset := content.length + bytes.length }) ∧
        d' = d.pwrite file.name content.length bytes ∧ legal d')
      (file.append bytes) d := by
  rw [LogFile.append, if_pos hopen, hend]
  refine alone_op hI (fun d' ht => ?_) fun hl => ?_
  · cases ht with
    | pwrite => exact hI' _
  · simp only [exec, hmode]
    exact .alone_ret (hI' bytes) ⟨rfl, rfl, hl⟩

end Append

variable [Crc] {d : Directory}

def heldFile (mode : SyncMode) (isOpen : FileId → Bool) (f : FileId × DataFile) : LogFile :=
  ⟨.log f.1, (bytesOf f.2.chunks).length, mode, isOpen f.1⟩

def heldFiles (mode : SyncMode) (isOpen : FileId → Bool) (files : List (FileId × DataFile)) :
    List (FileId × LogFile) :=
  files.map fun f => (f.1, heldFile mode isOpen f)

def Readable (isOpen : FileId → Bool) (files : List (FileId × DataFile)) : Prop :=
  ∀ f ∈ files, isOpen f.1 = true ∨ f.2.chunks = []

theorem Describes.held {s : Bitcask} {sealedOnes : DataFiles} {active : DataFile}
    (h : Describes s d sealedOnes active) :
    s.sealedFiles = heldFiles s.options.syncMode (fun _ => true) sealedOnes :=
  h.sealedFiles

def isLive (k : Keydir) (p : Placed) : Bool :=
  !p.gone && match k.index.lookup p.key with
    | none => false
    | some live => live.fileId == p.fileId && live.offset == p.offset

def keep (k : Keydir) (p : Placed) : List Intact := if isLive k p then [p.chunk] else []

/-- What a merge has written once it has copied these records. -/
structure Merging (outId : FileId) (copied : List Intact) (m : Merge) (d : Directory) : Prop where
  temp : m.temp = ⟨.logTemp outId, (bytesOf copied).length, .never, true⟩
  tempFile : d.lookup (.logTemp outId) = some (bytesOf copied)
  hintTemp : m.hintTemp = ⟨.hintTemp outId, (Hint.entriesBytes (entriesFrom 0 copied)).length, .never, true⟩
  hintFile : d.lookup (.hintTemp outId) = some (Hint.entriesBytes (entriesFrom 0 copied))
  entries : m.hintEntries = copied.length
  staged : ∀ key, m.staged.lookup key =
    (ReplayLog.newest Placed.key key (placedFrom outId 0 copied)).map Placed.pointer

theorem Merging.concat {outId : FileId} {copied : List Intact} {m : Merge}
    (hm : Merging outId copied m d) (c : Intact) :
    Merging outId (copied ++ [c])
      { temp := ⟨.logTemp outId, (bytesOf copied).length + c.raw.length, .never, true⟩
        hintTemp := ⟨.hintTemp outId, (Hint.entriesBytes (entriesFrom 0 copied)).length +
          (Hint.encodeEntry ⟨c.record.timestamp, (bytesOf copied).length, c.record.totalSize,
            c.record.key⟩).length, .never, true⟩
        hintEntries := m.hintEntries + 1
        staged := m.staged.insert c.record.key
          ⟨(bytesOf copied).length, c.record.timestamp, outId, c.record.totalSize⟩ }
      ((d.pwrite (.logTemp outId) (bytesOf copied).length c.raw).pwrite (.hintTemp outId)
        (Hint.entriesBytes (entriesFrom 0 copied)).length
        (Hint.encodeEntry ⟨c.record.timestamp, (bytesOf copied).length, c.record.totalSize,
          c.record.key⟩)) := by
  have hentries : Hint.entriesBytes (entriesFrom 0 (copied ++ [c])) =
      Hint.entriesBytes (entriesFrom 0 copied) ++ Hint.encodeEntry ⟨c.record.timestamp,
        (bytesOf copied).length, c.record.totalSize, c.record.key⟩ := by
    rw [entriesFrom_append, Hint.entriesBytes_append, Nat.zero_add]
    simp [entriesFrom, Placed.entry]
  have hbytes : bytesOf (copied ++ [c]) = bytesOf copied ++ c.raw := by simp
  have hhint : (d.pwrite (.logTemp outId) (bytesOf copied).length c.raw).lookup (.hintTemp outId) =
      some (Hint.entriesBytes (entriesFrom 0 copied)) := by
    rw [lookup_pwrite_ne (by simp), hm.hintFile]
  refine ⟨?_, ?_, ?_, ?_, ?_, fun key => ?_⟩
  · rw [hbytes, List.length_append]
  · rw [lookup_pwrite_ne (by simp), lookup_pwrite hm.tempFile, overwrite_end, hbytes]
  · rw [hentries, List.length_append]
  · rw [lookup_pwrite hhint, overwrite_end, hentries]
  · rw [List.length_append, List.length_singleton, ← hm.entries]
  · have hkey : Placed.key ⟨outId, (bytesOf copied).length, c⟩ = c.record.key := rfl
    rw [placedFrom_append, Nat.zero_add, placedFrom, placedFrom, ReplayLog.newest_concat, hkey]
    by_cases hk : key = c.record.key
    · subst hk
      rw [AList.lookup_insert, if_pos rfl]
      rfl
    · rw [AList.lookup_insert_ne hk, hm.staged key, if_neg]
      exact fun h => hk h.symm

section Copy

variable {listing : Listing} {legal I : Directory → Prop} {s : Bitcask} {d₀ d : Directory} {outId : FileId}
  {copied : List Intact} {m : Merge}

theorem alone_copyRecord (p : Placed) (hI : ∀ d, SameFiles d₀ d → I d) (hd : SameFiles d₀ d)
    (hm : Merging outId copied m d) (hl : legal d) :
    Alone listing legal I
      (fun r d' => ∃ m', r = .ok m' ∧ SameFiles d₀ d' ∧ legal d' ∧
        Merging outId (copied ++ keep s.keydir p) m' d')
      (s.copyRecord outId p.fileId m p.visited) d := by
  have hskip : isLive s.keydir p = false →
      ∃ m', (Except.ok m : Except Failure Merge) = .ok m' ∧ SameFiles d₀ d ∧ legal d ∧
        Merging outId (copied ++ keep s.keydir p) m' d := by
    intro hdead
    refine ⟨m, rfl, hd, hl, ?_⟩
    rw [keep, hdead]
    simpa using hm
  unfold copyRecord
  split
  next htomb =>
    have hgone : p.gone = true := htomb
    exact .alone_ret (hI d hd) (hskip (by simp [isLive, hgone]))
  next htomb =>
    have hgone : p.gone = false := Bool.eq_false_of_not_eq_true htomb
    split
    next hnone =>
      have hlookup : s.keydir.index.lookup p.key = none := hnone
      exact .alone_ret (hI d hd) (hskip (by simp [isLive, hlookup]))
    next live hsome =>
      have hlookup : s.keydir.index.lookup p.key = some live := hsome
      split
      next hmoved =>
        have hdead : isLive s.keydir p = false := by
          simp only [isLive, hgone, hlookup, Bool.not_false, Bool.true_and, Bool.and_eq_false_iff,
            beq_eq_false_iff_ne]
          exact hmoved
        exact .alone_ret (hI d hd) (hskip hdead)
      next hhere =>
        have hlive : isLive s.keydir p = true := by
          rw [not_or, not_not, not_not] at hhere
          have hoffset : live.offset = p.offset := hhere.2
          simp [isLive, hgone, hlookup, hhere.1, hoffset]
        rw [keep, hlive, if_pos rfl]
        cases m with
        | mk temp hintTemp =>
          obtain rfl : temp = _ := hm.temp
          obtain rfl : hintTemp = _ := hm.hintTemp
          have htemp : ∀ bytes, SameFiles d₀ (d.pwrite (.logTemp outId) (bytesOf copied).length bytes) :=
            fun bytes => hd.temp (.inl rfl) fun name h => lookup_pwrite_ne h _ _
          refine (alone_append (bytesOf copied) p.visited.raw rfl rfl rfl (hI d hd)
            fun bytes => hI _ (htemp bytes)).bind (fun _ => rfl) (fun r d₁ hr hl₁ => ?_) hl
          obtain ⟨rfl, rfl, _⟩ := hr
          have hhint : ∀ bytes, SameFiles d₀ ((d.pwrite (.logTemp outId) (bytesOf copied).length
              p.visited.raw).pwrite (.hintTemp outId)
                (Hint.entriesBytes (entriesFrom 0 copied)).length bytes) :=
            fun bytes => (htemp _).temp (.inr rfl) fun name h => lookup_pwrite_ne h _ _
          refine (alone_append (Hint.entriesBytes (entriesFrom 0 copied)) _ rfl rfl rfl (hI _ (htemp _))
            fun bytes => hI _ (hhint bytes)).bind (fun _ => rfl) (fun r d₂ hr hl₂ => ?_) hl₁
          obtain ⟨rfl, rfl, _⟩ := hr
          refine .alone_ret (hI _ (hhint _)) ⟨_, rfl, hhint _, hl₂, hm.concat p.chunk⟩

def liveChunks (k : Keydir) (ps : List Placed) : List Intact := (ps.filter (isLive k)).map Placed.chunk

theorem liveChunks_append (k : Keydir) (ps ps' : List Placed) :
    liveChunks k (ps ++ ps') = liveChunks k ps ++ liveChunks k ps' := by
  simp [liveChunks]

theorem liveChunks_cons (k : Keydir) (p : Placed) (ps : List Placed) :
    liveChunks k (p :: ps) = keep k p ++ liveChunks k ps := by
  cases h : isLive k p <;> simp [liveChunks, keep, h]

def Copied (legal : Directory → Prop) (d₀ : Directory) (outId : FileId) (copied : List Intact)
    (r : Except Failure Merge) (d : Directory) : Prop :=
  ∃ m, r = .ok m ∧ SameFiles d₀ d ∧ legal d ∧ Merging outId copied m d

theorem alone_copyRecords {id : FileId} {offset : Nat} {chunks : List Intact}
    (hI : ∀ d, SameFiles d₀ d → I d) (hd : SameFiles d₀ d) (hm : Merging outId copied m d) (hl : legal d) :
    Alone listing legal I
      (Copied legal d₀ outId (copied ++ liveChunks s.keydir (placedFrom id offset chunks)))
      (s.copyRecords outId id (visitedFrom offset chunks) m) d := by
  induction chunks generalizing offset copied m d with
  | nil =>
    refine .alone_ret (hI d hd) ⟨m, rfl, hd, hl, ?_⟩
    simpa [placedFrom, liveChunks] using hm
  | cons c chunks ih =>
    refine alone_orFail (alone_copyRecord ⟨id, offset, c⟩ hI hd hm hl) hl (fun _ _ h => ?_)
      fun m' d' h hl' => ?_
    · obtain ⟨_, h, _⟩ := h
      cases h
    · obtain ⟨_, h, hd', _, hm'⟩ := h
      cases h
      rw [placedFrom, liveChunks_cons, ← List.append_assoc]
      exact ih hd' hm' hl'

theorem returns_reader_held {f : FileId × DataFile} {mode : SyncMode} {isOpen : FileId → Bool}
    (hopen : isOpen f.1 = true ∨ f.2.chunks = []) (hfile : d.lookup (.log f.1) = some f.2.bytes) (hI : I d) :
    ∃ read, Returns listing legal I (heldFile mode isOpen f).reader d read ∧
      scanRecords read (heldFile mode isOpen f).endOffset =
        (visitedFrom 0 f.2.chunks, (bytesOf f.2.chunks).length) := by
  cases ho : isOpen f.1 with
  | true => exact ⟨readAt f.2.bytes, returns_reader ho hfile hI, scanRecords_within f.2.chunks f.2.tail⟩
  | false =>
    have hnone : f.2.chunks = [] := hopen.resolve_left (by simp [ho])
    refine ⟨fun _ _ => none, ?_, ?_⟩
    · rw [LogFile.reader, if_neg (by simp [heldFile, ho])]
      exact returns_ret _ hI
    · rw [heldFile, hnone]
      rfl

theorem alone_copyInputs {files : DataFiles} {mode : SyncMode} {isOpen : FileId → Bool}
    (hI : ∀ d, SameFiles d₀ d → I d) (hd : SameFiles d₀ d) (hm : Merging outId copied m d) (hl : legal d)
    (hopen : Readable isOpen files) (hstored : ∀ f ∈ files, d₀.lookup (.log f.1) = some f.2.bytes) :
    Alone listing legal I (Copied legal d₀ outId (copied ++ liveChunks s.keydir (placed files)))
      (s.copyInputs outId (heldFiles mode isOpen files) m) d := by
  induction files generalizing copied m d with
  | nil =>
    refine .alone_ret (hI d hd) ⟨m, rfl, hd, hl, ?_⟩
    simpa [liveChunks] using hm
  | cons f files ih =>
    obtain ⟨hf, hstored⟩ := List.forall_mem_cons.mp hstored
    obtain ⟨hfopen, hopen⟩ := List.forall_mem_cons.mp hopen
    obtain ⟨read, hread, hscan⟩ :=
      @returns_reader_held _ listing legal I d f mode isOpen hfopen ((hd.logs f.1).trans hf) (hI d hd)
    refine hread.bind hl ?_
    rw [hscan]
    refine alone_orFail (alone_copyRecords hI hd hm hl) hl (fun _ _ h => ?_) fun m' d' h hl' => ?_
    · obtain ⟨_, h, _⟩ := h
      cases h
    · obtain ⟨_, h, hd', _, hm'⟩ := h
      cases h
      have hend : (bytesOf f.2.chunks).length = (heldFile mode isOpen f).endOffset := rfl
      rw [if_pos hend, placed_cons, liveChunks_append, ← List.append_assoc]
      exact ih hd' hm' hl' hopen hstored

/-- The merged file and its hint, written in full under temp names. -/
structure MergeWritten (d₀ : Directory) (outId : FileId) (copied : List Intact) (m : Merge)
    (d : Directory) : Prop where
  same : SameFiles d₀ d
  tempFile : d.lookup (.logTemp outId) = some (bytesOf copied)
  hintFile : ∃ f, d.lookup (.hintTemp outId) =
    some (Hint.entriesBytes (entriesFrom 0 copied) ++ Hint.encodeFooter f)
  staged : ∀ key, m.staged.lookup key =
    (ReplayLog.newest Placed.key key (placedFrom outId 0 copied)).map Placed.pointer

theorem merging_start {d : Directory} (outId : FileId)
    (htemp : d.lookup (.logTemp outId) = none) (hhint : d.lookup (.hintTemp outId) = none) :
    Merging outId [] ⟨⟨.logTemp outId, 0, .never, true⟩, ⟨.hintTemp outId, 0, .never, true⟩, 0, ∅⟩
      ((d.openFile (.logTemp outId)).openFile (.hintTemp outId)) := by
  refine ⟨rfl, ?_, rfl, ?_, rfl, fun key => rfl⟩
  · rw [lookup_openFile_ne (by simp), lookup_openFile_of_none htemp]
    rfl
  · rw [lookup_openFile_of_none]
    · rfl
    · rw [lookup_openFile_ne (by simp), hhint]

theorem alone_finishMerge (hI : ∀ d, SameFiles d₀ d → I d) (hd : SameFiles d₀ d)
    (hm : Merging outId copied m d) (hl : legal d) :
    Alone listing legal I (fun r d => ∃ m, r = .ok m ∧ legal d ∧ MergeWritten d₀ outId copied m d)
      (finishMerge m) d := by
  have htemp : m.temp.isOpen = true := by rw [hm.temp]
  have hhint : m.hintTemp.isOpen = true := by rw [hm.hintTemp]
  have hname : m.hintTemp.name = .hintTemp outId := by rw [hm.hintTemp]
  have hsame : ∀ bytes, SameFiles d₀ (d.pwrite m.hintTemp.name
      (Hint.entriesBytes (entriesFrom 0 copied)).length bytes) :=
    fun bytes => hd.temp (.inr hname) fun name h => lookup_pwrite_ne h _ _
  refine (alone_append (Hint.entriesBytes (entriesFrom 0 copied)) _ hhint (by rw [hm.hintTemp])
    (by rw [hm.hintTemp]) (hI d hd) fun bytes => hI _ (hsame bytes)).bind (fun _ => rfl)
    (fun r d₁ hr hl₁ => ?_) hl
  obtain ⟨rfl, rfl, _⟩ := hr
  have hI₁ := hI _ (hsame (Hint.encodeFooter ⟨m.temp.endOffset, m.hintEntries⟩))
  refine (returns_sync htemp hI₁).orFail hl₁ ?_
  refine (returns_sync hhint hI₁).orFail hl₁ ?_
  refine (returns_close m.temp hI₁).bind hl₁ ?_
  refine Returns.bind (returns_close _ hI₁) hl₁ ?_
  refine .alone_ret hI₁ ⟨m, rfl, hl₁, hsame _, ?_, ⟨⟨m.temp.endOffset, m.hintEntries⟩, ?_⟩, hm.staged⟩
  · rw [hname, lookup_pwrite_ne (by simp), hm.tempFile]
  · rw [hname, lookup_pwrite hm.hintFile, overwrite_end]

theorem alone_writeMerge {files : DataFiles} {isOpen : FileId → Bool}
    (hI : ∀ d, SameFiles d₀ d → I d) (hsealed : s.sealedFiles = heldFiles s.options.syncMode isOpen files)
    (hopen : Readable isOpen files) (hstored : ∀ f ∈ files, d₀.lookup (.log f.1) = some f.2.bytes) :
    Alone listing legal I
      (fun r d => ∃ m, r = .ok m ∧ legal d ∧
        MergeWritten d₀ outId (liveChunks s.keydir (placed files)) m d)
      (s.writeMerge outId) d₀ := by
  have hd₀ := SameFiles.refl d₀
  refine alone_op (hI d₀ hd₀) (fun _ h => by cases h) fun _ => ?_
  have hd₁ : SameFiles d₀ (d₀.erase (.logTemp outId)) :=
    hd₀.temp (.inl rfl) fun name h => AList.lookup_erase_ne h
  refine alone_op (hI _ hd₁) (fun _ h => by cases h) fun hl₂ => ?_
  have hd₂ : SameFiles d₀ ((d₀.erase (.logTemp outId)).erase (.hintTemp outId)) :=
    hd₁.temp (.inr rfl) fun name h => AList.lookup_erase_ne h
  simp only [exec] at hl₂ ⊢
  obtain ⟨d, hd⟩ : ∃ d : Directory, (d₀.erase (.logTemp outId)).erase (.hintTemp outId) = d := ⟨_, rfl⟩
  rw [hd] at hl₂ hd₂ ⊢
  have htemp : d.lookup (.logTemp outId) = none := by
    rw [← hd, AList.lookup_erase_ne (by simp), AList.lookup_erase]
  have hhint : d.lookup (.hintTemp outId) = none := by rw [← hd, AList.lookup_erase]
  have hd₃ : SameFiles d₀ (d.openFile (.logTemp outId)) :=
    hd₂.temp (.inl rfl) fun name h => lookup_openFile_ne h
  have hd₄ : SameFiles d₀ ((d.openFile (.logTemp outId)).openFile (.hintTemp outId)) :=
    hd₃.temp (.inr rfl) fun name h => lookup_openFile_ne h
  refine alone_orFail (alone_create .never htemp (hI _ hd₂) (hI _ hd₃)) hl₂ (fun _ _ h => by cases h.1)
    fun temp d₃ h hl₃ => ?_
  obtain ⟨h, rfl, _⟩ := h
  cases h
  refine alone_orFail (alone_create .never (by rwa [lookup_openFile_ne (by simp)]) (hI _ hd₃)
    (hI _ hd₄)) hl₃ (fun _ _ h => by cases h.1) fun hintTemp d₄ h hl₄ => ?_
  obtain ⟨h, rfl, _⟩ := h
  cases h
  rw [hsealed]
  refine alone_orFail (alone_copyInputs hI hd₄ (merging_start outId htemp hhint) hl₄ hopen hstored) hl₄
    (fun _ _ h => ?_) fun m d₅ h hl₅ => ?_
  · obtain ⟨_, h, _⟩ := h
    cases h
  obtain ⟨_, h, hd₅, _, hm⟩ := h
  cases h
  rw [List.nil_append] at hm
  exact alone_finishMerge hI hd₅ hm hl₅

end Copy

end KVStore.Bitcask
