import KVStore.BitcaskMerge

namespace KVStore.Bitcask

open Lib SortedRun CrashProgram

/-- No file outgrows what the file system can hold. -/
def Legal (d : Directory) : Prop := ∀ name content, d.lookup name = some content → content.length < 2 ^ 63

instance (d : Directory) : Decidable (Legal d) :=
  decidable_of_iff (∀ e ∈ d.entries, e.2.length < 2 ^ 63) <| by
    constructor
    · intro h name content hlookup
      exact h ⟨name, content⟩ (AList.mem_lookup_iff.mp hlookup)
    · intro h e he
      exact h e.1 e.2 (AList.mem_lookup_iff.mpr he)

variable [Crc]

section Files

variable {d d' : Directory} {outId : FileId} {c c' : DataFile} {kept files before after : DataFiles}
  {f : FileId × DataFile}

theorem Sorted.keys_eq {c c' : DataFile} (h : Sorted ((outId, c) :: kept)) : Sorted ((outId, c') :: kept) := by
  obtain ⟨hlt, hrest⟩ := List.pairwise_cons.mp h
  exact List.pairwise_cons.mpr ⟨hlt, hrest⟩

theorem FilesAre.replaceHead (h : FilesAre d ((outId, c) :: kept))
    (hout : d'.lookup (.log outId) = some c'.bytes)
    (hsame : ∀ id, id ≠ outId → d'.lookup (.log id) = d.lookup (.log id)) :
    FilesAre d' ((outId, c') :: kept) := by
  refine ⟨Sorted.keys_eq h.ascending, fun f hf => ?_, fun id => ?_⟩
  · rcases List.mem_cons.mp hf with rfl | hf
    · exact h.ids (outId, c) List.mem_cons_self
    · exact h.ids f (List.mem_cons_of_mem _ hf)
  · by_cases hid : id = outId
    · subst hid
      rw [hout]
      simp [find]
    · rw [hsame id hid, h.stored]
      simp [find, hid]

theorem FilesAre.erase (h : FilesAre d (before ++ f :: after)) :
    FilesAre (d.erase (.log f.1)) (before ++ after) := by
  obtain ⟨hbefore, hafter, hlt⟩ := List.pairwise_append.mp h.ascending
  obtain ⟨hf, hafter'⟩ := List.pairwise_cons.mp hafter
  have hsorted : Sorted (before ++ after) := List.pairwise_append.mpr
    ⟨hbefore, hafter', fun a ha b hb => hlt a ha b (List.mem_cons_of_mem _ hb)⟩
  refine ⟨hsorted, fun g hg => h.ids g ?_, fun id => ?_⟩
  · rcases List.mem_append.mp hg with hg | hg
    · exact List.mem_append_left _ hg
    · exact List.mem_append_right _ (List.mem_cons_of_mem _ hg)
  · by_cases hid : id = f.1
    · subst hid
      have hnone : find f.1 (before ++ after) = none := by
        rw [find_eq_none_iff]
        intro hm
        obtain ⟨g, hg, he⟩ := List.mem_map.mp hm
        rcases List.mem_append.mp hg with hg | hg
        · exact (hlt g hg f List.mem_cons_self).ne he
        · exact (hf g hg).ne' he
      rw [AList.lookup_erase, hnone]
      rfl
    · rw [AList.lookup_erase_ne (by simpa using hid), h.stored, find_append, find_append]
      simp [find, hid]

theorem filter_heldFiles (mode : SyncMode) (isOpen : FileId → Bool) (h : Sorted (before ++ f :: after)) :
    (heldFiles mode isOpen (before ++ f :: after)).filter (fun g => g.1 ≠ f.1) =
      heldFiles mode isOpen (before ++ after) := by
  obtain ⟨_, hafter, hlt⟩ := List.pairwise_append.mp h
  have hf := (List.pairwise_cons.mp hafter).1
  have hkeep : ∀ files : DataFiles, (∀ g ∈ files, g.1 ≠ f.1) →
      (heldFiles mode isOpen files).filter (fun g => g.1 ≠ f.1) = heldFiles mode isOpen files := by
    intro files hne
    refine List.filter_eq_self.mpr fun g hg => ?_
    obtain ⟨g', hg', rfl⟩ := List.mem_map.mp hg
    exact decide_eq_true (hne g' hg')
  have hsplit : heldFiles mode isOpen (before ++ f :: after) = heldFiles mode isOpen before ++
      (f.1, heldFile mode isOpen f) :: heldFiles mode isOpen after := by
    simp [heldFiles]
  rw [hsplit, List.filter_append, List.filter_cons_of_neg (by simp),
    hkeep before fun g hg => (hlt g hg f List.mem_cons_self).ne,
    hkeep after fun g hg => (hf g hg).ne']
  simp [heldFiles]

theorem insert_heldFiles (mode : SyncMode) (isOpen : FileId → Bool)
    (h : Sorted ((outId, c) :: kept)) (file : LogFile) :
    SortedRun.insert outId file (heldFiles mode isOpen kept) = (outId, file) :: heldFiles mode isOpen kept := by
  cases kept with
  | nil => rfl
  | cons g =>
    have hlt : outId < g.1 := (List.pairwise_cons.mp h).1 g List.mem_cons_self
    show (if outId < g.1 then _ else _) = _
    rw [if_pos hlt]
    rfl

end Files

/-- The merged file stands in for its inputs, of which these are left beside it. -/
structure Replaced (d₀ : Directory) (outId : FileId) (copied : List Intact)
    (kept : List (FileId × DataFile)) (d : Directory) : Prop where
  files : FilesAre d ((outId, ⟨copied, []⟩) :: kept)
  hint : ∀ bytes, d.lookup (.hint outId) = some bytes →
    ∃ f, bytes = Hint.entriesBytes (entriesFrom 0 copied) ++ Hint.encodeFooter f
  hints : ∀ id bytes, id ≠ outId → d.lookup (.hint id) = some bytes → d₀.lookup (.hint id) = some bytes

section Install

variable {listing : Listing} {legal I : Directory → Prop} {s : Bitcask} {d₀ d : Directory} {outId : FileId}
  {c₀ : DataFile} {kept : DataFiles} {copied : List Intact} {m : Merge} {out : LogFile}

/-- The merged file has been renamed into place, its hint not yet. -/
structure Installed (d₀ : Directory) (outId : FileId) (copied : List Intact)
    (kept : List (FileId × DataFile)) (d : Directory) : Prop where
  replaced : Replaced d₀ outId copied kept d
  unhinted : d.lookup (.hint outId) = none
  hintFile : ∃ f, d.lookup (.hintTemp outId) =
    some (Hint.entriesBytes (entriesFrom 0 copied) ++ Hint.encodeFooter f)

theorem MergeWritten.swept (h : MergeWritten d₀ outId copied m d) :
    Swept [] d₀ d ∧ Swept [] d₀ (d.erase (.hint outId)) := by
  have hd : Swept [] d₀ d := ⟨h.same.logs, nofun, fun id bytes hb => h.same.hints id ▸ hb⟩
  exact ⟨hd, hd.eraseHint List.not_mem_nil⟩

theorem MergeWritten.temp_mem (h : MergeWritten d₀ outId copied m d) : FileName.logTemp outId ∈ d := by
  rw [← AList.lookup_isSome, h.tempFile]
  rfl

theorem MergeWritten.temp_mem_erase (h : MergeWritten d₀ outId copied m d) :
    FileName.logTemp outId ∈ d.erase (.hint outId) := AList.mem_erase.mpr ⟨by simp, h.temp_mem⟩

theorem Installed.hint_mem (h : Installed d₀ outId copied kept d) : FileName.hintTemp outId ∈ d := by
  obtain ⟨f, hf⟩ := h.hintFile
  rw [← AList.lookup_isSome, hf]
  rfl

theorem Installed.lookup (h : Installed d₀ outId copied kept d) :
    d.lookup (.log outId) = some (bytesOf copied) := by
  have hfile := h.replaced.files.lookup (f := (outId, ⟨copied, []⟩)) List.mem_cons_self
  rwa [DataFile.bytes, List.append_nil] at hfile

theorem MergeWritten.installed (h : MergeWritten d₀ outId copied m d)
    (hfiles : FilesAre d₀ ((outId, c₀) :: kept)) :
    Installed d₀ outId copied kept
      (Directory.rename (d.erase (.hint outId)) (.logTemp outId) (.log outId)) := by
  have htemp : AList.lookup (.logTemp outId) (d.erase (.hint outId)) = some (bytesOf copied) := by
    rw [AList.lookup_erase_ne (by simp), h.tempFile]
  have hlookup := @Directory.lookup_rename _ _ (.log outId) _ htemp
  refine ⟨⟨hfiles.replaceHead ?_ fun id hid => ?_, fun bytes hb => ?_, fun id bytes hid hb => ?_⟩, ?_, ?_⟩
  · rw [hlookup, if_pos rfl, DataFile.bytes, List.append_nil]
  · rw [hlookup, if_neg (by simpa using hid), if_neg (by simp), AList.lookup_erase_ne (by simp), h.same.logs]
  · rw [hlookup, if_neg (by simp), if_neg (by simp), AList.lookup_erase] at hb
    cases hb
  · rw [hlookup, if_neg (by simp), if_neg (by simp), AList.lookup_erase_ne (by simpa using hid),
      h.same.hints] at hb
    exact hb
  · rw [hlookup, if_neg (by simp), if_neg (by simp), AList.lookup_erase]
  · obtain ⟨f, hf⟩ := h.hintFile
    refine ⟨f, ?_⟩
    rw [hlookup, if_neg (by simp), if_neg (by simp), AList.lookup_erase_ne (by simp), hf]

theorem alone_install (hw : MergeWritten d₀ outId copied m d) (hfiles : FilesAre d₀ ((outId, c₀) :: kept))
    (hI : ∀ d, Swept [] d₀ d → I d) (hI' : ∀ d, Installed d₀ outId copied kept d → I d) :
    Alone listing legal I
      (fun r d => r = (.ok (), s.dropSealed outId) ∧ Installed d₀ outId copied kept d)
      (s.install outId out) d := by
  obtain ⟨hd, hd₁⟩ := hw.swept
  refine alone_op (hI d hd) (fun _ h => nomatch h) fun hl₁ => ?_
  refine alone_op (hI _ hd₁) (fun _ h => nomatch h) fun _ => ?_
  refine Returns.bind (returns_close out (hI _ hd₁)) hl₁ ?_
  refine alone_op (hI _ hd₁) (fun _ h => nomatch h) fun _ => ?_
  have hinstalled := hw.installed hfiles
  rw [show exec listing .syncDir (exec listing (.remove (.hint outId)) d).2 = (.ok (), d.erase (.hint outId)) from rfl,
    exec_rename hw.temp_mem_erase]
  exact alone_op (hI' _ hinstalled) (fun _ h => nomatch h) fun _ =>
    .alone_ret (hI' _ hinstalled) ⟨rfl, hinstalled⟩

theorem Installed.hinted (h : Installed d₀ outId copied kept d) :
    Replaced d₀ outId copied kept (d.rename (.hintTemp outId) (.hint outId)) := by
  obtain ⟨f, hf⟩ := h.hintFile
  have hlookup := @Directory.lookup_rename _ _ (.hint outId) _ hf
  refine ⟨h.replaced.files.congr fun id => ?_, fun bytes hb => ⟨f, ?_⟩, fun id bytes hid hb => ?_⟩
  · rw [hlookup, if_neg (by simp), if_neg (by simp)]
  · rw [hlookup, if_pos rfl] at hb
    exact (Option.some.inj hb).symm
  · rw [hlookup, if_neg (by simpa using hid), if_neg (by simp)] at hb
    exact h.replaced.hints id bytes hid hb

theorem alone_adoptMerged (inputs : List FileId) (staged : AList fun _ : Key => ValuePointer)
    (hd : Installed d₀ outId copied kept d) (hI : ∀ d, Replaced d₀ outId copied kept d → I d) (hl : legal d) :
    Alone listing legal I
      (fun r d => r = (.ok (), (s.setSealed outId (openedFile s.options.syncMode outId ⟨copied, []⟩)).adopt
          inputs staged) ∧
        Replaced d₀ outId copied kept d)
      (s.adoptMerged outId inputs staged) d := by
  refine Returns.bind (returns_openAt s.options.syncMode hd.lookup (hI d hd.replaced)) hl ?_
  refine alone_op (hI d hd.replaced) (fun _ h => by cases h) fun _ => ?_
  rw [exec_rename hd.hint_mem]
  exact alone_op (hI _ hd.hinted) (fun _ h => by cases h) fun _ => .alone_ret (hI _ hd.hinted) ⟨rfl, hd.hinted⟩

end Install

section Remove

variable {listing : Listing} {legal I : Directory → Prop} {s : Bitcask} {d₀ d : Directory} {outId : FileId}
  {copied : List Intact} {f : FileId × DataFile} {rest kept last : DataFiles} {mode : SyncMode}
    {isOpen : FileId → Bool}

theorem Replaced.removeLog (h : Replaced d₀ outId copied (f :: kept) d) :
    Replaced d₀ outId copied kept (d.erase (.log f.1)) := by
  have hfiles : FilesAre d ([(outId, ⟨copied, []⟩)] ++ f :: kept) := h.files
  refine ⟨hfiles.erase, fun bytes hb => h.hint bytes ?_, fun id bytes hid hb => h.hints id bytes hid ?_⟩
  · rwa [AList.lookup_erase_ne (by simp)] at hb
  · rwa [AList.lookup_erase_ne (by simp)] at hb

theorem Replaced.removeHint (h : Replaced d₀ outId copied kept d) {id : FileId} (hid : id ≠ outId) :
    Replaced d₀ outId copied kept (d.erase (.hint id)) := by
  refine ⟨h.files.congr fun id' => AList.lookup_erase_ne (by simp), fun bytes hb => h.hint bytes ?_,
    fun id' bytes hid' hb => h.hints id' bytes hid' ?_⟩
  · rwa [AList.lookup_erase_ne (by simpa using Ne.symm hid)] at hb
  · by_cases he : id' = id
    · subst he
      rw [AList.lookup_erase] at hb
      cases hb
    · rwa [AList.lookup_erase_ne (by simpa using he)] at hb

theorem Replaced.head_ne (h : Replaced d₀ outId copied (f :: kept) d) : f.1 ≠ outId :=
  ((List.pairwise_cons.mp h.files.ascending).1 f List.mem_cons_self).ne'

theorem Replaced.filter_head {merged : LogFile} (h : Replaced d₀ outId copied (f :: rest ++ last) d) :
    ((outId, merged) :: heldFiles mode isOpen (f :: rest)).filter (fun g => g.1 ≠ f.1) =
      (outId, merged) :: heldFiles mode isOpen rest := by
  have hne : outId ≠ f.1 := Ne.symm h.head_ne
  have hsorted : Sorted ([] ++ f :: rest) := by
    have hkept := (List.pairwise_cons.mp h.files.ascending).2
    exact (List.pairwise_append.mp hkept).1
  rw [List.filter_cons_of_pos (by simpa using hne)]
  exact congrArg _ (filter_heldFiles mode isOpen hsorted)

theorem alone_removeInputs (hfail : s.options.failAt = .none)
    (hs : s.sealedFiles = (outId, openedFile mode outId ⟨copied, []⟩) :: heldFiles mode isOpen rest)
    (hd : Replaced d₀ outId copied (rest ++ last) d)
    (hI : ∀ rest' d, rest' <:+ rest → Replaced d₀ outId copied (rest' ++ last) d → I d) (hl : legal d) :
    Alone listing legal I
      (fun r d => r = (.ok (), { s with sealedFiles := openedFiles mode [(outId, ⟨copied, []⟩)] }) ∧
        Replaced d₀ outId copied last d)
      (s.removeInputs (heldFiles mode isOpen rest)) d := by
  induction rest generalizing s d with
  | nil =>
    have hsame : { s with sealedFiles := openedFiles mode [(outId, ⟨copied, []⟩)] } = s := by
      rw [show openedFiles mode [(outId, ⟨copied, []⟩)] = s.sealedFiles from hs.symm]
    have hnow := hI [] d (List.suffix_refl _) hd
    rw [hsame]
    exact alone_op hnow (fun _ h => nomatch h) fun _ => .alone_ret hnow ⟨rfl, hd⟩
  | cons f rest ih =>
    have hI' : ∀ rest' d, rest' <:+ rest → Replaced d₀ outId copied (rest' ++ last) d → I d :=
      fun rest' d hsuffix => hI rest' d (hsuffix.trans (List.suffix_cons f rest))
    have hnow := hI (f :: rest) d (List.suffix_refl _) hd
    have hd₁ : Replaced d₀ outId copied (rest ++ last) (d.erase (.log f.1)) := hd.removeLog
    have hd₂ := hd₁.removeHint hd.head_ne
    have hsealed : (s.dropSealed f.1).sealedFiles =
        (outId, openedFile mode outId ⟨copied, []⟩) :: heldFiles mode isOpen rest := by
      rw [dropSealed, hs]
      exact hd.filter_head
    refine Returns.bind (returns_close (heldFile mode isOpen f) hnow) hl ?_
    refine alone_op hnow (fun _ h => nomatch h) fun _ => ?_
    refine alone_op (hI' rest _ (List.suffix_refl _) hd₁) (fun _ h => nomatch h) fun hl₂ => ?_
    rw [if_neg (by rw [hfail]; decide)]
    exact ih (s := s.dropSealed f.1) hfail hsealed hd₂ hI' hl₂

end Remove

section Merge

variable {listing : Listing} {I : Directory → Prop} {s : Bitcask} {d₀ d : Directory}
  {sealedOnes : DataFiles} {active : DataFile} {isOpen : FileId → Bool}

theorem sealedFiles_setMerged {outId : FileId} {c₀ : DataFile}
    {others : DataFiles} (hheld : s.sealedFiles = heldFiles s.options.syncMode isOpen
      ((outId, c₀) :: others)) (hsorted : Sorted ((outId, c₀) :: others)) (merged : LogFile) :
    ((s.dropSealed outId).setSealed outId merged).sealedFiles =
      (outId, merged) :: heldFiles s.options.syncMode isOpen others := by
  have hdropped : (s.dropSealed outId).sealedFiles = heldFiles s.options.syncMode isOpen others := by
    rw [dropSealed, hheld]
    exact @filter_heldFiles _ [] others (outId, c₀) s.options.syncMode isOpen hsorted
  rw [setSealed, hdropped]
  exact insert_heldFiles s.options.syncMode isOpen hsorted merged

def Idle (s : Bitcask) : Prop :=
  match s.sealedFiles with
  | [] => True
  | (outId, _) :: others => others = [] ∧ (s.keydir.deadBytes.lookup outId).getD 0 = 0

def compacted (s : Bitcask) (outId : FileId) (copied : List Intact)
    (staged : AList fun _ : Key => ValuePointer) : Bitcask :=
  { s.adopt (s.sealedFiles.map Prod.fst) staged with
    sealedFiles := openedFiles s.options.syncMode [(outId, ⟨copied, []⟩)] }

inductive Merged (s : Bitcask) (d₀ : Directory) (sealedOnes : List (FileId × DataFile)) (active : DataFile) :
    Except Failure Unit × Bitcask → Directory → Prop
  | idle (idle : s.Idle) : Merged s d₀ sealedOnes active (.ok (), s) d₀
  | merged {outId : FileId} {c₀ : DataFile} {others : List (FileId × DataFile)}
      {staged : AList fun _ : Key => ValuePointer} {d : Directory}
      (busy : ¬ s.Idle)
      (inputs : sealedOnes = (outId, c₀) :: others)
      (small : (bytesOf (liveChunks s.keydir (placed sealedOnes))).length < 2 ^ 63)
      (moved : ∀ key, staged.lookup key = (ReplayLog.newest Placed.key key
        (placedFrom outId 0 (liveChunks s.keydir (placed sealedOnes)))).map Placed.pointer)
      (replaced : Replaced d₀ outId (liveChunks s.keydir (placed sealedOnes)) [(s.activeId, active)] d) :
      Merged s d₀ sealedOnes active
        (.ok (), s.compacted outId (liveChunks s.keydir (placed sealedOnes)) staged) d

theorem alone_mergeSealed (hfiles : FilesAre d₀ (sealedOnes ++ [(s.activeId, active)]))
    (hheld : s.sealedFiles = heldFiles s.options.syncMode isOpen sealedOnes)
    (hopen : Readable isOpen sealedOnes) (hfail : s.options.failAt = .none) (hI : ∀ d, Swept [] d₀ d → I d)
    (hI' : ∀ outId c₀ others rest d, sealedOnes = (outId, c₀) :: others → rest <:+ others →
      (bytesOf (liveChunks s.keydir (placed sealedOnes))).length < 2 ^ 63 →
      Replaced d₀ outId (liveChunks s.keydir (placed sealedOnes)) (rest ++ [(s.activeId, active)]) d → I d)
    (hl : Legal d₀) : Alone listing Legal I (Merged s d₀ sealedOnes active) s.mergeSealed d₀ := by
  have hnow : I d₀ := hI d₀ (Swept.refl [] d₀)
  cases sealedOnes with
  | nil =>
    have hnone : s.sealedFiles = [] := hheld
    unfold mergeSealed
    rw [hnone]
    exact .alone_ret hnow (.idle (by rw [Idle, hnone]; trivial))
  | cons f others =>
    obtain ⟨outId, c₀⟩ := f
    have hsealed : s.sealedFiles = (outId, heldFile s.options.syncMode isOpen (outId, c₀)) ::
        heldFiles s.options.syncMode isOpen others := hheld
    have hstored : ∀ f ∈ (outId, c₀) :: others, d₀.lookup (.log f.1) = some f.2.bytes :=
      fun f hf => hfiles.lookup (List.mem_append_left _ hf)
    have hsorted := hfiles.sealed_ascending
    unfold mergeSealed
    rw [hsealed]
    dsimp only
    split
    next hidle => exact .alone_ret hnow (.idle (by rw [Idle, hsealed]; exact hidle))
    next hbusy =>
      have hbusy' : ¬ s.Idle := by rwa [Idle, hsealed]
      refine (alone_writeMerge (fun d hd => hI d ⟨hd.logs, nofun, fun id bytes hb => hd.hints id ▸ hb⟩)
        hheld hopen hstored).bind (fun _ => rfl) (fun r d₁ hr hl₁ => ?_) hl
      obtain ⟨m, rfl, _, hw⟩ := hr
      have hsmall := hl₁ _ _ hw.tempFile
      have hI₂ : ∀ rest d, rest <:+ others → Replaced d₀ outId
          (liveChunks s.keydir (placed ((outId, c₀) :: others))) (rest ++ [(s.activeId, active)]) d → I d :=
        fun rest d hrest hd => hI' outId c₀ others rest d rfl hrest hsmall hd
      have hI₁ := fun d => hI₂ others d (List.suffix_refl _)
      dsimp only
      rw [if_neg (by rw [hfail]; decide)]
      refine guarded_andThen (alone_install hw hfiles hI fun d hd => hI₁ d hd.replaced) hl₁
        (fun e s' d hr => ?_) fun _ s₁ d₂ hr hl₂ => ?_
      · obtain ⟨hr, _⟩ := hr
        cases hr
      obtain ⟨hr, hd₂⟩ := hr
      cases hr
      rw [if_neg (by rw [hfail]; decide)]
      refine guarded_andThen (alone_adoptMerged _ m.staged hd₂ hI₁ hl₂) hl₂ (fun e s' d hr => ?_)
        fun _ s₂ d₃ hr hl₃ => ?_
      · obtain ⟨hr, _⟩ := hr
        cases hr
      obtain ⟨hr, hd₃⟩ := hr
      cases hr
      refine Guarded.mono (alone_removeInputs ?_ ?_ hd₃ hI₂ hl₃) fun r d hr => ?_
      · exact hfail
      · exact sealedFiles_setMerged hheld hsorted _
      · obtain ⟨rfl, hd⟩ := hr
        have hids : (outId, heldFile s.options.syncMode isOpen (outId, c₀)) ::
            heldFiles s.options.syncMode isOpen others = s.sealedFiles := hsealed.symm
        rw [hids]
        exact .merged hbusy' rfl hsmall hw.staged hd

end Merge

end KVStore.Bitcask
