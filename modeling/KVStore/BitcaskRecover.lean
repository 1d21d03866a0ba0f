import KVStore.BitcaskState

namespace KVStore.Bitcask

open Lib CrashProgram

/-- The program runs by itself, keeps `I` wherever a crash stops it, and returns
with `Q`, as long as the directory stays `legal`. -/
abbrev Alone {α : Type} (listing : Listing) (legal I : Directory → Prop) (Q : α → Directory → Prop)
    (p : Io α) (d : Directory) : Prop :=
  Guarded (machine listing) Eq legal I Q p d

abbrev Returns {α : Type} (listing : Listing) (legal I : Directory → Prop) (p : Io α) (d : Directory)
    (x : α) : Prop :=
  Alone listing legal I (fun r d' => r = x ∧ d' = d) p d

theorem guarded_andThen {σ α β : Type} {M : Machine Op Res σ} {legal I : σ → Prop}
    {p : Io (Except Failure α × Bitcask)} {f : α → Bitcask → Io (Except Failure β × Bitcask)}
    {Q : Except Failure α × Bitcask → σ → Prop} {Q' : Except Failure β × Bitcask → σ → Prop} {t : σ}
    (h : Guarded M Eq legal I Q p t) (hl : legal t) (herror : ∀ e s t, Q (.error e, s) t → Q' (.error e, s) t)
    (hok : ∀ a s t, Q (.ok a, s) t → legal t → Guarded M Eq legal I Q' (f a s) t) :
    Guarded M Eq legal I Q' (andThen p f) t := by
  refine h.withCrash.bind (fun _ => rfl) (fun r t hr hl => ?_) hl
  obtain ⟨r, s⟩ := r
  cases r with
  | error e => exact .alone_ret hr.1 (herror e s t hr.2)
  | ok a => exact hok a s t hr.2 hl

section Rules

variable {listing : Listing} {legal I : Directory → Prop} {α β : Type} {Q : α → Directory → Prop}
  {d : Directory} {p : Io (Except Failure α)} {f : α → Io (Except Failure β)} {file : LogFile}
    {content : Bytes} {name : FileName}

theorem alone_op {o : Op} {k : Res o → Io α} (hI : I d) (htorn : ∀ d', Torn o d d' → I d')
    (hk : legal (exec listing o d).2 →
      Alone listing legal I Q (k (exec listing o d).1) (exec listing o d).2) :
    Alone listing legal I Q (.op o k) d :=
  Guarded.alone_op hI htorn fun _ hl => hk hl

theorem alone_orFail {Q : Except Failure α → Directory → Prop} {Q' : Except Failure β → Directory → Prop}
    (h : Alone listing legal I Q p d) (hl : legal d) (herror : ∀ e d, Q (.error e) d → Q' (.error e) d)
    (hok : ∀ a d, Q (.ok a) d → legal d → Alone listing legal I Q' (f a) d) :
    Alone listing legal I Q' (orFail p f) d := by
  refine h.withCrash.bind (fun _ => rfl) (fun r d hr hl => ?_) hl
  cases r with
  | error e => exact .alone_ret hr.1 (herror e d hr.2)
  | ok a => exact hok a d hr.2 hl

theorem Returns.bind {p : Io α} {f : α → Io β} {x : α} {Q : β → Directory → Prop}
    (h : Returns listing legal I p d x) (hl : legal d) (hf : Alone listing legal I Q (f x) d) :
    Alone listing legal I Q (p.bind f) d := by
  refine Guarded.bind (fun _ => rfl) h (fun a d' ha _ => ?_) hl
  obtain ⟨rfl, rfl⟩ := ha
  exact hf

theorem Returns.orFail {x : α}
    {Q : Except Failure β → Directory → Prop} (h : Returns listing legal I p d (.ok x)) (hl : legal d)
    (hf : Alone listing legal I Q (f x) d) : Alone listing legal I Q (orFail p f) d :=
  Returns.bind h hl hf

theorem returns_ret (x : α) (hI : I d) : Returns listing legal I (.ret x) d x :=
  .alone_ret hI ⟨rfl, rfl⟩

theorem returns_reader (hopen : file.isOpen = true) (hfile : d.lookup file.name = some content) (hI : I d) :
    Returns listing legal I file.reader d (readAt content) := by
  rw [LogFile.reader, if_pos hopen]
  refine alone_op hI (fun _ h => nomatch h) fun _ => ?_
  refine .alone_ret hI ⟨?_, rfl⟩
  rw [hfile, Option.getD_some]

theorem exec_rename {name name' : FileName} (h : name ∈ d) :
    exec listing (.rename name name') d = (.ok (), d.rename name name') := if_pos h

theorem exec_openFile (hfile : d.lookup name = some content) :
    exec listing (.openFile name) d = (.ok content.length, d) := by
  rw [exec, Directory.openFile_of_lookup hfile, Directory.size, hfile, Option.getD_some]

theorem returns_openAt (mode : SyncMode) (hfile : d.lookup name = some content) (hI : I d) :
    Returns listing legal I (LogFile.openAt name mode) d (.ok ⟨name, content.length, mode, true⟩) := by
  refine alone_op hI (fun _ h => nomatch h) fun _ => ?_
  rw [exec_openFile hfile]
  exact .alone_ret hI ⟨rfl, rfl⟩

theorem alone_create (mode : SyncMode) (habsent : d.lookup name = none) (hI : I d)
    (hI' : I (d.openFile name)) :
    Alone listing legal I
      (fun r d' => r = .ok ⟨name, 0, mode, true⟩ ∧ d' = d.openFile name ∧ legal d')
      (LogFile.openAt name mode) d := by
  refine alone_op hI (fun _ h => nomatch h) fun hl => ?_
  have hexec : exec listing (.openFile name) d = (.ok 0, d.openFile name) := by
    rw [exec, Directory.size, habsent]
    rfl
  rw [hexec] at hl ⊢
  exact .alone_ret hI' ⟨rfl, rfl, hl⟩

theorem returns_close (file : LogFile) (hI : I d) :
    Returns listing legal I file.close d (.ok (), { file with isOpen := false }) := by
  obtain ⟨name, endOffset, mode, isOpen⟩ := file
  cases isOpen with
  | true => exact alone_op hI (fun _ h => nomatch h) fun _ => .alone_ret hI ⟨rfl, rfl⟩
  | false => exact returns_ret _ hI

theorem returns_sync (hopen : file.isOpen = true) (hI : I d) :
    Returns listing legal I file.sync d (.ok ()) := by
  rw [LogFile.sync, if_pos hopen]
  exact alone_op hI (fun _ h => nomatch h) fun _ => .alone_ret hI ⟨rfl, rfl⟩

end Rules

/-- What recovery has done to a directory before it opens the files: temp files and
hints without a data file may be gone. -/
structure Swept (ids : List FileId) (d d' : Directory) : Prop where
  logs : ∀ id, d'.lookup (.log id) = d.lookup (.log id)
  kept : ∀ id ∈ ids, d'.lookup (.hint id) = d.lookup (.hint id)
  hints : ∀ id bytes, d'.lookup (.hint id) = some bytes → d.lookup (.hint id) = some bytes

namespace Swept

variable {ids : List FileId} {d d' : Directory}

theorem refl (ids : List FileId) (d : Directory) : Swept ids d d :=
  ⟨fun _ => rfl, fun _ _ => rfl, fun _ _ h => h⟩

theorem eraseTemp (h : Swept ids d d') {name : FileName} (hname : name.isTempName = true) :
    Swept ids d (d'.erase name) := by
  have hlog : ∀ id, FileName.log id ≠ name := by
    rintro id rfl
    cases hname
  have hhint : ∀ id, FileName.hint id ≠ name := by
    rintro id rfl
    cases hname
  refine ⟨fun id => ?_, fun id hid => ?_, fun id bytes hb => ?_⟩
  · rw [AList.lookup_erase_ne (hlog id), h.logs]
  · rw [AList.lookup_erase_ne (hhint id), h.kept id hid]
  · rw [AList.lookup_erase_ne (hhint id)] at hb
    exact h.hints id bytes hb

theorem eraseHint (h : Swept ids d d') {id : FileId} (hid : id ∉ ids) : Swept ids d (d'.erase (.hint id)) := by
  refine ⟨fun id' => ?_, fun id' hid' => ?_, fun id' bytes hb => ?_⟩
  · rw [AList.lookup_erase_ne (by simp), h.logs]
  · rw [AList.lookup_erase_ne, h.kept id' hid']
    rintro ⟨rfl⟩
    exact hid hid'
  · by_cases he : id' = id
    · subst he
      rw [AList.lookup_erase] at hb
      cases hb
    · rw [AList.lookup_erase_ne (by simpa using he)] at hb
      exact h.hints id' bytes hb

end Swept

section Sweep

variable {listing : Listing} {I : Directory → Prop} {d : Directory}
  {ids : List FileId} {d' : Directory}

theorem alone_removeTemps {names : List FileName} (hnames : ∀ name ∈ names, name.isTempName = true)
    (hI : ∀ d', Swept ids d d' → I d') (hd : Swept ids d d') :
    Alone listing (fun _ => True) I (fun r d' => r = .ok () ∧ Swept ids d d') (removeTemps names) d' := by
  induction names generalizing d' with
  | nil => exact .alone_ret (hI d' hd) ⟨rfl, hd⟩
  | cons name names ih =>
    obtain ⟨hname, hnames⟩ := List.forall_mem_cons.mp hnames
    exact alone_op (hI d' hd) (fun _ h => nomatch h) fun _ => ih hnames (hd.eraseTemp hname)

theorem alone_sweepTempFiles (hI : ∀ d', Swept ids d d' → I d') :
    Alone listing (fun _ => True) I (fun r d' => r = .ok () ∧ Swept ids d d') sweepTempFiles d := by
  have hd := Swept.refl ids d
  refine alone_op (hI d hd) (fun _ h => nomatch h) fun _ => ?_
  simp only [exec]
  refine alone_orFail (alone_removeTemps (fun name h => (List.mem_filter.mp h).2) hI hd) trivial
    (fun _ _ h => nomatch h.1) fun _ d' hd' _ => ?_
  split
  · exact .alone_ret (hI d' hd'.2) ⟨rfl, hd'.2⟩
  · exact alone_op (hI d' hd'.2) (fun _ h => nomatch h) fun _ => .alone_ret (hI d' hd'.2) ⟨rfl, hd'.2⟩

theorem alone_removeOrphanHints (hintIds : List FileId)
    (hI : ∀ d', Swept ids d d' → I d') (hd : Swept ids d d') :
    Alone listing (fun _ => True) I (fun _ d' => Swept ids d d') (removeOrphanHints ids hintIds) d' := by
  have horphans : ∀ id ∈ hintIds.filter fun id => id ∉ ids, id ∉ ids :=
    fun id h => by simpa using (List.mem_filter.mp h).2
  refine Guarded.alone_forEach (fun rest d' => (∀ id ∈ rest, id ∉ ids) ∧ Swept ids d d')
    (fun id rest d' h => ?_) (fun d' h => hI d' h.2) (fun _ h => h.2) ⟨horphans, hd⟩ trivial
  obtain ⟨hrest, hd'⟩ := h
  obtain ⟨hid, hrest⟩ := List.forall_mem_cons.mp hrest
  exact alone_op (hI d' hd') (fun _ h => nomatch h) fun _ =>
    .alone_ret (hI _ (hd'.eraseHint hid)) ⟨hrest, hd'.eraseHint hid⟩

end Sweep

variable [Crc]

def hintEntries (d : Directory) (id : FileId) (dataSize : Nat) : Option (List Hint.Entry) :=
  match d.lookup (.hint id) with
  | none => none
  | some bytes => Hint.readHint (readAt bytes) bytes.length dataSize

def scannedFile (mode : SyncMode) (id : FileId) (content : Bytes) (k : Keydir) :
    Except Failure (LogFile × Keydir) :=
  let scan := scanRecords (readAt content) content.length
  if scan.2 = content.length then
    .ok (⟨.log id, content.length, mode, true⟩, scan.1.foldl (Keydir.replayRecord id) k)
  else .error (damaged (.log id) scan.2)

/-- What opening a sealed file comes to, by its hint or by its records. -/
def replayedFile (opts : BitcaskOptions) (d : Directory) (id : FileId) (content : Bytes) (k : Keydir) :
    Except Failure (LogFile × Keydir) :=
  match (if opts.ignoreHints then none else hintEntries d id content.length) with
  | some entries =>
    .ok (⟨.log id, content.length, opts.syncMode, true⟩, entries.foldl (Keydir.replayEntry id) k)
  | none => scannedFile opts.syncMode id content k

def replayedFiles (opts : BitcaskOptions) (d : Directory) :
    List FileId → Keydir → Except Failure (List (FileId × LogFile) × Keydir)
  | [], k => .ok ([], k)
  | id :: ids, k =>
    match replayedFile opts d id ((d.lookup (.log id)).getD []) k with
    | .error e => .error e
    | .ok (file, k') =>
      match replayedFiles opts d ids k' with
      | .error e => .error e
      | .ok (files, k'') => .ok ((id, file) :: files, k'')

section Sealed

variable {listing : Listing} {legal I : Directory → Prop} {opts : BitcaskOptions} {d : Directory}
  {id : FileId} {content : Bytes}

theorem returns_replayHint (file : LogFile) (hI : I d) :
    Returns listing legal I (replayHint id file) d (hintEntries d id file.endOffset) := by
  refine alone_op hI (fun _ h => nomatch h) fun _ => ?_
  cases hb : d.lookup (.hint id) with
  | none =>
    have hmem : decide (FileName.hint id ∈ d) = false :=
      decide_eq_false (AList.lookup_eq_none.mp hb)
    simp only [exec, hmem]
    refine .alone_ret hI ⟨?_, rfl⟩
    rw [hintEntries, hb]
  | some =>
    have hmem : decide (FileName.hint id ∈ d) = true :=
      decide_eq_true (AList.lookup_isSome.mp (by rw [hb]; rfl))
    simp only [exec, hmem]
    refine alone_op hI (fun _ h => nomatch h) fun _ => ?_
    rw [exec_openFile hb]
    refine alone_op hI (fun _ h => nomatch h) fun _ => ?_
    simp only [exec, hb, Option.getD_some]
    refine .alone_ret hI ⟨?_, rfl⟩
    rw [hintEntries, hb]

theorem returns_replaySealed (mode : SyncMode) (k : Keydir) (hfile : d.lookup (.log id) = some content)
    (hI : I d) (hl : legal d) :
    Returns listing legal I (replayFile id ⟨.log id, content.length, mode, true⟩ false k) d
      (scannedFile mode id content k) := by
  have hread : Returns listing legal I (LogFile.reader ⟨.log id, content.length, mode, true⟩) d
    (readAt content) := returns_reader rfl hfile hI
  refine hread.bind hl ?_
  dsimp only [scannedFile]
  split
  · exact returns_ret _ hI
  · exact returns_ret _ hI

theorem returns_openSealedFile (k : Keydir) (hfile : d.lookup (.log id) = some content) (hI : I d)
    (hl : legal d) :
    Returns listing legal I (openSealedFile opts id k) d (replayedFile opts d id content k) := by
  refine (returns_openAt opts.syncMode hfile hI).orFail hl ?_
  unfold replayedFile
  cases hopt : opts.ignoreHints with
  | true =>
    simp only [if_true]
    exact returns_replaySealed opts.syncMode k hfile hI hl
  | false =>
    simp only [Bool.false_eq_true, if_false]
    refine (returns_replayHint _ hI).bind hl ?_
    cases hintEntries d id content.length with
    | some => exact returns_ret _ hI
    | none => exact returns_replaySealed opts.syncMode k hfile hI hl

theorem returns_openSealedFiles {ids : List FileId} (k : Keydir)
    (hfiles : ∀ id ∈ ids, ∃ content, d.lookup (.log id) = some content) (hI : I d) (hl : legal d) :
    Returns listing legal I (openSealedFiles opts ids k) d (replayedFiles opts d ids k) := by
  induction ids generalizing k with
  | nil => exact returns_ret _ hI
  | cons id ids ih =>
    obtain ⟨⟨content, hfile⟩, hfiles⟩ := List.forall_mem_cons.mp hfiles
    rw [replayedFiles, hfile, Option.getD_some]
    refine Returns.bind (returns_openSealedFile k hfile hI hl) hl ?_
    cases replayedFile opts d id content k with
    | error => exact returns_ret _ hI
    | ok r =>
      obtain ⟨file, k'⟩ := r
      refine Returns.bind (ih k' hfiles) hl ?_
      dsimp only
      cases replayedFiles opts d ids k' with
      | error => exact returns_ret _ hI
      | ok => exact returns_ret _ hI

end Sealed

end KVStore.Bitcask
