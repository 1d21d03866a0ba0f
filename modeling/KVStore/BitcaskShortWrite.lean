import KVStore.BitcaskQuiet
import KVStore.BitcaskWorld

namespace KVStore.Bitcask

open Lib CrashProgram

inductive ShortWrite : (o : Op) → Directory → Res o → Directory → Prop
  | pwrite {id : FileId} {offset : Nat} {bytes : Bytes} {d : Directory} (n : Nat) (e : Failure)
      (short : n < bytes.length) :
      ShortWrite (.pwrite (.log id) offset bytes) d (.error e) (d.pwrite (.log id) offset (bytes.take n))

variable {d d' : Directory} {α : Type} {listing : Listing} {Q : α → Directory → Prop} {p : Io α} {a : α}

theorem ShortWrite.lands {o : Op} {r : Res o} (h : ShortWrite o d r d') : o.lands = true := by
  cases h
  rfl

/-- The runs of a program in which writes to data files may fall short. -/
abbrev FaultyRuns {α : Type} (listing : Listing) (p : Io α) (d : Directory) (a : α) (d' : Directory) : Prop :=
  Runs (machine listing) Legal ShortWrite p d a d'

theorem alone_faultyRuns {I : Directory → Prop} (h : Alone listing Legal I Q p d)
    (hquiet : p.All fun o => o.lands = false) (hl : Legal d) (hruns : FaultyRuns listing p d a d') : Q a d' := by
  refine Guarded.runs h (hquiet.imp fun o ho d r d' hshort => ?_) hl hruns
  rw [hshort.lands] at ho
  cases ho

def shortWrite (n : Nat) : (o : Op) → Directory → Option (Res o × Directory)
  | .pwrite (.log id) offset bytes, d =>
    if n < bytes.length then
      some (.error (.ioError (text "pwrite: No space left on device")), d.pwrite (.log id) offset (bytes.take n))
    else none
  | _, _ => none

theorem shortWrite_of_eq_some {n : Nat} (o : Op) (d : Directory) (r : Res o × Directory)
    (h : shortWrite n o d = some r) : ShortWrite o d r.1 r.2 := by
  unfold shortWrite at h
  split at h
  · split at h
    next hshort =>
      cases h
      exact .pwrite n _ hshort
    next => cases h
  · cases h

abbrev CleanRuns {α : Type} (listing : Listing) (p : Io α) (d : Directory) (a : α) (d' : Directory) : Prop :=
  Runs (machine listing) Legal (fun _ _ _ _ => False) p d a d'

def runShort {α : Type} (p : Io α) (n : Nat) (script : List Bool) (d : Directory) : Option (α × Directory) :=
  p.runWith (machine .asStored) Legal (shortWrite n) script d

theorem faultyRuns_of_runShort {n : Nat} {script : List Bool}
    (h : runShort p n script d = some (a, d')) : FaultyRuns .asStored p d a d' :=
  runs_of_runWith (fun o d r => shortWrite_of_eq_some o d r) h

def runClean {α : Type} (p : Io α) (d : Directory) : Option (α × Directory) :=
  p.runWith (machine .asStored) Legal (fun _ _ => none) [] d

theorem cleanRuns_of_runClean (h : runClean p d = some (a, d')) : CleanRuns .asStored p d a d' :=
  runs_of_runWith (fun _ _ _ hr => by cases hr) h

theorem alone_cleanRuns {legal I : Directory → Prop} (h : Alone listing legal I Q p d)
    (hlegal : ∀ d, Legal d → legal d) (hl : Legal d) (hruns : CleanRuns listing p d a d') : Q a d' :=
  Guarded.runs (h.weaken (fun _ _ he => he) hlegal) (Prog.all_of_forall fun _ _ _ _ => id) hl hruns

theorem runs_append {file : LogFile} {id : FileId} {bytes : Bytes} {r : Except Failure Nat × LogFile}
    (hopen : file.isOpen = true) (hname : file.name = .log id)
    (h : FaultyRuns listing (file.append bytes) d r d') :
    (r = (.ok file.endOffset, { file with endOffset := file.endOffset + bytes.length }) ∧
        d' = d.pwrite (.log id) file.endOffset bytes) ∨
      ∃ e n, n < bytes.length ∧ r = (.error e, file) ∧
        d' = d.pwrite (.log id) file.endOffset (bytes.take n) := by
  obtain ⟨name, endOffset, mode, isOpen⟩ := file
  obtain rfl : isOpen = true := hopen
  obtain rfl : name = .log id := hname
  rw [LogFile.append, if_pos rfl] at h
  cases h with
  | fail fails legal next =>
    cases fails with
    | pwrite n e short =>
      cases next.of_ret
      exact .inr ⟨e, n, short, rfl, rfl⟩
  | op legal next =>
    cases mode with
    | never =>
      cases next.of_ret
      exact .inl ⟨rfl, rfl⟩
    | always =>
      dsimp only [machine, exec] at next
      rw [LogFile.sync, if_pos rfl] at next
      cases next with
      | fail fails => cases fails
      | op legal next =>
        cases next.of_ret
        exact .inl ⟨rfl, rfl⟩

variable [Crc]

section Files

variable {listing : Listing} {s s' : Bitcask} {d d' : Directory} {sealedOnes : DataFiles}
  {active : DataFile} {r : Except Failure Unit × Bitcask}

section

variable (h : Describes s d sealedOnes active)
include h

theorem Describes.withKeydir (k : Keydir) : Describes { s with keydir := k } d sealedOnes active :=
  ⟨h.files, h.sealedFiles, h.active, h.hints⟩

theorem Describes.shortWrite (bytes : Bytes) :
    Describes s (d.pwrite (.log s.activeId) (bytesOf active.chunks).length bytes) sealedOnes
      ⟨active.chunks, bytes ++ active.tail.drop bytes.length⟩ := by
  refine ⟨h.files.pwrite rfl, h.sealedFiles, h.active, fun id bytes' hb => ?_⟩
  rw [Directory.lookup_pwrite_ne (by simp)] at hb
  exact h.hints id bytes' hb

theorem record_outcome (c : Intact) {r : Except Failure Nat} (hruns : FaultyRuns listing
      ((s.active.append c.raw).bind fun (r, file) => .ret (r, { s with active := file })) d (r, s') d') :
    s'.options = s.options ∧ (∀ id, d'.lookup (.hint id) = d.lookup (.hint id)) ∧
      ∃ active', Describes s' d' sealedOnes active' := by
  have hopen : s.active.isOpen = true := by rw [h.active]; rfl
  have hname : s.active.name = .log s.activeId := by rw [h.active]; rfl
  have hend : s.active.endOffset = (bytesOf active.chunks).length := by rw [h.active]; rfl
  have hhints : ∀ offset bytes id, (d.pwrite (.log s.activeId) offset bytes).lookup (.hint id) =
      d.lookup (.hint id) := fun offset bytes id => Directory.lookup_pwrite_ne (by simp) _ _
  obtain ⟨⟨r₁, file⟩, d₁, happend, hret⟩ := hruns.of_bind
  cases hret.of_ret
  rcases runs_append hopen hname happend with ⟨hr, rfl⟩ | ⟨e, n, _, hr, rfl⟩
  · cases hr
    refine ⟨rfl, hhints _ _, ⟨active.chunks ++ [c], active.tail.drop c.raw.length⟩, ?_⟩
    rw [hend]
    have happended := h.appended c
    rwa [appended, hend] at happended
  · cases hr
    have hshort := h.shortWrite (c.raw.take n)
    rw [← hend] at hshort
    exact ⟨rfl, hhints _ _, _, hshort⟩

theorem Describes.unhinted : d.lookup (.hint s.activeId) = none := by
  cases hb : d.lookup (.hint s.activeId) with
  | none => rfl
  | some => exact absurd (h.hints _ _ hb) (lt_irrefl _)

theorem write_outcome (c : Intact) (hl : Legal d) {r : Except Failure Unit}
    (hruns : FaultyRuns listing (s.writeRecord c) d (r, s') d') :
    (¬ (s.activeId ≠ maxUInt32 ∧ s.Full c.raw.length) ∧ s'.options = s.options ∧
        ∃ active', Describes s' d' sealedOnes active') ∨
      (s.activeId ≠ maxUInt32 ∧ s.Full c.raw.length ∧ s'.options = s.options ∧
        d'.lookup (.hint s.activeId) = none ∧
        ∃ active', Describes s' d' (sealedOnes ++ [(s.activeId, active)]) active') := by
  have hopen : s.active.isOpen = true := by rw [h.active]; rfl
  obtain ⟨⟨r₁, s₁⟩, d₁, happend, hindex⟩ := hruns.of_bind
  obtain ⟨⟨r₀, s₀⟩, d₀, hroom, hrecord⟩ := happend.of_bind
  have hroom : Room s c.raw.length d (r₀, s₀) d₀ := by
    refine alone_faultyRuns (I := fun _ => True) ?_ (quiet_rotateIfNeeded s c.raw.length) hl hroom
    exact alone_rotateIfNeeded c.raw.length hopen h.files.next_absent trivial (fun _ => trivial) hl
  -- the index is brought up to date or not: the files do not care
  obtain ⟨k', rfl, rfl⟩ : ∃ k', s' = { s₁ with keydir := k' } ∧ d' = d₁ := by
    cases r₁ with
    | error =>
      cases hindex.of_ret
      exact ⟨s'.keydir, rfl, rfl⟩
    | ok =>
      cases hindex.of_ret
      exact ⟨_, rfl, rfl⟩
  cases r₀ with
  | error =>
    obtain ⟨rfl, rfl, hmax⟩ := hroom.of_error
    cases hrecord.of_ret
    exact .inl ⟨fun hseals => hseals.1 hmax, rfl, active, h.withKeydir k'⟩
  | ok =>
    cases hroom with
    | same fits =>
      obtain ⟨hopts, _, active', hdescribes⟩ := record_outcome h c hrecord
      exact .inl ⟨fun hseals => fits hseals.2, hopts, active', hdescribes.withKeydir k'⟩
    | rotation full rotation =>
      cases rotation with
      | rotated room =>
        obtain ⟨hopts, hhints, active', hdescribes⟩ := record_outcome (h.rotated room) c hrecord
        refine .inr ⟨room, full, hopts, ?_, active', hdescribes.withKeydir k'⟩
        rw [hhints, Directory.lookup_openFile_ne (by simp), h.unhinted]

theorem Describes.compacted {outId : FileId} {c₀ : DataFile}
    {others : DataFiles} {copied : List Intact} (hinputs : sealedOnes = (outId, c₀) :: others)
    (staged : AList fun _ : Key => ValuePointer) (hd : Replaced d outId copied [(s.activeId, active)] d') :
    Describes (s.compacted outId copied staged) d' [(outId, ⟨copied, []⟩)] active := by
  refine ⟨hd.files, rfl, h.active, fun id bytes hb => ?_⟩
  by_cases hid : id = outId
  · subst hid
    exact h.files.sealed_lt (f := (id, c₀)) (hinputs ▸ List.mem_cons_self ..)
  · exact h.hints id bytes (hd.hints id bytes hid hb)

theorem runs_mergeSealed (hfail : s.options.failAt = .none) (hl : Legal d)
    (hruns : FaultyRuns listing s.mergeSealed d r d') : Merged s d sealedOnes active r d' := by
  refine alone_faultyRuns (I := fun _ => True) ?_ (quiet_mergeSealed s).all hl hruns
  exact alone_mergeSealed h.files h.held (fun _ _ => .inl rfl) hfail (fun _ _ => trivial)
    (fun _ _ _ _ _ _ _ _ _ => trivial) hl

theorem runs_rotate (hl : Legal d) (hruns : FaultyRuns listing s.rotate d r d') : Rotation s d r d' := by
  have hopen : s.active.isOpen = true := by rw [h.active]; rfl
  refine alone_faultyRuns (I := fun _ => True) ?_ (quiet_rotate s) hl hruns
  exact alone_rotate hopen h.files.next_absent trivial (fun _ => trivial) hl

end

end Files

end KVStore.Bitcask
