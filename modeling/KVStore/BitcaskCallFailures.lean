import KVStore.BitcaskHeldCompact

namespace KVStore.Bitcask

open Lib SortedRun CrashProgram

def Op.fallible : Op → Bool
  | .openFile _ | .pwrite _ _ _ | .sync _ | .close _ | .remove _ | .rename _ _ | .syncDir => true
  | _ => false

/-- A system call fails: a write may have written some of its bytes, the others change nothing. -/
inductive OpFails : (o : Op) → Directory → Res o → Directory → Prop
  | short {name : FileName} {offset : Nat} {bytes : Bytes} {d : Directory} (n : Nat) (e : Failure)
      (short : n < bytes.length) :
      OpFails (.pwrite name offset bytes) d (.error e) (d.pwrite name offset (bytes.take n))
  | refused {o : Op} {d : Directory} (e : Failure) (fallible : o.fallible = true) : OpFails o d (.error e) d

/-- The calls whose failure the engine gets over, by what the directory holds at the time. The
others: closing the file that a written merge is about to replace, and, between the rename of
the merged file and that of its hint, the fsync of the directory and opening the merged file;
and unlinking an input. -/
def Harmless (d : Directory) : Op → Prop
  | .close (.log id) => .logTemp id ∉ d
  | .openFile (.log id) => .hintTemp id ∉ d
  | .syncDir => ∀ id, .hintTemp id ∈ d → .logTemp id ∈ d
  | .remove (.log _) => False
  | _ => True

abbrev FailedRun {α : Type} (listing : Listing) (p : Io α) (d : Directory) (a : α) (d' : Directory) : Prop :=
  FailsOnce (machine listing) Legal OpFails p d a d'

abbrev HarmlessRun {α : Type} (listing : Listing) (p : Io α) (d : Directory) (a : α) (d' : Directory) : Prop :=
  FailsOnce (machine listing) Legal (fun o d r d' => OpFails o d r d' ∧ Harmless d o) p d a d'

section Rules

variable {listing : Listing} {d d' : Directory}

theorem OpFails.unchanged {o : Op} {r : Res o} (h : OpFails o d r d')
    (ho : ∀ name offset bytes, o ≠ .pwrite name offset bytes) : (∃ e, r = .error e) ∧ d' = d := by
  cases h with
  | short => exact absurd rfl (ho _ _ _)
  | refused e => exact ⟨⟨e, rfl⟩, rfl⟩

theorem HarmlessRun.split {α : Type} {o : Op} {k : Res o → Io α} {a : α}
    (h : HarmlessRun listing (.op o k) d a d') (ho : ∀ name offset bytes, o ≠ .pwrite name offset bytes) :
    (∃ e, Harmless d o ∧ (k (.error e)).run (machine listing) d = (a, d')) ∨
      HarmlessRun listing (k (exec listing o d).1) (exec listing o d).2 a d' := by
  cases h with
  | now fails allowed rest =>
    obtain ⟨⟨e, rfl⟩, rfl⟩ := fails.1.unchanged ho
    exact .inl ⟨e, fails.2, rest.run_eq⟩
  | later allowed rest => exact .inr rest

theorem fails_sparesFiles {d₀ : Directory} (o : Op) (d : Directory) (r : Res o) (d' : Directory)
    (ho : o.sparesFiles = true) (hfails : OpFails o d r d') (h : SameFiles d₀ d) : SameFiles d₀ d' := by
  cases hfails with
  | @short name offset bytes d n =>
    have hexec := @exec_sparesFiles .asStored d₀ (.pwrite name offset (bytes.take n)) d ?_ h
    · exact hexec
    · cases name with
      | log | hint => cases ho
      | logTemp | hintTemp => rfl
  | refused => exact h

theorem Directory.mem_pwrite {name : FileName} (h : name ∈ d) (name' : FileName) (offset : Nat) (bytes : Bytes) :
    name ∈ d.pwrite name' offset bytes := by
  unfold KVStore.Directory.pwrite
  split
  · exact (AList.mem_insert _).mpr (.inr h)
  · exact h

theorem mem_of_fillsTemp {name : FileName} {o : Op} (ho : o.fillsTemp = true) (h : name ∈ d) :
    name ∈ (exec listing o d).2 := by
  cases o with
  | pwrite name' offset bytes => exact Directory.mem_pwrite h name' offset bytes
  | reader | sync | close => exact h
  | _ => cases ho

end Rules

section Rotate

variable {listing : Listing} {s s' : Bitcask} {d d' : Directory} {r : Except Failure Unit}

theorem rotate_failed (hopen : s.active.isOpen = true) (habsent : d.lookup (.log (s.activeId + 1)) = none)
    (h : HarmlessRun listing s.rotate d (r, s') d') :
    (∃ e, r = .error e) ∧ ((s' = s ∧ d' = d) ∨
      (s.activeId ≠ maxUInt32 ∧ s' = s.rotated ∧ d' = d.openFile (.log (s.activeId + 1)))) := by
  unfold rotate at h
  rw [LogFile.sync, if_pos hopen] at h
  rcases h.split (by simp) with ⟨e, -, hrun⟩ | rest
  · cases hrun
    exact ⟨⟨e, rfl⟩, .inl ⟨rfl, rfl⟩⟩
  dsimp only [exec] at rest
  split at rest
  · exact rest.not_ret.elim
  next hroom =>
    have hsize : d.size (.log (s.activeId + 1)) = 0 := by
      rw [Directory.size, habsent]
      rfl
    rcases rest.split (by simp) with ⟨e, -, hrun⟩ | rest
    · cases hrun
      exact ⟨⟨e, rfl⟩, .inl ⟨rfl, rfl⟩⟩
    dsimp only [exec] at rest
    rw [hsize] at rest
    rcases rest.split (by simp) with ⟨e, -, hrun⟩ | rest
    · cases hrun
      exact ⟨⟨e, rfl⟩, .inr ⟨hroom, rfl, rfl⟩⟩
    · exact rest.not_ret.elim

end Rotate

section Ok

variable (listing : Listing) (s : Bitcask) (outId : FileId)

theorem run_andThen_ok {listing : Listing} {p : Io (Except Failure Unit × Bitcask)}
    {f : Unit → Bitcask → Io (Except Failure Unit × Bitcask)} {d : Directory}
    (hp : (p.run (machine listing) d).1.1 = .ok ())
    (hf : ∀ s d, ((f () s).run (machine listing) d).1.1 = .ok ()) :
    ((andThen p f).run (machine listing) d).1.1 = .ok () := by
  rw [andThen, Prog.run_bind]
  obtain ⟨⟨⟨r, s⟩, d'⟩, hrun⟩ : ∃ result, p.run (machine listing) d = result := ⟨_, rfl⟩
  rw [hrun] at hp ⊢
  obtain rfl : r = .ok () := hp
  exact hf s d'

theorem not_error_of_run_ok {listing : Listing} {p : Io (Except Failure Unit × Bitcask)} {s : Bitcask}
    {d d' : Directory} {e : Failure} (hok : (p.run (machine listing) d).1.1 = .ok ()) :
    ¬ CleanRuns listing p d (.error e, s) d' := by
  intro hruns
  rw [hruns.run_eq] at hok
  cases hok

theorem run_install_ok (out : LogFile) :
    ∃ k, s.install outId out = .op (.remove (.hint outId)) k ∧
      ∀ r d, FileName.logTemp outId ∈ d → ((k r).run (machine listing) d).1.1 = .ok () := by
  refine ⟨_, rfl, fun r d hmem => ?_⟩
  obtain ⟨name, endOffset, mode, isOpen⟩ := out
  cases isOpen <;> simp [attempt, LogFile.close, Prog.run, machine, exec, hmem]

theorem run_adoptMerged_ok (inputs : List FileId) (staged : AList fun _ : Key => ValuePointer) (d : Directory) :
    ((s.adoptMerged outId inputs staged).run (machine listing) d).1.1 = .ok () := by
  by_cases hmem : FileName.hintTemp outId ∈ d.openFile (.log outId)
  · simp [adoptMerged, attempt, LogFile.openAt, Prog.run, machine, exec, hmem]
  · simp [adoptMerged, attempt, LogFile.openAt, Prog.run, machine, exec, hmem]

theorem run_removeInputs_ok (inputs : List (FileId × LogFile)) (d : Directory) :
    ((s.removeInputs inputs).run (machine listing) d).1.1 = .ok () := by
  induction inputs generalizing s d with
  | nil => rfl
  | cons input inputs ih =>
    obtain ⟨id, name, endOffset, mode, isOpen⟩ := input
    unfold removeInputs
    cases isOpen with
    | false =>
      simp only [LogFile.close, Bool.false_eq_true, if_false, Prog.ret_bind, Prog.run, machine, exec]
      split
      · rfl
      · exact ih _ _
    | true =>
      simp only [LogFile.close, if_true, Prog.op_bind, Prog.ret_bind, Prog.run, machine, exec]
      split
      · rfl
      · exact ih _ _

def takeOver (s : Bitcask) (outId : FileId) (inputs : List FileId) (others : List (FileId × LogFile))
    (staged : AList fun _ : Key => ValuePointer) : Io (Except Failure Unit × Bitcask) :=
  andThen (s.adoptMerged outId inputs staged) fun _ s => s.removeInputs others

def putInPlace (s : Bitcask) (outId : FileId) (out : LogFile) (others : List (FileId × LogFile)) (m : Merge) :
    Io (Except Failure Unit × Bitcask) :=
  andThen (s.install outId out) fun _ s' => s'.takeOver outId (s.sealedFiles.map Prod.fst) others m.staged

theorem run_takeOver_ok (inputs : List FileId) (others : List (FileId × LogFile))
    (staged : AList fun _ : Key => ValuePointer) (d : Directory) :
    ((s.takeOver outId inputs others staged).run (machine listing) d).1.1 = .ok () :=
  run_andThen_ok (run_adoptMerged_ok listing s outId inputs staged d)
    fun s d => run_removeInputs_ok listing s others d

theorem run_putInPlace_ok (out : LogFile) (others : List (FileId × LogFile)) (m : Merge) {d : Directory}
    (h : FileName.logTemp outId ∈ d) :
    ((s.putInPlace outId out others m).run (machine listing) d).1.1 = .ok () := by
  obtain ⟨k, hk, hok⟩ := run_install_ok listing s outId out
  apply run_andThen_ok
  · rw [hk]
    exact hok _ _ (AList.mem_erase.mpr ⟨by simp, h⟩)
  · intro s d
    exact run_takeOver_ok listing s outId _ _ _ d

end Ok

def refuse (may : Op → Bool) (o : Op) (d : Directory) : Option (Res o × Directory) :=
  if may o then some (.error (.ioError (text "Input/output error")), d) else none

section

variable [Crc]

theorem mergeSealed_eq {s : Bitcask} {outId : FileId} {out : LogFile} {others : List (FileId × LogFile)}
    (hfail : s.options.failAt = .none) (hsealed : s.sealedFiles = (outId, out) :: others)
    (hbusy : ¬ (others = [] ∧ (s.keydir.deadBytes.lookup outId).getD 0 = 0)) :
    s.mergeSealed = (s.writeMerge outId).bind fun
      | .error e => .ret (.error e, s)
      | .ok m => s.putInPlace outId out others m := by
  unfold mergeSealed
  rw [hsealed]
  dsimp only
  rw [if_neg hbusy]
  congr 1
  funext r
  cases r with
  | error => rfl
  | ok => simp [hfail, putInPlace, takeOver, hsealed]

section Write

variable {listing : Listing} (s : Bitcask) (outId : FileId) {d d' : Directory} {r : Except Failure Merge}

theorem writeMerge_spares (h : HarmlessRun listing (s.writeMerge outId) d r d') : SameFiles d d' :=
  ((sparesFiles_writeMerge s outId).runs (SameFiles d) (fun o d ho hd => exec_sparesFiles o d ho hd)
    (fun o d r d' ho hfails hd => fails_sparesFiles o d r d' ho hfails.1 hd) (SameFiles.refl d) h.runs).2

theorem writeMerge_wrote {m : Merge} (h : HarmlessRun listing (s.writeMerge outId) d (.ok m) d') :
    FileName.logTemp outId ∈ d' := by
  have hopened : ∀ d₁ : Directory, Runs (machine listing) Legal
      (fun o d r d' => OpFails o d r d' ∧ Harmless d o)
      (orFail (LogFile.openAt (.logTemp outId) .never) fun temp =>
        orFail (LogFile.openAt (.hintTemp outId) .never) fun hintTemp =>
        orFail (s.copyInputs outId s.sealedFiles ⟨temp, hintTemp, 0, ∅⟩) finishMerge) d₁ (.ok m) d' →
      FileName.logTemp outId ∈ d' := by
    intro d₁ hruns
    cases hruns with
    | fail fails legal next =>
      obtain ⟨⟨e, rfl⟩, rfl⟩ := fails.1.unchanged (by simp)
      cases next.of_ret
    | op legal next =>
      have hmem₁ : FileName.logTemp outId ∈ (exec listing (.openFile (.logTemp outId)) d₁).2 := by
        rw [← AList.lookup_isSome]
        show ((d₁.openFile _).lookup _).isSome
        cases hfile : d₁.lookup (.logTemp outId) with
        | none => rw [Directory.lookup_openFile_of_none hfile]; rfl
        | some => rw [Directory.openFile_of_lookup hfile, hfile]; rfl
      cases next with
      | fail fails legal next =>
        obtain ⟨⟨e, rfl⟩, rfl⟩ := fails.1.unchanged (by simp)
        cases next.of_ret
      | op legal next =>
        have hmem₂ : FileName.logTemp outId ∈ (exec listing (.openFile (.hintTemp outId))
            (exec listing (.openFile (.logTemp outId)) d₁).2).2 := by
          rw [← AList.lookup_isSome] at hmem₁ ⊢
          show ((Directory.openFile _ _).lookup _).isSome
          rwa [Directory.lookup_openFile_ne (by simp)]
        refine ((fillsTemps_merge s outId _ _ ?_ ?_).runs (FileName.logTemp outId ∈ ·)
          (fun o d ho hd => mem_of_fillsTemp ho hd) ?_ hmem₂ next).2
        · rfl
        · rfl
        · intro o d r d' ho hfails hd
          cases hfails.1 with
          | short => exact Directory.mem_pwrite hd _ _ _
          | refused => exact hd
  have hruns := h.runs
  cases hruns with
  | op _ next | fail _ _ next =>
    cases next with
    | op _ next | fail _ _ next => exact hopened _ next

end Write

section Install

variable {listing : Listing} {s s' : Bitcask} {d₀ d d' : Directory} {outId : FileId} {c₀ : DataFile}
  {kept : DataFiles} {copied : List Intact} {m : Merge} {r : Except Failure Unit}

theorem install_failed {mode : SyncMode} (hw : MergeWritten d₀ outId copied m d)
    (hfiles : FilesAre d₀ ((outId, c₀) :: kept)) (hwhole : c₀.tail = []) (hmode : s.options.syncMode = mode)
    (h : HarmlessRun listing (s.install outId (openedFile mode outId c₀)) d (r, s') d') :
    (∃ e, r = .error e ∧ (s' = s ∨ s' = s.setSealed outId (openedFile mode outId c₀)) ∧ Swept [] d₀ d') ∨
      r = .ok () := by
  have hd₁ := hw.swept.2
  have hmem₁ := hw.temp_mem_erase
  have htemp : (AList.erase (.hint outId) d).lookup (.logTemp outId) = some (bytesOf copied) := by
    rw [AList.lookup_erase_ne (by simp), hw.tempFile]
  have hold : (AList.erase (.hint outId) d).lookup (.log outId) = some (bytesOf c₀.chunks) := by
    have hfile := hfiles.lookup (f := (outId, c₀)) List.mem_cons_self
    rw [AList.lookup_erase_ne (by simp), hw.same.logs, hfile, DataFile.bytes, hwhole, List.append_nil]
  obtain ⟨k, hk, hok⟩ := run_install_ok listing s outId (openedFile mode outId c₀)
  cases hk
  rcases h.split (by simp) with ⟨e, -, hrun⟩ | rest
  · -- the hint stays, and nothing else fails
    have hdone := hok (.error e) _ hw.temp_mem
    rw [hrun] at hdone
    exact .inr hdone
  rcases rest.split (by simp) with ⟨e, -, hrun⟩ | rest
  · cases hrun
    exact .inl ⟨e, rfl, .inl rfl, hd₁⟩
  rcases rest.split (by simp) with ⟨_, hharmless, _⟩ | rest
  · exact absurd hmem₁ hharmless
  dsimp only [exec, Prog.ret_bind] at rest
  rcases rest.split (by simp) with ⟨e, -, hrun⟩ | rest
  · simp only [LogFile.openAt, Prog.op_bind, Prog.run, machine, exec_openFile hold] at hrun
    cases hrun
    exact .inl ⟨_, rfl, .inr (by rw [hmode]; rfl), hd₁⟩
  rw [exec_rename hmem₁] at rest
  rcases rest.split (by simp) with ⟨_, hharmless, _⟩ | rest
  · have hgone := hharmless outId (hw.installed hfiles).hint_mem
    rw [← AList.lookup_isSome, Directory.lookup_rename htemp] at hgone
    simp at hgone
  · exact rest.not_ret.elim

theorem adoptMerged_failed {inputs : List FileId} {staged : AList fun _ : Key => ValuePointer}
    (hd : Installed d₀ outId copied kept d)
    (h : HarmlessRun listing (s.adoptMerged outId inputs staged) d (r, s') d') :
    (∃ e, r = .error e ∧ s' = (s.setSealed outId (openedFile s.options.syncMode outId ⟨copied, []⟩)).adopt
        inputs staged ∧ Replaced d₀ outId copied kept d') ∨ r = .ok () := by
  rcases h.split (by simp) with ⟨_, hharmless, _⟩ | rest
  · exact absurd hd.hint_mem hharmless
  rw [exec_openFile hd.lookup] at rest
  rcases rest.split (by simp) with ⟨e, -, hrun⟩ | rest
  · simp only [attempt, Prog.run, machine, exec] at hrun
    cases hrun
    exact .inr rfl
  rw [exec_rename hd.hint_mem] at rest
  rcases rest.split (by simp) with ⟨e, -, hrun⟩ | rest
  · cases hrun
    exact .inl ⟨e, rfl, rfl, hd.hinted⟩
  · exact rest.not_ret.elim

end Install

section Remove

variable {listing : Listing} {s s' : Bitcask} {d₀ d d' : Directory} {outId : FileId} {copied : List Intact}
  {rest last : DataFiles} {mode : SyncMode} {merged : LogFile} {r : Except Failure Unit}

theorem insert_closed {f : FileId × DataFile} (hsorted : Sorted (f :: rest)) (hlt : outId < f.1) :
    SortedRun.insert f.1 { openedFile mode f.1 f.2 with isOpen := false }
        ((outId, merged) :: heldFiles mode (fun _ => true) (f :: rest)) =
      (outId, merged) :: heldFiles mode (fun id => id ≠ f.1) (f :: rest) := by
  have hothers : heldFiles mode (fun id => id ≠ f.1) rest = heldFiles mode (fun _ => true) rest := by
    apply List.map_congr_left
    intro g hg
    have hne : g.1 ≠ f.1 := ((List.pairwise_cons.mp hsorted).1 g hg).ne'
    simp [heldFile, hne]
  simp only [heldFiles, List.map_cons] at hothers ⊢
  rw [hothers]
  simp [SortedRun.insert, heldFile, openedFile, hlt.ne', hlt.not_gt]

/-- Removing the inputs: a harmless failure leaves a last part of them, the first of which may
have been closed. -/
theorem removeInputs_failed {e : Failure} (hfail : s.options.failAt = .none)
    (hs : s.sealedFiles = (outId, merged) :: heldFiles mode (fun _ => true) rest)
    (hd : Replaced d₀ outId copied (rest ++ last) d)
    (h : HarmlessRun listing (s.removeInputs (heldFiles mode (fun _ => true) rest)) d (.error e, s') d') :
    ∃ rest' isOpen, rest' <:+ rest ∧ Replaced d₀ outId copied (rest' ++ last) d' ∧
      s' = { s with sealedFiles := (outId, merged) :: heldFiles mode isOpen rest' } ∧
      ∀ id, isOpen id = false → id ∈ keys rest' := by
  induction rest generalizing s d with
  | nil =>
    rcases h.split (by simp) with ⟨e, -, hrun⟩ | rest
    · cases hrun
      exact ⟨[], fun _ => true, List.suffix_refl _, hd, by rw [← hs], nofun⟩
    · exact rest.not_ret.elim
  | cons f rest ih =>
    obtain ⟨hfirst, hascending⟩ := List.pairwise_cons.mp hd.files.ascending
    have hlt : outId < f.1 := hfirst f List.mem_cons_self
    have hsorted : Sorted (f :: rest) := (List.pairwise_append.mp hascending).1
    rcases h.split (by simp) with ⟨e, -, hrun⟩ | rest'
    · cases hrun
      refine ⟨f :: rest, fun id => id ≠ f.1, List.suffix_refl _, hd, ?_, fun id hid => ?_⟩
      · rw [setSealed, hs]
        exact congrArg (fun files => { s with sealedFiles := files }) (insert_closed hsorted hlt)
      · have hsame : id = f.1 := by simpa using hid
        rw [hsame]
        exact List.mem_cons_self ..
    rcases rest'.split (by simp) with ⟨_, hharmless, _⟩ | rest'
    · exact hharmless.elim
    have hd₁ : Replaced d₀ outId copied (rest ++ last) (d.erase (.log f.1)) := hd.removeLog
    have hsealed : (s.dropSealed f.1).sealedFiles = (outId, merged) :: heldFiles mode (fun _ => true) rest := by
      rw [dropSealed, hs]
      exact hd.filter_head
    rcases rest'.split (by simp) with ⟨_, -, hrun⟩ | rest'
    · -- the hint stays, and nothing else fails
      rw [if_neg (by rw [hfail]; decide)] at hrun
      have hok := run_removeInputs_ok listing (s.dropSealed f.1) (heldFiles mode (fun _ => true) rest)
      cases (congrArg (fun r => r.1.1) hrun).symm.trans (hok _)
    · rw [if_neg (by rw [hfail]; decide)] at rest'
      obtain ⟨left, isOpen, hsuffix, hleft, rfl, hclosed⟩ :=
        ih (s := s.dropSealed f.1) hfail hsealed (hd₁.removeHint hd.head_ne) rest'
      exact ⟨left, isOpen, hsuffix.trans (List.suffix_cons f rest), hleft, rfl, hclosed⟩

end Remove

end

end KVStore.Bitcask
