import KVStore.BitcaskCalls
import KVStore.Lib.FaultyProgram

namespace KVStore.Bitcask

open Lib CrashProgram

/-- No call of the program appends to a data file, whatever the calls return. -/
abbrev Quiet {α : Type} (Q : α → Prop) (p : Io α) : Prop := p.Ensures (fun o => o.lands = false) Q

section Rules

variable {α β : Type}

theorem Quiet.andThen {p : Io (Except Failure α × Bitcask)}
    {f : α → Bitcask → Io (Except Failure β × Bitcask)} (h : Quiet (fun _ => True) p)
    (hf : ∀ a s, Quiet (fun _ => True) (f a s)) : Quiet (fun _ => True) (andThen p f) := by
  refine h.bind fun r _ => ?_
  obtain ⟨r, s⟩ := r
  cases r with
  | error => trivial
  | ok a => exact hf a s

theorem Quiet.attempt (s : Bitcask) {o : Op} {f : Val o → Io (Except Failure β × Bitcask)}
    (ho : o.lands = false) (hf : ∀ a, Quiet (fun _ => True) (f a)) :
    Quiet (fun _ => True) (attempt s o f) := by
  refine ⟨ho, fun r => ?_⟩
  cases r with
  | error => trivial
  | ok a => exact hf a

end Rules

section Files

variable {φ : Op → Prop}

theorem ensures_openAt (name : FileName) (mode : SyncMode) (hopen : φ (.openFile name)) :
    (LogFile.openAt name mode).Ensures φ fun r => ∀ file, r = .ok file → file.name = name := by
  refine ⟨hopen, fun r => ?_⟩
  cases r with
  | error => exact nofun
  | ok =>
    rintro _ ⟨⟩
    rfl

theorem ensures_sync (file : LogFile) (hsync : φ (.sync file.name)) : file.sync.Ensures φ fun _ => True := by
  unfold LogFile.sync
  split
  · exact ⟨hsync, fun _ => trivial⟩
  · trivial

theorem ensures_close (file : LogFile) (hclose : φ (.close file.name)) :
    file.close.Ensures φ fun _ => True := by
  unfold LogFile.close
  split
  · exact ⟨hclose, fun _ => trivial⟩
  · trivial

theorem ensures_reader (file : LogFile) (hread : φ (.reader file.name)) :
    file.reader.Ensures φ fun _ => True := by
  unfold LogFile.reader
  split
  · refine ⟨hread, fun r => ?_⟩
    cases r <;> trivial
  · trivial

theorem ensures_append (file : LogFile) (bytes : Bytes) (hwrite : φ (.pwrite file.name file.endOffset bytes))
    (hsync : φ (.sync file.name)) : (file.append bytes).Ensures φ fun r => r.2.name = file.name := by
  unfold LogFile.append
  split
  · refine ⟨hwrite, fun r => ?_⟩
    cases r with
    | error => rfl
    | ok =>
      split
      · rfl
      · refine (ensures_sync _ hsync).bind fun r _ => ?_
        cases r <;> rfl
  · rfl

end Files

section Install

variable (s : Bitcask) (outId : FileId)

theorem quiet_install (out : LogFile) : Quiet (fun _ => True) (s.install outId out) := by
  refine ⟨rfl, fun _ => Quiet.attempt s rfl fun _ => ?_⟩
  refine (ensures_close out (by rfl)).bind fun r _ => ?_
  obtain ⟨r, out'⟩ := r
  cases r with
  | error => trivial
  | ok =>
    refine ⟨rfl, fun r => ?_⟩
    cases r with
    | error =>
      refine (ensures_openAt _ _ (by rfl)).bind fun r _ => ?_
      cases r <;> trivial
    | ok => exact Quiet.attempt _ rfl fun _ => trivial

theorem quiet_adoptMerged (inputs : List FileId) (staged : AList fun _ : Key => ValuePointer) :
    Quiet (fun _ => True) (s.adoptMerged outId inputs staged) := by
  refine (ensures_openAt _ _ (by rfl)).bind fun r _ => ?_
  cases r with
  | error => trivial
  | ok =>
    refine ⟨rfl, fun r => ?_⟩
    cases r with
    | error => exact ⟨rfl, fun _ => Quiet.attempt _ rfl fun _ => trivial⟩
    | ok => exact Quiet.attempt _ rfl fun _ => trivial

theorem quiet_removeInputs (inputs : List (FileId × LogFile)) : Quiet (fun _ => True) (s.removeInputs inputs) := by
  induction inputs generalizing s with
  | nil => exact Quiet.attempt s rfl fun _ => trivial
  | cons input inputs ih =>
    refine (ensures_close input.2 (by rfl)).bind fun r _ => ?_
    obtain ⟨r, input'⟩ := r
    cases r with
    | error => trivial
    | ok =>
      refine ⟨rfl, fun r => ?_⟩
      cases r with
      | error => trivial
      | ok =>
        refine ⟨rfl, fun _ => ?_⟩
        split
        · exact Quiet.attempt _ rfl fun _ => trivial
        · exact ih _

end Install

/-- What a merge does once its two temporary files are open. -/
def Op.fillsTemp : Op → Bool
  | .pwrite (.logTemp _) _ _ | .pwrite (.hintTemp _) _ _ => true
  | .reader _ | .sync _ | .close _ => true
  | _ => false

/-- What leaves every data file and every hint as it is. -/
def Op.sparesFiles : Op → Bool
  | .openFile (.logTemp _) | .openFile (.hintTemp _) | .remove (.logTemp _) | .remove (.hintTemp _) => true
  | o => o.fillsTemp

theorem Op.sparesFiles_of_fillsTemp (o : Op) (h : o.fillsTemp = true) : o.sparesFiles = true := by
  unfold sparesFiles
  split <;> first | rfl | exact h

theorem Op.quiet_of_sparesFiles (o : Op) (h : o.sparesFiles = true) : o.lands = false := by
  cases o with
  | pwrite name =>
    cases name with
    | log => cases h
    | hint | logTemp | hintTemp => rfl
  | _ => rfl

theorem exec_sparesFiles {listing : Listing} {d₀ : Directory} (o : Op) (d : Directory) (ho : o.sparesFiles = true)
    (h : SameFiles d₀ d) : SameFiles d₀ (exec listing o d).2 := by
  cases o with
  | openFile name =>
    cases name with
    | log | hint => cases ho
    | logTemp => exact h.temp (.inl rfl) fun name hname => Directory.lookup_openFile_ne hname
    | hintTemp => exact h.temp (.inr rfl) fun name hname => Directory.lookup_openFile_ne hname
  | remove name =>
    cases name with
    | log | hint => cases ho
    | logTemp => exact h.temp (.inl rfl) fun name hname => AList.lookup_erase_ne hname
    | hintTemp => exact h.temp (.inr rfl) fun name hname => AList.lookup_erase_ne hname
  | pwrite name =>
    cases name with
    | log | hint => cases ho
    | logTemp => exact h.temp (.inl rfl) fun name hname => Directory.lookup_pwrite_ne hname _ _
    | hintTemp => exact h.temp (.inr rfl) fun name hname => Directory.lookup_pwrite_ne hname _ _
  | reader | sync | close => exact h
  | _ => cases ho

structure Merge.AtTemps (outId : FileId) (m : Merge) : Prop where
  temp : m.temp.name = .logTemp outId
  hintTemp : m.hintTemp.name = .hintTemp outId

abbrev FillsTemps {α : Type} (Q : α → Prop) (p : Io α) : Prop := p.Ensures (fun o => o.fillsTemp = true) Q

theorem ensures_orFail {α β : Type} {φ : Op → Prop} {p : Io (Except Failure α)}
    {f : α → Io (Except Failure β)} {Q : α → Prop} {Q' : Except Failure β → Prop}
    (h : p.Ensures φ fun r => ∀ a, r = .ok a → Q a) (herror : ∀ e, Q' (.error e))
    (hf : ∀ a, Q a → (f a).Ensures φ Q') : (orFail p f).Ensures φ Q' := by
  refine h.bind fun r hr => ?_
  cases r with
  | error e => exact herror e
  | ok a => exact hf a (hr a rfl)

variable [Crc]

section Merge

variable (s : Bitcask) (outId : FileId) {m : Merge}

theorem fillsTemps_copyRecord (id : FileId) (hm : m.AtTemps outId) (v : Visited) :
    FillsTemps (fun r => ∀ m', r = .ok m' → m'.AtTemps outId) (s.copyRecord outId id m v) := by
  have hsame : ∀ m', (Except.ok m : Except Failure Merge) = .ok m' → m'.AtTemps outId := by
    rintro _ ⟨⟩
    exact hm
  unfold copyRecord
  split
  · exact hsame
  · split
    · exact hsame
    · split
      · exact hsame
      · refine (ensures_append m.temp v.raw (by rw [hm.temp]; rfl) (by rfl)).bind fun r hr => ?_
        obtain ⟨r, temp⟩ := r
        cases r with
        | error => exact nofun
        | ok =>
          refine (ensures_append m.hintTemp _ (by rw [hm.hintTemp]; rfl) (by rfl)).bind fun r hr' => ?_
          obtain ⟨r, hintTemp⟩ := r
          cases r with
          | error => exact nofun
          | ok =>
            rintro _ ⟨⟩
            exact ⟨hr.trans hm.temp, hr'.trans hm.hintTemp⟩

theorem fillsTemps_copyRecords (id : FileId) (hm : m.AtTemps outId) (vs : List Visited) :
    FillsTemps (fun r => ∀ m', r = .ok m' → m'.AtTemps outId) (s.copyRecords outId id vs m) := by
  induction vs generalizing m with
  | nil =>
    rintro _ ⟨⟩
    exact hm
  | cons v vs ih => exact ensures_orFail (fillsTemps_copyRecord s outId id hm v) (fun _ => nofun) fun _ => ih

theorem fillsTemps_copyInputs (hm : m.AtTemps outId) (inputs : List (FileId × LogFile)) :
    FillsTemps (fun r => ∀ m', r = .ok m' → m'.AtTemps outId) (s.copyInputs outId inputs m) := by
  induction inputs generalizing m with
  | nil =>
    rintro _ ⟨⟩
    exact hm
  | cons input inputs ih =>
    refine (ensures_reader input.2 (by rfl)).bind fun read _ => ?_
    refine ensures_orFail (fillsTemps_copyRecords s outId input.1 hm _) (fun _ => nofun) fun m' hm' => ?_
    split
    · exact ih hm'
    · exact nofun

theorem fillsTemps_finishMerge (hm : m.AtTemps outId) : FillsTemps (fun _ => True) (finishMerge m) := by
  refine (ensures_append m.hintTemp _ (by rw [hm.hintTemp]; rfl) (by rfl)).bind fun r _ => ?_
  obtain ⟨r, hintTemp⟩ := r
  cases r with
  | error => trivial
  | ok =>
    have hnext : ∀ file : LogFile, FillsTemps (fun r => ∀ u, r = .ok u → True) file.sync :=
      fun file => (ensures_sync file (by rfl)).mono fun _ _ _ _ => trivial
    refine ensures_orFail (hnext m.temp) (fun _ => trivial) fun _ _ => ?_
    refine ensures_orFail (hnext hintTemp) (fun _ => trivial) fun _ _ => ?_
    refine (ensures_close m.temp (by rfl)).bind fun r _ => ?_
    obtain ⟨r, temp⟩ := r
    cases r with
    | error => trivial
    | ok =>
      refine (ensures_close hintTemp (by rfl)).bind fun r _ => ?_
      obtain ⟨r, hintTemp⟩ := r
      cases r <;> trivial

theorem fillsTemps_merge (temp hintTemp : LogFile) (htemp : temp.name = .logTemp outId)
    (hhint : hintTemp.name = .hintTemp outId) :
    FillsTemps (fun _ => True) (orFail (s.copyInputs outId s.sealedFiles ⟨temp, hintTemp, 0, ∅⟩) finishMerge) :=
  ensures_orFail (fillsTemps_copyInputs s outId ⟨htemp, hhint⟩ s.sealedFiles) (fun _ => trivial)
    fun _ => fillsTemps_finishMerge outId

/-- Until the merge is written nothing but its temporary files has changed, whichever of
its calls fails. -/
theorem sparesFiles_writeMerge :
    (s.writeMerge outId).Ensures (fun o => o.sparesFiles = true) fun _ => True := by
  refine ⟨rfl, fun _ => ⟨rfl, fun _ => ?_⟩⟩
  refine ensures_orFail (ensures_openAt (.logTemp outId) .never rfl) (fun _ => trivial) fun temp htemp => ?_
  refine ensures_orFail (ensures_openAt (.hintTemp outId) .never rfl) (fun _ => trivial) fun hintTemp hhint => ?_
  exact (fillsTemps_merge s outId temp hintTemp htemp hhint).imp Op.sparesFiles_of_fillsTemp

theorem quiet_writeMerge : Quiet (fun _ => True) (s.writeMerge outId) :=
  (sparesFiles_writeMerge s outId).imp Op.quiet_of_sparesFiles

end Merge

theorem quiet_mergeSealed (s : Bitcask) : Quiet (fun _ => True) s.mergeSealed := by
  unfold mergeSealed
  split
  · trivial
  · split
    · trivial
    · refine (quiet_writeMerge s _).bind fun r _ => ?_
      cases r with
      | error => trivial
      | ok =>
        dsimp only
        split
        · trivial
        · refine (quiet_install s _ _).andThen fun _ s' => ?_
          split
          · trivial
          · exact (quiet_adoptMerged s' _ _ _).andThen fun _ s'' => quiet_removeInputs s'' _

end KVStore.Bitcask
