import KVStore.BitcaskCallFailures

namespace KVStore.Bitcask

open Lib SortedRun CrashProgram

section

variable [Crc]

section Compact

variable {listing : Listing} {s s' : Bitcask} {d d' : Directory} {sealedOnes : DataFiles}
  {active : DataFile} {history : List Write} {e : Failure} {calls : List Call}

theorem StoreInv.held_adopted {outId : FileId} {c₀ : DataFile} {others rest : DataFiles}
    {staged : AList fun _ : Key => ValuePointer} {copied : List Intact} {isOpen : FileId → Bool}
    (h : StoreInv s d ((outId, c₀) :: others) ⟨[], []⟩ history)
    (hrest : rest <:+ others) (hcopied : copied = liveChunks s.keydir (placed ((outId, c₀) :: others)))
    (hsmall : (bytesOf copied).length < 2 ^ 63) (hstaged : Staged staged outId copied)
    (hd : Replaced d outId copied (rest ++ [(s.activeId, ⟨[], []⟩)]) d')
    (hclosed : ∀ id, isOpen id = false → id ∈ keys rest) (inputs : List FileId) :
    HeldInv s.options isOpen { s.adopt inputs staged with
        sealedFiles := (outId, openedFile s.options.syncMode outId ⟨copied, []⟩) ::
          heldFiles s.options.syncMode isOpen rest } d'
      ((outId, ⟨copied, []⟩) :: rest) ⟨[], []⟩ history history := by
  have hsorted := h.durable.files.sealed_ascending
  have hserves : Serves s.keydir (placed ((outId, c₀) :: others)) history := by
    have hstore := h.held.serves
    rwa [placed_empty_active] at hstore
  have hdurable := hd.durable h hrest hcopied hsmall
  subst hcopied
  have hadopted := hserves.adopted hsorted hstaged (inputs.foldl (fun dead id => dead.erase id) s.keydir.deadBytes)
  have hout : isOpen outId = true := by
    cases hopen : isOpen outId with
    | true => rfl
    | false =>
      obtain ⟨f, hf, hid⟩ := List.mem_map.mp (hclosed outId hopen)
      exact absurd hid ((List.pairwise_cons.mp hsorted).1 f (hrest.mem hf)).ne'
  refine ⟨rfl, ?_, h.describes.active, fun id hid => ?_, hdurable, rfl, ?_, ?_⟩
  · show (outId, _) :: _ = (outId, heldFile s.options.syncMode isOpen _) :: _
    simp only [heldFile, openedFile, hout]
    rfl
  · cases hopen : isOpen id with
    | true => rfl
    | false =>
      obtain ⟨f, hf, rfl⟩ := List.mem_map.mp (hclosed id hopen)
      have hlt := h.durable.files.sealed_lt (List.mem_cons_of_mem _ (hrest.mem hf))
      exact absurd hid (Nat.not_le.mpr hlt)
  · rw [placed_empty_active, placed_cons]
    exact hadopted.mono fun p hp => List.mem_append_left _ hp
  · intro key pointer hlookup
    obtain ⟨found, hfound, hmem, _⟩ := hadopted key
    have hpointer := hfound.symm.trans hlookup
    obtain ⟨p, rfl, rfl⟩ := Option.map_eq_some_iff.mp hpointer
    have hfile : p.fileId = outId := (of_mem_placedFrom (hmem p rfl).1).1
    show isOpen p.fileId = true
    rw [hfile, hout]

theorem putInPlace_failed {outId : FileId} {c₀ : DataFile} {others : DataFiles} {m : Merge}
    {d₁ : Directory} (h : StoreInv s d ((outId, c₀) :: others) ⟨[], []⟩ history)
    (hfail : s.options.failAt = .none) (hl : Legal d₁)
    (hw : MergeWritten d outId (liveChunks s.keydir (placed ((outId, c₀) :: others))) m d₁)
    (hruns : HarmlessRun listing (s.putInPlace outId (openedFile s.options.syncMode outId c₀)
      (heldFiles s.options.syncMode (fun _ => true) others) m) d₁ (.error e, s') d') :
    ∃ isOpen sealedOnes active, HeldInv s.options isOpen s' d' sealedOnes active history history := by
  have hsealed : s.sealedFiles = (outId, openedFile s.options.syncMode outId c₀) ::
      heldFiles s.options.syncMode (fun _ => true) others := h.describes.held
  have hsorted := h.durable.files.sealed_ascending
  have hwhole : c₀.tail = [] := h.durable.whole (outId, c₀) List.mem_cons_self
  have hsmall := hl _ _ hw.tempFile
  rcases hruns.of_bind with ⟨⟨r, s₁⟩, d₂, hinstall, hrest⟩ | ⟨⟨r, s₁⟩, d₂, hinstall, hrest⟩
  · rcases install_failed hw h.durable.files hwhole rfl hinstall with ⟨e', rfl, hs₁, hd₂⟩ | rfl
    · cases hrest.of_ret
      have hreopened : s.setSealed outId (openedFile s.options.syncMode outId c₀) = s := by
        have hsame : SortedRun.insert outId (openedFile s.options.syncMode outId c₀) s.sealedFiles =
            s.sealedFiles := by
          rw [hsealed]
          simp [SortedRun.insert]
        rw [setSealed, hsame]
      rw [hreopened, or_self] at hs₁
      rw [hs₁]
      exact ⟨_, _, _, h.held.congr hd₂.logs hd₂.hints⟩
    · exact absurd hrest (not_error_of_run_ok (run_takeOver_ok listing s₁ outId _ _ _ d₂))
  · have halone := @alone_install _ listing Legal (fun _ => True) s d d₁ outId c₀ _ _ m
      (openedFile s.options.syncMode outId c₀) hw h.durable.files (fun _ _ => trivial) (fun _ _ => trivial)
    obtain ⟨hr, hd₂⟩ := alone_cleanRuns halone (fun _ hl => hl) hl hinstall
    cases hr
    have hl₂ := hinstall.ends_legal hl
    -- from here on the index leads to the merged file
    have hmerged := sealedFiles_setMerged h.describes.held hsorted (openedFile s.options.syncMode outId
      ⟨liveChunks s.keydir (placed ((outId, c₀) :: others)), []⟩)
    have hheld := fun rest isOpen d' hrest hd hclosed =>
      @StoreInv.held_adopted _ s d d' history outId c₀ others rest m.staged _ isOpen h hrest rfl hsmall hw.staged
        hd hclosed (s.sealedFiles.map Prod.fst)
    rcases hrest.of_bind with ⟨⟨r, s₂⟩, d₃, hadopt, hrest⟩ | ⟨⟨r, s₂⟩, d₃, hadopt, hrest⟩
    · rcases adoptMerged_failed hd₂ hadopt with ⟨e', rfl, rfl, hd₃⟩ | rfl
      · cases hrest.of_ret
        have hnow := hheld others (fun _ => true) _ (List.suffix_refl _) hd₃ (by rintro _ ⟨⟩)
        rw [← hmerged] at hnow
        exact ⟨_, _, _, hnow⟩
      · exact absurd hrest (not_error_of_run_ok (run_removeInputs_ok listing s₂ _ d₃))
    · have halone := @alone_adoptMerged _ listing Legal (fun _ => True) (s.dropSealed outId) d d₂ outId _ _
        (s.sealedFiles.map Prod.fst) m.staged hd₂ (fun _ _ => trivial) hl₂
      obtain ⟨hr, hd₃⟩ := alone_cleanRuns halone (fun _ hl => hl) hl₂ hadopt
      cases hr
      obtain ⟨rest, isOpen, hsuffix, hd', rfl, hclosed⟩ :=
        removeInputs_failed (by exact hfail) (by exact hmerged) hd₃ hrest
      exact ⟨_, _, _, hheld rest isOpen _ hsuffix hd' hclosed⟩

theorem mergeSealed_failed (h : StoreInv s d sealedOnes ⟨[], []⟩ history) (hfail : s.options.failAt = .none)
    (hl : Legal d) (hruns : HarmlessRun listing s.mergeSealed d (.error e, s') d') : Held s' d' history := by
  refine ⟨hruns.ends_legal, s.options, ?_⟩
  cases sealedOnes with
  | nil =>
    have hnone : s.sealedFiles = [] := h.describes.sealedFiles
    unfold mergeSealed at hruns
    rw [hnone] at hruns
    exact hruns.not_ret.elim
  | cons f others =>
    obtain ⟨outId, c₀⟩ := f
    have hsealed : s.sealedFiles = (outId, openedFile s.options.syncMode outId c₀) ::
        heldFiles s.options.syncMode (fun _ => true) others := h.describes.held
    have hstored : ∀ f ∈ (outId, c₀) :: others, d.lookup (.log f.1) = some f.2.bytes :=
      fun f hf => h.durable.files.lookup (List.mem_append_left _ hf)
    by_cases hidle : heldFiles s.options.syncMode (fun _ => true) others = [] ∧
        (s.keydir.deadBytes.lookup outId).getD 0 = 0
    · unfold mergeSealed at hruns
      rw [hsealed] at hruns
      dsimp only at hruns
      rw [if_pos hidle] at hruns
      exact hruns.not_ret.elim
    · rw [mergeSealed_eq hfail hsealed hidle] at hruns
      rcases hruns.of_bind with ⟨r, d₁, hwrite, hrest⟩ | ⟨r, d₁, hwrite, hrest⟩
      · cases r with
        | error =>
          have hsame := writeMerge_spares s outId hwrite
          cases hrest.of_ret
          exact ⟨_, _, _, hfail, h.held.congr hsame.logs fun id bytes hb => hsame.hints id ▸ hb⟩
        | ok m =>
          -- what failed was the removal of an old temp file, and that goes unnoticed
          have hmem := writeMerge_wrote s outId hwrite
          exact absurd hrest (not_error_of_run_ok (run_putInPlace_ok listing s outId _ _ m hmem))
      · have halone := @alone_writeMerge _ listing Legal (fun _ => True) s d outId _ _ (fun _ _ => trivial)
          h.describes.held (fun _ _ => .inl rfl) hstored
        obtain ⟨m, rfl, hl₁, hw⟩ := alone_cleanRuns halone (fun _ hl => hl) hl hwrite
        obtain ⟨_, _, _, hs⟩ := putInPlace_failed h hfail hl₁ hw hrest
        exact ⟨_, _, _, hfail, hs⟩

theorem compact_failed (h : StoreInv s d sealedOnes active history) (hfail : s.options.failAt = .none)
    (hl : Legal d) (hruns : HarmlessRun listing s.compact d (.error e, s') d') : Held s' d' history := by
  rcases hruns.of_bind with ⟨⟨r, s₀⟩, d₀, hrotate, hrest⟩ | ⟨⟨r, s₀⟩, d₀, hrotate, hrest⟩
  · split at hrotate
    · have hopen : s.active.isOpen = true := by rw [h.describes.active]; rfl
      obtain ⟨⟨e', rfl⟩, hs₀⟩ := rotate_failed hopen h.durable.files.next_absent hrotate
      cases hrest.of_ret
      refine ⟨hruns.ends_legal, s.options, ?_⟩
      rcases hs₀ with ⟨rfl, rfl⟩ | ⟨hroom, rfl, rfl⟩
      · exact ⟨_, _, _, hfail, h.held⟩
      · exact ⟨_, _, _, hfail, (h.rotated hroom).held⟩
    · exact hrotate.not_ret.elim
  · split at hrotate
    · have halone : Alone listing Legal (fun d => Recoverable d history) (Rotation s d) s.rotate d :=
        alone_rotate_storeInv h hl
      have hrotation : Rotation s d (r, s₀) d₀ := alone_cleanRuns halone (fun _ hl => hl) hl hrotate
      cases hrotation with
      | exhausted => exact hrest.not_ret.elim
      | rotated room => exact mergeSealed_failed (h.rotated room) hfail (hrotate.ends_legal hl) hrest
    next hend =>
      cases hrotate.of_ret
      obtain rfl := h.active_empty hend
      exact mergeSealed_failed h hfail hl hrest

/-- A compaction in which one call fails, harmlessly, and that returns an error: the store
answers as before, and so it does whatever is done with it later. -/
theorem World.Reachable.failed_compact_unseen {s'' : Bitcask} {d'' : Directory} {history'' : List Write}
    (reached : World.Reachable listing (.running s d history))
    (failed : HarmlessRun listing s.compact d (.error e, s') d')
    (later : Later listing s' d' history s'' d'' history'') :
    AnswersOpen listing s d history ∧ AnswersOpen listing s' d' history ∧
      AnswersOpen listing s'' d'' history'' ∧ AnswersReopened listing d'' history'' := by
  obtain ⟨hfail, hl, sealedOnes, active, h⟩ := reached.inv
  have hheld := compact_failed h hfail hl failed
  have hlater := hheld.later later
  exact ⟨fun key => h.run_get key, hheld.answersOpen, hlater.answersOpen, hlater.answersReopened⟩

def runCalls : List Call → Bitcask → Directory → List Write → Option (Bitcask × Directory × List Write)
  | [], s, d, history => some (s, d, history)
  | call :: calls, s, d, history =>
    (runClean (call.program s) d).bind fun r => runCalls calls r.1.2 r.2 (call.after r.1.1 history)

theorem Later.runCalls {s₀ : Bitcask} {d₀ : Directory} {history₀ history' : List Write}
    (h : Later .asStored s₀ d₀ history₀ s d history)
    (hrun : runCalls calls s d history = some (s', d', history')) :
    Later .asStored s₀ d₀ history₀ s' d' history' := by
  induction calls generalizing s d history with
  | nil =>
    cases hrun
    exact h
  | cons call calls ih =>
    obtain ⟨⟨⟨r, s₁⟩, d₁⟩, hcall, hrest⟩ := Option.bind_eq_some_iff.mp hrun
    exact ih (h.call call (cleanRuns_of_runClean hcall)) hrest

def runCallsAndReopen (calls : List Call) (s : Bitcask) (d : Directory) (history : List Write) :
    Option (Bitcask × Directory × List Write) :=
  (runCalls calls s d history).bind fun (_, d, history) =>
    match runClean (recover {}) d with
    | some (.ok s, d) => some (s, d, history)
    | _ => none

theorem later_of_runCallsAndReopen {history' : List Write}
    (hrun : runCallsAndReopen calls s d history = some (s', d', history')) :
    Later .asStored s d history s' d' history' := by
  obtain ⟨⟨s₁, d₁, history₁⟩, hcalls, hopen⟩ := Option.bind_eq_some_iff.mp hrun
  dsimp only at hopen
  split at hopen
  next hopened =>
    cases hopen
    exact (Later.now.runCalls hcalls).reopened rfl (cleanRuns_of_runClean hopened)
  next => cases hopen

end Compact

def failCompact (may : Op → Bool) (n : Nat) (s : Bitcask) (d : Directory) : Option (Failure × Bitcask × Directory) :=
  match s.compact.failNth (machine .asStored) Legal (refuse may) n d with
  | some ((.error e, s'), d') => some (e, s', d')
  | _ => none

theorem failsOnce_of_failCompact {may : Op → Bool} {fails : (o : Op) → Directory → Res o → Directory → Prop}
    (hmay : ∀ o d e, may o = true → fails o d (.error e) d) {n : Nat} {s s' : Bitcask} {d d' : Directory}
    {e : Failure} (h : failCompact may n s d = some (e, s', d')) :
    FailsOnce (machine .asStored) Legal fails s.compact d (.error e, s') d' := by
  unfold failCompact at h
  split at h
  next hfail =>
    cases h
    refine failsOnce_of_failNth (fun o d r hr => ?_) hfail
    unfold refuse at hr
    split at hr
    next ho =>
      cases hr
      exact hmay o d _ ho
    next => cases hr
  next => cases h

end

def Op.isRename : Op → Bool
  | .rename _ _ => true
  | _ => false

/-- The rename of the merged file fails; then more calls, a compaction among them, and the
store is opened again. -/
theorem World.failed_compact_unseen_after_rename :
    ∃ (s s' s'' : Bitcask) (d d' d'' : Directory) (history history'' : List Write) (e : Failure),
      World.Reachable .asStored (.running s d history) ∧
      HarmlessRun .asStored s.compact d (.error e, s') d' ∧ Later .asStored s' d' history s'' d'' history'' ∧
      history = [⟨text "a", some (text "x")⟩, ⟨text "a", some (text "z")⟩] ∧
      history'' = history ++ [⟨text "b", some (text "y")⟩, ⟨text "a", none⟩] ∧
      (AnswersOpen .asStored s d history ∧ AnswersOpen .asStored s' d' history ∧
        AnswersOpen .asStored s'' d'' history'' ∧ AnswersReopened .asStored d'' history'') := by
  let calls : List (Call × Nat) := [(.put (text "a") (text "x") 0, 3), (.put (text "a") (text "z") 0, 3)]
  let more : List Call := [.put (text "b") (text "y") 0, .remove (text "a") 0, .compact]
  have h : ∃ w ∈ World.runFresh {} calls, w.Running fun s d history =>
      history = [⟨text "a", some (text "x")⟩, ⟨text "a", some (text "z")⟩] ∧ ∃ o ∈ failCompact Op.isRename 18 s d,
        ∃ o' ∈ runCallsAndReopen more o.2.1 o.2.2 history,
          o'.2.2 = history ++ [⟨text "b", some (text "y")⟩, ⟨text "a", none⟩] := by decide +kernel
  obtain ⟨s, d, history, hreach, hhistory, ⟨e, s', d'⟩, hfail, ⟨s'', d'', history''⟩, hlater, hhistory''⟩ :=
    World.exists_running rfl h
  have hfailed : HarmlessRun .asStored s.compact d (.error e, s') d' := by
    refine failsOnce_of_failCompact (fun o d e ho => ?_) hfail
    cases o with
    | rename source target => exact ⟨.refused e rfl, trivial⟩
    | list | fileExists | openFile | reader | pwrite | sync | truncate | close | remove | syncDir => cases ho
  have hafter := later_of_runCallsAndReopen hlater
  exact ⟨s, s', s'', d, d', d'', history, history'', e, hreach, hfailed, hafter, hhistory, hhistory'',
    hreach.failed_compact_unseen hfailed hafter⟩

/-- The fsync of the directory after the rename fails, and a key can no longer be read; or
unlinking an input fails, and a key that is removed later is back when the store is opened. -/
theorem World.failed_compact_seen :
    (∃ (s s' : Bitcask) (d d' : Directory) (history : List Write) (e : Failure),
      World.Reachable .asStored (.running s d history) ∧ FailedRun .asStored s.compact d (.error e, s') d' ∧
      ¬ AnswersOpen .asStored s' d' history) ∧
    ∃ (s s' s'' : Bitcask) (d d' d'' : Directory) (history history'' : List Write) (e : Failure),
      World.Reachable .asStored (.running s d history) ∧ FailedRun .asStored s.compact d (.error e, s') d' ∧
      Later .asStored s' d' history s'' d'' history'' ∧ valueAfter (text "b") history'' = none ∧
      ((s''.get (text "b")).run (machine .asStored) d'').1 = (.ok, some (text "y")) := by
  constructor
  · let calls : List (Call × Nat) := [(.put (text "a") (text "x") 0, 3), (.put (text "a") (text "z") 0, 3)]
    have h : ∃ w ∈ World.runFresh {} calls, w.Running fun s d history => ∃ o ∈ failCompact Op.fallible 19 s d,
        ((o.2.1.get (text "a")).run (machine .asStored) o.2.2).1 ≠
          answer (text "a") (valueAfter (text "a") history) := by decide +kernel
    obtain ⟨s, d, history, hreach, ⟨e, s', d'⟩, hfail, hwrong⟩ := World.exists_running rfl h
    have hfailed : FailedRun .asStored s.compact d (.error e, s') d' :=
      failsOnce_of_failCompact (fun o d e ho => .refused e ho) hfail
    refine ⟨s, s', d, d', history, e, hreach, hfailed, fun hanswers => hwrong ?_⟩
    rw [hanswers (text "a")]
  · let calls : List (Call × Nat) := [(.put (text "a") (text "x") 0, 3), (.put (text "b") (text "y") 0, 6)]
    let more : List Call := [.remove (text "b") 0, .compact]
    have h : ∃ w ∈ World.runFresh { maxFileSize := 30 } calls, w.Running fun s d history =>
        ∃ o ∈ failCompact Op.fallible 27 s d, ∃ o' ∈ runCallsAndReopen more o.2.1 o.2.2 history,
          valueAfter (text "b") o'.2.2 = none ∧
          ((o'.1.get (text "b")).run (machine .asStored) o'.2.1).1 = (.ok, some (text "y")) := by decide +kernel
    obtain ⟨s, d, history, hreach, ⟨e, s', d'⟩, hfail, ⟨s'', d'', history''⟩, hlater, hremoved, hback⟩ :=
      World.exists_running rfl h
    have hfailed : FailedRun .asStored s.compact d (.error e, s') d' :=
      failsOnce_of_failCompact (fun o d e ho => .refused e ho) hfail
    exact ⟨s, s', s'', d, d', d'', history, history'', e, hreach, hfailed,
      later_of_runCallsAndReopen hlater, hremoved, hback⟩

end KVStore.Bitcask
