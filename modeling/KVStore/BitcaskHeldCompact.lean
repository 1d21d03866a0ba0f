import KVStore.BitcaskFailedSync

namespace KVStore

open Lib ReplayLog SortedRun CrashProgram

variable [Crc]

theorem scanRecords_unreadable (fileSize : Nat) : scanRecords (fun _ _ => none) fileSize = ([], 0) := by
  unfold scanRecords
  cases fileSize with
  | zero => rfl
  | succ =>
    rw [scanFrom]
    split <;> rfl

namespace Bitcask

section Merged

variable {k : Keydir} {files : DataFiles} {history : List Write}
  {staged : AList fun _ : Key => ValuePointer} {outId : FileId}

theorem newest_live {key : Key} {found : Option Placed} (hsorted : Sorted files)
    (hlookup : k.index.lookup key = found.map Placed.pointer)
    (hfound : ∀ p, found = some p → p ∈ placed files ∧ p.key = key ∧ p.gone = false) :
    newest Placed.key key ((placed files).filter (isLive k)) = found := by
  refine newest_filter_eq (fun q hmem hlive hkey => ?_) fun p hp => ?_
  · rw [isLive, hkey, hlookup] at hlive
    cases found with
    | none => simp at hlive
    | some p =>
      simp only [Option.map_some, Bool.and_eq_true, beq_iff_eq] at hlive
      rw [eq_of_same_place hsorted (hfound p rfl).1 hmem hlive.2.1 hlive.2.2]
  · obtain ⟨hmem, rfl, hgone⟩ := hfound p hp
    refine ⟨hmem, rfl, ?_⟩
    rw [isLive, hlookup, hp, hgone]
    simp [Placed.pointer]

theorem Serves.newest_copied (outId : FileId) (hsorted : Sorted files)
    (h : Serves k (placed files) history) (key : Key) :
    ((newest Placed.key key (placedFrom outId 0 (liveChunks k (placed files)))).map Placed.value =
        valueAfter key history) ∧
      (newest Placed.key key (placedFrom outId 0 (liveChunks k (placed files))) = none →
        k.index.lookup key = none) := by
  obtain ⟨found, hlookup, hfound, hvalue⟩ := h key
  have hchunk := @Bitcask.newest_copied _ k outId (placed files) key
  rw [newest_live hsorted hlookup hfound] at hchunk
  constructor
  · have hvalues := congrArg (Option.map fun c : Intact => c.record.value) hchunk
    rw [Option.map_map, Option.map_map] at hvalues
    exact hvalues.trans hvalue
  · intro hnone
    rw [hnone, Option.map_none, eq_comm, Option.map_eq_none_iff] at hchunk
    rw [hlookup, hchunk, Option.map_none]

theorem Serves.answers_merged (outId : FileId) (hsorted : Sorted files)
    (h : Serves k (placed files) history) :
    Answers (placedFrom outId 0 (liveChunks k (placed files))) history := by
  intro key
  rw [← (h.newest_copied outId hsorted key).1, currentAt_copied]

theorem Serves.adopted (hsorted : Sorted files) (h : Serves k (placed files) history)
    (hstaged : Staged staged outId (liveChunks k (placed files))) (dead : AList fun _ : FileId => Nat) :
    Serves ⟨staged.entries.foldl (fun index e => index.insert e.1 e.2) k.index, dead⟩
      (placedFrom outId 0 (liveChunks k (placed files))) history := by
  intro key
  obtain ⟨hvalue, hnone⟩ := h.newest_copied outId hsorted key
  refine ⟨_, lookup_adopted hstaged hnone, fun p hp => ?_, hvalue⟩
  obtain ⟨hmem, hkey⟩ := of_newest hp
  exact ⟨hmem, hkey, not_gone_of_copied hmem⟩

end Merged

section Stuck

variable (s : Bitcask) (outId : FileId)

theorem copyInputs_fails {inputs : List (FileId × LogFile)} (m : Merge)
    (h : ∃ f ∈ inputs, f.2.isOpen = false ∧ f.2.endOffset ≠ 0) :
    (s.copyInputs outId inputs m).Ensures (fun _ => True) fun r => ∃ e, r = .error e := by
  induction inputs generalizing m with
  | nil =>
    obtain ⟨f, hf, _⟩ := h
    cases hf
  | cons f inputs ih =>
    obtain ⟨id, input⟩ := f
    by_cases hf : input.isOpen = false ∧ input.endOffset ≠ 0
    · have hread : input.reader = .ret fun _ _ => none := by
        rw [LogFile.reader, if_neg (by simp [hf.1])]
      unfold copyInputs
      rw [hread, Prog.ret_bind, scanRecords_unreadable]
      show Prog.Ensures _ _ (if 0 = input.endOffset then _ else _)
      rw [if_neg (Ne.symm hf.2)]
      exact ⟨_, rfl⟩
    · have hrest : ∃ f ∈ inputs, f.2.isOpen = false ∧ f.2.endOffset ≠ 0 := by
        obtain ⟨g, hg, hclosed⟩ := h
        rcases List.mem_cons.mp hg with rfl | hg
        · exact absurd hclosed hf
        · exact ⟨g, hg, hclosed⟩
      apply (Prog.ensures_trivial input.reader).bind
      intro read _
      apply (Prog.ensures_trivial _).bind
      intro r _
      cases r with
      | error e => exact ⟨e, rfl⟩
      | ok m' =>
        dsimp only
        split
        · exact ih m' hrest
        · exact ⟨_, rfl⟩

theorem writeMerge_fails (h : ∃ f ∈ s.sealedFiles, f.2.isOpen = false ∧ f.2.endOffset ≠ 0) :
    (s.writeMerge outId).Ensures (fun _ => True) fun r => ∃ e, r = .error e := by
  refine ⟨trivial, fun _ => ⟨trivial, fun _ => ?_⟩⟩
  apply (Prog.ensures_trivial _).bind
  intro r _
  cases r with
  | error e => exact ⟨e, rfl⟩
  | ok =>
    apply (Prog.ensures_trivial _).bind
    intro r _
    cases r with
    | error e => exact ⟨e, rfl⟩
    | ok =>
      apply (copyInputs_fails s outId _ h).bind
      rintro _ ⟨e, rfl⟩
      exact ⟨e, rfl⟩

end Stuck

section Compact

variable {listing : Listing} {opts : BitcaskOptions} {isOpen : FileId → Bool} {s s' : Bitcask} {d d' : Directory}
  {sealedOnes : DataFiles} {history : List Write}

theorem HeldInv.compacted {outId : FileId} {c₀ : DataFile} {others : DataFiles}
    {staged : AList fun _ : Key => ValuePointer} {copied : List Intact}
    (h : HeldInv opts isOpen s d ((outId, c₀) :: others) ⟨[], []⟩ history history)
    (hcopied : copied = liveChunks s.keydir (placed ((outId, c₀) :: others)))
    (hsmall : (bytesOf copied).length < 2 ^ 63)
    (hstaged : Staged staged outId copied) (hd : Replaced d outId copied [(s.activeId, ⟨[], []⟩)] d') :
    HeldInv opts (fun _ => true) (s.compacted outId copied staged) d' [(outId, ⟨copied, []⟩)] ⟨[], []⟩ history
      history := by
  have hsorted := h.durable.files.sealed_ascending
  have hserves := h.serves
  rw [placed_empty_active] at hserves
  have hdurable : Durable d' [(outId, ⟨copied, []⟩)] s.activeId ⟨[], []⟩ history := by
    apply Replaced.durable_of_answers h.durable (List.nil_suffix) hcopied hsmall hd
    rw [placed_nil, List.append_nil, hcopied]
    exact hserves.answers_merged outId hsorted
  subst hcopied
  refine ⟨h.options, rfl, h.opened, fun _ _ => rfl, hdurable, rfl, ?_, fun _ _ _ => rfl⟩
  rw [placed_empty_active]
  show Serves _ (placedFrom outId 0 _ ++ []) history
  rw [List.append_nil]
  exact hserves.adopted hsorted hstaged _

theorem HeldInv.mergeSealed (h : HeldInv opts isOpen s d sealedOnes ⟨[], []⟩ history history)
    (hfail : opts.failAt = .none) (hl : Legal d) {r : Except Failure Unit} (hruns : CleanRuns listing s.mergeSealed d (r, s') d') :
    ∃ isOpen' sealedOnes' active', HeldInv opts isOpen' s' d' sealedOnes' active' history history := by
  by_cases hopen : Readable isOpen sealedOnes
  · have halone : Alone listing Legal (fun _ => True) (Merged s d sealedOnes ⟨[], []⟩) s.mergeSealed d :=
      alone_mergeSealed h.durable.files h.held hopen (h.options ▸ hfail) (fun _ _ => trivial)
        (fun _ _ _ _ _ _ _ _ _ => trivial) hl
    have hmerged : Merged s d sealedOnes ⟨[], []⟩ (r, s') d' :=
      alone_cleanRuns halone (fun _ hl => hl) hl hruns
    cases hmerged with
    | idle => exact ⟨_, _, _, h⟩
    | merged busy inputs small moved replaced =>
      subst inputs
      exact ⟨_, _, _, h.compacted rfl small moved replaced⟩
  · have hclosed : ∃ f ∈ s.sealedFiles, f.2.isOpen = false ∧ f.2.endOffset ≠ 0 := by
      simp only [Readable, not_forall, not_or] at hopen
      obtain ⟨f, hf, hno, hsome⟩ := hopen
      refine ⟨(f.1, heldFile s.options.syncMode isOpen f), ?_, ?_, ?_⟩
      · rw [h.held]
        exact List.mem_map_of_mem (f := fun f => (f.1, heldFile s.options.syncMode isOpen f)) hf
      · exact Bool.eq_false_of_not_eq_true hno
      · obtain ⟨c, chunks, hc⟩ := List.exists_cons_of_ne_nil hsome
        have hpos := c.length_pos
        simp only [heldFile, hc, bytesOf_cons, List.length_append]
        omega
    unfold Bitcask.mergeSealed at hruns
    split at hruns
    · cases hruns.of_ret
      exact ⟨_, _, _, h⟩
    next outId out others hsealed =>
      split at hruns
      · cases hruns.of_ret
        exact ⟨_, _, _, h⟩
      · obtain ⟨r₁, d₁, hwrite, hrest⟩ := hruns.of_bind
        obtain ⟨⟨e, rfl⟩, _⟩ := (writeMerge_fails s outId hclosed).runs (fun _ => True)
          (fun _ _ _ _ => trivial) (fun _ _ _ _ _ _ _ => trivial) trivial hwrite
        obtain ⟨_, hsame⟩ := (sparesFiles_writeMerge s outId).runs (SameFiles d)
          (fun o d ho hd => exec_sparesFiles o d ho hd) (fun _ _ _ _ _ hfails => hfails.elim)
          (SameFiles.refl d) hwrite
        cases hrest.of_ret
        exact ⟨_, _, _, h.congr hsame.logs fun id bytes hb => hsame.hints id ▸ hb⟩

theorem HeldInv.active_empty {active : DataFile} (h : HeldInv opts isOpen s d sealedOnes active history history)
    (hend : ¬ 0 < s.active.endOffset) : active = ⟨[], []⟩ := by
  rw [h.active_end] at hend
  exact DataFile.eq_empty h.clean hend

theorem HeldInv.compact {active : DataFile} (h : HeldInv opts isOpen s d sealedOnes active history history)
    (hfail : opts.failAt = .none) (hl : Legal d) {r : Except Failure Unit} (hruns : CleanRuns listing s.compact d (r, s') d') :
    ∃ isOpen' sealedOnes' active', HeldInv opts isOpen' s' d' sealedOnes' active' history history := by
  obtain ⟨⟨r₀, s₀⟩, d₀, hrotate, hmerge⟩ := hruns.of_bind
  split at hrotate
  · rcases h.rotate hl hrotate with ⟨rfl, rfl, rfl⟩ | ⟨rfl, h₀⟩
    · cases hmerge.of_ret
      exact ⟨_, _, _, h⟩
    · exact h₀.mergeSealed hfail (hrotate.ends_legal hl) hmerge
  next hend =>
    cases hrotate.of_ret
    obtain rfl := h.active_empty hend
    exact h.mergeSealed hfail hl hmerge

end Compact

section Later

variable {listing : Listing} {s s' : Bitcask} {d d' : Directory} {history : List Write}

theorem Held.answersOpen (h : Held s d history) : AnswersOpen listing s d history := by
  obtain ⟨_, _, _, _, _, _, hinv⟩ := h
  exact fun key => hinv.run_get key

theorem Held.answersReopened (h : Held s d history) : AnswersReopened listing d history := by
  obtain ⟨_, _, _, _, _, _, hinv⟩ := h
  exact hinv.durable.answersReopened listing

def Call.after (call : Call) (r : Except Failure Unit) (history : List Write) : List Write :=
  match r with
  | .ok _ => history ++ call.writes
  | .error _ => history

omit [Crc] in
theorem Call.after_of_writes_nil {call : Call} (h : call.writes = []) (r : Except Failure Unit)
    (history : List Write) : call.after r history = history := by
  cases r with
  | error => rfl
  | ok =>
    rw [Call.after, h]
    exact List.append_nil history

theorem Held.call (h : Held s d history) (call : Call) {r : Except Failure Unit}
    (hruns : CleanRuns listing (call.program s) d (r, s') d') : Held s' d' (call.after r history) := by
  obtain ⟨hl, opts, isOpen, sealedOnes, active, hfail, hinv⟩ := h
  refine ⟨hruns.ends_legal hl, opts, ?_⟩
  cases call with
  | put | remove =>
    obtain ⟨landed, hruns⟩ := hruns.tracked false
    cases hinv.call hl (fun _ _ _ _ hfails => hfails.elim) rfl hruns with
    | refused => exact ⟨_, _, _, hfail, hinv⟩
    | written inv => exact ⟨_, _, _, hfail, inv⟩
    | unsynced e failed =>
      obtain ⟨_, _, _, _, hno⟩ := failed
      exact hno.elim
  | rotate =>
    rw [Call.after_of_writes_nil rfl]
    rcases hinv.rotate hl hruns with ⟨rfl, rfl, rfl⟩ | ⟨rfl, hs⟩
    · exact ⟨_, _, _, hfail, hinv⟩
    · exact ⟨_, _, _, hfail, hs⟩
  | compact =>
    rw [Call.after_of_writes_nil rfl]
    obtain ⟨_, _, _, hs⟩ := hinv.compact hfail hl hruns
    exact ⟨_, _, _, hfail, hs⟩

theorem Held.reopened (h : Held s d history) {opts : BitcaskOptions} (hfail : opts.failAt = .none)
    (hruns : CleanRuns listing (recover opts) d (.ok s') d') : Held s' d' history := by
  obtain ⟨hl, _, _, _, _, _, hinv⟩ := h
  obtain ⟨sealed', activeId, active', hr, hs⟩ :=
    alone_cleanRuns hinv.durable.alone_recover (fun _ _ => trivial) hl hruns
  cases hr
  exact ⟨hruns.ends_legal hl, _, _, _, _, hfail, hs.held⟩

/-- What a store comes to by calls and by being opened again, when nothing fails, and
the writes that count by then. -/
inductive Later (listing : Listing) (s₀ : Bitcask) (d₀ : Directory) (history₀ : List Write) :
    Bitcask → Directory → List Write → Prop
  | now : Later listing s₀ d₀ history₀ s₀ d₀ history₀
  | call {s s' : Bitcask} {d d' : Directory} {history : List Write} {r : Except Failure Unit}
      (before : Later listing s₀ d₀ history₀ s d history) (call : Call)
      (runs : CleanRuns listing (call.program s) d (r, s') d') :
      Later listing s₀ d₀ history₀ s' d' (call.after r history)
  | reopened {opts : BitcaskOptions} {s s' : Bitcask} {d d' : Directory} {history : List Write}
      (before : Later listing s₀ d₀ history₀ s d history) (failAt : opts.failAt = .none)
      (runs : CleanRuns listing (recover opts) d (.ok s') d') : Later listing s₀ d₀ history₀ s' d' history

theorem Held.later (h : Held s d history) {history' : List Write}
    (hlater : Later listing s d history s' d' history') : Held s' d' history' := by
  induction hlater with
  | now => exact h
  | call _ call runs ih => exact ih.call call runs
  | reopened _ failAt runs ih => exact ih.reopened failAt runs

end Later

end Bitcask

end KVStore
