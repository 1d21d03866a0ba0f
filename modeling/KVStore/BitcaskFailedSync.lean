import KVStore.BitcaskHeld

namespace KVStore.Bitcask

open Lib CrashProgram

/-- The fsync of an append fails: the record of the call is already in the file. -/
inductive SyncFails : (o : Op) → Directory × Bool → Res o → Directory × Bool → Prop
  | sync {id : FileId} {d : Directory} (e : Failure) :
      SyncFails (.sync (.log id)) (d, true) (.error e) (d, true)

/-- The runs of a call in which the fsync of an append may fail, and whether its record
is on disk. -/
abbrev SyncRuns {α : Type} (listing : Listing) (p : Io α) (t : Directory × Bool) (a : α)
    (t' : Directory × Bool) : Prop :=
  Runs (trackedMachine listing) (fun t => Legal t.1) SyncFails p t a t'

def failingSync : (o : Op) → Directory × Bool → Option (Res o × Directory × Bool)
  | .sync (.log _), (d, true) => some (.error (.ioError (text "fsync: Input/output error")), d, true)
  | _, _ => none

theorem syncFails_of_eq_some (o : Op) (t : Directory × Bool) (r : Res o × Directory × Bool)
    (h : failingSync o t = some r) : SyncFails o t r.1 r.2 := by
  unfold failingSync at h
  split at h
  · cases h
    exact .sync _
  · cases h

def runSync {α : Type} (p : Io α) (script : List Bool) (d : Directory) : Option (α × Directory × Bool) :=
  p.runWith (trackedMachine .asStored) (fun t => Legal t.1) failingSync script (d, false)

variable {d : Directory} {listing : Listing} {fails : (o : Op) → Directory × Bool → Res o → Directory × Bool → Prop}

theorem syncRuns_of_runSync {α : Type} {p : Io α} {script : List Bool} {a : α}
    {t : Directory × Bool} (h : runSync p script d = some (a, t)) : SyncRuns .asStored p (d, false) a t :=
  runs_of_runWith syncFails_of_eq_some h

theorem CleanRuns.tracked {α : Type} {p : Io α} {a : α} {d' : Directory} (h : CleanRuns listing p d a d')
    (landed : Bool) : ∃ landed', Runs (trackedMachine listing) (fun t => Legal t.1) (fun _ _ _ _ => False) p
      (d, landed) a (d', landed') := by
  induction h generalizing landed with
  | ret => exact ⟨landed, .ret⟩
  | op legal _ ih =>
    obtain ⟨landed', next⟩ := ih _
    exact ⟨landed', .op legal next⟩
  | fail fails => exact fails.elim

theorem runs_append_sync {d d' : Directory} {landed : Bool} {file file' : LogFile}
    {id : FileId} {bytes : Bytes} {r : Except Failure Nat} (hopen : file.isOpen = true)
    (hname : file.name = .log id) (hfails : fails ≤ SyncFails)
    (h : Runs (trackedMachine listing) (fun t => Legal t.1) fails (file.append bytes) (d, false) (r, file') (d', landed)) :
    landed = true ∧ d' = d.pwrite (.log id) file.endOffset bytes ∧
      file' = { file with endOffset := file.endOffset + bytes.length } ∧
      (r = .ok file.endOffset ∨ (∃ e, r = .error e) ∧ ∃ o t r t', fails o t r t') := by
  obtain ⟨name, endOffset, mode, isOpen⟩ := file
  obtain rfl : isOpen = true := hopen
  obtain rfl : name = .log id := hname
  rw [LogFile.append, if_pos rfl] at h
  cases h with
  | fail hfail => cases hfails _ _ _ _ hfail
  | op legal next =>
    cases mode with
    | never =>
      cases next.of_ret
      exact ⟨rfl, rfl, rfl, .inl rfl⟩
    | always =>
      dsimp only [trackedMachine, exec] at next
      rw [LogFile.sync, if_pos rfl] at next
      cases next with
      | fail hfail legal next =>
        cases hfails _ _ _ _ hfail with
        | sync e =>
          cases next.of_ret
          exact ⟨rfl, rfl, rfl, .inr ⟨⟨e, rfl⟩, _, _, _, _, hfail⟩⟩
      | op legal next =>
        cases next.of_ret
        exact ⟨rfl, rfl, rfl, .inl rfl⟩

variable [Crc]

section Write

variable {listing : Listing} {opts : BitcaskOptions} {isOpen : FileId → Bool} {s s' : Bitcask} {d d' : Directory}
  {sealedOnes : DataFiles} {active : DataFile} {history logged : List Write} {r : Except Failure Unit}
  {landed : Bool} {w : Write}

/-- What a write comes to: nothing, or a record on disk that the index does not know if its
fsync has failed. -/
inductive WriteOutcome (fails : (o : Op) → Directory × Bool → Res o → Directory × Bool → Prop)
    (opts : BitcaskOptions) (isOpen : FileId → Bool) (s : Bitcask) (d : Directory) (history logged : List Write)
    (w : Write) : Except Failure Unit → Bitcask → Directory → Bool → Prop
  | refused (e : Failure) : WriteOutcome fails opts isOpen s d history logged w (.error e) s d false
  | written {s' : Bitcask} {d' : Directory} {sealedOnes : List (FileId × DataFile)} {active : DataFile}
      (inv : HeldInv opts isOpen s' d' sealedOnes active (history ++ [w]) (logged ++ [w])) :
      WriteOutcome fails opts isOpen s d history logged w (.ok ()) s' d' true
  | unsynced {s' : Bitcask} {d' : Directory} {sealedOnes : List (FileId × DataFile)} {active : DataFile}
      (e : Failure) (failed : ∃ o t r t', fails o t r t')
      (inv : HeldInv opts isOpen s' d' sealedOnes active history (logged ++ [w])) :
      WriteOutcome fails opts isOpen s d history logged w (.error e) s' d' true

section

variable (h : HeldInv opts isOpen s d sealedOnes active history logged) (hl : Legal d) (hfails : fails ≤ SyncFails)
include h hl hfails

theorem HeldInv.write (c : Intact) (hruns : Runs (trackedMachine listing) (fun t => Legal t.1) fails
      (s.writeRecord c) (d, false) (r, s') (d', landed)) :
    WriteOutcome fails opts isOpen s d history logged c.write r s' d' landed := by
  obtain ⟨⟨r₁, s₁⟩, ⟨d₁, b₁⟩, happend, hindex⟩ := hruns.of_bind
  obtain ⟨⟨r₀, s₀⟩, ⟨d₀, b₀⟩, hrotate, hrecord⟩ := happend.of_bind
  have hroom : Room s c.raw.length d (r₀, s₀) d₀ ∧ b₀ = false := by
    have halone : Alone listing Legal (fun _ => True) (Room s c.raw.length d)
        (s.rotateIfNeeded c.raw.length) d :=
      alone_rotateIfNeeded c.raw.length h.active_open h.durable.files.next_absent trivial (fun _ => trivial) hl
    refine (tracked_of_quiet halone (quiet_rotateIfNeeded s c.raw.length) false).runs_of_crash ?_ hl hrotate
    rintro o t r t' ⟨_, ht⟩ hfail
    cases hfails _ _ _ _ hfail
    cases ht
  obtain ⟨hroom, rfl⟩ := hroom
  cases r₀ with
  | error e =>
    obtain ⟨rfl, rfl, _⟩ := hroom.of_error
    cases hrecord.of_ret
    cases hindex.of_ret
    exact .refused e
  | ok =>
    obtain ⟨sealed₀, active₀, h₀⟩ : ∃ sealedOnes active, HeldInv opts isOpen s₀ d₀ sealedOnes active history logged := by
      cases hroom with
      | same => exact ⟨_, _, h⟩
      | rotation full rotation =>
        cases rotation with
        | rotated room => exact ⟨_, _, h.rotated room⟩
    obtain ⟨⟨r₂, file⟩, ⟨d₂, b₂⟩, hfile, hret⟩ := hrecord.of_bind
    cases hret.of_ret
    obtain ⟨rfl, rfl, rfl, hr⟩ := runs_append_sync h₀.active_open h₀.active_name hfails hfile
    rcases hr with rfl | ⟨⟨e, rfl⟩, hfailed⟩
    · cases hindex.of_ret
      have hwritten := h₀.written c
      rw [Bitcask.appended, ← h₀.active_end] at hwritten
      exact .written hwritten
    · cases hindex.of_ret
      have hunsynced := h₀.appended c (h₀.serves.mono fun p hp => List.mem_append_left _ hp) h₀.pointed
      rw [Bitcask.appended, ← h₀.active_end] at hunsynced
      exact .unsynced e hfailed hunsynced

theorem HeldInv.call {call : Call} (hwrite : call.writes = [w]) (hruns : Runs (trackedMachine listing)
      (fun t => Legal t.1) fails (call.program s) (d, false) (r, s') (d', landed)) :
    WriteOutcome fails opts isOpen s d history logged w r s' d' landed := by
  have hwriting : ∀ {key : Key} {value : Value} {p : Io (Except Failure Unit × Bitcask)}, s.Writing key value w p →
      Runs (trackedMachine listing) (fun t => Legal t.1) fails p (d, false) (r, s') (d', landed) →
      WriteOutcome fails opts isOpen s d history logged w r s' d' landed := by
    intro key value p hp hruns
    cases hp with
    | refused =>
      cases hruns.of_ret
      exact .refused _
    | record c accepted size write =>
      subst write
      exact h.write hl hfails c hruns
  cases call with
  | put key value now =>
    cases hwrite
    exact hwriting (writing_put s key value now) hruns
  | remove key now =>
    cases hwrite
    exact hwriting (writing_remove s key now) hruns
  | rotate | compact => cases hwrite

end

end Write

def AnswersOpen (listing : Listing) (s : Bitcask) (d : Directory) (history : List Write) : Prop :=
  ∀ key, (s.get key).run (machine listing) d = (answer key (valueAfter key history), d)

def AnswersReopened (listing : Listing) (d : Directory) (history : List Write) : Prop :=
  ∀ opts, ∃ s d', (recover opts).run (machine listing) d = (.ok s, d') ∧ AnswersOpen listing s d' history

def Repeats (history : List Write) (w : Write) : Prop := valueAfter w.key history = w.value

/-- Stores reached by put, remove and opening again, with the writes that returned Ok.
The fsync of an append may fail only if the write repeats what its key holds. -/
inductive SyncReached (listing : Listing) : Bitcask → Directory → List Write → Prop
  | opened {opts : BitcaskOptions} {s : Bitcask} {d : Directory} (always : opts.syncMode = .always)
      (runs : CleanRuns listing (recover opts) ∅ (.ok s) d) : SyncReached listing s d []
  | ok {s s' : Bitcask} {d d' : Directory} {history : List Write} {call : Call} {w : Write} {landed : Bool}
      (before : SyncReached listing s d history) (write : call.writes = [w])
      (runs : SyncRuns listing (call.program s) (d, false) (.ok (), s') (d', landed)) :
      SyncReached listing s' d' (history ++ [w])
  | failed {s s' : Bitcask} {d d' : Directory} {history : List Write} {call : Call} {w : Write} {e : Failure}
      {landed : Bool} (before : SyncReached listing s d history) (write : call.writes = [w])
      (runs : SyncRuns listing (call.program s) (d, false) (.error e, s') (d', landed))
      (repeats : landed = true → Repeats history w) : SyncReached listing s' d' history
  | reopened {opts : BitcaskOptions} {s s' : Bitcask} {d d' : Directory} {history : List Write}
      (before : SyncReached listing s d history) (always : opts.syncMode = .always)
      (runs : CleanRuns listing (recover opts) d (.ok s') d') : SyncReached listing s' d' history

section Reached

variable {listing : Listing} {s s' : Bitcask} {d d' : Directory} {history : List Write} {w : Write}
    {puts : List (Key × Value)}

omit [Crc] in
theorem valueAfter_repeats (h : Repeats history w) (key : Key) :
    valueAfter key (history ++ [w]) = valueAfter key history := by
  rw [valueAfter_concat]
  by_cases hk : w.key = key
  · rw [if_pos hk, ← hk, h]
  · rw [if_neg hk]

theorem Durable.answersReopened {sealedOnes : DataFiles} {activeId : FileId} {active : DataFile}
    (h : Durable d sealedOnes activeId active history) (listing : Listing) : AnswersReopened listing d history := by
  intro opts
  have hrecover : Alone listing (fun _ => True) (fun d => Recoverable d history) (Reopened opts history)
    (recover opts) d := h.alone_recover
  obtain ⟨sealed', activeId', active', hr, hs⟩ := hrecover.alone_run (fun _ _ hl => hl) trivial
  exact ⟨_, _, Prod.ext hr rfl, fun key => hs.run_get key⟩

section

variable {opts : BitcaskOptions} {isOpen : FileId → Bool} {sealedOnes : DataFiles} {active : DataFile}
  (h : HeldInv opts isOpen s d sealedOnes active history (history ++ [w]))
include h

theorem HeldInv.repeated (hrepeats : Repeats history w) :
    HeldInv opts isOpen s d sealedOnes active history history := by
  refine { h with durable := { h.durable with answers := fun key => ?_ } }
  rw [h.durable.answers key, valueAfter_repeats hrepeats]

theorem HeldInv.answersReopened_iff : AnswersReopened listing d history ↔ Repeats history w := by
  constructor
  · intro hopened
    obtain ⟨s₁, d₁, hrun₁, hanswers₁⟩ := hopened {}
    obtain ⟨s₂, d₂, hrun₂, hanswers₂⟩ := h.durable.answersReopened listing {}
    cases hrun₁.symm.trans hrun₂
    have hsame := (hanswers₁ w.key).symm.trans (hanswers₂ w.key)
    rw [valueAfter_concat, if_pos rfl] at hsame
    unfold Repeats
    cases hv : valueAfter w.key history with
    | none =>
      cases hw : w.value with
      | none => rfl
      | some => simp [hv, hw, answer] at hsame
    | some value =>
      cases hw : w.value with
      | none => simp [hv, hw, answer] at hsame
      | some => simpa [hv, hw, answer] using hsame
  · exact fun hrepeats => (h.repeated hrepeats).durable.answersReopened listing

end

theorem SyncReached.inv (h : SyncReached listing s d history) :
    Legal d ∧ ∃ opts isOpen sealedOnes active, HeldInv opts isOpen s d sealedOnes active history history := by
  induction h with
  | opened always runs =>
    have hempty : Recoverable (∅ : Directory) [] := .fresh (fun _ => rfl) (fun _ => rfl) rfl
    have hlegal : Legal (∅ : Directory) := fun _ _ h => nomatch h
    obtain ⟨sealedOnes, activeId, active, hr, hs⟩ :=
      alone_cleanRuns hempty.alone_recover (fun _ _ => trivial) hlegal runs
    cases hr
    exact ⟨runs.ends_legal hlegal, _, _, _, _, hs.held⟩
  | ok before write runs ih =>
    obtain ⟨hl, _, _, _, _, hinv⟩ := ih
    refine ⟨runs.ends_legal hl, ?_⟩
    cases hinv.call hl le_rfl write runs with
    | written inv => exact ⟨_, _, _, _, inv⟩
  | failed before write runs repeats ih =>
    obtain ⟨hl, _, _, _, _, hinv⟩ := ih
    refine ⟨runs.ends_legal hl, ?_⟩
    cases hinv.call hl le_rfl write runs with
    | refused => exact ⟨_, _, _, _, hinv⟩
    | unsynced e failed inv => exact ⟨_, _, _, _, inv.repeated (repeats rfl)⟩
  | reopened before always runs ih =>
    obtain ⟨hl, _, _, _, _, hinv⟩ := ih
    obtain ⟨sealed', activeId, active', hr, hs⟩ :=
      alone_cleanRuns hinv.durable.alone_recover (fun _ _ => trivial) hl runs
    cases hr
    exact ⟨runs.ends_legal hl, _, _, _, _, hs.held⟩

/-- Bitcask: a write that returns an error is not seen while the store stays open, and is
not seen after it is opened again either, exactly if it never reached the disk or repeats
what its key held. -/
theorem SyncReached.failed_write_unseen (h : SyncReached listing s d history) :
    AnswersOpen listing s d history ∧ AnswersReopened listing d history ∧
      ∀ {call : Call} {w : Write} {e : Failure} {s' : Bitcask} {d' : Directory} {landed : Bool},
        call.writes = [w] → SyncRuns listing (call.program s) (d, false) (.error e, s') (d', landed) →
        AnswersOpen listing s' d' history ∧
          (AnswersReopened listing d' history ↔ (landed = true → Repeats history w)) := by
  obtain ⟨hl, _, _, _, _, hinv⟩ := h.inv
  have hopen : AnswersOpen listing s d history := fun key => hinv.run_get key
  have hreopened := hinv.durable.answersReopened listing
  refine ⟨hopen, hreopened, fun write runs => ?_⟩
  cases hinv.call hl le_rfl write runs with
  | refused => exact ⟨hopen, iff_of_true hreopened nofun⟩
  | unsynced e failed inv =>
    exact ⟨fun key => inv.run_get key, inv.answersReopened_iff.trans ⟨fun h _ => h, fun h => h rfl⟩⟩

def runPuts : List (Key × Value) → Bitcask → Directory → Option (Bitcask × Directory)
  | [], s, d => some (s, d)
  | (key, value) :: puts, s, d =>
    match runSync (s.put key value 0) [] d with
    | some ((.ok _, s'), d', _) => runPuts puts s' d'
    | _ => none

theorem SyncReached.runPuts (h : SyncReached .asStored s d history)
    (hrun : runPuts puts s d = some (s', d')) :
    SyncReached .asStored s' d' (history ++ puts.map fun p => ⟨p.1, some p.2⟩) := by
  induction puts generalizing s d history with
  | nil =>
    cases hrun
    rwa [List.map_nil, List.append_nil]
  | cons p puts ih =>
    unfold Bitcask.runPuts at hrun
    split at hrun
    next s₁ d₁ landed hput =>
      have hruns : SyncRuns .asStored ((Call.put p.1 p.2 0).program s) (d, false) (.ok (), s₁) (d₁, landed) :=
        syncRuns_of_runSync hput
      have hnext := ih (.ok h rfl hruns) hrun
      rwa [List.append_assoc] at hnext
    next => cases hrun

def openAndPut (opts : BitcaskOptions) (puts : List (Key × Value)) : Option (Bitcask × Directory) :=
  match runClean (recover opts) ∅ with
  | some (.ok s, d) => runPuts puts s d
  | _ => none

theorem syncReached_of_openAndPut {opts : BitcaskOptions}
    (always : opts.syncMode = .always) (h : openAndPut opts puts = some (s, d)) :
    SyncReached .asStored s d (puts.map fun p => ⟨p.1, some p.2⟩) := by
  unfold openAndPut at h
  split at h
  next hopened => exact SyncReached.runPuts (.opened always (cleanRuns_of_runClean hopened)) h
  next => cases h

end Reached

end KVStore.Bitcask
