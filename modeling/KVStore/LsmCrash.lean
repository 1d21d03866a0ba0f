import KVStore.LsmRecoverRun
import KVStore.LsmAccepted

namespace KVStore

open Lib SortedRun CrashProgram

/-- What a log holds of a stretch of the history after `older`: its writes, and among them
perhaps records of writes that failed, and only repeat what their key held. -/
inductive LoggedAs (older : List Entry) : List Entry → List Entry → Prop
  | nil : LoggedAs older [] []
  | write {es records : List Entry} (e : Entry) (rest : LoggedAs older es records) :
      LoggedAs older (e :: es) (e :: records)
  | repeated {es records : List Entry} {e : Entry} (rest : LoggedAs older es records) (keyed : e.1 ≠ [])
      (same : visible (SortedRun.find e.1 (es ++ older)) = visible (some e.2)) :
      LoggedAs older es (e :: records)

namespace LoggedAs

variable {older older' es records : List Entry}

theorem refl (older es : List Entry) : LoggedAs older es es := by
  induction es with
  | nil => exact .nil
  | cons e es ih => exact .write e ih

theorem visible_find (h : LoggedAs older es records)
    (holder : ∀ key, visible (find key older') = visible (find key older)) (key : Key) :
    visible (find key (records ++ older')) = visible (find key (es ++ older)) := by
  induction h with
  | nil => exact holder key
  | write e _ ih =>
    obtain ⟨k, w⟩ := e
    simp only [List.cons_append, find]
    split
    · rfl
    · exact ih
  | @repeated _ _ e _ _ same ih =>
    obtain ⟨k, w⟩ := e
    rw [List.cons_append, find]
    split
    next hkey => exact hkey ▸ same.symm
    next => exact ih

theorem append {olderRecords : List Entry} (h : LoggedAs older es records) (hold : LoggedAs [] older olderRecords) :
    LoggedAs [] (es ++ older) (records ++ olderRecords) := by
  induction h with
  | nil => exact hold
  | write e _ ih => exact .write e ih
  | repeated _ keyed same ih => exact .repeated ih keyed (by rwa [List.append_nil])

theorem keys (h : LoggedAs older es records) (hes : ∀ e ∈ es, e.1 ≠ []) : ∀ e ∈ records, e.1 ≠ [] := by
  induction h with
  | nil => exact hes
  | write e _ ih =>
    obtain ⟨he, hes⟩ := List.forall_mem_cons.mp hes
    exact List.forall_mem_cons.mpr ⟨he, ih hes⟩
  | repeated _ keyed _ ih => exact List.forall_mem_cons.mpr ⟨keyed, ih hes⟩

end LoggedAs

theorem visible_find_append {a b : List Entry} (newer : List Entry) {key : Key}
    (h : visible (find key a) = visible (find key b)) :
    visible (find key (newer ++ a)) = visible (find key (newer ++ b)) := by
  rw [find_append, find_append, visible_or, visible_or, h]

theorem visible_find_replayed {records base whole : List Entry} {key : Key}
    (h : visible (find key (records ++ base)) = visible (find key whole)) :
    visible (find key (records ++ whole)) = visible (find key whole) := by
  rw [find_append] at h ⊢
  cases hfind : find key records with
  | none => rfl
  | some w =>
    rw [hfind] at h
    exact h

theorem replays_of_answers {records history whole : List Entry} {levels : Levels} (ha : Answers levels history)
    (h : ∀ key, visible (find key (records ++ history)) = visible (find key whole)) :
    Replays records levels whole := by
  intro key
  rw [← h key]
  exact visible_find_append records (ha key)

theorem LogsHold.tearLog {env : Env} {logs : List (FileId × List Entry)} (h : LogsHold env logs)
    (id : FileId) : LogsHold (env.tearLog id) logs := by
  unfold Env.tearLog
  split
  next log hlog =>
    refine ⟨h.newestFirst, h.ids, fun id' => ?_, h.keys⟩
    rw [← h.stored]
    by_cases he : id' = id
    · subst he
      simp [hlog]
    · exact congrArg (Option.map Log.records) (AList.lookup_insert_ne he)
  next => exact h

theorem Env.sameFiles_tearLog (s : Env) (id : FileId) : s.SameFiles (s.tearLog id) := by
  unfold tearLog
  split
  · exact ⟨rfl, rfl, rfl, rfl, rfl, rfl⟩
  · exact .refl s

theorem Recoverable.tearLog {opts : LsmOptions} {env : Env} {history : List Entry}
    (h : Recoverable opts env history) (id : FileId) : Recoverable opts (env.tearLog id) history := by
  cases h with
  | fresh manifest tables logs history =>
    have hsame : env.tearLog id = env := by simp [Env.tearLog, logs]
    rw [hsame]
    exact .fresh manifest tables logs history
  | durable hd =>
    have hf := env.sameFiles_tearLog id
    exact .durable ⟨hd.manifest.congr hf.manifest hf.tables hf.issued.ge, hd.replays,
      hd.logs.tearLog id⟩

namespace System

variable {n : Nat} {opts : LsmOptions} {listing : Listing} {s s' : System n}
  {prior live frozen flushed : List Entry}

def inFlight (s : System n) : List Entry :=
  match s.engine.writerPc with
  | .inserting e => [e]
  | _ => []

/-- What a crash of a running store leaves: the directory as it is, or with a record
torn at the end of the log; and the writes that count. -/
inductive Crash (s : System n) : Env → List Entry → Prop
  | between : Crash s s.env (s.inFlight ++ acknowledged s.trace)
  | torn {c : Fin n} {e : Entry} (pc : s.engine.clients c = .appending e) :
      Crash s (s.env.tearLog s.engine.walId) (acknowledged s.trace)

/-- The records in the logs of the three stretches of the history. -/
structure LoggedWrites (live frozen flushed liveLog frozenLog flushedLog : List Entry) : Prop where
  live : LoggedAs (frozen ++ flushed) live liveLog
  frozen : LoggedAs flushed frozen frozenLog
  flushed : LoggedAs [] flushed flushedLog

/-- Everything the development knows of a running store. -/
structure StoreInv (opts : LsmOptions) (listing : Listing) (prior : List Entry) (s : System n)
    (live frozen flushed : List Entry) : Prop where
  background : s.BackgroundInv True opts listing
  history : History prior s live frozen flushed
  logs : ∃ liveLog frozenLog flushedLog, LoggedWrites live frozen flushed liveLog frozenLog flushedLog ∧
    s.LogInv liveLog frozenLog flushedLog
  accepted : Accepted prior s
  acknowledges : Acknowledges s
  filled : 1 ≤ opts.memtableSize → Filled s.engine

theorem StoreInv.locked (h : StoreInv opts listing prior s live frozen flushed) : s.engine.Locked := by
  obtain ⟨_, _, _, _, hlogs⟩ := h.logs
  exact hlogs.locked

theorem LoggedWrites.moves {live' frozen' flushed' liveLog frozenLog flushedLog : List Entry}
    (h : LoggedWrites live frozen flushed liveLog frozenLog flushedLog)
    (hc : Contents s.engine live frozen flushed) (hm : Moves s s' live frozen flushed live' frozen' flushed') :
    ∃ liveLog' frozenLog' flushedLog', LoggedWrites live' frozen' flushed' liveLog' frozenLog' flushedLog' ∧
      Moves s s' liveLog frozenLog flushedLog liveLog' frozenLog' flushedLog' := by
  cases hm with
  | same imm trace => exact ⟨_, _, _, h, .same imm trace⟩
  | insert imm trace => exact ⟨_, _, _, ⟨.write _ h.live, h.frozen, h.flushed⟩, .insert imm trace⟩
  | rotate thawed imm trace =>
    have hlive := h.live
    rw [hc.thawed thawed] at hlive
    exact ⟨_, _, _, ⟨.nil, hlive, h.flushed⟩, .rotate thawed imm trace⟩
  | flush full imm trace =>
    exact ⟨_, _, _, ⟨h.live, .nil, h.frozen.append h.flushed⟩, .flush full imm trace⟩

theorem StoreInv.step (h : StoreInv opts listing prior s live frozen flushed)
    (hfail : opts.failAt = .none) (hl : Legal True s.shared) (hl' : Legal True s'.shared)
    {a : Action n} (hstep : Step opts listing s a s') :
    ∃ live' frozen' flushed', StoreInv opts listing prior s' live' frozen' flushed' := by
  have hone := Levels.oneTablePerId_of_nodup (h.background.ids trivial).nodup
  obtain ⟨live', frozen', flushed', hh', hm⟩ := history_step h.history h.background hone hl hstep
  obtain ⟨_, _, _, hlogged, hlogs⟩ := h.logs
  obtain ⟨_, _, _, hlogged', hm'⟩ := hlogged.moves h.history.contents hm
  exact ⟨live', frozen', flushed', h.background.step hfail hone hl hl' hstep, hh',
    ⟨_, _, _, hlogged', hlogs.step h.background hl (hl' trivial) hm' hstep⟩, h.accepted.step hstep,
    h.acknowledges.step hstep, fun hsize => (h.filled hsize).step hsize h.background hl hstep⟩

theorem storeInv_opened {env : Env} {r : Recovered} (h : LsmStore.ReadyStore opts prior r env)
    (hw : ∀ e ∈ prior, Writable e) : StoreInv opts listing prior (opened n env r) [] [] prior := by
  refine ⟨backgroundInv_opened True env r h.wellFormed.shaped (fun _ => h.settled) fun _ =>
      ⟨h.wellFormed.nodup, h.wellFormed.l0, fun _ _ => List.not_mem_nil, nofun, nofun⟩,
    history_opened env h.answers, ⟨[], [], prior, ⟨.nil, .nil, .refl _ _⟩, ?_, ?_, ?_, [], List.nil_prefix, h.logs⟩,
    ⟨nofun, hw⟩, ⟨fun c hc => absurd rfl hc, rfl⟩, fun hsize => ⟨h.filled hsize, nofun⟩⟩
  · intro c
    simp [opened, Engine.ofRecovered, Client.locked]
  · exact fun _ _ _ => rfl
  · intro next resume hrot
    cases hrot

theorem recordsOf_liveLogs (h : s.LogInv live frozen flushed) :
    recordsOf (s.engine.liveLogs live) = s.inFlight ++ live := by
  have hswitching := h.switching
  unfold Engine.liveLogs inFlight
  cases hpc : s.engine.writerPc with
  | rotating next resume => simp [hswitching next resume (Or.inl hpc)]
  | rotated next resume => simp [hswitching next resume (Or.inr hpc)]
  | _ => simp

theorem logged_frozenLogs {frozenLog : List Entry} (hc : Contents s.engine live frozen flushed)
    (h : LoggedAs flushed frozen frozenLog) : LoggedAs flushed frozen (recordsOf (s.engine.frozenLogs frozenLog)) := by
  cases himm : s.engine.imm with
  | none =>
    rw [Engine.frozenLogs_none himm, hc.thawed himm, recordsOf_nil]
    exact .nil
  | some => simpa [Engine.frozenLogs_some himm] using h

theorem recordsOf_retiringLogs (e : Engine n) {retired flushedLog : List Entry} (h : retired <+: flushedLog) :
    recordsOf (e.retiringLogs retired) <+: flushedLog := by
  unfold Engine.retiringLogs
  split
  next => simpa using h
  next => exact List.nil_prefix

theorem inFlight_writable (h : Accepted prior s) {e : Entry} (he : e ∈ s.inFlight) : Writable e := by
  unfold inFlight at he
  split at he
  next w hpc =>
    rw [List.mem_singleton] at he
    subst he
    unfold Engine.writerPc at hpc
    split at hpc
    next c _ => exact h.carried c e (by rw [hpc]; rfl)
    next => cases hpc
  next => cases he

theorem StoreInv.recoverable (h : StoreInv opts listing prior s live frozen flushed)
    (hl : Legal True s.shared) : Recoverable opts s.env (s.inFlight ++ (acknowledged s.trace ++ prior)) := by
  obtain ⟨levels, m, hd, hc, hm, _⟩ := manifest_described h.background hl
  obtain ⟨_, hpoint⟩ := h.background.promise.point trivial hl
  obtain ⟨liveLog, frozenLog, flushedLog, hlogged, hlogs⟩ := h.logs
  obtain ⟨retired, hretired, hare⟩ := hlogs.logs
  have hfrozen := logged_frozenLogs h.history.contents hlogged.frozen
  have hsub := recordsOf_retiringLogs s.engine hretired
  obtain ⟨frozenRecords, hfrozenRecords⟩ : ∃ rs, recordsOf (s.engine.frozenLogs frozenLog) = rs := ⟨_, rfl⟩
  have hrecords : recordsOf (s.engine.expectedLogs liveLog frozenLog retired) =
      s.inFlight ++ (liveLog ++ (frozenRecords ++ recordsOf (s.engine.retiringLogs retired))) := by
    rw [Engine.expectedLogs, recordsOf_append, recordsOf_append, recordsOf_liveLogs hlogs, hfrozenRecords,
      List.append_assoc]
  rw [hfrozenRecords] at hfrozen
  have hkeys : ∀ e ∈ recordsOf (s.engine.expectedLogs liveLog frozenLog retired), e.1 ≠ [] := by
    have hwhole : ∀ e ∈ live ++ (frozen ++ flushed), Writable e := h.history.all ▸ h.accepted.written
    simp only [List.forall_mem_append] at hwhole
    rw [hrecords]
    simp only [List.forall_mem_append]
    exact ⟨fun e he => (inFlight_writable h.accepted he).1, hlogged.live.keys fun e he => (hwhole.1 e he).1,
      hfrozen.keys fun e he => (hwhole.2.1 e he).1,
      fun e he => hlogged.flushed.keys (fun e he => (hwhole.2.2 e he).1) e (hsub.subset he)⟩
  refine .durable ⟨⟨hc, hm.trans hpoint.ids.counted, hd.wellFormed h.background,
    fun hsize => hd.filled h.background (h.filled hsize), fun id f hf => (hpoint.ids.tables id f hf).1⟩,
    ?_, hare.logsHold hpoint.ids.counted hkeys⟩
  -- the records of the live memtable, of the frozen one, and of the one that is a table already
  have hretiring : ∀ key, visible (find key (recordsOf (s.engine.retiringLogs retired) ++ flushed)) =
      visible (find key flushed) := fun key => by
    obtain ⟨rest, hrest⟩ := hsub
    refine @visible_find_replayed _ rest _ key ?_
    have hflushed := hlogged.flushed.visible_find (fun _ => rfl) key
    rwa [List.append_nil, List.append_nil, ← hrest] at hflushed
  have hover := hfrozen.visible_find hretiring
  rw [hrecords, h.acknowledges.inserted, h.history.all]
  rcases hd.answers h.background h.history with ha | ⟨ha, _, hflushing⟩
  · refine replays_of_answers ha fun key => ?_
    simp only [List.append_assoc]
    exact visible_find_append _ (hlogged.live.visible_find hover key)
  · refine replays_of_answers ha fun key => ?_
    rw [Engine.retiringLogs_eq_nil hflushing, recordsOf_nil] at hover ⊢
    simp only [List.append_assoc, List.append_nil, List.nil_append] at hover ⊢
    exact visible_find_append _ (hlogged.live.visible_find (fun key => visible_find_replayed (hover key)) key)

theorem StoreInv.crash (h : StoreInv opts listing prior s live frozen flushed)
    (hl : Legal True s.shared) {env : Env} {writes : List Entry} (hc : s.Crash env writes) :
    Recoverable opts env (writes ++ prior) ∧ ∀ e ∈ writes ++ prior, Writable e := by
  have hr := h.recoverable hl
  have hw : ∀ e ∈ acknowledged s.trace ++ prior, Writable e :=
    h.acknowledges.inserted ▸ h.accepted.written
  cases hc with
  | between =>
    rw [List.append_assoc]
    refine ⟨hr, fun e he => ?_⟩
    rcases List.mem_append.mp he with he | he
    · exact inFlight_writable h.accepted he
    · exact hw e he
  | torn pc =>
    -- the writer is still appending, so no unacknowledged record is whole
    have hnone : s.inFlight = [] := by
      rw [inFlight, h.locked.writerPc_eq (by rw [pc]; rfl), pc]
    rw [hnone] at hr
    exact ⟨hr.tearLog _, hw⟩

end System

end KVStore
