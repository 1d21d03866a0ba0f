import KVStore.LsmRecoverSpec
import KVStore.LsmLogs

namespace KVStore

open Lib SortedRun CrashProgram

theorem Env.sameFiles_truncateLog (s : Env) (id : FileId) : s.SameFiles (s.truncateLog id) := by
  unfold truncateLog
  split
  · exact ⟨rfl, rfl, rfl, rfl, rfl, rfl⟩
  · exact .refl s

theorem LogsHold.truncateLog {env : Env} {logs : List (FileId × List Entry)} (h : LogsHold env logs)
    (id : FileId) : LogsHold (env.truncateLog id) logs := by
  refine ⟨h.newestFirst, (env.sameFiles_truncateLog id).issued ▸ h.ids, fun id' => ?_, h.keys⟩
  rw [← h.stored]
  unfold Env.truncateLog
  split
  next log hlog =>
    by_cases he : id' = id
    · subst he
      simp [hlog]
    · exact congrArg (Option.map Log.records) (AList.lookup_insert_ne he)
  next => rfl

namespace LsmStore

variable {listing : Listing} {opts : LsmOptions} {env : Env} {levels : Levels}
  {nextId : FileId} {logs : List (FileId × List Entry)} {history : List Entry} {id : FileId}
    {ids : List FileId}

section

variable (h : Reading opts levels nextId logs history env)
include h

theorem Reading.storeNextId (hle : env.nextId ≤ id) (hid : id ≤ env.issued + 1) :
    Reading opts levels nextId logs history { env with nextId := id } := by
  obtain ⟨hids, m, hm, hc⟩ := h.settled
  exact ⟨h.durable.congr rfl rfl rfl le_rfl, ⟨hids.positive.trans hle, hid, fun id' f hf =>
    ⟨(hids.tables id' f hf).1, (hids.tables id' f hf).2.trans_le hle⟩⟩, m, hm.trans hle,
    hc.manifest, hc.files, hc.below, hc.positive⟩

theorem Reading.truncateLog (id : FileId) : Reading opts levels nextId logs history (env.truncateLog id) := by
  have hf := env.sameFiles_truncateLog id
  exact ⟨⟨h.durable.manifest.congr hf.manifest hf.tables hf.issued.ge, h.durable.replays,
    h.durable.logs.truncateLog id⟩, h.settled.congr hf.manifest hf.tables hf.nextId hf.issued⟩

theorem alone_passIds (hids : ∀ id ∈ ids, id ≤ env.issued) (hl : env.issued < idLimit) :
    Alone listing (fun env => Recoverable opts env history)
      (fun r env => r = .ok () ∧ Reading opts levels nextId logs history env) (passIds ids) env := by
  induction ids generalizing env with
  | nil => exact .alone_ret (.durable h.durable) ⟨rfl, h⟩
  | cons id ids ih =>
    obtain ⟨hid, hids⟩ := List.forall_mem_cons.mp hids
    have hlt : id < maxUInt32 := hid.trans_lt hl
    rw [passIds, if_neg hlt.ne]
    refine alone_op (.durable h.durable) fun _ => alone_op (.durable h.durable) fun _ => ?_
    exact ih (h.storeNextId (le_max_left env.nextId (id + 1))
      (max_le h.settled.ids.counted (Nat.add_le_add_right hid 1))) hids hl

end

theorem alone_replayLogs {mem : Memtable} (h : Reading opts levels nextId logs history env) :
    Alone listing (fun env => Recoverable opts env history)
      (fun r env => r = ids.foldl (fun mem id => replayInto mem ((find id logs).getD [])) mem ∧
        Reading opts levels nextId logs history env) (replayLogs mem ids) env := by
  induction ids generalizing env mem with
  | nil => exact .alone_ret (.durable h.durable) ⟨rfl, h⟩
  | cons id ids ih =>
    refine alone_op (.durable h.durable) fun _ => ?_
    have hread : (env.exec listing (.replayLog id)).1.records = (find id logs).getD [] :=
      h.durable.logs.read id
    rw [hread]
    split
    · exact alone_op (.durable h.durable) fun _ => ih (h.truncateLog id)
    · exact ih h

/-- The replayed writes are in the tables; the logs may go. -/
structure Flushed (opts : LsmOptions) (levels : Levels) (logs : List (FileId × List Entry))
    (history : List Entry) (env : Env) : Prop where
  manifest : ∃ nextId, ManifestOk opts env levels nextId
  settled : Settled env levels
  answers : Answers levels history
  replays : ∃ base, Replays (recordsOf logs) base history
  logs : LogsHold env logs

theorem Flushed.recoverable (h : Flushed opts levels logs history env) : Recoverable opts env history := by
  obtain ⟨nextId, hm⟩ := h.manifest
  obtain ⟨base, hr⟩ := h.replays
  exact .durable ⟨hm, Replays.newest ((List.append_nil (recordsOf logs)).symm ▸ hr) h.answers, h.logs⟩

/-- The replayed writes make a table, if there are any. -/
def Builds (opts : LsmOptions) (mem : Memtable) : Prop :=
  mem.isEmpty = false → ∃ f, buildTable opts.blockSize opts.bitsPerKey mem.map = .ok f

def InstallResult (opts : LsmOptions) (mem : Memtable) (logs : List (FileId × List Entry))
    (history : List Entry) : Except Failure Levels → Env → Prop
  | .error _, _ => ∃ refusal, buildTable opts.blockSize opts.bitsPerKey mem.map = .error refusal
  | .ok levels, env => Builds opts mem ∧ Flushed opts levels logs history env

theorem answers_prependL0 {blockSize bitsPerKey : Nat} {f : TableFile}
    (hf : buildTable blockSize bitsPerKey (replayAll logs).map = .ok f)
    (hr : Replays (recordsOf logs) levels history) (id : FileId) :
    Answers (prependL0 ⟨id, f⟩ levels) history := by
  intro key
  have hfind : find key f.entries =
      ((find key (recordsOf logs)).map MemEntry.stored).map MemEntry.stored := by
    rw [buildTable_entries hf, find_map_storedEntry, ← get_replayAll]
    rfl
  rw [← hr key, entries_prependL0, find_append, find_append, visible_or,
    visible_or, hfind, visible_map_stored, visible_map_stored, Option.isSome_map, Option.isSome_map]

theorem alone_of_shared {α : Type} {obsolete : List FileId} {I : Shared → Prop}
    {Q : α → Shared → Prop} {p : LsmIo α}
    (h : Guarded (sharedMachine listing) (OtherThreads True obsolete) (Legal True) I Q p ⟨env, []⟩) :
    Alone listing (fun env => I ⟨env, []⟩) (fun a env => Q a ⟨env, []⟩) p env := by
  have hshared : Guarded (sharedMachine listing) Eq (fun s => s.env.issued < idLimit) I Q p
      ⟨env, []⟩ :=
    h.weaken (fun a b hab => hab ▸ OtherThreads.refl a) fun _ hl _ => hl
  have halone : Guarded (lsmMachine listing) (fun a b => Shared.mk a [] = Shared.mk b [])
      (fun env => env.issued < idLimit) (fun env => I ⟨env, []⟩) (fun a env => Q a ⟨env, []⟩) p env :=
    Guarded.comap (fun env => Shared.mk env []) (fun _ _ => rfl)
      (fun _ _ _ ht => congrArg (Shared.mk · []) ht) hshared
  exact halone.weaken (fun a b hab => congrArg (Shared.mk · []) hab) fun _ hl => hl

theorem Reading.fetch (h : Reading opts levels nextId logs history env)
    (hl : env.issued + 1 < idLimit) : Reading opts levels nextId logs history env.fetchNextId := by
  obtain ⟨hids, m, hm, hc⟩ := h.settled
  have hnext := fetchNextId_nextId hids.counted hl
  exact ⟨h.durable.congr rfl rfl rfl (Nat.le_succ _), hids.fetch hl, m,
    hm.trans (hnext ▸ Nat.le_succ _), hc.manifest, hc.files, hc.below, hc.positive⟩

theorem Reading.flushIds (h : Reading opts levels nextId logs history env)
    (hl : env.issued + 1 < idLimit) : FlushIds [] levels env.nextId env.fetchNextId.nextId := by
  obtain ⟨hids, m, hm, hc⟩ := h.settled
  have hlt : ∀ t ∈ levels.flatten, t.id < env.nextId := fun t ht => (hc.below t ht).trans_le hm
  have hup : env.nextId < env.fetchNextId.nextId := by
    rw [fetchNextId_nextId hids.counted hl]
    exact Nat.lt_succ_self _
  exact ⟨fun t ht => (hlt t ht).ne, fun _ _ => List.not_mem_nil, List.not_mem_nil, hids.positive, hup,
    fun t ht => (hlt t ht).trans hup⟩

theorem wellFormed_prependL0 (f : TableFile) (h : WellFormed levels)
    (hids : ∀ t ∈ levels.flatten, t.id < id) : WellFormed (prependL0 ⟨id, f⟩ levels) := by
  refine ⟨fun l hl => h.shaped l (System.mem_tail_prependL0 hl), ?_, ?_⟩
  · rw [System.l0_prependL0]
    exact List.pairwise_cons.mpr ⟨fun t ht => hids t (Levels.mem_l0 ht), h.l0⟩
  · rw [System.ids_prependL0]
    refine List.nodup_cons.mpr ⟨fun hm => ?_, h.nodup⟩
    obtain ⟨t, ht, he⟩ := List.mem_map.mp hm
    exact (hids t ht).ne he

section

variable (h : Reading opts levels nextId logs history env)
include h

theorem recoverable_of_installPoint {env' : Env} {next : Levels} (hp : InstallPoint env' levels next)
    (hlogs : env'.logs = env.logs) (hi : env.issued ≤ env'.issued) (hw : WellFormed next)
    (hfilled : 1 ≤ opts.memtableSize → ∀ t ∈ next.flatten, t.entries ≠ [])
    (hanswers : next = levels ∨ Answers next history) : Recoverable opts env' history := by
  obtain ⟨hids, _, m, hm, _, hc⟩ := hp
  have hlogs' := h.durable.logs.congr hlogs hi
  have hreplays := h.durable.replays
  have hpos : ∀ id f, env'.tables.lookup id = some f → 1 ≤ id := fun id f hf => (hids.tables id f hf).1
  rcases hc with hc | hc
  · exact .durable ⟨⟨hc, hm.trans hids.counted, h.durable.manifest.wellFormed,
      h.durable.manifest.filled, hpos⟩, hreplays, hlogs'⟩
  · refine .durable ⟨⟨hc, hm.trans hids.counted, hw, hfilled, hpos⟩, ?_, hlogs'⟩
    rcases hanswers with rfl | ha
    · exact hreplays
    · exact Replays.newest ((List.append_nil (recordsOf logs)).symm ▸ hreplays) ha

theorem Reading.flushed (hne : (replayAll logs).isEmpty = false) :
    WellFormed (flushed opts (replayAll logs).map env.nextId levels) ∧
      (1 ≤ opts.memtableSize → ∀ t ∈ (flushed opts (replayAll logs).map env.nextId levels).flatten,
        t.entries ≠ []) ∧
      (flushed opts (replayAll logs).map env.nextId levels = levels ∨
        Answers (flushed opts (replayAll logs).map env.nextId levels) history) := by
  obtain ⟨_, m, hm, hc⟩ := h.settled
  have hm' := h.durable.manifest
  unfold LsmStore.flushed
  split
  next f hf =>
    refine ⟨wellFormed_prependL0 f hm'.wellFormed fun t ht => (hc.below t ht).trans_le hm,
      fun hsize t ht => ?_, Or.inr (answers_prependL0 hf h.durable.replays _)⟩
    rcases mem_prependL0.mp ht with rfl | ht
    · rw [SSTable.entries, buildTable_entries hf]
      simpa [Memtable.isEmpty] using hne
    · exact hm'.filled hsize t ht
  next => exact ⟨hm'.wellFormed, hm'.filled, Or.inl rfl⟩

theorem alone_installTable (hne : (replayAll logs).isEmpty = false) (hl : env.issued + 1 < idLimit) :
    Alone listing (fun env => Recoverable opts env history)
      (InstallResult opts (replayAll logs) logs history)
      (buildTableUnlocked { opts with failAt := .none } (replayAll logs).map env.nextId levels
        env.fetchNextId.nextId) env.fetchNextId := by
  obtain ⟨hw, hfilled, hanswers⟩ := h.flushed hne
  let quiet : LsmOptions := { opts with failAt := .none }
  have hbuild : Guarded (sharedMachine listing) (OtherThreads True []) (Legal True)
      (fun s => True → InstallPoint s.env levels (flushed quiet (replayAll logs).map env.nextId levels))
      (FlushResult True quiet (replayAll logs).map env.nextId levels)
      (buildTableUnlocked quiet (replayAll logs).map env.nextId levels env.fetchNextId.nextId)
      ⟨env.fetchNextId, []⟩ :=
    guarded_buildTable rfl (fun _ => h.flushIds hl) fun _ => ⟨(h.fetch hl).settled, le_rfl⟩
  -- the program writes no log
  have hframe := (alone_of_shared hbuild).frame (φ := Op.ofBackground)
    (fun env' => env'.logs = env.logs ∧ env.issued ≤ env'.issued)
    (ofBackground_buildTable _ _ _ _ _) (fun a b hab ha => hab ▸ ha)
    (fun o a ho ha => by
      have hadv := advances_exec listing ho a
      exact ⟨hadv.logs.trans ha.1, ha.2.trans hadv.issued⟩)
    (fun o a b _ hab ha => (show b = a from hab) ▸ ha) ⟨rfl, Nat.le_succ _⟩
  refine (hframe.withCrash.mono fun r env' hr => ?_).imp fun env' hi => ?_
  · obtain ⟨⟨hp, _⟩, hr, hlogs, hi⟩ := hr
    cases r with
    | error => exact (hr trivial).2
    | ok =>
      obtain ⟨f, hf, rfl, hsettled⟩ := hr
      have hf' : buildTable opts.blockSize opts.bitsPerKey (replayAll logs).map = .ok f := hf
      have hnext : flushed opts (replayAll logs).map env.nextId levels =
          prependL0 ⟨env.nextId, f⟩ levels := by
        simp [LsmStore.flushed, hf']
      rw [hnext] at hw hfilled
      obtain ⟨hids, m, hm, hc⟩ := hsettled trivial
      exact ⟨fun _ => ⟨f, hf'⟩, ⟨m, hc, hm.trans hids.counted, hw, hfilled,
        fun id f hf => (hids.tables id f hf).1⟩, hsettled trivial, answers_prependL0 hf h.durable.replays _,
        ⟨levels, h.durable.replays⟩, h.durable.logs.congr hlogs hi⟩
  · exact recoverable_of_installPoint h (hi.1 trivial) hi.2.1 hi.2.2 hw hfilled hanswers

theorem alone_installReplayed :
    Alone listing (fun env => Recoverable opts env history)
      (InstallResult opts (replayAll logs) logs history)
      (installReplayed opts (replayAll logs) levels true) env := by
  unfold installReplayed
  split
  next he =>
    have hempty := recordsOf_eq_nil he
    have hreplays := h.durable.replays
    have hanswers : Answers levels history := by
      rw [hempty] at hreplays
      exact hreplays
    exact .alone_ret (.durable h.durable) ⟨fun hne => absurd (hne.symm.trans he) (by decide),
      ⟨nextId, h.durable.manifest⟩, h.settled, hanswers, ⟨levels, hreplays⟩, h.durable.logs⟩
  next hne =>
    refine alone_op (.durable h.durable) fun hl => alone_op (.durable (h.fetch hl).durable) fun _ => ?_
    exact alone_installTable h (Bool.eq_false_of_not_eq_true hne) hl

end

end LsmStore

end KVStore
