import KVStore.LsmRecoverLogs

namespace KVStore

open Lib SortedRun CrashProgram

section

variable {env : Env} {logs : List (FileId × List Entry)} {id : FileId} {records : List Entry}

theorem LogsHold.removeOldest (h : LogsHold env (logs ++ [(id, records)])) :
    LogsHold { env with logs := env.logs.erase id } logs := by
  refine ⟨(List.pairwise_append.mp h.newestFirst).1, fun p hp => h.ids p (List.mem_append_left _ hp),
    fun id' => ?_, fun e he => ?_⟩
  · rw [find_dropOldest h.newestFirst]
    split
    next he =>
      subst he
      exact Option.map_eq_none_iff.mpr (AList.lookup_erase _ _)
    next he => exact (congrArg (Option.map Log.records) (AList.lookup_erase_ne he)).trans (h.stored id')
  · refine h.keys e ?_
    rw [recordsOf_append]
    exact List.mem_append_left _ he

theorem LogsAre.logsHold (h : LogsAre env logs) (hc : env.nextId ≤ env.issued + 1)
    (hkeys : ∀ e ∈ recordsOf logs, e.1 ≠ []) : LogsHold env logs := by
  refine ⟨h.newestFirst, fun p hp => ⟨(h.ids p hp).1, ?_⟩, fun id => ?_, hkeys⟩
  · exact Nat.le_of_lt_succ ((h.ids p hp).2.trans_le hc)
  · rw [h.stored, Option.map_map]
    exact Option.map_id'

end

namespace LsmStore

variable {listing : Listing} {opts : LsmOptions} {env : Env} {levels : Levels}
  {logs : List (FileId × List Entry)} {history : List Entry} {nextId : FileId}

theorem Flushed.removeOldest {id : FileId} {records : List Entry}
    (h : Flushed opts levels (logs ++ [(id, records)]) history env) :
    Flushed opts levels logs history { env with logs := env.logs.erase id } := by
  obtain ⟨nextId, hm⟩ := h.manifest
  obtain ⟨base, hr⟩ := h.replays
  rw [recordsOf_append] at hr
  exact ⟨⟨nextId, hm.congr rfl rfl le_rfl⟩, h.settled.congr rfl rfl rfl rfl, h.answers,
    ⟨levels, hr.newest h.answers⟩, h.logs.removeOldest⟩

theorem alone_removeLogs (h : Flushed opts levels logs history env) (hl : env.issued < idLimit) :
    Alone listing (fun env => Recoverable opts env history)
      (fun _ env => Flushed opts levels [] history env)
      (Prog.forEach (keys logs).reverse fun id => .op (.removeLog id) .ret) env := by
  refine Guarded.alone_forEach
    (fun rest env => ∃ logs, rest = (keys logs).reverse ∧ Flushed opts levels logs history env)
    (fun id rest env hs => ?_) (fun env hs => ?_) (fun env hs => ?_) ⟨logs, rfl, h⟩ hl
  · obtain ⟨logs, hrest, hs⟩ := hs
    obtain rfl | ⟨newer, p, rfl⟩ := List.eq_nil_or_concat logs
    · simp [keys] at hrest
    · simp only [List.concat_eq_append, keys_append, List.reverse_append] at hrest
      obtain ⟨rfl, rfl⟩ := List.cons.inj hrest
      rw [List.concat_eq_append] at hs
      refine alone_op hs.recoverable fun _ => ?_
      exact .alone_ret hs.removeOldest.recoverable ⟨newer, rfl, hs.removeOldest⟩
  · obtain ⟨_, _, hs⟩ := hs
    exact hs.recoverable
  · obtain ⟨logs, hrest, hs⟩ := hs
    have hnil : logs = [] := by simpa [keys] using hrest.symm
    exact hnil ▸ hs

/-- A store that is ready to run: its tables hold the history, its log is empty. -/
structure ReadyStore (opts : LsmOptions) (history : List Entry) (r : Recovered) (env : Env) : Prop where
  settled : Settled env r.levels
  wellFormed : WellFormed r.levels
  filled : 1 ≤ opts.memtableSize → ∀ t ∈ r.levels.flatten, t.entries ≠ []
  answers : Answers r.levels history
  logs : LogsAre env [(r.walId, [])]

theorem ReadyStore.recoverable {r : Recovered} (h : ReadyStore opts history r env) :
    Recoverable opts env history := by
  obtain ⟨hids, m, hm, hc⟩ := h.settled
  have hreplays : Replays (recordsOf [(r.walId, [])]) r.levels history := h.answers
  exact .durable ⟨⟨hc, hm.trans hids.counted, h.wellFormed, h.filled,
    fun id f hf => (hids.tables id f hf).1⟩, hreplays, h.logs.logsHold hids.counted (by simp)⟩

theorem alone_openLog (h : Flushed opts levels [] history env) :
    Alone listing (fun env => Recoverable opts env history)
      (fun (r : Except Failure Recovered) env => ∃ store, r = .ok store ∧
        ReadyStore opts history store env)
      (.op .fetchNextId fun id => .op (.createLog id) fun _ => .ret (.ok ⟨levels, id⟩)) env := by
  refine alone_op h.recoverable fun hl => ?_
  obtain ⟨nextId, hm⟩ := h.manifest
  obtain ⟨hids, m, hle, hc⟩ := h.settled
  have hnext := fetchNextId_nextId hids.counted hl
  have hup : env.nextId < env.fetchNextId.nextId := hnext ▸ Nat.lt_succ_self _
  have hfetched : Flushed opts levels [] history env.fetchNextId :=
    ⟨⟨nextId, hm.congr rfl rfl (Nat.le_succ _)⟩,
      ⟨hids.fetch hl, m, hle.trans hup.le, hc.manifest, hc.files, hc.below, hc.positive⟩, h.answers,
      h.replays, h.logs.congr rfl (Nat.le_succ _)⟩
  have hempty : LogsAre env.fetchNextId [] :=
    ⟨.nil, nofun, fun id => by simpa using hfetched.logs.stored id⟩
  have hf := Env.sameFiles_createLog env.fetchNextId env.nextId
  have hready : ReadyStore opts history ⟨levels, env.nextId⟩ (env.fetchNextId.createLog env.nextId) :=
    ⟨hfetched.settled.congr hf.manifest hf.tables hf.nextId hf.issued, hm.wellFormed, hm.filled,
      h.answers, hempty.create hids.positive hup nofun⟩
  refine alone_op hfetched.recoverable fun _ => ?_
  exact .alone_ret hready.recoverable ⟨_, rfl, hready⟩

def RecoverResult (opts : LsmOptions) (mem : Memtable) (history : List Entry) :
    Except Failure Recovered → Env → Prop
  | .error _, _ => ∃ refusal, buildTable opts.blockSize opts.bitsPerKey mem.map = .error refusal
  | .ok store, env => Builds opts mem ∧ ReadyStore opts history store env

theorem Durable.removeTemp (h : Durable opts env levels nextId logs history)
    (name : TempName) : Durable opts (env.removeTemp name) levels nextId logs history := by
  cases name <;> exact h.congr rfl rfl rfl le_rfl

theorem alone_recoverDurable (h : Durable opts env levels nextId logs history) (hl : env.issued < idLimit) :
    Alone listing (fun env => Recoverable opts env history)
      (RecoverResult opts (replayAll logs) history) (recover opts) env := by
  refine (alone_sweepTempFiles (fun env => Durable opts env levels nextId logs history)
    (fun _ name hs => Durable.removeTemp hs name) (fun _ hs => .durable hs) h).bind (fun _ => rfl)
    (fun _ env h hl => ?_) hl
  refine alone_op (.durable h) fun _ => ?_
  rw [show env.exec listing .readManifest = (some (levelSetOf levels nextId), env) from
    congrArg (·, env) h.manifest.committed.manifest]
  refine alone_andThen (alone_openFromManifest h) hl (fun _ _ he => by cases he.1) fun opened env hr hl => ?_
  obtain ⟨hopened, hr⟩ := hr
  cases hopened
  refine alone_op (.durable hr.durable) fun _ => ?_
  have hsort : sortIds (env.exec listing .listLogs).1 = (keys logs).reverse :=
    hr.durable.logs.sortIds (listing.perm _)
  rw [hsort]
  have hids : ∀ id ∈ (keys logs).reverse, id ≤ env.issued := fun id hid => by
    obtain ⟨p, hp, rfl⟩ := List.mem_map.mp (List.mem_reverse.mp hid)
    exact (hr.durable.logs.ids p hp).2
  refine alone_andThen (alone_passIds hr hids hl) hl (fun _ _ he => by cases he.1) fun _ env hr hl => ?_
  refine (alone_replayLogs hr.2).bind (fun _ => rfl) (fun mem env hr hl => ?_) hl
  obtain ⟨rfl, hr⟩ := hr
  rw [foldl_keys_reverse (List.suffix_refl logs) hr.durable.logs.nodup fun _ => rfl]
  refine alone_andThen (alone_installReplayed hr) hl (fun _ _ he => he) fun levels' env hr hl => ?_
  obtain ⟨hbuilds, hr⟩ := hr
  refine (alone_removeLogs hr hl).bind (fun _ => rfl) (fun _ env hr _ => ?_) hl
  refine (alone_openLog hr).mono fun r env hr => ?_
  obtain ⟨store, rfl, hready⟩ := hr
  exact ⟨hbuilds, hready⟩

/-- A directory in which nothing has been committed. -/
structure Fresh (env : Env) : Prop where
  manifest : env.manifest = none
  tables : env.tables = ∅
  logs : env.logs = ∅

section

variable (h : Fresh env)
include h

theorem Fresh.recoverable : Recoverable opts env [] :=
  .fresh h.manifest h.tables h.logs rfl

theorem Fresh.removeTemp (name : TempName) : Fresh (env.removeTemp name) := by
  cases name <;> exact ⟨h.manifest, h.tables, h.logs⟩

theorem alone_adoptUnmanifestedLayout :
    Alone listing (fun env => Recoverable opts env [])
      (fun r env => r = .ok [[]] ∧ Fresh env ∧ env.nextId = kFirstFileId)
      adoptUnmanifestedLayout env := by
  refine alone_op h.recoverable fun _ => ?_
  have hfound : (env.exec listing .listTables).1 = [] := by
    simp [Env.exec, h.tables, recognised, System.order_nil]
  rw [hfound]
  have hstored : Fresh { env with nextId := kFirstFileId } := ⟨h.manifest, h.tables, h.logs⟩
  refine alone_op h.recoverable fun _ => ?_
  exact Guarded.alone_ret hstored.recoverable ⟨rfl, hstored, rfl⟩

theorem Fresh.commit (hnext : env.nextId = kFirstFileId) :
    Flushed opts [[]] [] [] { env with
      manifest := some (levelSetOf [[]] kFirstFileId), manifestTemp := none } := by
  have hnone : ∀ id, env.tables.lookup id = none := by simp [h.tables]
  have hids : IdsBelow { env with
      manifest := some (levelSetOf [[]] kFirstFileId), manifestTemp := none } :=
    ⟨hnext.ge, hnext.le.trans (Nat.le_add_left 1 _), fun id f hf => by cases (hnone id).symm.trans hf⟩
  have hc : Committed { env with
      manifest := some (levelSetOf [[]] kFirstFileId), manifestTemp := none } [[]] kFirstFileId :=
    ⟨rfl, by simp, by simp, le_rfl⟩
  refine ⟨⟨kFirstFileId, hc, Nat.le_add_left 1 _, ⟨by simp, .nil, .nil⟩, by simp, fun id f hf => ?_⟩,
    ⟨hids, kFirstFileId, hnext.ge, hc⟩, fun _ => rfl, ⟨[], fun _ => rfl⟩, .nil, nofun, fun id => ?_, nofun⟩
  · cases (hnone id).symm.trans hf
  · simp [h.logs]

theorem alone_installFresh (hnext : env.nextId = kFirstFileId) :
    Alone listing (fun env => Recoverable opts env []) (InstallResult opts .empty [] [])
      (installReplayed opts .empty [[]] false) env := by
  have hstaged : ∀ m, Fresh { env with manifestTemp := m } := fun _ => ⟨h.manifest, h.tables, h.logs⟩
  have hdone : Flushed opts [[]] [] [] { env with
      manifest := some (levelSetOf [[]] kFirstFileId), manifestTemp := none } := h.commit hnext
  refine alone_op h.recoverable fun _ => ?_
  rw [show env.exec listing .loadNextId = (kFirstFileId, env) from congrArg (·, env) hnext]
  refine alone_op h.recoverable fun _ => ?_
  refine alone_op (hstaged none).recoverable fun _ => ?_
  refine alone_op (hstaged (some none)).recoverable fun _ => ?_
  refine alone_op (hstaged (some (some (levelSetOf [[]] kFirstFileId)))).recoverable fun _ => ?_
  exact Guarded.alone_ret hdone.recoverable ⟨nofun, hdone⟩

theorem alone_recoverFresh (hl : env.issued < idLimit) :
    Alone listing (fun env => Recoverable opts env []) (RecoverResult opts .empty []) (recover opts)
      env := by
  refine (alone_sweepTempFiles Fresh (fun _ name hs => hs.removeTemp name)
    (fun _ hs => hs.recoverable) h).bind (fun _ => rfl) (fun _ env h hl => ?_) hl
  refine alone_op h.recoverable fun _ => ?_
  rw [show env.exec listing .readManifest = (none, env) from congrArg (·, env) h.manifest]
  refine alone_andThen (alone_adoptUnmanifestedLayout h) hl (fun _ _ he => by cases he.1)
    fun levels env hr hl => ?_
  obtain ⟨hlevels, h, hnext⟩ := hr
  cases hlevels
  have hfound : (env.exec listing .listLogs).1 = [] := by
    simp [Env.exec, h.logs, recognised, System.order_nil]
  refine alone_op h.recoverable fun _ => ?_
  rw [hfound]
  change Alone listing _ _ (LsmIo.andThen (installReplayed opts .empty [[]] false) _) env
  refine alone_andThen (alone_installFresh h hnext) hl (fun _ _ he => he) fun levels env hr _ => ?_
  refine (alone_openLog hr.2).mono fun r env hready => ?_
  obtain ⟨store, rfl, hready⟩ := hready
  exact ⟨hr.1, hready⟩

end

theorem alone_openStore (h : Recoverable opts env history) (hl : env.issued < idLimit) :
    Alone listing (fun env => Recoverable opts env history)
      (RecoverResult opts (replayed env) history) (openStore opts) env := by
  rw [openStore]
  split
  next hblock =>
    refine .alone_ret h ⟨.invalidArgument (text "block size must not be zero"), ?_⟩
    simp [buildTable, SSTableBuilder.create, hblock]
  next =>
    cases h with
    | fresh manifest tables logs history =>
      subst history
      have hempty : replayed env = .empty := by simp [replayed, logs, recognised, sortIds]
      rw [hempty]
      exact alone_recoverFresh ⟨manifest, tables, logs⟩ hl
    | durable h =>
      rw [h.logs.replayed_eq]
      exact alone_recoverDurable h hl

end LsmStore

end KVStore
