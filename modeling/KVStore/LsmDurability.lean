import KVStore.LsmWorld
import KVStore.BuilderLimits

namespace KVStore

open Lib SortedRun CrashProgram LsmStore

/-- The shape a level set has to have for a search to consult one table a level. -/
structure LevelSet.WellShaped (set : LevelSet) : Prop where
  l0 : (set.levels.headD []).Pairwise fun a b => b.id < a.id
  deeper : ∀ level ∈ set.levels.tail, level.Pairwise fun a b => a.maxKey < b.minKey
  tables : ∀ m ∈ set.levels.flatten, 0 < m.entryCount ∧ m.minKey ≤ m.maxKey
  nodup : (set.levels.flatten.map TableMeta.id).Nodup
  below : ∀ m ∈ set.levels.flatten, m.id < set.nextId

theorem answer_eq_iff (a b : Option MemEntry) (key : Key) :
    (Lookup.ofEntry a).answer key = (Lookup.ofEntry b).answer key ↔ visible a = visible b := by
  constructor
  · intro h
    rw [← value_ofEntry, ← value_ofEntry]
    cases ha : Lookup.ofEntry a <;> cases hb : Lookup.ofEntry b <;>
      simp_all [Lookup.answer, Lookup.value, Status.ok, Status.notFound]
  · intro h
    exact Lookup.answer_congr (by rw [value_ofEntry, value_ofEntry, h]) key

/-- The directory opens, and the store answers every key as the history. -/
def System.AnswersReopened (n : Nat) (opts : LsmOptions) (listing : Listing) (env : Env) (history : List Entry) :
    Prop :=
  ∃ store env', (LsmStore.openStore opts).run (lsmMachine listing) env = (.ok store, env') ∧
    ∀ (c : Fin n) key, (opened n env' store).getAlone opts listing c key =
      some ((Lookup.ofEntry (SortedRun.find key history)).answer key)

variable {levels : Levels} {nextId : FileId} {opts : LsmOptions} {env : Env} {set : LevelSet}
    {history : List Entry}

theorem wellShaped_levelSetOf (h : WellFormed levels)
    (hfilled : ∀ t ∈ levels.flatten, t.entries ≠ []) (hbelow : ∀ t ∈ levels.flatten, t.id < nextId) :
    (levelSetOf levels nextId).WellShaped := by
  refine ⟨?_, fun level hlevel => ?_, fun m hm => ?_, ?_, fun m hm => ?_⟩
  · have hl0 := h.l0
    cases levels with
    | nil => exact .nil
    | cons => exact List.pairwise_map.mpr hl0
  · simp only [levelSetOf, ← List.map_tail] at hlevel
    obtain ⟨tables, htables, rfl⟩ := List.mem_map.mp hlevel
    exact List.pairwise_map.mpr (h.shaped tables htables).disjoint
  · rw [flatten_levelSetOf] at hm
    obtain ⟨t, ht, rfl⟩ := List.mem_map.mp hm
    obtain ⟨e, he⟩ := List.exists_mem_of_ne_nil _ (hfilled t ht)
    exact ⟨List.length_pos_of_mem he, (TableFile.minKey_le he).trans (TableFile.le_maxKey he)⟩
  · rw [flatten_levelSetOf, List.map_map]
    exact h.nodup
  · rw [flatten_levelSetOf] at hm
    obtain ⟨t, ht, rfl⟩ := List.mem_map.mp hm
    exact hbelow t ht

theorem ManifestOk.wellShaped (h : ManifestOk opts env levels nextId) (hsize : 1 ≤ opts.memtableSize)
    (hset : env.manifest = some set) : set.WellShaped := by
  cases h.committed.manifest.symm.trans hset
  exact wellShaped_levelSetOf h.wellFormed (h.filled hsize) h.committed.below

section

variable (h : Recoverable opts env history)
include h

theorem Recoverable.wellShaped (hsize : 1 ≤ opts.memtableSize)
    (hset : env.manifest = some set) : set.WellShaped := by
  cases h with
  | fresh manifest => cases manifest.symm.trans hset
  | durable hd => exact hd.manifest.wellShaped hsize hset

theorem Recoverable.buildTable_replayed_iff (hblock : opts.blockSize ≠ 0) :
    (∃ f, buildTable opts.blockSize opts.bitsPerKey (replayed env).map = .ok f) ↔
      BlocksFit opts.blockSize (replayed env).map := by
  refine buildTable_ok_iff _ (Nat.pos_of_ne_zero hblock) (fun e he => ?_) (replayed env).sorted
  cases h with
  | fresh manifest tables logs =>
    simp [replayed, logs, recognised, sortIds, Memtable.empty] at he
  | durable hd =>
    rw [hd.logs.replayed_eq] at he
    exact key_ne_nil_of_mem hd.logs he

theorem Recoverable.recoverResult {listing : Listing}
    (hids : ((openStore opts).run (lsmMachine listing) env).2.issued < idLimit) :
    RecoverResult opts (replayed env) history ((openStore opts).run (lsmMachine listing) env).1
      ((openStore opts).run (lsmMachine listing) env).2 := by
  have halone : Alone listing (fun env => Recoverable opts env history)
    (RecoverResult opts (replayed env) history) (openStore opts) env :=
    alone_openStore h ((issued_le_run listing _ env).trans_lt hids)
  exact halone.alone_run (fun o env hl => (Env.issued_le_exec listing o env).trans_lt hl) hids

theorem Recoverable.answers_opened {n : Nat} {listing : Listing} {store : Recovered} {env' : Env}
    (hnil : visible (find [] history) = none) (hids : env'.issued < idLimit)
    (hrun : (openStore opts).run (lsmMachine listing) env = (.ok store, env')) (c : Fin n) (key : Key) :
    (System.opened n env' store).getAlone opts listing c key =
      some ((Lookup.ofEntry (find key history)).answer key) := by
  have hresult := @Recoverable.recoverResult _ _ _ h listing (by rwa [hrun])
  rw [hrun] at hresult
  obtain ⟨_, hready⟩ := hresult
  by_cases hkey : key = []
  · subst hkey
    rw [System.getAlone_nil]
    exact congrArg some (Lookup.answer_congr (by rw [value_ofEntry, hnil]; rfl) [])
  · rw [System.getAlone_opened opts listing env' store c hkey, hready.answers.search hready.wellFormed]

theorem Recoverable.opens_iff {n : Nat} {listing : Listing}
    (hw : ∀ e ∈ history, Writable e) (hblock : opts.blockSize ≠ 0)
    (hids : ((openStore opts).run (lsmMachine listing) env).2.issued < idLimit) :
    System.AnswersReopened n opts listing env history ↔ BlocksFit opts.blockSize (replayed env).map := by
  have hresult := h.recoverResult hids
  have hbuilt := h.buildTable_replayed_iff hblock
  cases hrun : (openStore opts).run (lsmMachine listing) env with
  | mk result env' =>
    rw [hrun] at hresult hids
    cases result with
    | error =>
      obtain ⟨refusal, hrefused⟩ := hresult
      refine iff_of_false ?_ fun hfits => ?_
      · rintro ⟨store, env'', hopened, _⟩
        cases hrun.symm.trans hopened
      · obtain ⟨file, hfile⟩ := hbuilt.mpr hfits
        cases hrefused.symm.trans hfile
    | ok store =>
      refine iff_of_true ⟨store, env', hrun, h.answers_opened (by rw [find_nil_of_writable hw]; rfl) hids hrun⟩ ?_
      cases hempty : (replayed env).isEmpty with
      | false => exact hbuilt.mp (hresult.1 hempty)
      | true =>
        rw [List.isEmpty_iff.mp hempty]
        exact blocksFit_nil opts.blockSize

end

namespace System

variable {n : Nat} {opts : LsmOptions} {listing : Listing} {s : System n} {c : Fin n}

theorem step_client_eq (h : s.engine.background ≠ .undefined) :
    s.step opts listing (.client c) = s.clientStep opts c := by
  simp only [step]

theorem defined_of_step {s' : System n} {a : Action n} (h : s.step opts listing a = some s') :
    s.engine.background ≠ .undefined := by
  intro hpc
  unfold step at h
  rw [hpc] at h
  cases h

theorem step_call_eq (h : s.engine.background ≠ .undefined) (hidle : s.engine.clients c = .idle)
    (hrunning : s.engine.stopping = false) (call : Call) :
    s.step opts listing (.call c call) = some ((s.note (.invoke c call)).enter c call) := by
  simp only [step, hidle, hrunning]
  rfl

section Pieces

variable {e : Entry} (hdefined : s.engine.background ≠ .undefined)
include hdefined

theorem step_wantWriter (pc : s.engine.clients c = .wantWriter e) (hfree : s.engine.writer = none) :
    s.step opts listing (.client c) = some ((s.acquire c).setClient c (.checking e)) := by
  rw [step_client_eq hdefined, clientStep, pc]
  exact if_pos hfree

theorem step_checking (pc : s.engine.clients c = .checking e) (hok : s.engine.backgroundStatus.isOk = true)
    (hroom : s.engine.full opts = false) :
    s.step opts listing (.client c) = some (s.setClient c (.appending e)) := by
  rw [step_client_eq hdefined, clientStep, pc]
  simp [checkWrite, hok, hroom]

theorem step_appending (pc : s.engine.clients c = .appending e) : s.step opts listing (.client c) =
    some (({ s with env := s.env.appendLog s.engine.walId e } : System n).setClient c (.inserting e)) := by
  rw [step_client_eq hdefined, clientStep, pc]

theorem step_inserting (pc : s.engine.clients c = .inserting e) :
    s.step opts listing (.client c) = some (s.insert c e) := by
  rw [step_client_eq hdefined, clientStep, pc]

end Pieces

/-- A store that serves a put at once. -/
structure Free (opts : LsmOptions) (s : System n) (c : Fin n) : Prop where
  defined : s.engine.background ≠ .undefined
  idle : s.engine.clients c = .idle
  running : s.engine.stopping = false
  unlocked : s.engine.writer = none
  healthy : s.engine.backgroundStatus.isOk = true
  room : s.engine.full opts = false

theorem Free.exists_run_put (h : s.Free opts c) {key : Key} {value : Value} (hw : Writable (key, ⟨value, false⟩)) :
    ∃ past s', Run opts listing s past s' ∧ s'.env = s.env.appendLog s.engine.walId (key, ⟨value, false⟩) ∧
      s'.engine.mem = s.engine.mem.insert key value false ∧ s'.engine.walId = s.engine.walId ∧
      acknowledged s'.trace = (key, ⟨value, false⟩) :: acknowledged s.trace ∧ s'.inFlight = [] ∧
      (s'.engine.full opts = false → s'.Free opts c) := by
  obtain ⟨hdefined, hidle, hrunning, hunlocked, hhealthy, hroom⟩ := h
  have hcall := Run.start.step (@step_call_eq n opts listing s c hdefined hidle hrunning (.put key value))
  rw [enter, beginWrite, if_neg hw.1, if_neg (Nat.not_lt.mpr hw.2)] at hcall
  have hacquire := hcall.step (step_wantWriter hdefined (setClient_self _ c _) hunlocked)
  have hcheck := hacquire.step (step_checking hdefined (setClient_self _ c _) hhealthy hroom)
  have happend := hcheck.step (step_appending hdefined (setClient_self _ c _))
  simp only [setClient, Engine.setClient, acquire, note, Function.update_idem] at happend
  have hinsert := happend.step (step_inserting hdefined (Function.update_self ..))
  refine ⟨_, _, hinsert, rfl, rfl, rfl, ?_, rfl, fun hroom => ?_⟩
  · simp [insert, respond, release, setClient, note, acknowledged, callOf, Call.entry, Status.isOk_ok]
  · exact ⟨hdefined, setClient_self _ c _, hrunning, rfl, hhealthy, hroom⟩

end System

namespace World

variable {n : Nat} {opts : LsmOptions} {listing : Listing} {w : World n}
    {io : LsmIo (Except Failure Recovered)} {history : List Entry}

theorem Reachable.run {s s' : System n} {history : List Entry} {past : List (System n × Action n)}
    (h : Reachable opts listing (.running s history)) (hrun : System.Run opts listing s past s') :
    Reachable opts listing (.running s' history) := by
  induction hrun with
  | start => exact h
  | step _ next ih => exact .step ih (.run next)

theorem Reachable.recovered {env env' : Env} {store : Recovered}
    (h : Reachable opts listing (.recovering env io history : World n))
    (hrun : io.run (lsmMachine listing) env = (.ok store, env')) :
    Reachable opts listing (.running (System.opened n env' store) history) := by
  induction io generalizing env with
  | ret =>
    cases hrun
    exact .step h .opened
  | op o k ih => exact ih _ (.step h .recover) hrun

def stopAfter (listing : Listing) : Nat → LsmIo (Except Failure Recovered) → Env → Env
  | 0, _, env => env
  | _ + 1, .ret _, env => env
  | k + 1, .op o next, env =>
    stopAfter listing k (next (env.exec listing o).1) (env.exec listing o).2

theorem Reachable.stopAfter {env : Env} (h : Reachable opts listing (.recovering env io history : World n))
    (k : Nat) : Reachable opts listing (.down (stopAfter listing k io env) history : World n) := by
  induction k generalizing env io with
  | zero => exact .step h .crashRecovering
  | succ k ih =>
    cases io with
    | ret => exact .step h .crashRecovering
    | op => exact ih (.step h .recover)

theorem reachable_of_fresh {s : System n} (h : System.fresh n opts listing = some s) :
    Reachable opts listing (.running s []) := by
  unfold System.fresh at h
  split at h
  next store env hrun =>
    cases h
    exact Reachable.recovered (.step .start .open) hrun
  next => cases h

section

variable {actions : List (Action n)} {P : List (System n × Action n) × System n → Prop}

theorem exists_reachable (h : ∃ r ∈ System.runFresh n opts actions, P r) :
    ∃ past s, Reachable opts .asStored (.running s []) ∧ P (past, s) := by
  obtain ⟨_, _, past, s, hstart, hrun, hp⟩ := System.exists_fresh_run h
  exact ⟨past, s, (reachable_of_fresh hstart).run hrun, hp⟩

theorem exists_crashed (h : ∃ r ∈ System.runFresh n opts actions, P r) :
    ∃ past s, Reachable (n := n) opts .asStored (.down s.env (s.inFlight ++ acknowledged s.trace)) ∧
      P (past, s) := by
  obtain ⟨past, s, hreach, hp⟩ := exists_reachable h
  have hdown := hreach.step (.crash .between)
  rw [List.append_nil] at hdown
  exact ⟨past, s, hdown, hp⟩

end

/-- The manifest and the levels in memory keep their shape through every run, crash
and reopening. -/
theorem levels_keep_shape (hreach : Reachable opts listing w) (hfail : opts.failAt = .none)
    (hsize : 1 ≤ opts.memtableSize) (hids : w.env.issued < idLimit) :
    (∀ set, w.env.manifest = some set → set.WellShaped) ∧
      ∀ s history, w = .running s history → ∃ set, s.env.manifest = some set ∧
        (levelSetOf s.engine.levels set.nextId).WellShaped := by
  have hinv := hreach.inv hfail hids
  cases w with
  | down env history =>
    exact ⟨fun set hset => hinv.1.wellShaped hsize hset, fun _ _ h => by cases h⟩
  | recovering env io history =>
    obtain ⟨⟨mem, hio⟩, _⟩ := hinv
    have hr := hio.now (fun _ => rfl) hids
    exact ⟨fun set hset => Recoverable.wellShaped hr hsize hset, fun _ _ h => by cases h⟩
  | running s history =>
    obtain ⟨⟨live, frozen, flushed, hs⟩, _⟩ := hinv
    have hl : Legal True s.shared := fun _ => hids
    refine ⟨fun set hset => (hs.recoverable hl).wellShaped hsize hset, ?_⟩
    rintro _ _ ⟨⟩
    obtain ⟨levels, m, _, hc, _, hbelow⟩ := System.manifest_described hs.background hl
    exact ⟨_, hc.manifest, wellShaped_levelSetOf hs.background.wellFormed
      (hs.filled hsize).tables hbelow⟩

/-- A put is flushed: one table in L0. -/
theorem levels_keep_shape_after_flush :
    ∃ s : System 1, Reachable {} .asStored (.running s []) ∧ s.engine.levels.flatten.length = 1 ∧
      (∀ set, s.env.manifest = some set → set.WellShaped) ∧ ∃ set, s.env.manifest = some set ∧
        (levelSetOf s.engine.levels set.nextId).WellShaped := by
  let actions : List (Action 1) := putFlush 0 (text "a") (text "x") ++ List.replicate 13 .background ++ [.client 0]
  have h : ∃ r ∈ System.runFresh 1 {} actions,
      r.2.engine.levels.flatten.length = 1 ∧ r.2.env.issued < idLimit := by decide +kernel
  obtain ⟨_, s, hreach, hlen, hids⟩ := exists_reachable h
  obtain ⟨hmanifest, hlevels⟩ := levels_keep_shape hreach rfl (by decide) hids
  exact ⟨s, hreach, hlen, hmanifest, hlevels s [] rfl⟩

/-- After any life of the directory, with crashes at any point of a run or of a
recovery, opening it succeeds, and the store answers every key as the acknowledged
writes, with the one in flight at a crash perhaps among them, exactly if the replayed
writes fit the blocks of one table. -/
theorem open_rebuilds_history {env : Env} {history : List Entry} (hfail : opts.failAt = .none)
    (hblock : opts.blockSize ≠ 0) (hreach : Reachable opts listing (.down env history : World n))
    (hids : ((LsmStore.openStore opts).run (lsmMachine listing) env).2.issued < idLimit) :
    System.AnswersReopened n opts listing env history ↔ BlocksFit opts.blockSize (replayed env).map := by
  have hl : env.issued < idLimit := (issued_le_run listing _ env).trans_lt hids
  obtain ⟨hr, hw⟩ : Recoverable opts env history ∧ ∀ e ∈ history, Writable e := hreach.inv hfail hl
  exact hr.opens_iff hw hblock hids

/-- A put is flushed and deleted, another put is in flight when the store crashes,
and the recovery crashes after it has renamed its table: the delete and the put in
flight both survive. -/
theorem open_rebuilds_history_after_two_crashes :
    ∃ env history, Reachable {} .asStored (.down env history : World 1) ∧
      SortedRun.find (text "a") history = some ⟨[], true⟩ ∧
      SortedRun.find (text "b") history = some ⟨text "y", false⟩ ∧
      System.AnswersReopened 1 {} .asStored env history := by
  let actions : List (Action 1) := putFlush 0 (text "a") (text "x") ++ List.replicate 13 .background ++
    [.client 0] ++ calling 0 (.remove (text "a")) 4 ++ calling 0 (.put (text "b") (text "y")) 3
  let second (env : Env) : Env := stopAfter .asStored 15 (openStore {}) env
  have h : ∃ r ∈ System.runFresh 1 {} actions,
      find (text "a") (r.2.inFlight ++ acknowledged r.2.trace) = some ⟨[], true⟩ ∧
      find (text "b") (r.2.inFlight ++ acknowledged r.2.trace) = some ⟨text "y", false⟩ ∧
      ((openStore {}).run (lsmMachine .asStored) (second r.2.env)).2.issued < idLimit ∧
      BlocksFit 4096 (replayed (second r.2.env)).map := by decide +kernel
  obtain ⟨_, s, hcrashed, ha, hb, hids, hfits⟩ := exists_crashed h
  have hreach := Reachable.stopAfter (.step hcrashed .open) 15
  exact ⟨_, _, hreach, ha, hb, (open_rebuilds_history rfl (by decide) hreach hids).mpr hfits⟩

/-- Two puts that the store acknowledges, a crash, and the directory cannot be opened: the
table of the replayed writes has one block too large for the format. -/
theorem open_fails_after_accepted_puts : ∃ (big : Value) (env : Env),
    Reachable {} .asStored (.down env [([98], ⟨big, false⟩), ([97], ⟨[0], false⟩)] : World 1) ∧
      ((LsmStore.openStore {}).run (lsmMachine .asStored) env).1 =
        .error (.invalidArgument (text "sstable block exceeds the maximum block size")) := by
  obtain ⟨big, hbig⟩ := exists_big
  let start : System 1 := .opened 1 System.emptyStore ⟨[[]], kFirstFileId⟩
  have hstart : System.fresh 1 {} .asStored = some start := System.fresh_of_blockSize (by decide)
  have hfree : start.Free {} 0 := ⟨nofun, rfl, rfl, rfl, rfl, by decide⟩
  have hsmall : Writable ([97], ⟨[0], false⟩) := by decide
  obtain ⟨past₁, s₁, hrun₁, henv₁, hmem₁, hwal₁, hack₁, _, hfree₁⟩ :=
    @System.Free.exists_run_put _ _ .asStored _ _ hfree _ _ hsmall
  have hroom : s₁.engine.full {} = false := by
    rw [Engine.full, hmem₁]
    decide
  obtain ⟨past₂, s₂, hrun₂, henv₂, _, _, hack₂, hflight₂, _⟩ :=
    @System.Free.exists_run_put _ _ .asStored _ _ (hfree₁ hroom) _ _ (writable_big hbig)
  have hdown : Reachable {} .asStored (.down s₂.env (s₂.inFlight ++ acknowledged s₂.trace ++ [])) :=
    .step (((reachable_of_fresh hstart).run hrun₁).run hrun₂) (.crash .between)
  rw [hflight₂, hack₂, hack₁] at hdown
  refine ⟨big, s₂.env, hdown, ?_⟩
  let log : Log := ⟨[([98], ⟨big, false⟩), ([97], ⟨[0], false⟩)], false⟩
  have henv : s₂.env = { System.emptyStore with logs := AList.singleton kFirstFileId log } := by
    rw [henv₂, hwal₁, henv₁]
    rfl
  have hmap : (replayInto .empty log.records).map = [([97], ⟨[0], false⟩), ([98], ⟨big, false⟩)] := rfl
  have hrefused := buildTable_big hbig
  have hlookup : (AList.singleton kFirstFileId log : AList fun _ : FileId => Log).lookup kFirstFileId = some log := rfl
  have hfirst : ¬ kFirstFileId = maxUInt32 := by decide
  rw [henv]
  simp [openStore, recover, sweepTempFiles, openFromManifest, openLevels, openLevel, sweepOrphanTables, levelSetOf,
    passIds, sortIds, replayLogs, installReplayed, buildTableUnlocked, LsmIo.andThen, Prog.forEach, Prog.run,
    lsmMachine, Env.exec, Env.temps, Env.removeTemp, recognised, System.emptyStore, hlookup, hfirst,
    Listing.asStored, Memtable.isEmpty, hmap, Sizes.kDefaultBitsPerKey, hrefused]

/-- In every state of every life under accepted options a pick is defined, and takes some
tables of one level, each once, exactly if the options keep L0 from being compacted
when it is empty. -/
theorem picked_inputs_nonempty_iff (opts : LsmOptions) (hblock : opts.blockSize ≠ 0) :
    (∀ (listing : Listing) (n : Nat) (s : System n) (history : List Entry),
      Reachable opts listing (.running s history) → ∀ force,
        Levels.pickCompaction opts s.engine.levels s.engine.compactPointer force ≠ .undefined ∧
        ∀ c, Levels.pickCompaction opts s.engine.levels s.engine.compactPointer force = .work c →
          c.inputs ≠ [] ∧ c.inputs.Sublist (s.engine.levels.getD c.level []) ∧
          (opts.failAt = .none → s.env.issued < idLimit → (c.inputs.map SSTable.id).Nodup)) ↔
      1 ≤ opts.l0CompactionTrigger := by
  constructor
  · intro h
    by_contra hzero
    have hfresh : System.fresh 0 opts .asStored = _ := System.fresh_of_blockSize hblock
    refine (h .asStored 0 _ [] (reachable_of_fresh hfresh) false).1 ?_
    have htrigger : opts.l0CompactionTrigger ≤ 0 := by omega
    simp [System.opened, Engine.ofRecovered, Levels.pickCompaction, Levels.chooseInputs, htrigger]
  · intro ht listing n s history hreach force
    refine ⟨Levels.pickCompaction_ne_undefined ht _ _ force, fun c hc => ?_⟩
    have htaken := (Levels.pickCompaction_spec hc).1
    obtain ⟨l, hl, hsub⟩ := htaken.sublist
    refine ⟨htaken.nonempty, by rwa [List.getD_eq_getElem?_getD, hl], fun hfail hids => ?_⟩
    obtain ⟨⟨live, frozen, flushed, hs⟩, _⟩ := hreach.inv hfail hids
    have hflat := hsub.trans (List.sublist_flatten_of_mem (List.mem_of_getElem? hl))
    exact (hs.background.ids trivial).nodup.sublist (hflat.map SSTable.id)

/-- A flush leaves one table in L0, and it is picked. -/
theorem picked_inputs_nonempty_after_flush :
    ∃ (s : System 1) (c : Compaction), Reachable { l0CompactionTrigger := 1 } .asStored (.running s []) ∧
      Levels.pickCompaction { l0CompactionTrigger := 1 } s.engine.levels s.engine.compactPointer false = .work c ∧
      c.inputs ≠ [] ∧ c.inputs.Sublist (s.engine.levels.getD c.level []) ∧ (c.inputs.map SSTable.id).Nodup := by
  let opts : LsmOptions := { l0CompactionTrigger := 1 }
  let actions : List (Action 1) := putFlush 0 (text "a") (text "x") ++ List.replicate 11 .background
  have h : ∃ r ∈ System.runFresh 1 opts actions, r.2.env.issued < idLimit ∧
      Levels.pickCompaction opts r.2.engine.levels r.2.engine.compactPointer false ≠ .nothing ∧
      Levels.pickCompaction opts r.2.engine.levels r.2.engine.compactPointer false ≠ .undefined := by decide +kernel
  obtain ⟨_, s, hreach, hissued, hsome, hdefined⟩ := exists_reachable h
  cases hc : Levels.pickCompaction opts s.engine.levels s.engine.compactPointer false with
  | nothing => exact absurd hc hsome
  | undefined => exact absurd hc hdefined
  | work c =>
    obtain ⟨hne, hsub, hids⟩ := ((picked_inputs_nonempty_iff opts (by decide)).mpr (by decide)
      .asStored 1 s [] hreach false).2 c hc
    exact ⟨s, c, hreach, hc, hne, hsub, hids rfl hissued⟩

/-- A trigger of zero is accepted: the first turn of the background thread takes the
front of an empty L0. -/
theorem empty_level_picked :
    ∃ s s' : System 1, Reachable { l0CompactionTrigger := 0 } .asStored (.running s []) ∧
      Levels.pickCompaction { l0CompactionTrigger := 0 } s.engine.levels s.engine.compactPointer false = .undefined ∧
      s.step { l0CompactionTrigger := 0 } .asStored .background = some s' ∧ s'.engine.background = .undefined := by
  have hfresh : System.fresh 1 { l0CompactionTrigger := 0 } .asStored = _ := System.fresh_of_blockSize (by decide)
  exact ⟨_, _, reachable_of_fresh hfresh, rfl, rfl, rfl⟩

end World

end KVStore
