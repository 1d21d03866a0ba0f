import KVStore.LsmDurability

namespace KVStore

open Lib CrashProgram LsmStore

theorem lookup_singleton {β : Type} (id : FileId) (b : β) :
    (AList.singleton id b : AList fun _ : FileId => β).lookup id = some b := by
  rw [← AList.insert_empty]
  exact AList.lookup_insert _

theorem erase_singleton {β : Type} (id : FileId) (b : β) :
    (AList.singleton id b : AList fun _ : FileId => β).erase id = ∅ := by
  apply AList.ext
  simp [AList.erase, AList.singleton, List.kerase_cons_eq]

def restedEnv (t : SSTable) (nextId walId : FileId) (issued : Nat) : Env where
  manifest := some (levelSetOf [[t]] nextId)
  manifestTemp := none
  tables := AList.singleton t.id t.file
  tableTemps := ∅
  logs := AList.singleton walId ⟨[], false⟩
  nextId := walId + 1
  issued := issued

section Reopen

variable {opts : LsmOptions} {t : SSTable}

theorem run_openFromManifest {env : Env} {nextId : FileId} (hid : 1 ≤ t.id) (ht : t.id < nextId)
    (htables : env.tables = AList.singleton t.id t.file) :
    (openFromManifest (levelSetOf [[t]] nextId)).run (lsmMachine .asStored) env =
      (.ok [[t]], { env with nextId := nextId }) := by
  simp [openFromManifest, openLevels, openLevel, LsmIo.andThen, Prog.run,
    lsmMachine, Env.exec, levelSetOf, SSTable.tableMeta, not_le_of_gt ht, htables,
    lookup_singleton, sweepOrphanTables, recognised, kFirstFileId, hid, Listing.asStored,
    Prog.forEach]

/-- Opening a store at rest takes one id, for its new log, and nothing else changes:
not even the counter in the manifest. -/
theorem run_openStore_rested (hblock : opts.blockSize ≠ 0) {nextId walId : FileId} (issued : Nat)
    (hid : 1 ≤ t.id) (ht : t.id < nextId) (hn : nextId ≤ walId + 1) (hlimit : walId + 1 + 1 < fileIdLimit) :
    (openStore opts).run (lsmMachine .asStored) (restedEnv t nextId walId issued) =
      (.ok ⟨[[t]], walId + 1⟩, restedEnv t nextId (walId + 1) (issued + 1)) := by
  have hmax : ¬ walId = maxUInt32 := by
    rintro rfl
    exact absurd hlimit (by decide)
  have hmod : (walId + 1 + 1) % fileIdLimit = walId + 1 + 1 := Nat.mod_eq_of_lt hlimit
  have hpos : kFirstFileId ≤ walId := Nat.le_of_lt_succ ((hid.trans_lt ht).trans_le hn)
  have hstart : openStore opts = recover opts := if_neg hblock
  have hsweep : sweepTempFiles.run (lsmMachine .asStored)
      (restedEnv t nextId walId issued) = ((), restedEnv t nextId walId issued) := rfl
  have hread : (lsmMachine .asStored).exec .readManifest (restedEnv t nextId walId issued) =
      (some (levelSetOf [[t]] nextId), restedEnv t nextId walId issued) := rfl
  rw [hstart, recover, Prog.run_bind, hsweep, Prog.run, hread]
  rw [LsmIo.andThen, Prog.run_bind, run_openFromManifest hid ht rfl]
  simp [Prog.run, lsmMachine, restedEnv, Env.exec, Listing.asStored, recognised, hpos, LsmIo.andThen,
    passIds, sortIds, hmax, hn, replayLogs, replayInto,
    installReplayed, Memtable.isEmpty, Memtable.empty, Env.fetchNextId, hmod, Env.createLog,
    Prog.forEach, lookup_singleton, erase_singleton]

end Reopen

namespace World

def firstTable : SSTable :=
  ⟨2, [[(text "a", ⟨text "x", false⟩)]], 101, by decide, List.pairwise_singleton _ _⟩

def restedStore (walId : FileId) : System 1 :=
  .opened 1 (restedEnv firstTable 4 walId walId) ⟨[[firstTable]], walId⟩

theorem reachable_restedStore_four : ∃ history, Reachable {} .asStored (.running (restedStore 4) history) := by
  let actions : List (Action 1) := putFlush 0 (text "a") (text "x") ++ List.replicate 13 .background ++ [.client 0]
  have h : ∃ r ∈ System.runFresh 1 {} actions, r.2.env = restedEnv firstTable 4 3 3 := ⟨_, rfl, rfl⟩
  obtain ⟨_, s, hdown, henv⟩ := exists_crashed h
  replace henv : s.env = restedEnv firstTable 4 3 3 := henv
  rw [henv] at hdown
  refine ⟨_, Reachable.recovered (.step hdown .open) ?_⟩
  exact run_openStore_rested (by decide) 3 (by decide) (by decide) (by decide) (by decide)

theorem reachable_restedStore {walId : FileId} (hle : 4 ≤ walId) (hlimit : walId + 1 < fileIdLimit) :
    ∃ history, Reachable {} .asStored (.running (restedStore walId) history) := by
  induction walId, hle using Nat.le_induction with
  | base => exact reachable_restedStore_four
  | succ walId hle ih =>
    obtain ⟨history, h⟩ := ih (Nat.lt_of_succ_lt hlimit)
    have hdown := Reachable.step h (.crash .between)
    refine ⟨_, Reachable.recovered (.step hdown .open) ?_⟩
    exact run_openStore_rested (by decide) walId (by decide) (by decide)
      (hle.trans (Nat.le_succ walId)) hlimit

theorem exists_reachable_run {walId : FileId} (hle : 4 ≤ walId) (hlimit : walId + 1 < fileIdLimit)
    {actions : List (Action 1)} {P : List (System 1 × Action 1) × System 1 → Prop}
    (h : ∃ r ∈ System.runFrom {} .asStored [] (restedStore walId) actions, P r) :
    ∃ past s history, Reachable {} .asStored (.running s history) ∧ P (past, s) := by
  obtain ⟨⟨past, s⟩, hr, hs⟩ := h
  obtain ⟨history, hreach⟩ := reachable_restedStore hle hlimit
  exact ⟨past, s, history, hreach.run (System.run_of_runFrom .start hr), hs⟩

end World

end KVStore
