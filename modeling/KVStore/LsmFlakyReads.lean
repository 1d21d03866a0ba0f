import KVStore.FlakyReads
import KVStore.LsmDurability

namespace KVStore

open Lib SortedRun CrashProgram LsmStore

def readRecords (fails : Nat → Nat → Bool) (records : List Entry) : List Entry :=
  (readable recordSize fails 0 records.reverse).reverse

/-- What a replay comes to when some reads of the log fail: the records before the first
failure, and the rest counts as a torn end. -/
def Log.readable (fails : Nat → Nat → Bool) (log : Log) : Log :=
  ⟨readRecords fails log.records, log.torn || decide ((readRecords fails log.records).length < log.records.length)⟩

/-- The directory without the records that the reads do not reach. -/
def Env.readable (fails : FileId → Nat → Nat → Bool) (env : Env) : Env :=
  { env with
    logs := ⟨env.logs.entries.map (.map id fun id => Log.readable (fails id)),
      List.NodupKeys.map₂ _ _ env.logs.nodupKeys⟩ }

section Logs

variable {fails : Nat → Nat → Bool} {log : Log} {records : List Entry}

theorem readRecords_suffix (fails : Nat → Nat → Bool) (records : List Entry) : readRecords fails records <:+ records := by
  rw [readRecords, ← List.reverse_prefix, List.reverse_reverse]
  exact readable_isPrefixOf ..

end Logs

section Machine

variable {listing : Listing} {fails : FileId → Nat → Nat → Bool}

theorem Env.lookup_readable (env : Env) (id : FileId) :
    (env.readable fails).logs.lookup id = (env.logs.lookup id).map (Log.readable (fails id)) :=
  List.dlookup_map₂ id

end Machine

section Attempt

variable {n : Nat} {opts : LsmOptions} {listing : Listing} {env : Env} {history shown : List Entry}
    {fails : FileId → Nat → Nat → Bool}

theorem LogsHold.readable (fails : FileId → Nat → Nat → Bool) {logs : List (FileId × List Entry)} (h : LogsHold env logs) :
    LogsHold (env.readable fails) (logs.map fun p => (p.1, readRecords (fails p.1) p.2)) := by
  have hfind : ∀ id, find id (logs.map fun p => (p.1, readRecords (fails p.1) p.2)) =
      (find id logs).map (readRecords (fails id)) := by
    intro id
    clear h
    induction logs with
    | nil => rfl
    | cons p logs ih =>
      rw [List.map_cons, find, find, ih]
      split
      next heq => rw [heq, Option.map_some]
      next => rfl
  refine ⟨List.pairwise_map.mpr h.newestFirst, fun p hp => ?_, fun id => ?_, fun e he => ?_⟩
  · obtain ⟨q, hq, rfl⟩ := List.mem_map.mp hp
    exact h.ids q hq
  · rw [hfind, ← h.stored, Env.lookup_readable, Option.map_map, Option.map_map]
    rfl
  · apply h.keys
    simp only [recordsOf, List.map_map, List.mem_flatten, List.mem_map, Function.comp_apply] at he ⊢
    obtain ⟨_, ⟨p, hp, rfl⟩, he⟩ := he
    exact ⟨p.2, ⟨p, hp, rfl⟩, (readRecords_suffix _ _).subset he⟩

/-- What the records that can be read show over the tables. -/
theorem Recoverable.readable (fails : FileId → Nat → Nat → Bool) (h : Recoverable opts env history)
    (hw : ∀ e ∈ history, Writable e) :
    ∃ shown, Recoverable opts (env.readable fails) shown ∧ visible (find [] shown) = none ∧
      ((∀ key, visible (find key shown) = visible (find key history)) → Recoverable opts (env.readable fails) history) := by
  cases h with
  | fresh manifest tables logs hhistory =>
    subst hhistory
    have hfresh : Recoverable opts (env.readable fails) [] := by
      refine .fresh manifest tables ?_ rfl
      apply AList.ext
      simp [Env.readable, logs]
    exact ⟨[], hfresh, rfl, fun _ => hfresh⟩
  | @durable levels nextId logs hd =>
    have hlogs := hd.logs.readable fails
    have hmanifest : ManifestOk opts (env.readable fails) levels nextId := hd.manifest.congr rfl rfl le_rfl
    refine ⟨_, .durable ⟨hmanifest, fun _ => rfl, hlogs⟩, ?_, fun hsame => .durable ⟨hmanifest, hsame, hlogs⟩⟩
    have hnone : ∀ {logs' : List (FileId × List Entry)} {env' : Env}, LogsHold env' logs' →
        visible (find [] (recordsOf logs' ++ levels.entries)) = visible (find [] levels.entries) := by
      intro logs' env' hl
      have hrecords : find ([] : Key) (recordsOf logs') = none := by
        rw [find_eq_none_iff]
        rintro hmem
        obtain ⟨e, he, hkey⟩ := List.mem_map.mp hmem
        exact hl.keys e he hkey
      rw [find_append, hrecords, Option.none_or]
    rw [hnone hlogs, ← hnone hd.logs, hd.replays, find_nil_of_writable hw]
    rfl

end Attempt

end KVStore
