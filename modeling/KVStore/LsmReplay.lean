import KVStore.LsmRecoverable

namespace KVStore

open Lib SortedRun CrashProgram LsmStore

def replayed (env : Env) : Memtable :=
  (LsmStore.sortIds (recognised env.logs.keys)).foldl
    (fun mem id => LsmStore.replayInto mem ((env.logs.lookup id).getD ⟨[], false⟩).records) .empty

theorem get_replayInto (mem : Memtable) (records : List Entry) (key : Key) :
    (replayInto mem records).get key =
      ((find key records).map MemEntry.stored).or (mem.get key) := by
  induction records with
  | nil => rfl
  | cons e records ih =>
    obtain ⟨k, value, tombstone⟩ := e
    change Memtable.get (if tombstone = true then (replayInto mem records).remove k
      else (replayInto mem records).put k value) key = _
    have hstored : MemEntry.stored ⟨value, tombstone⟩ =
      ⟨if tombstone = true then [] else value, tombstone⟩ := rfl
    rw [find]
    cases tombstone with
    | true =>
      rw [if_pos rfl, Memtable.remove, Memtable.get_insert, ih]
      split
      · simp [hstored]
      · rfl
    | false =>
      rw [if_neg (by simp), Memtable.put, Memtable.get_insert, ih]
      split
      · simp [hstored]
      · rfl

section

variable {env : Env} {logs : List (FileId × List Entry)} {mem : Memtable}

def replayAll (logs : List (FileId × List Entry)) : Memtable :=
  logs.foldr (fun p mem => LsmStore.replayInto mem p.2) .empty

theorem get_replayAll (logs : List (FileId × List Entry)) (key : Key) :
    (replayAll logs).get key = (find key (recordsOf logs)).map MemEntry.stored := by
  induction logs with
  | nil => rfl
  | cons p logs ih =>
    change (replayInto (replayAll logs) p.2).get key = _
    rw [get_replayInto, ih, recordsOf_cons, find_append, Option.map_or]

theorem foldl_keys_reverse {logs all : List (FileId × List Entry)} (hsub : logs <:+ all)
    (hnodup : (keys all).Nodup) {read : FileId → List Entry} (hread : ∀ id, read id = (find id all).getD []) :
    (keys logs).reverse.foldl (fun mem id => replayInto mem (read id)) .empty =
      replayAll logs := by
  induction logs with
  | nil => rfl
  | cons p logs ih =>
    have hp : read p.1 = p.2 := by
      rw [hread, find_of_mem hnodup (hsub.subset List.mem_cons_self), Option.getD_some]
    have hkeys : (keys (p :: logs)).reverse = (keys logs).reverse ++ [p.1] := by
      simp [keys]
    rw [hkeys, List.foldl_append, ih ((List.suffix_cons p logs).trans hsub)]
    change replayInto (replayAll logs) (read p.1) = _
    rw [hp]
    rfl

theorem LogsHold.read (h : LogsHold env logs) (id : FileId) :
    ((env.logs.lookup id).getD ⟨[], false⟩).records = (find id logs).getD [] := by
  rw [← h.stored]
  cases env.logs.lookup id <;> rfl

theorem LogsHold.replayed_eq (h : LogsHold env logs) : replayed env = replayAll logs := by
  unfold replayed
  rw [h.sortIds (List.Perm.refl _)]
  exact foldl_keys_reverse (List.suffix_refl _) h.nodup h.read

theorem key_ne_nil_of_mem (h : LogsHold env logs) {e : Entry} (he : e ∈ (replayAll logs).map) : e.1 ≠ [] := by
  have hget : (replayAll logs).get e.1 = some e.2 :=
    find_of_mem (replayAll logs).sorted.nodup_keys he
  rw [get_replayAll, Option.map_eq_some_iff] at hget
  obtain ⟨w, hw, _⟩ := hget
  exact h.keys (e.1, w) (mem_of_find hw)

theorem recordsOf_eq_nil (h : (replayAll logs).isEmpty = true) : recordsOf logs = [] := by
  cases hr : recordsOf logs with
  | nil => rfl
  | cons e =>
    have hget := get_replayAll logs e.1
    rw [hr, find, if_pos rfl, Option.map_some, Memtable.get,
      List.isEmpty_iff.mp h] at hget
    cases hget

end

end KVStore
