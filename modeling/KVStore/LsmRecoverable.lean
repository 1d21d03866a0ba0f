import KVStore.LsmManifest

namespace KVStore

open Lib SortedRun CrashProgram

def recordsOf (logs : List (FileId × List Entry)) : List Entry := (logs.map Prod.snd).flatten

@[simp] theorem recordsOf_nil : recordsOf [] = [] := rfl

@[simp] theorem recordsOf_cons (p : FileId × List Entry) (logs : List (FileId × List Entry)) :
    recordsOf (p :: logs) = p.2 ++ recordsOf logs := rfl

@[simp] theorem recordsOf_append (logs logs' : List (FileId × List Entry)) :
    recordsOf (logs ++ logs') = recordsOf logs ++ recordsOf logs' := by
  simp [recordsOf]

/-- The directory holds exactly these logs, newest first, whatever torn record
follows their whole ones. -/
structure LogsHold (env : Env) (logs : List (FileId × List Entry)) : Prop where
  newestFirst : logs.Pairwise fun a b => b.1 < a.1
  ids : ∀ p ∈ logs, 1 ≤ p.1 ∧ p.1 ≤ env.issued
  stored : ∀ id, (env.logs.lookup id).map Log.records = SortedRun.find id logs
  keys : ∀ e ∈ recordsOf logs, e.1 ≠ []

/-- What recovery needs of the manifest and the tables. -/
structure ManifestOk (opts : LsmOptions) (env : Env) (levels : Levels) (nextId : FileId) : Prop where
  committed : Committed env levels nextId
  counted : nextId ≤ env.issued + 1
  wellFormed : WellFormed levels
  filled : 1 ≤ opts.memtableSize → ∀ t ∈ levels.flatten, t.entries ≠ []
  tables : ∀ id f, env.tables.lookup id = some f → 1 ≤ id

def Replays (records : List Entry) (levels : Levels) (history : List Entry) : Prop :=
  ∀ key, visible (SortedRun.find key (records ++ levels.entries)) = visible (SortedRun.find key history)

structure Durable (opts : LsmOptions) (env : Env) (levels : Levels) (nextId : FileId)
    (logs : List (FileId × List Entry)) (history : List Entry) : Prop where
  manifest : ManifestOk opts env levels nextId
  replays : Replays (recordsOf logs) levels history
  logs : LogsHold env logs

/-- A directory that opening rebuilds the history from: an empty one, or one with
a manifest. -/
inductive Recoverable (opts : LsmOptions) (env : Env) (history : List Entry) : Prop
  | fresh (manifest : env.manifest = none) (tables : env.tables = ∅) (logs : env.logs = ∅)
      (history : history = [])
  | durable {levels : Levels} {nextId : FileId} {logs : List (FileId × List Entry)}
      (durable : Durable opts env levels nextId logs history)

section

variable {opts : LsmOptions} {env env' : Env} {levels : Levels} {nextId : FileId}
  {logs : List (FileId × List Entry)} {records history : List Entry}

theorem LogsHold.congr (h : LogsHold env logs) (hlogs : env'.logs = env.logs)
    (hi : env.issued ≤ env'.issued) : LogsHold env' logs :=
  ⟨h.newestFirst, fun p hp => ⟨(h.ids p hp).1, (h.ids p hp).2.trans hi⟩, hlogs ▸ h.stored, h.keys⟩

theorem ManifestOk.congr (h : ManifestOk opts env levels nextId) (hm : env'.manifest = env.manifest)
    (ht : env'.tables = env.tables) (hi : env.issued ≤ env'.issued) : ManifestOk opts env' levels nextId :=
  ⟨⟨hm.trans h.committed.manifest, ht ▸ h.committed.files, h.committed.below,
    h.committed.positive⟩,
    h.counted.trans (Nat.add_le_add_right hi 1), h.wellFormed, h.filled, ht ▸ h.tables⟩

theorem Durable.congr (h : Durable opts env levels nextId logs history)
    (hm : env'.manifest = env.manifest) (ht : env'.tables = env.tables) (hlogs : env'.logs = env.logs)
    (hi : env.issued ≤ env'.issued) : Durable opts env' levels nextId logs history :=
  ⟨h.manifest.congr hm ht hi, h.replays, h.logs.congr hlogs hi⟩

theorem Replays.newest {base levels' : Levels} {older : List Entry}
    (h : Replays (records ++ older) base history) (ha : Answers levels' history) :
    Replays records levels' history := by
  intro key
  rw [find_append, visible_or]
  split
  next hs =>
    rw [← h key, List.append_assoc, find_append, visible_or, if_pos hs]
  next => exact ha key

theorem LogsHold.nodup (h : LogsHold env logs) : (SortedRun.keys logs).Nodup :=
  List.pairwise_map.mpr (h.newestFirst.imp fun hlt => hlt.ne')

theorem LogsHold.mem_keys (h : LogsHold env logs) (id : FileId) :
    id ∈ env.logs.keys ↔ id ∈ SortedRun.keys logs := by
  rw [← AList.mem_keys, ← AList.lookup_isSome, ← Option.isSome_map (f := Log.records), h.stored,
    ← not_iff_not, Option.not_isSome_iff_eq_none, find_eq_none_iff]

theorem LogsHold.sortIds (h : LogsHold env logs) {found : List FileId}
    (hfound : found.Perm (recognised env.logs.keys)) :
    LsmStore.sortIds found = (SortedRun.keys logs).reverse := by
  have hall : recognised env.logs.keys = env.logs.keys := by
    refine List.filter_eq_self.mpr fun id hid => ?_
    obtain ⟨p, hp, rfl⟩ := List.mem_map.mp ((h.mem_keys id).mp hid)
    exact decide_eq_true (h.ids p hp).1
  have hperm : (LsmStore.sortIds found).Perm (SortedRun.keys logs).reverse :=
    calc (LsmStore.sortIds found).Perm found := List.perm_insertionSort _ _
      _ |>.Perm (recognised env.logs.keys) := hfound
      _ |>.Perm (SortedRun.keys logs) := by
          rw [hall]
          exact (List.perm_ext_iff_of_nodup env.logs.keys_nodup h.nodup).mpr h.mem_keys
      _ |>.Perm (SortedRun.keys logs).reverse := (List.reverse_perm _).symm
  refine hperm.eq_of_pairwise' (List.pairwise_insertionSort _ _) ?_
  rw [List.pairwise_reverse]
  exact List.pairwise_map.mpr (h.newestFirst.imp fun hlt => hlt.le)

end

end KVStore
