import KVStore.LsmDurability
import KVStore.ScanSources

namespace KVStore

open Lib SortedRun KWayMerge

theorem visible_eq_some {found : Option MemEntry} {value : Value} :
    visible found = some value ↔ found = some ⟨value, false⟩ := by
  rcases found with _ | ⟨v, _ | _⟩ <;> simp [visible]

theorem System.scanRows_spec (b e : Key) {memtables : List (List Entry)} (version : Levels)
    (hs : ∀ m ∈ memtables, Sorted m) :
    Sorted (scanRows b e memtables version) ∧ ∀ key value, (key, value) ∈ scanRows b e memtables version ↔
      (b ≤ key ∧ (e = [] ∨ key < e)) ∧
        visible (find key (memtables.flatten ++ version.entries)) = some value := by
  let sources := memtables ++ version.flatten.map SSTable.entries
  let ranged := sources.map (List.filter (inRange b e))
  have hsorted : ∀ m ∈ ranged, Sorted m := sorted_ranged version b e hs
  have hmerged := sorted_merge hsorted
  have hflat : sources.flatten = memtables.flatten ++ version.entries := by
    simp only [sources, List.flatten_append, List.map_flatten, List.flatten_flatten, List.map_map]
    rfl
  refine ⟨List.pairwise_map.mpr (hmerged.filter _), fun key value => ?_⟩
  have hfind := find_merge hsorted key
  rw [← List.filter_flatten, hflat] at hfind
  have hrange := hfind.trans (find_filter_key (fun k => b ≤ k ∧ (e = [] ∨ k < e)) key _)
  trans visible (find key (merge ranged)) = some value
  · rw [visible_eq_some]
    constructor
    · intro hrow
      obtain ⟨⟨k, v, tombstone⟩, hmem, heq⟩ := List.mem_map.mp hrow
      cases heq
      obtain ⟨hmem, hlive⟩ := List.mem_filter.mp hmem
      obtain rfl : tombstone = false := by simpa using hlive
      exact find_of_mem hmerged.nodup_keys hmem
    · intro hfound
      exact List.mem_map.mpr ⟨_, List.mem_filter.mpr ⟨mem_of_find hfound, rfl⟩, rfl⟩
  · rw [hrange]
    by_cases hin : b ≤ key ∧ (e = [] ∨ key < e) <;> simp [hin, visible]

/-- What a scan takes under its lock determines its rows: in key order, the keys of the range
whose last write so far is a put, with its value. -/
theorem World.Reachable.scan_snapshot {n : Nat} {opts : LsmOptions} {listing : Listing} {s s' : System n}
    {history : List Entry} {c : Fin n} {b e : Key} (h : Reachable opts listing (.running s history))
    (hfail : opts.failAt = .none) (hids : s.env.issued < idLimit) (hpc : s.engine.clients c = .scanCalled b e)
    (hlock : s.step opts listing (.client c) = some s') :
    ∃ memtables version, s'.engine.clients c = .scanning b e memtables version ∧
      Sorted (System.scanRows b e memtables version) ∧
      ∀ key value, (key, value) ∈ System.scanRows b e memtables version ↔
        (b ≤ key ∧ (e = [] ∨ key < e)) ∧ visible (find key (written s.trace ++ history)) = some value := by
  obtain ⟨⟨live, frozen, flushed, ⟨-, ⟨hheld, hall⟩, -⟩⟩, -⟩ := h.inv hfail hids
  have htaken := System.step_client hlock
  simp only [System.clientStep, hpc, Option.some.injEq] at htaken
  subst htaken
  have hmemtables : ∀ m ∈ s.engine.mem.map :: (s.engine.imm.map Memtable.map).toList, Sorted m := by
    intro m hm
    rcases List.mem_cons.mp hm with rfl | hm
    · exact s.engine.mem.sorted
    · obtain ⟨table, -, rfl⟩ := Option.map_eq_some_iff.mp (Option.mem_toList.mp hm)
      exact table.sorted
  obtain ⟨hsorted, hrows⟩ := System.scanRows_spec b e s.engine.current hmemtables
  refine ⟨_, _, Function.update_self _ _ _, hsorted, fun key value => ?_⟩
  have hprobe : find key (s.engine.mem.map :: (s.engine.imm.map Memtable.map).toList).flatten =
      find key (live ++ frozen) := by
    rw [← hheld.probe_eq]
    cases s.engine.imm with
    | none | some => simp [find_append, Memtable.get]
  rw [hrows, hall, ← List.append_assoc, find_append, hprobe, find_append _ _ flushed, visible_or, visible_or,
    hheld.current, hheld.levels]

/-- A scan of everything after a put. -/
theorem World.scan_snapshot_of_put : ∃ (s : System 1) (memtables : List (List Entry)) (version : Levels),
    s.engine.clients 0 = .scanning [] [] memtables version ∧
      (text "a", text "x") ∈ System.scanRows [] [] memtables version := by
  have h : ∃ r ∈ System.runFresh 1 {} (calling 0 (.put (text "a") (text "x")) 4 ++ [.call 0 (.scan [] [])]),
      r.2.engine.clients 0 = .scanCalled [] [] ∧ (r.2.step {} .asStored (.client 0)).isSome ∧
      r.2.env.issued < idLimit ∧ visible (find (text "a") (written r.2.trace ++ [])) = some (text "x") := by
    decide +kernel
  obtain ⟨_, s, hreach, pc, hlock, hids, hput⟩ := exists_reachable h
  obtain ⟨s', hlock⟩ := Option.isSome_iff_exists.mp hlock
  obtain ⟨memtables, version, hscan, -, hrows⟩ := hreach.scan_snapshot rfl hids pc hlock
  exact ⟨s', memtables, version, hscan, (hrows _ _).mpr ⟨by decide, hput⟩⟩

end KVStore
