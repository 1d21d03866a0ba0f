import KVStore.Basic
import KVStore.Lib.SortedRun

namespace KVStore

open Lib SortedRun

/-- A delete is an entry with the flag set, not an absence. -/
structure MemEntry where
  value : Value
  tombstone : Bool
  deriving DecidableEq, Repr

abbrev Entry := Key × MemEntry

/-- The key lies in the half-open range of a scan; an empty end key is no bound. -/
def inRange (beginKey endKey : Key) (e : Entry) : Bool := beginKey ≤ e.1 ∧ (endKey = [] ∨ e.1 < endKey)

def entryBytes (key : Key) (value : Value) : Nat := key.length + value.length + 64

def footprint (map : List Entry) : Nat := (map.map (fun e => entryBytes e.1 e.2.value)).sum

variable {a : Entry} {map : List Entry}

theorem find_eq_none_of_lt_head {k : Key}
    (h : Sorted (a :: map)) (hk : k < a.1) : find k (a :: map) = none := by
  refine (find_eq_none_iff _ _).mpr fun hm => ?_
  obtain ⟨b, hb, rfl⟩ := List.mem_map.mp hm
  rcases List.mem_cons.mp hb with rfl | hb
  · exact lt_irrefl _ hk
  · exact lt_asymm hk ((List.pairwise_cons.mp h).1 b hb)

theorem footprint_insert (key : Key) (e : MemEntry) (h : Sorted map) :
    footprint (SortedRun.insert key e map) +
        (find key map).elim 0 (fun old => entryBytes key old.value) =
      footprint map + entryBytes key e.value := by
  induction map with
  | nil => simp [SortedRun.insert, find, footprint]
  | cons a map ih =>
    obtain ⟨k, w⟩ := a
    rw [SortedRun.insert]
    split
    next hlt =>
      rw [find_eq_none_of_lt_head h hlt]
      simp only [footprint, List.map_cons, List.sum_cons, Option.elim_none]
      omega
    next hge =>
      split
      next he =>
        subst he
        simp only [footprint, List.map_cons, List.sum_cons, find, if_true, Option.elim_some]
        omega
      next hne =>
        have ih' := ih (List.pairwise_cons.mp h).2
        simp only [footprint, List.map_cons, List.sum_cons, find, hne, if_false] at ih' ⊢
        omega

theorem entryBytes_le_footprint (h : a ∈ map) : entryBytes a.1 a.2.value ≤ footprint map :=
  List.le_sum_of_mem (List.mem_map_of_mem (f := fun e : Entry => entryBytes e.1 e.2.value) h)

/-- The ordered map together with the size estimate kept beside it. -/
structure Memtable where
  map : List Entry
  bytes : Nat
  sorted : SortedRun.Sorted map
  accounted : bytes = footprint map

namespace Memtable

def empty : Memtable := ⟨[], 0, List.Pairwise.nil, rfl⟩

def insert (m : Memtable) (key : Key) (value : Value) (tombstone : Bool) : Memtable where
  map := SortedRun.insert key ⟨value, tombstone⟩ m.map
  bytes :=
    match SortedRun.find key m.map with
    | some old => m.bytes - entryBytes key old.value + entryBytes key value
    | none => m.bytes + entryBytes key value
  sorted := SortedRun.sorted_insert key _ m.sorted
  accounted := by
    have h := footprint_insert key ⟨value, tombstone⟩ m.sorted
    rw [← m.accounted] at h
    split
    next old hf =>
      have hold := entryBytes_le_footprint (SortedRun.mem_of_find hf)
      rw [← m.accounted] at hold
      rw [hf] at h
      simp only [Option.elim_some] at h hold
      omega
    next hf =>
      rw [hf] at h
      exact h.symm

def put (m : Memtable) (key : Key) (value : Value) : Memtable := m.insert key value false

def remove (m : Memtable) (key : Key) : Memtable := m.insert key [] true

def get (m : Memtable) (key : Key) : Option MemEntry := SortedRun.find key m.map

def isEmpty (m : Memtable) : Bool := m.map.isEmpty

def approximateBytes (m : Memtable) : Nat := m.bytes

theorem get_insert (m : Memtable) (key key' : Key) (value : Value) (tombstone : Bool) :
    (m.insert key value tombstone).get key' =
      if key' = key then some ⟨value, tombstone⟩ else m.get key' := by
  by_cases h : key' = key
  · simp [h, get, insert]
  · simp [h, get, insert, find_insert_of_ne h]

end Memtable

end KVStore
