import KVStore.BitcaskCompact
import KVStore.Lib.ReplayLog

namespace KVStore

open Lib ReplayLog SortedRun

/-- A write as the caller sees it; `none` deletes the key. -/
structure Write where
  key : Key
  value : Option Value
  deriving DecidableEq

def valueAfter (key : Key) (history : List Write) : Option Value :=
  (ReplayLog.newest Write.key key history).bind Write.value

theorem valueAfter_concat (key : Key) (history : List Write) (w : Write) :
    valueAfter key (history ++ [w]) = if w.key = key then w.value else valueAfter key history := by
  unfold valueAfter
  rw [newest_concat]
  split <;> rfl

namespace Keydir

theorem index_markDead (k : Keydir) (id : FileId) (size : Nat) : (k.markDead id size).index = k.index :=
  rfl

theorem lookup_put (k : Keydir) (key key' : Key) (pointer : ValuePointer) :
    (k.put key pointer).index.lookup key' = if key' = key then some pointer else k.index.lookup key' := by
  have hindex : (k.put key pointer).index = k.index.insert key pointer := by
    unfold put
    split <;> rfl
  rw [hindex]
  by_cases h : key' = key
  · subst h
    rw [AList.lookup_insert, if_pos rfl]
  · rw [AList.lookup_insert_ne h, if_neg h]

theorem lookup_erase (k : Keydir) (key key' : Key) :
    (k.erase key).index.lookup key' = if key' = key then none else k.index.lookup key' := by
  unfold erase
  split
  next h =>
    by_cases hk : key' = key
    · rw [if_pos hk, hk, h]
    · rw [if_neg hk]
  next buried _ =>
    rw [index_markDead]
    by_cases hk : key' = key
    · subst hk
      rw [AList.lookup_erase, if_pos rfl]
    · rw [AList.lookup_erase_ne hk, if_neg hk]

end Keydir

structure Placed [Crc] where
  fileId : FileId
  offset : Nat
  chunk : Intact

variable [Crc]

namespace Placed

def key (p : Placed) : Key := p.chunk.record.key
def gone (p : Placed) : Bool := p.chunk.record.isTombstone
def value (p : Placed) : Value := p.chunk.record.value

def pointer (p : Placed) : ValuePointer :=
  ⟨p.offset, p.chunk.record.timestamp, p.fileId, p.chunk.record.totalSize⟩

def entry (p : Placed) : Hint.Entry :=
  ⟨p.chunk.record.timestamp, p.offset, p.chunk.record.totalSize, p.chunk.record.key⟩

def visited (p : Placed) : Visited := ⟨p.offset, p.chunk.record, p.chunk.raw⟩

theorem lookup_replayRecord (p : Placed) (k : Keydir) (key : Key) :
    (k.replayRecord p.fileId p.visited).index.lookup key =
      if key = p.key then (if p.gone then none else some p.pointer) else k.index.lookup key := by
  unfold Keydir.replayRecord
  cases hp : p.visited.record.isTombstone with
  | true =>
    have hgone : p.gone = true := hp
    rw [if_pos rfl, Keydir.index_markDead, Keydir.lookup_erase, if_pos hgone]
    rfl
  | false =>
    have hgone : ¬ p.gone = true := ne_true_of_eq_false hp
    rw [if_neg Bool.false_ne_true, Keydir.lookup_put, if_neg hgone]
    rfl

end Placed

def Intact.write (c : Intact) : Write :=
  ⟨c.record.key, if c.record.isTombstone then none else some c.record.value⟩

def placedFrom (id : FileId) : Nat → List Intact → List Placed
  | _, [] => []
  | offset, c :: chunks => ⟨id, offset, c⟩ :: placedFrom id (offset + c.raw.length) chunks

theorem placedFrom_append (id : FileId) (offset : Nat) (chunks chunks' : List Intact) :
    placedFrom id offset (chunks ++ chunks') =
      placedFrom id offset chunks ++ placedFrom id (offset + (bytesOf chunks).length) chunks' := by
  induction chunks generalizing offset with
  | nil => rfl
  | cons c chunks ih =>
    rw [List.cons_append, placedFrom, ih, placedFrom, bytesOf_cons, List.length_append, Nat.add_assoc,
      List.cons_append]

def entriesFrom : Nat → List Intact → List Hint.Entry
  | _, [] => []
  | offset, c :: chunks =>
    Placed.entry ⟨0, offset, c⟩ :: entriesFrom (offset + c.raw.length) chunks

theorem entriesFrom_append (offset : Nat) (chunks chunks' : List Intact) :
    entriesFrom offset (chunks ++ chunks') =
      entriesFrom offset chunks ++ entriesFrom (offset + (bytesOf chunks).length) chunks' := by
  induction chunks generalizing offset with
  | nil => rfl
  | cons c chunks ih =>
    rw [List.cons_append, entriesFrom, ih, entriesFrom, bytesOf_cons, List.length_append, Nat.add_assoc,
      List.cons_append]

variable {p : Placed} {files : DataFiles}

theorem of_mem_placedFrom {id : FileId} {offset : Nat} {chunks : List Intact}
    (h : p ∈ placedFrom id offset chunks) :
    p.fileId = id ∧ offset ≤ p.offset ∧
      ∃ rest, (bytesOf chunks).drop (p.offset - offset) = p.chunk.raw ++ rest := by
  induction chunks generalizing offset with
  | nil => cases h
  | cons c chunks ih =>
    rcases List.mem_cons.mp h with rfl | h
    · refine ⟨rfl, le_rfl, bytesOf chunks, ?_⟩
      rw [Nat.sub_self, List.drop_zero, bytesOf_cons]
    · obtain ⟨hid, hle, rest, hrest⟩ := ih h
      refine ⟨hid, (Nat.le_add_right ..).trans hle, rest, ?_⟩
      have hoff : p.offset - offset = c.raw.length + (p.offset - (offset + c.raw.length)) := by omega
      rw [hoff, ← List.drop_drop, bytesOf_cons, List.drop_left, hrest]

theorem offset_pairwise (id : FileId) (offset : Nat) (chunks : List Intact) :
    (placedFrom id offset chunks).Pairwise fun p q => p.offset < q.offset := by
  induction chunks generalizing offset with
  | nil => exact .nil
  | cons c chunks ih =>
    refine List.Pairwise.cons (fun p hp => ?_) (ih _)
    have hle := (of_mem_placedFrom hp).2.1
    have hpos := c.length_pos
    show offset < p.offset
    omega

/-- The contents of a data file: its records and what follows them. -/
structure DataFile where
  chunks : List Intact
  tail : Bytes

abbrev DataFiles := List (FileId × DataFile)

def DataFile.bytes (c : DataFile) : Bytes := bytesOf c.chunks ++ c.tail

def placed (files : List (FileId × DataFile)) : List Placed :=
  files.flatMap fun f => placedFrom f.1 0 f.2.chunks

@[simp] theorem placed_nil : placed [] = [] := rfl

@[simp] theorem placed_cons (f : FileId × DataFile) (files : DataFiles) :
    placed (f :: files) = placedFrom f.1 0 f.2.chunks ++ placed files := rfl

@[simp] theorem placed_append (files files' : DataFiles) :
    placed (files ++ files') = placed files ++ placed files' := List.flatMap_append

theorem of_mem_placed (h : p ∈ placed files) :
    ∃ c, (p.fileId, c) ∈ files ∧ p ∈ placedFrom p.fileId 0 c.chunks := by
  obtain ⟨f, hf, hp⟩ := List.mem_flatMap.mp h
  have hid := (of_mem_placedFrom hp).1
  exact ⟨f.2, hid ▸ hf, hid ▸ hp⟩

theorem eq_of_same_place (hsorted : Sorted files)
    {p q : Placed} (hp : p ∈ placed files) (hq : q ∈ placed files) (hid : p.fileId = q.fileId)
    (hoffset : p.offset = q.offset) : p = q := by
  obtain ⟨c, hc, hp⟩ := of_mem_placed hp
  obtain ⟨c', hc', hq⟩ := of_mem_placed hq
  rw [← hid] at hc' hq
  have hsame := (find_of_mem hsorted.nodup_keys hc).symm.trans
    (find_of_mem hsorted.nodup_keys hc')
  cases hsame
  have hnodup : ((placedFrom p.fileId 0 c.chunks).map Placed.offset).Nodup :=
    List.pairwise_map.mpr ((offset_pairwise p.fileId 0 c.chunks).imp fun h => h.ne)
  exact List.inj_on_of_nodup_map hnodup hp hq hoffset

abbrev currentAt (key : Key) (ps : List Placed) : Option Placed :=
  ReplayLog.current Placed.key Placed.gone key ps

/-- The index points at the deciding record of every key. -/
def Indexes (k : Keydir) (ps : List Placed) : Prop :=
  ∀ key, k.index.lookup key = (currentAt key ps).map Placed.pointer

theorem currentAt_concat (key : Key) (ps : List Placed) (p : Placed) :
    currentAt key (ps ++ [p]) =
      if p.key = key then (if p.gone then none else some p) else currentAt key ps := by
  unfold currentAt current
  rw [newest_concat]
  by_cases h : p.key = key
  · cases hg : p.gone <;> simp [h, hg]
  · simp [h]

namespace Indexes

variable {k : Keydir} {ps : List Placed}

theorem nil : Indexes .empty [] := fun _ => rfl

theorem replayRecord (h : Indexes k ps) (p : Placed) :
    Indexes (k.replayRecord p.fileId p.visited) (ps ++ [p]) := by
  intro key
  rw [p.lookup_replayRecord, currentAt_concat, h key]
  by_cases hk : p.key = key
  · rw [if_pos hk, if_pos hk.symm]
    cases p.gone <;> rfl
  · rw [if_neg hk, if_neg (Ne.symm hk)]

theorem replayRecords (h : Indexes k ps) (id : FileId) (offset : Nat) (chunks : List Intact) :
    Indexes ((visitedFrom offset chunks).foldl (Keydir.replayRecord id) k)
      (ps ++ placedFrom id offset chunks) := by
  induction chunks generalizing k ps offset with
  | nil => simpa [visitedFrom, placedFrom] using h
  | cons c chunks ih =>
    have hnext := ih (h.replayRecord ⟨id, offset, c⟩) (offset + c.raw.length)
    rwa [List.append_assoc] at hnext

theorem replayEntries (id : FileId) (k : Keydir) {offset : Nat} {chunks : List Intact}
    (hlive : ∀ c ∈ chunks, c.record.isTombstone = false) :
    (entriesFrom offset chunks).foldl (Keydir.replayEntry id) k =
      (visitedFrom offset chunks).foldl (Keydir.replayRecord id) k := by
  induction chunks generalizing k offset with
  | nil => rfl
  | cons c chunks ih =>
    obtain ⟨hc, hrest⟩ := List.forall_mem_cons.mp hlive
    have hstep : Keydir.replayEntry id k (Placed.entry ⟨0, offset, c⟩) =
        Keydir.replayRecord id k ⟨offset, c.record, c.raw⟩ := by
      simp [Keydir.replayRecord, hc, Keydir.replayEntry, Placed.entry]
    rw [entriesFrom, List.foldl_cons, hstep, ih _ hrest, visitedFrom, List.foldl_cons]

end Indexes

end KVStore
