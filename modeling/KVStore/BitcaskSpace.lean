import KVStore.BitcaskDurability
import KVStore.Lib.KeyedTotal

namespace KVStore

open Lib ReplayLog SortedRun CrashProgram KeyedTotal

namespace Keydir

def sizeIn (asked : FileId → Bool) (id : FileId) (size : Nat) : Nat := if asked id then size else 0

def liveIn (asked : FileId → Bool) (_ : Key) (p : ValuePointer) : Nat := sizeIn asked p.fileId p.size

/-- The bytes accounted for in the files that are asked about: those of the dead records,
and those of the records the index points at. -/
def held (asked : FileId → Bool) (k : Keydir) : Nat :=
  total (sizeIn asked) k.deadBytes + total (liveIn asked) k.index

variable {asked : FileId → Bool}

theorem held_markDead (k : Keydir) (id : FileId) (size : Nat) :
    (k.markDead id size).held asked = k.held asked + sizeIn asked id size := by
  have hinsert := total_insert (sizeIn asked) k.deadBytes id ((k.deadBytes.lookup id).getD 0 + size)
  unfold held markDead
  cases hdead : k.deadBytes.lookup id <;> cases hid : asked id <;> simp [hdead, hid, sizeIn] at hinsert ⊢ <;> omega

theorem held_put (k : Keydir) (key : Key) (pointer : ValuePointer) :
    (k.put key pointer).held asked = k.held asked + sizeIn asked pointer.fileId pointer.size := by
  have hinsert := total_insert (liveIn asked) k.index key pointer
  unfold put
  split
  next hnew =>
    rw [hnew] at hinsert
    simp only [held, Option.elim_none, liveIn] at hinsert ⊢
    omega
  next displaced hold =>
    rw [hold] at hinsert
    rw [held_markDead]
    simp only [held, Option.elim_some, liveIn] at hinsert ⊢
    omega

theorem held_erase (k : Keydir) (key : Key) : (k.erase key).held asked = k.held asked := by
  have herase := total_erase (liveIn asked) k.index key
  unfold erase
  split
  · rfl
  next buried hold =>
    rw [hold] at herase
    rw [held_markDead]
    simp only [held, Option.elim_some, liveIn] at herase ⊢
    omega

/-- Whatever a record displaces, it adds its own bytes to those of its file. -/
theorem held_replayRecord (id : FileId) (k : Keydir) (v : Visited) :
    (k.replayRecord id v).held asked = k.held asked + sizeIn asked id v.record.totalSize := by
  unfold replayRecord
  split
  · rw [held_markDead, held_erase]
  · rw [held_put]

theorem lookup_foldl_erase (ids : List FileId) (dead : AList fun _ : FileId => Nat) (id : FileId) :
    (ids.foldl (fun dead id => dead.erase id) dead).lookup id = if id ∈ ids then none else dead.lookup id := by
  induction ids generalizing dead with
  | nil => rfl
  | cons a ids ih =>
    rw [List.foldl_cons, ih]
    by_cases ha : id = a
    · subst ha
      simp
    · simp [ha]

variable [Crc]

theorem held_replayRecords (id : FileId) (k : Keydir) (offset : Nat) (chunks : List Intact) :
    ((visitedFrom offset chunks).foldl (replayRecord id) k).held asked =
      k.held asked + sizeIn asked id (bytesOf chunks).length := by
  induction chunks generalizing k offset with
  | nil => simp [visitedFrom, sizeIn]
  | cons c chunks ih =>
    rw [visitedFrom, List.foldl_cons, ih, held_replayRecord, bytesOf_cons, List.length_append, c.whole]
    simp only [sizeIn]
    split <;> omega

theorem held_replayFiles (files : DataFiles) (k : Keydir) :
    (k.replayFiles files).held asked =
      k.held asked + (files.map fun f => sizeIn asked f.1 (bytesOf f.2.chunks).length).sum := by
  induction files generalizing k with
  | nil => rfl
  | cons f files ih =>
    rw [replayFiles, List.foldl_cons, ← replayFiles, ih, held_replayRecords, List.map_cons, List.sum_cons]
    omega

theorem deadBytes_replayRecords {id : FileId} {k : Keydir} {offset : Nat} {chunks : List Intact}
    (hkeys : (chunks.map fun c => c.record.key).Nodup) (hlive : ∀ c ∈ chunks, c.record.isTombstone = false)
    (hnew : ∀ c ∈ chunks, k.index.lookup c.record.key = none) :
    ((visitedFrom offset chunks).foldl (replayRecord id) k).deadBytes = k.deadBytes := by
  induction chunks generalizing k offset with
  | nil => rfl
  | cons c chunks ih =>
    obtain ⟨hkey, hkeys⟩ := List.nodup_cons.mp hkeys
    obtain ⟨hc, hlive⟩ := List.forall_mem_cons.mp hlive
    obtain ⟨hfree, hnew⟩ := List.forall_mem_cons.mp hnew
    have hput : k.replayRecord id ⟨offset, c.record, c.raw⟩ =
        k.put c.record.key ⟨offset, c.record.timestamp, id, c.record.totalSize⟩ := by
      rw [replayRecord, if_neg (by simp [hc])]
    rw [visitedFrom, List.foldl_cons, hput, ih hkeys hlive fun c' hc' => ?_]
    · rw [put, hfree]
    · have hne : c'.record.key ≠ c.record.key := fun he => hkey (List.mem_map.mpr ⟨c', hc', he⟩)
      rw [lookup_put, if_neg hne, hnew c' hc']

end Keydir

open Keydir

namespace Bitcask

def allFiles (s : Bitcask) : List (FileId × LogFile) := s.sealedFiles ++ [(s.activeId, s.active)]

def totalDiskSize (s : Bitcask) : Nat := (s.allFiles.map fun f => f.2.endOffset).sum

def reclaimableBytes (s : Bitcask) : Nat := (s.keydir.deadBytes.entries.map fun e => e.2).sum

def deadBytes (s : Bitcask) (id : FileId) : Nat := (s.keydir.deadBytes.lookup id).getD 0

def liveBytes (s : Bitcask) (id : FileId) : Nat :=
  (s.keydir.index.entries.map fun e => if e.2.fileId = id then e.2.size else 0).sum

def storedIn (asked : FileId → Bool) (s : Bitcask) : Nat :=
  (s.allFiles.map fun f => sizeIn asked f.1 f.2.endOffset).sum

/-- Whichever files are asked about, their bytes are accounted for. -/
def Exact (s : Bitcask) : Prop := ∀ asked, s.keydir.held asked = s.storedIn asked

section

variable {s s₁ : Bitcask} {d d' : Directory} {id : FileId}

theorem Exact.rotated (h : Exact s) : Exact s.rotated := by
  intro asked
  have hkeydir : s.rotated.keydir = s.keydir := rfl
  rw [hkeydir, h asked]
  simp [storedIn, allFiles, Bitcask.rotated, sizeIn]

theorem Exact.rotation (h : Exact s) {r : Except Failure Unit × Bitcask} (hr : Rotation s d r d') : Exact r.2 := by
  cases hr with
  | exhausted => exact h
  | rotated => exact h.rotated

theorem Exact.before (h : Exact s) (hbefore : s₁ = s ∨ s₁ = s.rotated) : Exact s₁ := by
  rcases hbefore with rfl | rfl
  · exact h
  · exact h.rotated

theorem Exact.dead_eq_zero (h : Exact s) (hempty : s.active.endOffset = 0) {size : Nat}
    (hid : id ∉ s.sealedFiles.map Prod.fst) (hdead : s.keydir.deadBytes.lookup id = some size) : size = 0 := by
  have hstored : s.storedIn (· == id) = 0 := by
    refine List.sum_eq_zero fun n hn => ?_
    obtain ⟨f, hf, rfl⟩ := List.mem_map.mp hn
    rcases List.mem_append.mp hf with hf | hf
    · have hne : f.1 ≠ id := fun he => hid (he ▸ List.mem_map_of_mem hf)
      simp [sizeIn, hne]
    · simp [List.mem_singleton.mp hf, sizeIn, hempty]
  have hle : size ≤ total (sizeIn (· == id)) s.keydir.deadBytes := by
    simpa [sizeIn] using le_total (f := sizeIn (· == id)) hdead
  have hheld : total _ s.keydir.deadBytes + total _ s.keydir.index = 0 := (h (· == id)).trans hstored
  omega

theorem reclaimableBytes_eq_zero (h : ∀ id size, s.keydir.deadBytes.lookup id = some size → size = 0) :
    s.reclaimableBytes = 0 :=
  total_eq_zero (f := fun _ size => size) h

theorem Exact.totalDiskSize (h : Exact s) :
    s.totalDiskSize = s.reclaimableBytes + total (liveIn fun _ => true) s.keydir.index :=
  (h fun _ => true).symm

theorem dead_single (s : Bitcask) (id : FileId) : total (sizeIn (· == id)) s.keydir.deadBytes = s.deadBytes id := by
  refine (total_single s.keydir.deadBytes (fun size => size) id).trans ?_
  unfold deadBytes
  cases s.keydir.deadBytes.lookup id <;> rfl

theorem Exact.file (h : Exact s) (id : FileId) : s.deadBytes id + s.liveBytes id = s.storedIn (· == id) := by
  rw [← h (· == id), held, dead_single, liveBytes]
  simp [total, liveIn, sizeIn]

end

section Store

variable [Crc] {s s₁ s' : Bitcask} {d d' : Directory} {history : List Write} {sealedOnes : DataFiles}
  {active : DataFile} {k k' : Keydir} {outId : FileId}

theorem Exact.recorded (h : Exact s) (hr : Recorded s s') : Exact s' := by
  cases hr with
  | refused => exact h
  | written c offset before =>
    intro asked
    have hheld := h.before before asked
    rw [held_replayRecord, hheld, ← c.whole]
    simp only [storedIn, allFiles, appended, sizeIn, List.map_append, List.map_cons, List.map_nil, List.sum_append,
      List.sum_cons, List.sum_nil]
    split <;> omega

theorem exact_replayedStore (opts : BitcaskOptions) (sealedOnes : DataFiles) (activeId : FileId)
    (active : DataFile) : Exact (replayedStore opts sealedOnes activeId active) := by
  intro asked
  rw [replayedStore, held_replayFiles]
  simp [held, empty, total, storedIn, allFiles, openedFiles, openedFile, Function.comp_def]

theorem StoreInv.storedIn (h : StoreInv s d sealedOnes active history) (asked : FileId → Bool) :
    s.storedIn asked =
      ((sealedOnes ++ [(s.activeId, active)]).map fun f => sizeIn asked f.1 (bytesOf f.2.chunks).length).sum := by
  rw [Bitcask.storedIn, allFiles, h.describes.sealedFiles, h.describes.active]
  simp [openedFiles, openedFile, Function.comp_def]

theorem StoreInv.storedIn_single (h : StoreInv s d sealedOnes active history) (id : FileId) :
    s.storedIn (· == id) = d.size (.log id) := by
  have hsum := sum_eq_find h.durable.files.ascending.nodup_keys (fun c => (bytesOf c.chunks).length) id
  rw [h.storedIn, Directory.size, h.durable.files.stored]
  refine hsum.trans ?_
  cases hf : find id (sealedOnes ++ [(s.activeId, active)]) with
  | none => rfl
  | some c =>
    have htail : c.tail = [] := by
      rcases List.mem_append.mp (mem_of_find hf) with hmem | hmem
      · exact h.durable.whole _ hmem
      · cases List.mem_singleton.mp hmem
        exact h.clean
    simp [DataFile.bytes, htail]

section Compact

theorem nodup_placed (hsorted : Sorted sealedOnes) : (placed sealedOnes).Nodup := by
  refine List.nodup_flatMap.mpr ⟨fun f _ => ?_, ?_⟩
  · exact (offset_pairwise f.1 0 f.2.chunks).imp fun hlt heq => hlt.ne (congrArg Placed.offset heq)
  · refine hsorted.imp fun {f f'} hlt p hp hp' => ?_
    exact hlt.ne ((of_mem_placedFrom hp).1.symm.trans (of_mem_placedFrom hp').1)

section

variable (hsorted : Sorted sealedOnes) (hindex : Indexes k (placed sealedOnes))
include hsorted hindex

theorem nodup_liveChunks : ((liveChunks k (placed sealedOnes)).map fun c => c.record.key).Nodup := by
  rw [liveChunks, List.map_map]
  refine List.Nodup.map_on (fun p hp q hq hkey => ?_) ((nodup_placed hsorted).filter _)
  obtain ⟨hp, hlive⟩ := List.mem_filter.mp hp
  obtain ⟨hq, hlive'⟩ := List.mem_filter.mp hq
  have hcurrent := (isLive_iff hsorted hindex hp).mp hlive
  have hkey : p.key = q.key := hkey
  rw [hkey, (isLive_iff hsorted hindex hq).mp hlive'] at hcurrent
  exact (Option.some.inj hcurrent).symm

variable (hmoved : Indexes k' (placedFrom outId 0 (liveChunks k (placed sealedOnes))))
include hmoved

/-- One record of each key is left, so replaying the merged file displaces nothing. -/
theorem total_moved (asked : FileId → Bool) :
    total (liveIn asked) k'.index = sizeIn asked outId (bytesOf (liveChunks k (placed sealedOnes))).length := by
  have hreplay := Indexes.nil.replayRecords outId 0 (liveChunks k (placed sealedOnes))
  have hheld := @held_replayRecords asked _ outId .empty 0 (liveChunks k (placed sealedOnes))
  have hdead := @deadBytes_replayRecords _ outId .empty 0 _ (nodup_liveChunks hsorted hindex)
    (fun c hc => gone_of_liveChunks hc) fun _ _ => rfl
  rw [held, hdead, total_congr fun key => congrArg _ ((hreplay key).trans (hmoved key).symm)] at hheld
  simpa [held, Keydir.empty, total] using hheld

theorem total_kept : total (liveIn fun _ => true) k.index = (bytesOf (liveChunks k (placed sealedOnes))).length := by
  refine Eq.trans (total_congr fun key => ?_) (total_moved hsorted hindex hmoved fun _ => true)
  have hsize := congrArg (Option.map fun c : Intact => c.record.totalSize) (newest_merged outId hsorted hindex key)
  rw [Option.map_map, Option.map_map] at hsize
  rw [hindex, hmoved, currentAt_copied, Option.map_map, Option.map_map]
  exact hsize.symm

end

/-- What a compaction is for: no dead byte is left, the files shrink by what was dead, and there is
nothing for another compaction to do. -/
structure Tidied (s s' : Bitcask) : Prop where
  reclaimed : s'.reclaimableBytes = 0
  shrunk : s'.totalDiskSize + s.reclaimableBytes = s.totalDiskSize
  settled : s'.compact = .ret (.ok (), s')

theorem compact_of_idle (hempty : s.active.endOffset = 0) (hidle : s.Idle) : s.compact = .ret (.ok (), s) := by
  have hskip : ¬ 0 < s.active.endOffset := by omega
  rw [compact, if_neg hskip]
  show s.mergeSealed = _
  unfold mergeSealed
  unfold Idle at hidle
  split
  · rfl
  next outId out others hsealed =>
    rw [hsealed] at hidle
    rw [if_pos hidle]

section

variable (h : Exact s) (hempty : s.active.endOffset = 0)
include h hempty

theorem Exact.tidied_of_idle (hidle : s.Idle) : Tidied s s := by
  have hnone : s.reclaimableBytes = 0 := by
    refine reclaimableBytes_eq_zero fun id size hdead => ?_
    unfold Idle at hidle
    split at hidle
    next hsealed => exact h.dead_eq_zero hempty (by rw [hsealed]; exact List.not_mem_nil) hdead
    next outId _ others hsealed =>
      obtain ⟨rfl, hout⟩ := hidle
      by_cases hid : id = outId
      · rw [← hid, hdead] at hout
        exact hout
      · exact h.dead_eq_zero hempty (by simpa [hsealed] using hid) hdead
  exact ⟨hnone, by rw [hnone, Nat.add_zero], compact_of_idle hempty hidle⟩

theorem Exact.compacted {copied : List Intact} {staged : AList fun _ : Key => ValuePointer}
    (hsorted : Sorted sealedOnes) (hindex : Indexes s.keydir (placed sealedOnes))
    (hcopied : copied = liveChunks s.keydir (placed sealedOnes)) (hstaged : Staged staged outId copied) :
    Exact (s.compacted outId copied staged) ∧ Tidied s (s.compacted outId copied staged) := by
  generalize hc : s.compacted outId copied staged = s'
  have hkeydir : s'.keydir = (s.adopt (s.sealedFiles.map Prod.fst) staged).keydir := hc ▸ rfl
  have hsealed : s'.sealedFiles = [(outId, openedFile s.options.syncMode outId ⟨copied, []⟩)] := hc ▸ rfl
  have hdead : ∀ id size, s'.keydir.deadBytes.lookup id = some size → size = 0 := by
    intro id size hsize
    rw [hkeydir, adopt, lookup_foldl_erase] at hsize
    split_ifs at hsize with hid
    exact h.dead_eq_zero hempty hid hsize
  have hmoved : Indexes s'.keydir (placedFrom outId 0 (liveChunks s.keydir (placed sealedOnes))) := by
    rw [hkeydir]
    exact Indexes.adopted hsorted hindex (hcopied ▸ hstaged) _
  have hexact : Exact s' := by
    intro asked
    have hzero : total (sizeIn asked) s'.keydir.deadBytes = 0 :=
      total_eq_zero fun id size hsize => by simp [sizeIn, hdead id size hsize]
    rw [held, hzero, total_moved hsorted hindex hmoved, storedIn, allFiles, hsealed, ← hcopied]
    simp [sizeIn, openedFile, show s'.active.endOffset = 0 from hc ▸ hempty]
  refine ⟨hexact, reclaimableBytes_eq_zero hdead, ?_, compact_of_idle (hc ▸ hempty) ?_⟩
  · rw [h.totalDiskSize, hexact.totalDiskSize, reclaimableBytes_eq_zero hdead, Nat.zero_add, Nat.add_comm,
      total_moved hsorted hindex hmoved, total_kept hsorted hindex hmoved]
    rfl
  · rw [Idle, hsealed]
    refine ⟨rfl, ?_⟩
    cases hout : s'.keydir.deadBytes.lookup outId with
    | none => rfl
    | some size => exact hdead outId size hout

end

theorem Tidied.before (hbefore : s₁ = s ∨ s₁ = s.rotated) (h : Tidied s₁ s') : Tidied s s' := by
  rcases hbefore with rfl | rfl
  · exact h
  · refine ⟨h.reclaimed, h.shrunk.trans ?_, h.settled⟩
    simp [totalDiskSize, allFiles, rotated]

theorem Exact.compaction (h : Exact s) {r : Except Failure Unit × Bitcask} (hr : Compaction s d history r d') :
    Exact r.2 ∧ (r.1 = .ok () → Tidied s r.2) := by
  cases hr with
  | exhausted => exact ⟨h, fun hok => by cases hok⟩
  | merged before inv merged =>
    have h₁ := h.before before
    have hempty := congrArg LogFile.endOffset inv.describes.active
    cases merged with
    | idle idle => exact ⟨h₁, fun _ => (h₁.tidied_of_idle hempty idle).before before⟩
    | merged busy inputs small moved =>
      have hindex := inv.index
      rw [placed_empty_active] at hindex
      obtain ⟨hexact, htidied⟩ := h₁.compacted hempty inv.durable.files.sealed_ascending hindex rfl moved
      exact ⟨hexact, fun _ => htidied.before before⟩

end Compact

namespace World

def SpaceInv (listing : Listing) : World → Prop
  | .running s _ _ => Exact s
  | .busy s call io d landed _ =>
      Tracked listing Legal (fun _ => True)
        (fun r _ => Exact r.2 ∧ (call = .compact → r.1 = .ok () → Tidied s r.2)) io (d, landed)
  | _ => True

variable {listing : Listing} {w w' : World}

theorem tracked_program_space (h : StoreInv s d sealedOnes active history) (hexact : Exact s)
    (hfail : s.options.failAt = .none) (hl : Legal d) (call : Call) :
    Tracked listing Legal (fun _ => True)
      (fun r _ => Exact r.2 ∧ (call = .compact → r.1 = .ok () → Tidied s r.2)) (call.program s) (d, false) := by
  cases call with
  | put key value now =>
    refine ((tracked_writing_recorded h (writing_put s key value now) hl).imp fun _ _ => trivial).mono ?_
    exact fun r t hr => ⟨hexact.recorded hr.2.2, fun hcall => by cases hcall⟩
  | remove key now =>
    refine ((tracked_writing_recorded h (writing_remove s key now) hl).imp fun _ _ => trivial).mono ?_
    exact fun r t hr => ⟨hexact.recorded hr.2.2, fun hcall => by cases hcall⟩
  | rotate =>
    refine ((tracked_of_alone (alone_rotate_storeInv h hl) false).imp fun _ _ => trivial).mono ?_
    exact fun r t hr => ⟨hexact.rotation hr, fun hcall => by cases hcall⟩
  | compact =>
    refine ((tracked_of_alone (alone_compact_storeInv h hfail hl) false).imp fun _ _ => trivial).mono ?_
    exact fun r t hr => ⟨(hexact.compaction hr).1, fun _ => (hexact.compaction hr).2⟩

theorem SpaceInv.returned {call : Call} {landed : Bool} {r : Except Failure Unit × Bitcask}
    (h : (World.busy s call (.ret r) d landed history).SpaceInv listing) (hl : Legal d) :
    Exact r.2 ∧ (call = .compact → r.1 = .ok () → Tidied s r.2) :=
  (h (d, landed) rfl hl).2

theorem SpaceInv.step (hinv : w.Inv listing) (h : w.SpaceInv listing) (hstep : Step listing w w') :
    w'.SpaceInv listing := by
  cases hstep with
  | openStore | replay | refused | crash => trivial
  | opened =>
    obtain ⟨_, _, hio⟩ := hinv
    obtain ⟨sealedOnes, activeId, active, hr, _⟩ := hio.returned (fun _ => rfl) trivial
    cases hr
    exact exact_replayedStore _ _ _ _
  | call call =>
    obtain ⟨hfail, hl, sealedOnes, active, hs⟩ := hinv
    exact tracked_program_space hs h hfail hl call
  | work legal => exact Guarded.stepped (fun _ => rfl) h hinv.2.1 legal
  | acknowledged | failed => exact (h.returned hinv.2.1).1

theorem Reachable.spaceInv (h : Reachable listing w) : w.SpaceInv listing := by
  induction h with
  | start => trivial
  | step reached next ih => exact ih.step reached.inv next

/-- In every life of a directory, the bytes of each data file are its dead ones and its live ones. -/
theorem Reachable.space_exact (h : Reachable listing (.running s d history)) :
    (∀ id, s.deadBytes id + s.liveBytes id = d.size (.log id)) ∧
      s.totalDiskSize = s.reclaimableBytes + (s.keydir.index.entries.map fun e => e.2.size).sum := by
  have hexact : Exact s := h.spaceInv
  obtain ⟨_, _, sealedOnes, active, hs⟩ := h.inv
  exact ⟨fun id => (hexact.file id).trans (hs.storedIn_single id), hexact.totalDiskSize⟩

theorem Reachable.compact_tidies {landed : Bool}
    (h : Reachable listing (.busy s .compact (.ret (.ok (), s')) d landed history)) : Tidied s s' :=
  (h.spaceInv.returned h.inv.2.1).2 rfl rfl

theorem Reachable.reopen_keeps_space (h : Reachable listing (.running s d history)) (opts : BitcaskOptions) :
    ∃ s' d', (recover opts).run (machine listing) d = (.ok s', d') ∧
      (∀ key, s'.keydir.index.lookup key = s.keydir.index.lookup key) ∧
      (∀ id, s'.deadBytes id = s.deadBytes id) ∧ s'.reclaimableBytes = s.reclaimableBytes ∧
      s'.totalDiskSize = s.totalDiskSize := by
  have hexact : Exact s := h.spaceInv
  obtain ⟨_, _, sealedOnes, ⟨chunks, tail⟩, hs⟩ := h.inv
  obtain rfl : tail = [] := hs.clean
  have hopen : Alone listing (fun _ => True) (fun d => Recoverable d history)
    (ReopenedTo opts sealedOnes s.activeId ⟨chunks, []⟩ history) (recover opts) d := hs.durable.alone_reopen
  obtain ⟨hrun, hs'⟩ := hopen.alone_run (fun _ _ hl => hl) trivial
  generalize hs₁ : replayedStore opts sealedOnes s.activeId ⟨chunks, []⟩ = s' at hrun hs'
  have hexact' : Exact s' := hs₁ ▸ exact_replayedStore _ _ _ _
  have hid : s'.activeId = s.activeId := hs₁ ▸ rfl
  have hindex : ∀ key, s'.keydir.index.lookup key = s.keydir.index.lookup key := fun key =>
    (hid ▸ hs'.index key).trans (hs.index key).symm
  have hstored : ∀ asked, s'.storedIn asked = s.storedIn asked := fun asked => by
    rw [hs'.storedIn, hs.storedIn, hid]
  have hdead : ∀ asked, total (sizeIn asked) s'.keydir.deadBytes = total (sizeIn asked) s.keydir.deadBytes := by
    intro asked
    have hheld := (hexact' asked).trans ((hstored asked).trans (hexact asked).symm)
    rw [held, held, total_congr fun key => congrArg _ (hindex key)] at hheld
    omega
  refine ⟨s', _, Prod.ext hrun rfl, hindex, fun id => ?_, hdead fun _ => true, hstored fun _ => true⟩
  rw [← dead_single, hdead, dead_single]

/-- Opening a store by the hints or by the records alone makes no difference to what it holds in memory. -/
theorem Reachable.hints_agree (h : Reachable listing w) (hd : w.Leaves d) (opts : BitcaskOptions) :
    ∃ (s : Bitcask) (d₁ d₂ : Directory),
      (recover { opts with ignoreHints := false }).run (machine listing) d =
        (.ok { s with options := { opts with ignoreHints := false } }, d₁) ∧
      (recover { opts with ignoreHints := true }).run (machine listing) d =
        (.ok { s with options := { opts with ignoreHints := true } }, d₂) := by
  obtain ⟨sealedOnes, activeId, active, hopen⟩ := @Recoverable.alone_reopen _ listing _ _ (h.inv.leaves hd).1
  have hrun : ∀ opts', ((recover opts').run (machine listing) d).1 =
      .ok (replayedStore opts' sealedOnes activeId active) := fun opts' =>
    ((hopen opts').alone_run (fun _ _ hl => hl) trivial).1
  exact ⟨replayedStore opts sealedOnes activeId active, _, _, Prod.ext (hrun _) rfl, Prod.ext (hrun _) rfl⟩

end World

end Store

namespace World

def putTwice : List (Call × Nat) := [(.put (text "a") (text "x") 0, 3), (.put (text "a") (text "z") 0, 3)]

def compacted : World → Option Bitcask
  | .busy s .compact (.ret (.ok _, _)) _ _ _ => some s
  | _ => none

theorem space_exact_put_twice : ∃ (s : Bitcask) (d : Directory) (history : List Write),
    Reachable .asStored (.running s d history) ∧ s.deadBytes 1 = 23 ∧
      s.deadBytes 1 + s.liveBytes 1 = d.size (.log 1) := by
  have h : ∃ w ∈ runFresh {} putTwice, w.Running fun s _ _ => s.deadBytes 1 = 23 := by decide +kernel
  obtain ⟨s, d, history, hreach, hdead⟩ := exists_running rfl h
  exact ⟨s, d, history, hreach, hdead, hreach.space_exact.1 1⟩

theorem compact_tidies_put_twice : ∃ (s s' : Bitcask) (d : Directory) (landed : Bool) (history : List Write),
    Reachable .asStored (.busy s .compact (.ret (.ok (), s')) d landed history) ∧ s.reclaimableBytes = 23 ∧
      Tidied s s' := by
  have h : ∃ w ∈ runFresh {} (putTwice ++ [(.compact, 24)]), ∃ s ∈ w.compacted, s.reclaimableBytes = 23 := by
    decide +kernel
  obtain ⟨w, hw, s, hs, hdead⟩ := h
  have hreach := reachable_of_runFresh rfl hw
  unfold compacted at hs
  split at hs <;> cases hs
  exact ⟨_, _, _, _, _, hreach, hdead, hreach.compact_tidies⟩

theorem reopen_keeps_space_put_twice :
    ∃ (s s' : Bitcask) (d d' : Directory) (history : List Write), Reachable .asStored (.running s d history) ∧
      (recover {}).run (machine .asStored) d = (.ok s', d') ∧ s.reclaimableBytes = 23 ∧
      s'.reclaimableBytes = s.reclaimableBytes := by
  have h : ∃ w ∈ runFresh {} putTwice, w.Running fun s _ _ => s.reclaimableBytes = 23 := by decide +kernel
  obtain ⟨s, d, history, hreach, hdead⟩ := exists_running rfl h
  obtain ⟨s', d', hrun, _, _, hsame, _⟩ := hreach.reopen_keeps_space {}
  exact ⟨s, s', d, d', history, hreach, hrun, hdead, hsame⟩

/-- The merge has left a hint. -/
theorem hints_agree_put_twice :
    ∃ (s s' : Bitcask) (d d' : Directory) (history : List Write), Reachable .asStored (.running s d history) ∧
      d.size (.hint 1) = 53 ∧ (recover {}).run (machine .asStored) d = (.ok { s' with options := {} }, d') := by
  have h : ∃ w ∈ runFresh {} (putTwice ++ [(.compact, 25)]), w.Running fun _ d _ => d.size (.hint 1) = 53 := by
    decide +kernel
  obtain ⟨s, d, history, hreach, hhint⟩ := exists_running rfl h
  obtain ⟨s', d', _, hrun, _⟩ := hreach.hints_agree (.whole _) {}
  exact ⟨s, s', d, d', history, hreach, hhint, hrun⟩

end World

end Bitcask

end KVStore
