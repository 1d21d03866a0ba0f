import KVStore.BitcaskDurability
import KVStore.BitcaskShortWrite

namespace KVStore.Bitcask

open Lib SortedRun CrashProgram

variable [Crc]

/-- The index leads every key to a record with the value the history gives it. -/
def Serves (k : Keydir) (ps : List Placed) (history : List Write) : Prop :=
  ∀ key, ∃ found : Option Placed, k.index.lookup key = found.map Placed.pointer ∧
    (∀ p, found = some p → p ∈ ps ∧ p.key = key ∧ p.gone = false) ∧
    found.map Placed.value = valueAfter key history

namespace Serves

variable {k : Keydir} {ps ps' : List Placed} {history : List Write}

theorem of_indexes (h : Indexes k ps) (hanswers : Answers ps history) : Serves k ps history :=
  fun key => ⟨currentAt key ps, h key, fun _ hp => ReplayLog.of_current hp, hanswers key⟩

theorem mono (h : Serves k ps history) (hsub : ∀ p ∈ ps, p ∈ ps') : Serves k ps' history := by
  intro key
  obtain ⟨found, hlookup, hfound, hvalue⟩ := h key
  exact ⟨found, hlookup, fun p hp => ⟨hsub p (hfound p hp).1, (hfound p hp).2⟩, hvalue⟩

theorem replayRecord (h : Serves k ps history) (p : Placed) :
    Serves (k.replayRecord p.fileId p.visited) (ps ++ [p]) (history ++ [p.chunk.write]) := by
  intro key
  have hkey : p.chunk.write.key = p.key := rfl
  rw [valueAfter_concat, p.lookup_replayRecord, hkey]
  by_cases hk : p.key = key
  · refine ⟨if p.gone then none else some p, ?_, ?_, ?_⟩
    · rw [if_pos hk.symm]
      cases p.gone <;> rfl
    · intro q hq
      cases hp : p.gone with
      | true => simp [hp] at hq
      | false =>
        obtain rfl : p = q := by simpa [hp] using hq
        exact ⟨List.mem_append_right _ (List.mem_singleton_self _), hk, hp⟩
    · rw [if_pos hk, Intact.write, ← Placed.gone, ← Placed.value]
      cases p.gone <;> rfl
  · obtain ⟨found, hlookup, hfound, hvalue⟩ := h key
    refine ⟨found, ?_, fun q hq => ⟨List.mem_append_left _ (hfound q hq).1, (hfound q hq).2⟩, ?_⟩
    · rw [if_neg (Ne.symm hk), hlookup]
    · rw [if_neg hk, hvalue]

end Serves

/-- An open store that serves `history` and logs `logged`: the writes that failed after they
reached the disk are not served. Some sealed files may be closed, and the index leads to none
of those. -/
structure HeldInv (opts : BitcaskOptions) (isOpen : FileId → Bool) (s : Bitcask) (d : Directory)
    (sealedOnes : List (FileId × DataFile)) (active : DataFile) (history logged : List Write) : Prop where
  options : s.options = opts
  held : s.sealedFiles = heldFiles s.options.syncMode isOpen sealedOnes
  opened : s.active = openedFile s.options.syncMode s.activeId active
  newer : ∀ id, s.activeId ≤ id → isOpen id = true
  durable : Durable d sealedOnes s.activeId active logged
  clean : active.tail = []
  serves : Serves s.keydir (placed (sealedOnes ++ [(s.activeId, active)])) history
  pointed : ∀ key pointer, s.keydir.index.lookup key = some pointer → isOpen pointer.fileId = true

variable {listing : Listing} {opts : BitcaskOptions} {isOpen : FileId → Bool} {s s' : Bitcask} {d d' : Directory}
  {sealedOnes : DataFiles} {active : DataFile} {history history' logged : List Write} {r : Except Failure Unit}

theorem StoreInv.held (h : StoreInv s d sealedOnes active history) :
    HeldInv s.options (fun _ => true) s d sealedOnes active history history where
  options := rfl
  held := h.describes.held
  opened := h.describes.active
  newer := fun _ _ => rfl
  durable := h.durable
  clean := h.clean
  serves := .of_indexes h.index h.durable.answers
  pointed := fun _ _ _ => rfl

section

variable (h : HeldInv opts isOpen s d sealedOnes active history logged)
include h

theorem HeldInv.active_open : s.active.isOpen = true := by
  rw [h.opened]
  rfl

theorem HeldInv.active_name : s.active.name = .log s.activeId := by
  rw [h.opened]
  rfl

theorem HeldInv.active_end : s.active.endOffset = (bytesOf active.chunks).length := by
  rw [h.opened]
  rfl

theorem HeldInv.file {id : FileId} {c : DataFile}
    (hc : (id, c) ∈ sealedOnes ++ [(s.activeId, active)]) (hopen : isOpen id = true) :
    s.file id = some (openedFile s.options.syncMode id c) := by
  have hsorted := h.durable.files.sealed_ascending
  unfold Bitcask.file
  rcases List.mem_append.mp hc with hc | hc
  · have hkeys : keys s.sealedFiles = keys sealedOnes := by
      simp [h.held, keys, heldFiles]
    have hheld : heldFile s.options.syncMode isOpen (id, c) = openedFile s.options.syncMode id c := by
      simp [heldFile, openedFile, hopen]
    rw [if_neg (h.durable.files.sealed_lt hc).ne]
    apply find_of_mem
    · rw [hkeys]
      exact hsorted.nodup_keys
    · rw [h.held, ← hheld]
      exact List.mem_map_of_mem (f := fun f => (f.1, heldFile s.options.syncMode isOpen f)) hc
  · cases List.mem_singleton.mp hc
    rw [if_pos rfl, h.opened]

theorem HeldInv.run_get (key : Key) :
    (s.get key).run (machine listing) d = (answer key (valueAfter key history), d) := by
  obtain ⟨found, hlookup, hfound, hvalue⟩ := h.serves key
  cases found with
  | none =>
    unfold get
    rw [hlookup, ← hvalue]
    rfl
  | some p =>
    obtain ⟨hmem, rfl, hgone⟩ := hfound p rfl
    obtain ⟨c, hc, hplaced⟩ := of_mem_placed hmem
    have hopen : isOpen p.fileId = true := h.pointed p.key p.pointer hlookup
    have hpoints : PointsAtRecord s d p.key p.pointer (openedFile s.options.syncMode p.fileId c) p.chunk.raw
        p.chunk.record :=
      ⟨h.file hc hopen, rfl, ⟨_, h.durable.files.lookup hc, readAt_placed hplaced⟩, p.chunk.decodes, rfl, rfl,
        hgone⟩
    rw [run_get_of_points hlookup hpoints, ← hvalue]
    rfl

theorem HeldInv.congr (hlogs : ∀ id, d'.lookup (.log id) = d.lookup (.log id))
    (hhints : ∀ id bytes, d'.lookup (.hint id) = some bytes → d.lookup (.hint id) = some bytes) :
    HeldInv opts isOpen s d' sealedOnes active history logged :=
  { h with durable := h.durable.congr hlogs hhints }

theorem HeldInv.rotated (hmax : s.activeId ≠ maxUInt32) :
    HeldInv opts isOpen s.rotated (d.openFile (.log (s.activeId + 1))) (sealedOnes ++ [(s.activeId, active)])
      ⟨[], []⟩ history logged where
  options := h.options
  held := by
    have hlast : s.active = heldFile s.options.syncMode isOpen (s.activeId, active) := by
      rw [h.opened]
      simp [heldFile, openedFile, h.newer s.activeId le_rfl]
    rw [Bitcask.rotated, h.held, hlast, heldFiles, heldFiles, List.map_append]
    rfl
  opened := rfl
  newer := fun id hid => h.newer id (Nat.le_of_succ_le hid)
  durable := h.durable.rotate h.clean hmax
  clean := rfl
  serves := by
    rw [placed_empty_active]
    exact h.serves
  pointed := h.pointed

theorem HeldInv.rotation (hr : Rotation s d (r, s') d') :
    (r = .error idsExhausted ∧ s' = s ∧ d' = d) ∨
      (r = .ok () ∧ HeldInv opts isOpen s' d' (sealedOnes ++ [(s.activeId, active)]) ⟨[], []⟩ history logged) := by
  cases hr with
  | exhausted => exact .inl ⟨rfl, rfl, rfl⟩
  | rotated room => exact .inr ⟨rfl, h.rotated room⟩

theorem HeldInv.rotate (hl : Legal d) (hruns : CleanRuns listing s.rotate d (r, s') d') :
    (r = .error idsExhausted ∧ s' = s ∧ d' = d) ∨
      (r = .ok () ∧ HeldInv opts isOpen s' d' (sealedOnes ++ [(s.activeId, active)]) ⟨[], []⟩ history logged) := by
  have halone : Alone listing Legal (fun _ => True) (Rotation s d) s.rotate d :=
    alone_rotate h.active_open h.durable.files.next_absent trivial (fun _ => trivial) hl
  exact h.rotation (alone_cleanRuns halone (fun _ hl => hl) hl hruns)

/-- A record is appended; the index may or may not be brought up to date. -/
theorem HeldInv.appended (c : Intact) {k : Keydir}
    (hserves : Serves k (placed (sealedOnes ++ [(s.activeId, active)]) ++
      [⟨s.activeId, (bytesOf active.chunks).length, c⟩]) history')
    (hpointed : ∀ key pointer, k.index.lookup key = some pointer → isOpen pointer.fileId = true) :
    HeldInv opts isOpen { s.appended c.raw with keydir := k }
      (d.pwrite (.log s.activeId) (bytesOf active.chunks).length c.raw) sealedOnes
      ⟨active.chunks ++ [c], []⟩ history' (logged ++ [c.write]) where
  options := h.options
  held := h.held
  opened := by
    rw [Bitcask.appended, h.opened]
    simp [openedFile]
  newer := h.newer
  durable := h.durable.append h.clean c
  clean := rfl
  serves := by rwa [← placed_active_concat _ _ _ _ active.tail []] at hserves
  pointed := hpointed

theorem HeldInv.written (c : Intact) :
    HeldInv opts isOpen { s.appended c.raw with
        keydir := s.keydir.replayRecord s.activeId ⟨(bytesOf active.chunks).length, c.record, c.raw⟩ }
      (d.pwrite (.log s.activeId) (bytesOf active.chunks).length c.raw) sealedOnes
      ⟨active.chunks ++ [c], []⟩ (history ++ [c.write]) (logged ++ [c.write]) := by
  let p : Placed := ⟨s.activeId, (bytesOf active.chunks).length, c⟩
  refine h.appended c (h.serves.replayRecord p) fun key pointer hlookup => ?_
  have hrecord := (p.lookup_replayRecord s.keydir key).symm.trans hlookup
  split at hrecord
  · split_ifs at hrecord
    cases hrecord
    exact h.newer s.activeId le_rfl
  · exact h.pointed key pointer hrecord

end

def Held (s : Bitcask) (d : Directory) (history : List Write) : Prop :=
  Legal d ∧ ∃ opts isOpen sealedOnes active, opts.failAt = .none ∧
    HeldInv opts isOpen s d sealedOnes active history history

end KVStore.Bitcask
