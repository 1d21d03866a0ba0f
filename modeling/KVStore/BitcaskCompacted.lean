import KVStore.BitcaskCompactSpec

namespace KVStore

open Lib ReplayLog SortedRun CrashProgram

theorem lookup_foldl_insert {V : Type} (entries : List (Σ _ : Key, V)) (index : AList fun _ : Key => V)
    (hnodup : entries.NodupKeys) (key : Key) :
    (entries.foldl (fun index e => index.insert e.1 e.2) index).lookup key =
      (entries.dlookup key).or (index.lookup key) := by
  induction entries generalizing index with
  | nil => rfl
  | cons e entries ih =>
    obtain ⟨hfresh, hnodup⟩ := List.nodupKeys_cons.mp hnodup
    rw [List.foldl_cons, ih _ hnodup]
    by_cases hk : key = e.1
    · subst hk
      rw [List.dlookup_cons_eq, List.dlookup_eq_none.mpr hfresh, AList.lookup_insert]
      rfl
    · rw [List.dlookup_cons_ne _ _ hk, AList.lookup_insert_ne hk]

variable [Crc]

theorem map_chunk_placedFrom (id : FileId) (offset : Nat) (chunks : List Intact) :
    (placedFrom id offset chunks).map Placed.chunk = chunks := by
  induction chunks generalizing offset with
  | nil => rfl
  | cons c chunks ih => rw [placedFrom, List.map_cons, ih]

theorem currentAt_congr {ps ps' : List Placed} (h : ps.map Placed.chunk = ps'.map Placed.chunk) (key : Key) :
    (currentAt key ps).map Placed.value = (currentAt key ps').map Placed.value := by
  have hmap : ∀ ps : List Placed, (currentAt key ps).map Placed.value =
      (current (fun c : Intact => c.record.key) (fun c => c.record.isTombstone) key
        (ps.map Placed.chunk)).map fun c => c.record.value := by
    intro ps
    have hchunk := @current_map Placed Intact Key _ Placed.key Placed.gone key ps
      (fun c => c.record.key) (fun c => c.record.isTombstone) Placed.chunk (fun _ _ => rfl) (fun _ _ => rfl)
    rw [hchunk, Option.map_map]
    rfl
  rw [hmap, hmap, h]

namespace Bitcask

section Meaning

variable {k : Keydir} {files rest : DataFiles} {history : List Write}

theorem isLive_iff (hsorted : Sorted files) (hindex : Indexes k (placed files)) {p : Placed}
    (hp : p ∈ placed files) : isLive k p = true ↔ currentAt p.key (placed files) = some p := by
  unfold isLive
  rw [hindex p.key]
  constructor
  · intro h
    cases hc : currentAt p.key (placed files) with
    | none => simp [hc] at h
    | some =>
      simp only [hc, Option.map_some, Bool.and_eq_true, beq_iff_eq] at h
      rw [eq_of_same_place hsorted (of_current hc).1 hp h.2.1 h.2.2]
  · intro h
    have hgone := (of_current h).2.2
    simp [h, hgone, Placed.pointer]

theorem gone_of_liveChunks {ps : List Placed} {c : Intact} (h : c ∈ liveChunks k ps) :
    c.record.isTombstone = false := by
  obtain ⟨p, hp, rfl⟩ := List.mem_map.mp h
  have hlive := (List.mem_filter.mp hp).2
  simp only [isLive, Bool.and_eq_true, Bool.not_eq_true'] at hlive
  exact hlive.1

theorem not_gone_of_copied {outId : FileId} {ps : List Placed} {p : Placed}
    (h : p ∈ placedFrom outId 0 (liveChunks k ps)) : p.gone = false := by
  have hchunk : p.chunk ∈ liveChunks k ps := by
    rw [← map_chunk_placedFrom outId 0 (liveChunks k ps)]
    exact List.mem_map_of_mem h
  exact gone_of_liveChunks hchunk

theorem currentAt_copied (outId : FileId) (ps : List Placed) (key : Key) :
    currentAt key (placedFrom outId 0 (liveChunks k ps)) =
      newest Placed.key key (placedFrom outId 0 (liveChunks k ps)) := by
  unfold currentAt current
  cases hn : newest Placed.key key (placedFrom outId 0 (liveChunks k ps)) with
  | none => rfl
  | some => simp [not_gone_of_copied (of_newest hn).1]

theorem newest_copied (outId : FileId) (ps : List Placed) (key : Key) :
    (newest Placed.key key (placedFrom outId 0 (liveChunks k ps))).map Placed.chunk =
      (newest Placed.key key (ps.filter (isLive k))).map Placed.chunk := by
  have hchunk : ∀ ps : List Placed, (newest Placed.key key ps).map Placed.chunk =
      newest (fun c : Intact => c.record.key) key (ps.map Placed.chunk) :=
    fun ps => (@newest_map Placed Intact Key _ Placed.key key ps (fun c => c.record.key)
      Placed.chunk fun _ _ => rfl).symm
  rw [hchunk, hchunk, map_chunk_placedFrom]
  rfl

theorem newest_merged (outId : FileId) (hsorted : Sorted files) (hindex : Indexes k (placed files))
    (key : Key) :
    (newest Placed.key key (placedFrom outId 0 (liveChunks k (placed files)))).map Placed.chunk =
      (currentAt key (placed files)).map Placed.chunk := by
  have hlive := fun p hp => isLive_iff hsorted hindex (p := p) hp
  have hkept : newest Placed.key key ((placed files).filter (isLive k)) =
      currentAt key (placed files) := newest_filter hlive
  rw [newest_copied, hkept]

theorem answers_merged (outId : FileId) (hsorted : Sorted files) (hindex : Indexes k (placed files))
    (hrest : rest <:+ files) (h : Answers (placed files) history) :
    Answers (placedFrom outId 0 (liveChunks k (placed files)) ++ placed rest) history := by
  intro key
  obtain ⟨gone, rfl⟩ := hrest
  have hlive := fun p hp => isLive_iff hsorted hindex (p := p) hp
  rw [placed_append] at hlive
  have hsame : (placedFrom outId 0 (liveChunks k (placed (gone ++ rest))) ++ placed rest).map Placed.chunk =
      (((placed gone ++ placed rest).filter (isLive k)).map id ++ placed rest).map Placed.chunk := by
    rw [List.map_append, List.map_append, map_chunk_placedFrom, placed_append, List.map_id]
    rfl
  have hsnapshot : (currentAt key (((placed gone ++ placed rest).filter (isLive k)).map id ++
      placed rest)).map Placed.value = (currentAt key (placed gone ++ placed rest)).map Placed.value :=
    current_snapshot hlive (fun _ => rfl) (fun _ => rfl) fun _ => rfl
  rw [currentAt_congr hsame, hsnapshot, ← placed_append]
  exact h key

theorem encodable_entries {offset : Nat} {chunks : List Intact}
    (hsmall : offset + (bytesOf chunks).length < 2 ^ 63) : ∀ e ∈ entriesFrom offset chunks, e.Encodable := by
  induction chunks generalizing offset with
  | nil => exact nofun
  | cons c chunks ih =>
    rw [bytesOf_cons, List.length_append] at hsmall
    have hmax := c.length_le_max
    have hkey := c.key_length_le
    have hwhole := c.whole
    simp only [Record.kMaxRecordSize, maxUInt32] at hmax
    refine List.forall_mem_cons.mpr ⟨⟨?_, ?_, ?_⟩, ih (by omega)⟩
    · show offset < 2 ^ 64
      omega
    · show c.record.totalSize < 2 ^ 32
      omega
    · show c.record.key.length < 2 ^ 32
      omega

end Meaning

section Store

variable {listing : Listing} {s : Bitcask} {d₀ d : Directory} {outId : FileId} {c₀ : DataFile}
  {sealedOnes others rest : DataFiles} {active : DataFile} {history : List Write}
  {staged : AList fun _ : Key => ValuePointer} {k : Keydir} {copied : List Intact}

theorem placed_empty_active (files : DataFiles) (activeId : FileId) :
    placed (files ++ [(activeId, ⟨[], []⟩)]) = placed files := by
  simp [placedFrom]

theorem Replaced.durable_of_answers {activeId : FileId}
    (h : Durable d₀ ((outId, c₀) :: others) activeId ⟨[], []⟩ history) (hrest : rest <:+ others)
    (hcopied : copied = liveChunks k (placed ((outId, c₀) :: others))) (hsmall : (bytesOf copied).length < 2 ^ 63)
    (hd : Replaced d₀ outId copied (rest ++ [(activeId, ⟨[], []⟩)]) d)
    (hanswers : Answers (placedFrom outId 0 copied ++ placed rest) history) :
    Durable d ((outId, ⟨copied, []⟩) :: rest) activeId ⟨[], []⟩ history := by
  have hsorted := h.files.sealed_ascending
  refine ⟨hd.files, fun f hf => ?_, noRecord_nil, ⟨fun id bytes hb => ?_, fun id bytes c hb hc => ?_⟩, ?_⟩
  · rcases List.mem_cons.mp hf with rfl | hf
    · rfl
    · exact h.whole f (List.mem_cons_of_mem _ (hrest.mem hf))
  · by_cases hid : id = outId
    · subst hid
      exact h.files.sealed_lt (f := (id, c₀)) List.mem_cons_self
    · exact h.hints.below id bytes (hd.hints id bytes hid hb)
  · by_cases hid : id = outId
    · subst hid
      have hc' : c = ⟨copied, []⟩ := by
        simpa [find] using hc.symm
      subst hc'
      have hencodable := encodable_entries (by rwa [Nat.zero_add])
      exact ⟨rfl, fun chunk hchunk => gone_of_liveChunks (hcopied ▸ hchunk), hencodable, hd.hint bytes hb⟩
    · -- the hint is an input's, and the input has not been touched
      refine h.hints.written id bytes c (hd.hints id bytes hid hb) ?_
      have hmem : (id, c) ∈ rest := by
        refine mem_of_find ?_
        simpa [find, hid] using hc
      exact find_of_mem hsorted.nodup_keys (List.mem_cons_of_mem _ (hrest.mem hmem))
  · rw [placed_empty_active, placed_cons]
    exact hanswers

theorem Replaced.durable (h : StoreInv s d₀ ((outId, c₀) :: others) ⟨[], []⟩ history) (hrest : rest <:+ others)
    (hcopied : copied = liveChunks s.keydir (placed ((outId, c₀) :: others)))
    (hsmall : (bytesOf copied).length < 2 ^ 63)
    (hd : Replaced d₀ outId copied (rest ++ [(s.activeId, ⟨[], []⟩)]) d) :
    Durable d ((outId, ⟨copied, []⟩) :: rest) s.activeId ⟨[], []⟩ history := by
  have hsorted := h.durable.files.sealed_ascending
  have hindex := h.index
  have hanswers := h.durable.answers
  rw [placed_empty_active] at hindex hanswers
  have hmerged := answers_merged outId hsorted hindex (hrest.trans (List.suffix_cons _ _)) hanswers
  exact hd.durable_of_answers h.durable hrest hcopied hsmall (hcopied ▸ hmerged)

/-- The index entries collected for the merged file lead to its records. -/
def Staged (staged : AList fun _ : Key => ValuePointer) (outId : FileId) (copied : List Intact) : Prop :=
  ∀ key, staged.lookup key = (ReplayLog.newest Placed.key key (placedFrom outId 0 copied)).map Placed.pointer

theorem lookup_adopted {key : Key} {index : AList fun _ : Key => ValuePointer} (hstaged : Staged staged outId copied)
    (hnone : newest Placed.key key (placedFrom outId 0 copied) = none → index.lookup key = none) :
    (staged.entries.foldl (fun index e => index.insert e.1 e.2) index).lookup key =
      (newest Placed.key key (placedFrom outId 0 copied)).map Placed.pointer := by
  have hentries : staged.entries.dlookup key = staged.lookup key := rfl
  rw [lookup_foldl_insert staged.entries index staged.nodupKeys key, hentries, hstaged key]
  cases hn : newest Placed.key key (placedFrom outId 0 copied) with
  | none => exact hnone hn
  | some => rfl

theorem Indexes.adopted {files : DataFiles} (hsorted : Sorted files) (hindex : Indexes k (placed files))
    (hstaged : Staged staged outId (liveChunks k (placed files))) (dead : AList fun _ : FileId => Nat) :
    Indexes ⟨staged.entries.foldl (fun index e => index.insert e.1 e.2) k.index, dead⟩
      (placedFrom outId 0 (liveChunks k (placed files))) := by
  intro key
  rw [currentAt_copied]
  refine lookup_adopted hstaged fun hnone => ?_
  have hnewest := newest_merged outId hsorted hindex key
  rw [hnone, Option.map_none, eq_comm, Option.map_eq_none_iff] at hnewest
  rw [hindex key, hnewest]
  rfl

theorem StoreInv.compacted (h : StoreInv s d₀ ((outId, c₀) :: others) ⟨[], []⟩ history)
    (hcopied : copied = liveChunks s.keydir (placed ((outId, c₀) :: others)))
    (hsmall : (bytesOf copied).length < 2 ^ 63)
    (hstaged : Staged staged outId copied) (hd : Replaced d₀ outId copied [(s.activeId, ⟨[], []⟩)] d) :
    StoreInv (s.compacted outId copied staged) d [(outId, ⟨copied, []⟩)] ⟨[], []⟩ history := by
  have hdurable := hd.durable h (List.nil_suffix) hcopied hsmall
  subst hcopied
  have hsorted := h.durable.files.sealed_ascending
  have hindex := h.index
  rw [placed_empty_active] at hindex
  refine ⟨⟨hdurable.files, rfl, h.describes.active, hdurable.hints.below⟩, hdurable, rfl, ?_⟩
  rw [placed_empty_active]
  show Indexes _ (placedFrom outId 0 _ ++ [])
  rw [List.append_nil]
  exact Indexes.adopted hsorted hindex hstaged _

def Unchanged (s : Bitcask) (history : List Write) (r : Except Failure Unit × Bitcask) (d : Directory) : Prop :=
  ∃ sealedOnes active, r.2.options = s.options ∧ StoreInv r.2 d sealedOnes active history

theorem alone_mergeSealed_storeInv (h : StoreInv s d₀ sealedOnes ⟨[], []⟩ history)
    (hfail : s.options.failAt = .none) (hl : Legal d₀) :
    Alone listing Legal (fun d => Recoverable d history) (Merged s d₀ sealedOnes ⟨[], []⟩) s.mergeSealed d₀ := by
  refine alone_mergeSealed h.describes.files h.describes.held (fun _ _ => .inl rfl) hfail
    (fun d hd => .durable (h.durable.congr hd.logs hd.hints))
    (fun outId c₀ others rest d hinputs hrest hsmall hd => ?_) hl
  subst hinputs
  exact .durable (hd.durable h hrest rfl hsmall)

theorem StoreInv.merged (h : StoreInv s d₀ sealedOnes ⟨[], []⟩ history) {r : Except Failure Unit × Bitcask}
    (hr : Merged s d₀ sealedOnes ⟨[], []⟩ r d) : r.1 = .ok () ∧ Unchanged s history r d := by
  cases hr with
  | idle => exact ⟨rfl, sealedOnes, _, rfl, h⟩
  | merged busy inputs small moved replaced =>
    subst inputs
    exact ⟨rfl, _, _, rfl, h.compacted rfl small moved replaced⟩

end Store

end Bitcask

end KVStore
