import KVStore.BuilderLimits
import KVStore.CompactionMeaning

namespace KVStore

open Lib SortedRun Sizes

/-- The tables that the output loop cuts entries into, each as its blocks, after
the blocks and the open block of the output at hand. -/
def cutOutputs (opts : LsmOptions) : List (List Entry) → List Entry → List Entry → List (List (List Entry))
  | blocks, block, [] => if blocks = [] ∧ block = [] then [] else [closeBlock blocks block]
  | blocks, block, e :: es =>
    let block' := block ++ [storedEntry e]
    let full := opts.blockSize ≤ Sizes.blockSize block'
    let blocks' := if full then blocks ++ [block'] else blocks
    let rest := if full then [] else block'
    if opts.targetTableSize ≤ tableBytes blocks' then
      closeBlock blocks' rest :: cutOutputs opts [] [] es
    else cutOutputs opts blocks' rest es

variable {blocks : List (List Entry)} {x : List Entry}

theorem mem_closeBlock {block : List Entry} (h : x ∈ blocks) : x ∈ closeBlock blocks block := by
  unfold closeBlock
  split
  · exact h
  · exact List.mem_append_left _ h

theorem exists_cut_of_mem (opts : LsmOptions) (block : List Entry)
    (es : List Entry) (h : x ∈ blocks) : ∃ t ∈ cutOutputs opts blocks block es, x ∈ t := by
  induction es generalizing blocks block with
  | nil =>
    rw [cutOutputs, if_neg fun hnil => List.ne_nil_of_mem h hnil.1]
    exact ⟨_, List.mem_singleton_self _, mem_closeBlock h⟩
  | cons e es ih =>
    rw [cutOutputs]
    have hnext {blocks' : List (List Entry)} (rest : List Entry) (h' : x ∈ blocks') :
        ∃ t ∈ (if opts.targetTableSize ≤ tableBytes blocks' then
          closeBlock blocks' rest :: cutOutputs opts [] [] es else cutOutputs opts blocks' rest es), x ∈ t := by
      split
      · exact ⟨_, List.mem_cons_self, mem_closeBlock h'⟩
      · exact ih rest h'
    apply hnext
    split
    · exact List.mem_append_left _ h
    · exact h

theorem exists_cut_of_full {opts : LsmOptions} (blocks : List (List Entry)) {block : List Entry} {e : Entry}
    (es : List Entry) (h : opts.blockSize ≤ Sizes.blockSize (block ++ [storedEntry e])) :
    ∃ t ∈ cutOutputs opts blocks block (e :: es), block ++ [storedEntry e] ∈ t := by
  have hmem : block ++ [storedEntry e] ∈ blocks ++ [block ++ [storedEntry e]] :=
    List.mem_append_right _ (List.mem_singleton_self _)
  rw [cutOutputs]
  simp only [if_pos h]
  split
  · exact ⟨_, List.mem_cons_self, mem_closeBlock hmem⟩
  · exact exists_cut_of_mem opts [] es hmem

/-- An entry that `add` takes, in a table that `create` starts. -/
def Storable (opts : LsmOptions) (e : Entry) : Prop :=
  1 ≤ opts.blockSize ∧ e.1 ≠ [] ∧ Sizes.entrySize (storedEntry e) ≤ Record.kMaxRecordSize

instance (opts : LsmOptions) (e : Entry) : Decidable (Storable opts e) :=
  inferInstanceAs (Decidable (_ ∧ _ ∧ _))

namespace Compaction

def surviving (c : Compaction) : List Entry := c.merged.filter (survives c.dropTombstones)

/-- What the merge lets through can be written: every entry is storable, and the
tables it is cut into keep to the format. -/
def OutputsFit (opts : LsmOptions) (c : Compaction) : Prop :=
  (∀ e ∈ c.surviving, Storable opts e) ∧ ∀ t ∈ cutOutputs opts [] [] c.surviving, TableFits t

instance (opts : LsmOptions) (c : Compaction) : Decidable (c.OutputsFit opts) :=
  inferInstanceAs (Decidable (_ ∧ _))

end Compaction

namespace Compaction

variable {opts : LsmOptions} {builder : Option SSTableBuilder}

def openBlocks (builder : Option SSTableBuilder) : List (List Entry) := builder.elim [] SSTableBuilder.blocks

def openBlock (builder : Option SSTableBuilder) : List Entry := builder.elim [] SSTableBuilder.block

theorem writeOutputs_survives (drop : Bool) (builder : Option SSTableBuilder) (es : List Entry) :
    writeOutputs opts drop builder es = writeOutputs opts false builder (es.filter (survives drop)) := by
  induction es generalizing builder with
  | nil => cases builder <;> rfl
  | cons e es ih =>
    by_cases hdrop : (e.2.tombstone && drop) = true
    · rw [writeOutputs_dropped hdrop, List.filter_cons_of_neg (by simp [survives, hdrop]), ih]
    · rw [writeOutputs_cons hdrop, List.filter_cons_of_pos (by simp [survives, hdrop]),
        writeOutputs_cons (by simp)]
      simp [ih]

theorem startOutput_building (hb : ∀ b, builder = some b → b.Building opts) (hsize : 1 ≤ opts.blockSize) :
    ∃ b, startOutput opts builder = .ok b ∧ b.Building opts ∧
      b.blocks = openBlocks builder ∧ b.block = openBlock builder := by
  cases builder with
  | none =>
    have hcreate : ∃ b, SSTableBuilder.create opts.blockSize opts.bitsPerKey = .ok b := by
      rw [SSTableBuilder.create, if_neg (by omega)]
      exact ⟨_, rfl⟩
    obtain ⟨b, hcreate⟩ := hcreate
    exact ⟨b, hcreate, SSTableBuilder.building_create hcreate⟩
  | some b => exact ⟨b, rfl, hb b rfl, rfl, rfl⟩

theorem add_error_of_not_storable {b : SSTableBuilder} {e : Entry} (hsize : 1 ≤ opts.blockSize)
    (h : ¬ Storable opts e) : ∃ s, b.add e.1 e.2.value e.2.tombstone = .error s := by
  unfold SSTableBuilder.add
  split
  · exact ⟨_, rfl⟩
  split
  · exact ⟨_, rfl⟩
  next hkey =>
    split
    · split
      · exact ⟨_, rfl⟩
      next hrecord => exact absurd ⟨hsize, hkey, Nat.le_of_not_gt hrecord⟩ h
    · exact ⟨_, rfl⟩

theorem writeOutputs_rest_iff {es : List Entry} {b : SSTableBuilder} (hb : b.Building opts)
    (hclosed : (writeOutputs opts false none es).2 = none ↔
      (∀ e ∈ es, Storable opts e) ∧ ∀ t ∈ cutOutputs opts [] [] es, TableFits t)
    (hopen : (writeOutputs opts false (some b) es).2 = none ↔
      (∀ e ∈ es, Storable opts e) ∧ ∀ t ∈ cutOutputs opts b.blocks b.block es, TableFits t) :
    (if opts.targetTableSize ≤ b.fileSize then
        match b.finish with
        | .error s => ([], some s)
        | .ok (_, f) => (f :: (writeOutputs opts false none es).1, (writeOutputs opts false none es).2)
      else writeOutputs opts false (some b) es).2 = none ↔
      (∀ e ∈ es, Storable opts e) ∧
        ∀ t ∈ (if opts.targetTableSize ≤ tableBytes b.blocks then
          closeBlock b.blocks b.block :: cutOutputs opts [] [] es
          else cutOutputs opts b.blocks b.block es), TableFits t := by
  rw [hb.bytes]
  by_cases ht : opts.targetTableSize ≤ tableBytes b.blocks
  · rw [if_pos ht, if_pos ht, List.forall_mem_cons, ← hb.finish_ok_iff]
    cases hf : b.finish with
    | error => simp
    | ok r =>
      refine hclosed.trans ⟨fun h => ⟨h.1, ⟨r.1, r.2, rfl⟩, h.2⟩, fun h => ⟨h.1, h.2.2⟩⟩
  · rw [if_neg ht, if_neg ht]
    exact hopen

theorem writeOutputs_ok_iff {es : List Entry} (hb : ∀ b, builder = some b → b.Building opts ∧ b.entries ≠ [])
    (hsorted : Sorted (builderEntries builder ++ es.map storedEntry)) :
    (writeOutputs opts false builder es).2 = none ↔
      (∀ e ∈ es, Storable opts e) ∧
        ∀ t ∈ cutOutputs opts (openBlocks builder) (openBlock builder) es, TableFits t := by
  induction es generalizing builder with
  | nil =>
    cases builder with
    | none => simp [writeOutputs, cutOutputs, openBlocks, openBlock]
    | some b =>
      obtain ⟨hbuilding, hstarted⟩ := hb b rfl
      have hopen : ¬ (b.blocks = [] ∧ b.block = []) := by
        rintro ⟨hblocks, hblock⟩
        exact hstarted (by simp [SSTableBuilder.entries, hblocks, hblock])
      have hfinish : (writeOutputs opts false (some b) []).2 = none ↔ ∃ b' f, b.finish = .ok (b', f) := by
        rw [writeOutputs]
        cases b.finish with
        | error => simp
        | ok r => exact ⟨fun _ => ⟨r.1, r.2, rfl⟩, fun _ => rfl⟩
      rw [hfinish, hbuilding.finish_ok_iff, cutOutputs]
      simp [openBlocks, openBlock, hopen]
  | cons e es ih =>
    rw [writeOutputs_cons (by simp)]
    by_cases hsize : 1 ≤ opts.blockSize
    swap
    · have hrefused : ∃ s, startOutput opts builder = .error s := by
        cases builder with
        | none => exact ⟨_, by rw [startOutput, SSTableBuilder.create, if_pos (by omega)]⟩
        | some b => exact absurd (hb b rfl).1.positive hsize
      obtain ⟨s, hs⟩ := hrefused
      rw [hs]
      exact ⟨by rintro ⟨⟩, fun h => absurd (h.1 e List.mem_cons_self).1 hsize⟩
    obtain ⟨b, hstart, hbuilding, hblocks, hblock⟩ := startOutput_building (fun b h => (hb b h).1) hsize
    rw [hstart]
    by_cases hstorable : Storable opts e
    swap
    · obtain ⟨s, hs⟩ := @add_error_of_not_storable opts b e hsize hstorable
      simp only [hs]
      exact ⟨by rintro ⟨⟩, fun h => absurd (h.1 e List.mem_cons_self) hstorable⟩
    have hentries : b.entries = builderEntries builder := startOutput_entries hstart
    rw [List.map_cons, List.append_cons, ← hentries] at hsorted
    have hadd := hbuilding.add hstorable.2.1 (SSTableBuilder.endsBefore_of_sorted hsorted) hstorable.2.2
    have hrest {b' : SSTableBuilder} (hb' : b'.Building opts)
        (hadded : b.add e.1 e.2.value e.2.tombstone = .ok b') := by
      have hentries' := SSTableBuilder.add_entries hadded
      refine writeOutputs_rest_iff hb' (@ih none (by rintro _ ⟨⟩) (List.pairwise_append.mp hsorted).2.1)
        (@ih (some b') ?_ ?_)
      · rintro _ ⟨rfl⟩
        exact ⟨hb', by simp [hentries']⟩
      · rw [builderEntries, Option.elim_some, hentries']
        exact hsorted
    rw [← hblocks, ← hblock]
    by_cases hfull : opts.blockSize ≤ Sizes.blockSize (b.block ++ [storedEntry e])
    · rw [if_pos hfull] at hadd
      by_cases hfits : BlockFits (b.block ++ [storedEntry e])
      · rw [if_pos hfits] at hadd
        obtain ⟨b', hadded, hb', hblocks', hblock'⟩ := hadd
        simp only [hadded]
        refine (hrest hb' hadded).trans ?_
        rw [hblocks', hblock', cutOutputs, List.forall_mem_cons]
        simp only [if_pos hfull]
        simp [hstorable]
      · rw [if_neg hfits] at hadd
        obtain ⟨s, hs⟩ := hadd
        simp only [hs]
        refine ⟨by rintro ⟨⟩, fun h => ?_⟩
        obtain ⟨t, ht, hmem⟩ := exists_cut_of_full b.blocks es hfull
        exact absurd ((h.2 t ht).1 _ hmem) hfits
    · rw [if_neg hfull] at hadd
      obtain ⟨b', hadded, hb', hblocks', hblock'⟩ := hadd
      simp only [hadded]
      refine (hrest hb' hadded).trans ?_
      rw [hblocks', hblock', cutOutputs, List.forall_mem_cons]
      simp only [if_neg hfull]
      simp [hstorable]

theorem outputs_ok_iff (c : Compaction) : (c.outputs opts).2 = none ↔ c.OutputsFit opts := by
  rw [outputs, writeOutputs_survives]
  exact writeOutputs_ok_iff nofun (sorted_map_stored (c.sorted_merged.filter _))

end Compaction

end KVStore
