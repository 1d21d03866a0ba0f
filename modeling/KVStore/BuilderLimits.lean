import KVStore.LsmInversion

namespace KVStore

open Lib SortedRun Sizes

/-- The blocks that the builder cuts entries into, after those of an open block. -/
def cutBlocks (blockSize : Nat) : List Entry → List Entry → List (List Entry)
  | block, [] => if block = [] then [] else [block]
  | block, e :: es =>
    let block' := block ++ [storedEntry e]
    if blockSize ≤ Sizes.blockSize block' then block' :: cutBlocks blockSize [] es
    else cutBlocks blockSize block' es

/-- The blocks and the index of a table keep to the 32-bit sizes of the format. -/
def BlocksFit (blockSize : Nat) (es : List Entry) : Prop :=
  (∀ block ∈ cutBlocks blockSize [] es, BlockFits block) ∧
    Sizes.indexSize (cutBlocks blockSize [] es) ≤ maxUInt32

instance (blockSize : Nat) (es : List Entry) : Decidable (BlocksFit blockSize es) :=
  inferInstanceAs (Decidable (_ ∧ _))

theorem blocksFit_nil (blockSize : Nat) : BlocksFit blockSize [] := by
  refine ⟨by simp [cutBlocks], ?_⟩
  rw [cutBlocks, if_pos rfl]
  decide

def tableBytes (blocks : List (List Entry)) : Nat :=
  (blocks.map fun block => Sizes.blockSize block + Sizes.kBlockTrailerSize).sum

def closeBlock (blocks : List (List Entry)) (block : List Entry) : List (List Entry) :=
  if block = [] then blocks else blocks ++ [block]

def TableFits (blocks : List (List Entry)) : Prop :=
  (∀ block ∈ blocks, BlockFits block) ∧ Sizes.indexSize blocks ≤ maxUInt32

instance (blocks : List (List Entry)) : Decidable (TableFits blocks) := inferInstanceAs (Decidable (_ ∧ _))

theorem filterSize_le (bitsPerKey keys : Nat) : filterSize bitsPerKey keys ≤ maxUInt32 := by
  simp only [filterSize, kBloomHeaderSize, kBloomTrailerSize, kBloomMaxBits, maxUInt32]
  omega

namespace SSTableBuilder

variable {opts : LsmOptions} {b b' : SSTableBuilder} {e : Entry} {es : List Entry}

theorem endsBefore_of_sorted {rest : List Entry} (h : Sorted (b.entries ++ [storedEntry e] ++ rest)) :
    endsBefore e.1 (b.blocks.flatten ++ b.block) = true := by
  have hlt := (List.pairwise_append.mp (List.pairwise_append.mp h).1).2.2
  refine Option.all_eq_true _ _ |>.mpr fun x hx => decide_eq_true ?_
  exact hlt x (List.mem_of_getLast? hx) (storedEntry e) (List.mem_singleton_self _)

theorem flushBlock_of_nil (h : b.block = []) : b.flushBlock = .ok b := by
  rw [flushBlock, dif_pos h]

theorem flushBlock_of_large (h : b.block ≠ []) (hlarge : ¬ BlockFits b.block) :
    b.flushBlock = .error (.invalidArgument (text "sstable block exceeds the maximum block size")) := by
  rw [flushBlock, dif_neg h, if_pos (Nat.lt_of_not_ge hlarge)]

/-- The entries still to come, and then `finish`. -/
def addAllAndFinish (b : SSTableBuilder) (es : List Entry) : Except Failure TableFile :=
  match b.addAll es with
  | .error s => .error s
  | .ok b' =>
    match b'.finish with
    | .error s => .error s
    | .ok (_, f) => .ok f

theorem finish_of_flushed (hopen : b.finished = false) (h : b.flushBlock = .ok b') :
    (∃ b'' f, b.finish = .ok (b'', f)) ↔ indexSize b'.blocks ≤ maxUInt32 := by
  unfold finish
  rw [if_neg (by simp [hopen]), h]
  dsimp only
  rw [if_neg (Nat.not_lt.mpr (filterSize_le _ _))]
  constructor
  · rintro ⟨b'', f, hf⟩
    by_contra hlarge
    rw [if_pos (Nat.lt_of_not_ge hlarge)] at hf
    cases hf
  · intro hfits
    rw [if_neg (Nat.not_lt.mpr hfits)]
    exact ⟨_, _, rfl⟩

theorem addAllAndFinish_nil (b : SSTableBuilder) :
    (∃ f, b.addAllAndFinish [] = .ok f) ↔ ∃ b' f, b.finish = .ok (b', f) := by
  unfold addAllAndFinish addAll
  dsimp only
  constructor
  · rintro ⟨f, hf⟩
    split at hf
    · cases hf
    next b' f' hfinish => exact ⟨b', f', hfinish⟩
  · rintro ⟨b', f, hf⟩
    rw [hf]
    exact ⟨f, rfl⟩

theorem addAllAndFinish_cons (h : b.add e.1 e.2.value e.2.tombstone = .ok b') :
    b.addAllAndFinish (e :: es) = b'.addAllAndFinish es := by
  unfold addAllAndFinish
  rw [addAll, h]

theorem add_eq (hopen : b.finished = false) (hkey : e.1 ≠ [])
    (horder : endsBefore e.1 (b.blocks.flatten ++ b.block) = true)
    (hsize : entrySize (storedEntry e) ≤ Record.kMaxRecordSize) :
    b.add e.1 e.2.value e.2.tombstone =
      if b.blockSize ≤ Sizes.blockSize (b.block ++ [storedEntry e]) then
        (b.appendEntry (storedEntry e) horder).flushBlock
      else .ok (b.appendEntry (storedEntry e) horder) := by
  unfold add
  rw [if_neg (by simp [hopen]), if_neg hkey, dif_pos horder, if_neg (Nat.not_lt.mpr hsize)]
  rfl

structure Building (opts : LsmOptions) (b : SSTableBuilder) : Prop where
  unfinished : b.finished = false
  positive : 1 ≤ opts.blockSize
  size : b.blockSize = opts.blockSize
  bytes : b.fileSize = tableBytes b.blocks
  fits : ∀ block ∈ b.blocks, BlockFits block

theorem building_create (h : create opts.blockSize opts.bitsPerKey = .ok b) :
    Building opts b ∧ b.blocks = [] ∧ b.block = [] := by
  unfold create at h
  split_ifs at h with hpos
  cases h
  exact ⟨⟨rfl, Nat.one_le_iff_ne_zero.mpr hpos, rfl, rfl, by simp⟩, rfl, rfl⟩

section

variable (h : Building opts b)
include h

theorem Building.flushBlock (hne : b.block ≠ []) (hfits : BlockFits b.block) :
    ∃ b', b.flushBlock = .ok b' ∧ Building opts b' ∧ b'.blocks = b.blocks ++ [b.block] ∧ b'.block = [] := by
  rw [SSTableBuilder.flushBlock, dif_neg hne, if_neg (Nat.not_lt.mpr hfits)]
  refine ⟨_, rfl, ⟨h.unfinished, h.positive, h.size, ?_, ?_⟩, rfl, rfl⟩
  · simp [tableBytes, h.bytes, Nat.add_assoc]
  · intro block hblock
    rcases List.mem_append.mp hblock with hblock | hblock
    · exact h.fits block hblock
    · rw [List.mem_singleton.mp hblock]
      exact hfits

theorem Building.appendEntry
    (horder : endsBefore e.1 (b.blocks.flatten ++ b.block) = true) : Building opts (b.appendEntry e horder) :=
  ⟨h.unfinished, h.positive, h.size, h.bytes, h.fits⟩

theorem Building.add (hkey : e.1 ≠ [])
    (horder : endsBefore e.1 (b.blocks.flatten ++ b.block) = true)
    (hsize : entrySize (storedEntry e) ≤ Record.kMaxRecordSize) :
    if opts.blockSize ≤ Sizes.blockSize (b.block ++ [storedEntry e]) then
      if BlockFits (b.block ++ [storedEntry e]) then
        ∃ b', b.add e.1 e.2.value e.2.tombstone = .ok b' ∧ Building opts b' ∧
          b'.blocks = b.blocks ++ [b.block ++ [storedEntry e]] ∧ b'.block = []
      else ∃ s, b.add e.1 e.2.value e.2.tombstone = .error s
    else ∃ b', b.add e.1 e.2.value e.2.tombstone = .ok b' ∧ Building opts b' ∧
      b'.blocks = b.blocks ∧ b'.block = b.block ++ [storedEntry e] := by
  rw [add_eq h.unfinished hkey horder hsize, h.size]
  have hne : (b.appendEntry (storedEntry e) horder).block ≠ [] := by
    simp [SSTableBuilder.appendEntry]
  by_cases hfull : opts.blockSize ≤ Sizes.blockSize (b.block ++ [storedEntry e])
  · rw [if_pos hfull, if_pos hfull]
    by_cases hfits : BlockFits (b.block ++ [storedEntry e])
    · rw [if_pos hfits]
      exact (h.appendEntry (e := storedEntry e) horder).flushBlock hne hfits
    · rw [if_neg hfits]
      exact ⟨_, flushBlock_of_large hne hfits⟩
  · rw [if_neg hfull, if_neg hfull]
    exact ⟨_, rfl, h.appendEntry (e := storedEntry e) horder, rfl, rfl⟩

theorem Building.finish_ok_iff :
    (∃ b' f, b.finish = .ok (b', f)) ↔ TableFits (closeBlock b.blocks b.block) := by
  unfold closeBlock
  by_cases hblock : b.block = []
  · rw [finish_of_flushed h.unfinished (flushBlock_of_nil hblock), if_pos hblock]
    exact ⟨fun hindex => ⟨h.fits, hindex⟩, fun hfits => hfits.2⟩
  · rw [if_neg hblock]
    by_cases hfits : BlockFits b.block
    · obtain ⟨b', hb', hbuilding, hblocks, _⟩ := h.flushBlock hblock hfits
      rw [finish_of_flushed h.unfinished hb', ← hblocks]
      exact ⟨fun hindex => ⟨hbuilding.fits, hindex⟩, fun hall => hall.2⟩
    · constructor
      · rintro ⟨b', f, hf⟩
        rw [finish, if_neg (by simp [h.unfinished]), flushBlock_of_large hblock hfits] at hf
        cases hf
      · intro hall
        exact absurd (hall.1 b.block (List.mem_append_right _ (List.mem_singleton_self _))) hfits

theorem Building.addAllAndFinish_ok_iff (hkeys : ∀ e ∈ es, e.1 ≠ [])
    (hsizes : ∀ e ∈ es, entrySize (storedEntry e) ≤ Record.kMaxRecordSize)
    (hsorted : Sorted (b.entries ++ es.map storedEntry)) :
    (∃ f, b.addAllAndFinish es = .ok f) ↔ TableFits (b.blocks ++ cutBlocks opts.blockSize b.block es) := by
  induction es generalizing b with
  | nil =>
    rw [addAllAndFinish_nil, h.finish_ok_iff, cutBlocks, closeBlock]
    split
    · rw [List.append_nil]
    · rfl
  | cons e es ih =>
    obtain ⟨hkey, hkeys⟩ := List.forall_mem_cons.mp hkeys
    obtain ⟨hsize, hsizes⟩ := List.forall_mem_cons.mp hsizes
    rw [List.map_cons, List.append_cons] at hsorted
    have hadd := h.add hkey (endsBefore_of_sorted hsorted) hsize
    rw [cutBlocks]
    by_cases hfull : opts.blockSize ≤ Sizes.blockSize (b.block ++ [storedEntry e])
    · rw [if_pos hfull] at hadd ⊢
      by_cases hfits : BlockFits (b.block ++ [storedEntry e])
      · rw [if_pos hfits] at hadd
        obtain ⟨b', hadded, hb', hblocks, hblock⟩ := hadd
        rw [addAllAndFinish_cons hadded, ih hb' hkeys hsizes (add_entries hadded ▸ hsorted), hblocks, hblock,
          List.append_assoc]
        rfl
      · rw [if_neg hfits] at hadd
        obtain ⟨s, hs⟩ := hadd
        constructor
        · rintro ⟨f, hf⟩
          rw [addAllAndFinish, addAll, hs] at hf
          cases hf
        · exact fun hall => absurd (hall.1 _ (List.mem_append_right _ List.mem_cons_self)) hfits
    · rw [if_neg hfull] at hadd ⊢
      obtain ⟨b', hadded, hb', hblocks, hblock⟩ := hadd
      rw [addAllAndFinish_cons hadded, ih hb' hkeys hsizes (add_entries hadded ▸ hsorted), hblocks, hblock]

end

end SSTableBuilder

variable {es : List Entry} {e : Entry}

theorem flatten_cutBlocks (blockSize : Nat) (block es : List Entry) :
    (cutBlocks blockSize block es).flatten = block ++ es.map storedEntry := by
  induction es generalizing block with
  | nil =>
    rw [cutBlocks]
    split
    next hblock => simp [hblock]
    next => simp
  | cons e es ih =>
    rw [cutBlocks]
    split
    · simp [ih]
    · simp [ih]

theorem entrySize_le_blockSize {block : List Entry} {e : Entry} (h : e ∈ block) :
    entrySize e ≤ blockSize block :=
  List.le_sum_of_mem (List.mem_map_of_mem h)

theorem entrySize_le_of_blocks {blocks : List (List Entry)} (hfits : ∀ block ∈ blocks, BlockFits block)
    (hentries : blocks.flatten = es.map storedEntry) :
    ∀ e ∈ es, entrySize (storedEntry e) ≤ Record.kMaxRecordSize := by
  intro e he
  have hmem : storedEntry e ∈ blocks.flatten := hentries ▸ List.mem_map_of_mem he
  obtain ⟨block, hblock, he⟩ := List.mem_flatten.mp hmem
  have hfit := hfits block hblock
  rw [BlockFits] at hfit
  exact (entrySize_le_blockSize he).trans ((Nat.le_add_right _ _).trans hfit)

theorem buildTable_ok_iff {blockSize : Nat} (bitsPerKey : Nat) (hblock : 1 ≤ blockSize)
    (hkeys : ∀ e ∈ es, e.1 ≠ []) (hsorted : Sorted es) :
    (∃ f, buildTable blockSize bitsPerKey es = .ok f) ↔ BlocksFit blockSize es := by
  have hiff (hsizes : ∀ e ∈ es, entrySize (storedEntry e) ≤ Record.kMaxRecordSize) :
      (∃ f, buildTable blockSize bitsPerKey es = .ok f) ↔ BlocksFit blockSize es := by
    have hstored : Sorted (es.map storedEntry) := List.pairwise_map.mpr hsorted
    unfold buildTable SSTableBuilder.create
    rw [if_neg (by omega)]
    exact @SSTableBuilder.Building.addAllAndFinish_ok_iff { blockSize, bitsPerKey } _ es
      ⟨rfl, hblock, rfl, rfl, by simp⟩ hkeys hsizes hstored
  constructor
  · rintro ⟨f, hf⟩
    obtain ⟨hentries, _, hfits, _⟩ := (builds_buildTable blockSize bitsPerKey es).of_ok hf
    exact (hiff (entrySize_le_of_blocks hfits hentries)).mp ⟨f, hf⟩
  · intro hfit
    exact (hiff (entrySize_le_of_blocks hfit.1 (flatten_cutBlocks ..))).mpr hfit

theorem buildTable_error {blockSize bitsPerKey : Nat} {s : Failure}
    (h : buildTable blockSize bitsPerKey es = .error s) : ∃ message, s = .invalidArgument message :=
  (builds_buildTable blockSize bitsPerKey es).of_error h

instance (e : Entry) : Decidable (Writable e) := inferInstanceAs (Decidable (_ ∧ _))

def memtableAfter (writes : List Entry) : Memtable :=
  writes.foldl (fun m e => m.insert e.1 e.2.value e.2.tombstone) .empty

theorem mem_of_mem_memtableAfter {writes : List Entry} (h : e ∈ (memtableAfter writes).map) : e ∈ writes := by
  have hfold : ∀ (writes : List Entry) (m : Memtable),
      e ∈ (writes.foldl (fun m e => m.insert e.1 e.2.value e.2.tombstone) m).map → e ∈ m.map ∨ e ∈ writes := by
    intro writes
    induction writes with
    | nil => exact fun m hm => .inl hm
    | cons w writes ih =>
      intro m hm
      rcases ih (m.insert w.1 w.2.value w.2.tombstone) hm with hinserted | hrest
      · have hfound := find_of_mem (m.insert w.1 w.2.value w.2.tombstone).sorted.nodup_keys hinserted
        have hinsert := hfound.symm.trans (find_insert w.1 e.1 w.2 m.map)
        split at hinsert
        next hkey =>
          have hw : e = w := Prod.ext hkey (Option.some.inj hinsert)
          exact .inr (hw ▸ List.mem_cons_self ..)
        · exact .inl (mem_of_find hinsert.symm)
      · exact .inr (List.mem_cons_of_mem _ hrest)
  rcases hfold writes .empty h with hempty | hwritten
  · cases hempty
  · exact hwritten

/-- What the store accepts it can flush, exactly if the blocks that the builder cuts the
memtable into and their index keep to the 32-bit sizes of the format. -/
theorem accepted_writes_flush_iff (blockSize bitsPerKey : Nat) (hblock : 1 ≤ blockSize) (writes : List Entry)
    (hwrites : ∀ e ∈ writes, Writable e) :
    (∀ message, buildTable blockSize bitsPerKey (memtableAfter writes).map ≠ .error (.invalidArgument message)) ↔
      BlocksFit blockSize (memtableAfter writes).map := by
  have hmem : ∀ e ∈ (memtableAfter writes).map, Writable e :=
    fun e he => hwrites e (mem_of_mem_memtableAfter he)
  rw [← buildTable_ok_iff bitsPerKey hblock (fun e he => (hmem e he).1) (memtableAfter writes).sorted]
  constructor
  · intro hnever
    cases hbuilt : buildTable blockSize bitsPerKey (memtableAfter writes).map with
    | ok f => exact ⟨f, rfl⟩
    | error s =>
      obtain ⟨message, rfl⟩ := buildTable_error hbuilt
      exact absurd hbuilt (hnever message)
  · rintro ⟨f, hbuilt⟩ message herror
    rw [hbuilt] at herror
    cases herror

theorem accepted_writes_flush_two_puts :
    ¬ ∃ message, buildTable 16 10 (memtableAfter [([98], ⟨[1], false⟩), ([97], ⟨[2, 3], false⟩)]).map =
      .error (.invalidArgument message) := by
  rintro ⟨message, hrefused⟩
  exact (accepted_writes_flush_iff 16 10 (by decide) _ (by decide)).mpr (by decide) message hrefused

section

variable {big : Value} (hbig : big.length = 2 ^ 32 - 24)
include hbig

theorem writable_big : Writable ([98], ⟨big, false⟩) := by
  constructor
  · exact List.cons_ne_nil _ _
  · simp only [List.length_singleton, Bool.false_eq_true, if_false, hbig]
    decide

/-- The first entry leaves the block open, and the second, only a few bytes below the
largest record, does not fit the format with it. -/
theorem buildTable_big : buildTable 4096 10 [([97], ⟨[0], false⟩), ([98], ⟨big, false⟩)] =
    .error (.invalidArgument (text "sstable block exceeds the maximum block size")) := by
  have hsize : entrySize ([98], ⟨big, false⟩) = 2 ^ 32 - 14 := by
    simp only [entrySize, List.length_singleton, hbig]
    decide
  obtain ⟨b, hfirst, hblocks, hblock, hsame, hopen⟩ : ∃ b : SSTableBuilder,
      (∀ es, buildTable 4096 10 (([97], ⟨[0], false⟩) :: es) = b.addAllAndFinish es) ∧
        b.blocks = [] ∧ b.block = [([97], ⟨[0], false⟩)] ∧ b.blockSize = 4096 ∧ b.finished = false :=
    ⟨_, fun es => rfl, rfl, rfl, rfl, rfl⟩
  have horder : endsBefore [98] (b.blocks.flatten ++ b.block) = true := by
    rw [hblocks, hblock]
    decide
  have hlarge : Sizes.blockSize (b.block ++ [([98], ⟨big, false⟩)]) = 2 ^ 32 - 3 := by
    rw [hblock]
    simp only [Sizes.blockSize, List.cons_append, List.nil_append, List.map_cons, List.map_nil, hsize]
    decide
  have hadd := SSTableBuilder.add_eq (b := b) (e := ([98], ⟨big, false⟩)) hopen (List.cons_ne_nil _ _) horder
    (hsize.le.trans (by decide))
  have hfull : b.blockSize ≤ Sizes.blockSize (b.block ++ [storedEntry ([98], ⟨big, false⟩)]) := by
    rw [hsame]
    exact hlarge ▸ (by decide)
  rw [if_pos hfull, SSTableBuilder.flushBlock_of_large (by simp [SSTableBuilder.appendEntry])] at hadd
  · rw [hfirst, SSTableBuilder.addAllAndFinish, SSTableBuilder.addAll, hadd]
  · intro hfits
    have hbound : 2 ^ 32 - 3 + kBlockTrailerSize ≤ maxUInt32 := hlarge ▸ hfits
    exact absurd hbound (by decide)

end

theorem exists_big : ∃ big : Value, big.length = 2 ^ 32 - 24 :=
  ⟨List.replicate _ 0, List.length_replicate⟩

/-- Two writes that `write_entry` accepts make one block too large for the format. -/
theorem accepted_writes_refused : ∃ big : Value,
    let writes : List Entry := [([97], ⟨[0], false⟩), ([98], ⟨big, false⟩)]
    (∀ e ∈ writes, Writable e) ∧
      buildTable 4096 10 (memtableAfter writes).map =
        .error (.invalidArgument (text "sstable block exceeds the maximum block size")) := by
  obtain ⟨big, hbig⟩ := exists_big
  refine ⟨big, fun e he => ?_, buildTable_big hbig⟩
  rcases List.mem_pair.mp he with rfl | rfl
  · decide
  · exact writable_big hbig

end KVStore
