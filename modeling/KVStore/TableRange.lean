import KVStore.TableRoundTrip

namespace KVStore

open Lib PartitionPoint SortedRun Checked TableFormat TableFile

theorem ne_nil_of_buildTable {blockSize bitsPerKey : Nat} {es : List Entry} {f : TableFile}
    (h : buildTable blockSize bitsPerKey es = .ok f) : ∀ e ∈ es, e.1 ≠ [] :=
  ((builds_buildTable blockSize bitsPerKey es).of_ok h).2.1

namespace TableSource

def below (upper : Key) (e : Entry) : Bool := upper = [] ∨ e.1 < upper

/-- The entries from the position of the cursor to the end of the table. -/
def ahead (f : TableFile) (s : TableSource) : List Entry :=
  s.entries.drop s.entryIndex ++ (f.blocks.drop (s.blockIndex + 1)).flatten

/-- The cursor stands on an entry of a block of the table. -/
structure On (f : TableFile) (s : TableSource) : Prop where
  reader : s.reader = f.blockReader
  block : f.blocks[s.blockIndex]? = some s.entries
  position : s.entryIndex < s.entries.length
  running : s.exhausted = false

/-- These are the entries that the cursor has still to give. -/
def Gives (f : TableFile) (s : TableSource) (es : List Entry) : Prop :=
  s.exhausted = true ∧ es = [] ∨ s.On f ∧ es = (s.ahead f).takeWhile (below s.upper) ∧ es ≠ []

variable {f : TableFile} {s : TableSource}

theorem On.exists_entry (h : s.On f) : ∃ e, s.entry = .ok e ∧
    s.ahead f = e :: (s.entries.drop (s.entryIndex + 1) ++ (f.blocks.drop (s.blockIndex + 1)).flatten) := by
  refine ⟨_, item_of_getElem? (List.getElem?_eq_getElem h.position), ?_⟩
  rw [ahead, List.drop_eq_getElem_cons h.position, List.cons_append]

theorem On.gives_applyUpperBound (h : s.On f) :
    ∃ s', s.applyUpperBound = .ok (.ok (), s') ∧ s'.Gives f ((s.ahead f).takeWhile (below s.upper)) := by
  obtain ⟨e, he, hahead⟩ := h.exists_entry
  have hstays : below s.upper e = true → s.Gives f ((s.ahead f).takeWhile (below s.upper)) := by
    intro hbelow
    refine .inr ⟨h, rfl, ?_⟩
    rw [hahead, List.takeWhile_cons_of_pos hbelow]
    exact List.cons_ne_nil _ _
  unfold applyUpperBound
  by_cases hupper : s.upper = []
  · rw [if_pos (.inr hupper)]
    exact ⟨s, rfl, hstays (by simp [below, hupper])⟩
  · rw [if_neg (by simp [h.running, hupper]), he, ok_bind]
    by_cases hle : s.upper ≤ e.1
    · rw [if_pos hle, hahead, List.takeWhile_cons_of_neg (by simp [below, hupper, hle])]
      exact ⟨_, rfl, .inl ⟨rfl, rfl⟩⟩
    · rw [if_neg hle]
      exact ⟨s, rfl, hstays (by simpa [below, hupper] using hle)⟩

section

variable (hfits : f.Fits)
include hfits

theorem on_loadBlock (hreader : s.reader = f.blockReader) {i : Nat} (hi : i < f.blocks.length) :
    ∃ s', s.loadBlock i = .ok (.ok (), s') ∧ s'.On f ∧ s'.upper = s.upper ∧ s'.blockIndex = i ∧ s'.entryIndex = 0 := by
  have hblock := List.getElem?_eq_getElem hi
  have hne := f.nonempty _ (List.getElem_mem hi)
  have hread : s.reader.readBlock s.reads i = .ok (blockPayload f.blocks[i]) := by
    rw [hreader]
    simp only [blockReader, hblock]
    rfl
  have hparse : parseBlock (blockPayload f.blocks[i]) = .ok f.blocks[i] :=
    parseBlock_encode (hfits.entryFits (List.getElem_mem hi))
  rw [loadBlock, hread, attempt, ok_bind]
  dsimp only
  rw [hparse, attempt, ok_bind]
  exact ⟨_, rfl, ⟨hreader, hblock, List.length_pos_of_ne_nil hne, by simpa using hne⟩, rfl, rfl, rfl⟩

theorem gives_loadAndBound (hreader : s.reader = f.blockReader) {i : Nat} (hi : i < f.blocks.length) :
    ∃ s', andThen (s.loadBlock i) applyUpperBound = .ok (.ok (), s') ∧
      s'.Gives f ((f.blocks.drop i).flatten.takeWhile (below s.upper)) := by
  obtain ⟨t, hload, hon, hupper, hindex, hentry⟩ := on_loadBlock hfits hreader hi
  obtain ⟨s', hs', hgives⟩ := hon.gives_applyUpperBound
  have hentries : f.blocks[i] = t.entries := by
    rw [← Option.some_inj, ← List.getElem?_eq_getElem hi, ← hon.block, hindex]
  rw [ahead, hindex, hentry, hupper, List.drop_zero, ← hentries, ← List.flatten_cons,
    List.getElem_cons_drop] at hgives
  rw [andThen, hload, ok_bind]
  exact ⟨s', hs', hgives⟩

theorem On.gives_advance (h : s.On f) :
    ∃ s', s.advance = .ok (.ok (), s') ∧ s'.Gives f ((s.ahead f).tail.takeWhile (below s.upper)) := by
  obtain ⟨e, -, hahead⟩ := h.exists_entry
  have hlast : s.reader.lastKeys.length = f.blocks.length := by
    rw [h.reader, blockReader, List.length_map]
  unfold advance
  rw [if_neg (by simp [h.running]), hahead, List.tail_cons]
  dsimp only
  split
  next hend =>
    rw [List.drop_eq_nil_of_le hend, List.nil_append, hlast]
    split
    next hdone =>
      rw [List.drop_eq_nil_of_le hdone]
      exact ⟨_, rfl, .inl ⟨rfl, rfl⟩⟩
    next hmore =>
      have hreader : TableSource.reader { s with entryIndex := s.entryIndex + 1 } = f.blockReader := h.reader
      exact gives_loadAndBound hfits hreader (Nat.not_le.mp hmore)
  next hnext =>
    have hmoved : On f { s with entryIndex := s.entryIndex + 1 } :=
      ⟨h.reader, h.block, Nat.not_le.mp hnext, h.running⟩
    exact hmoved.gives_applyUpperBound

theorem Gives.streams {es : List Entry} (h : s.Gives f es) : entrySource.Streams s es := by
  induction es generalizing s with
  | nil =>
    rcases h with ⟨hexhausted, -⟩ | ⟨-, -, hne⟩
    · exact .done (by simp [entrySource, valid, hexhausted])
    · exact absurd rfl hne
  | cons e es ih =>
    rcases h with ⟨-, hnil⟩ | ⟨hon, hes, -⟩
    · cases hnil
    · obtain ⟨e', he, hahead⟩ := hon.exists_entry
      obtain ⟨s', hs', hgives⟩ := hon.gives_advance hfits
      rw [hahead] at hes hgives
      have hbelow : below s.upper e' = true := by
        by_contra hnot
        rw [List.takeWhile_cons_of_neg hnot] at hes
        cases hes
      rw [List.takeWhile_cons_of_pos hbelow] at hes
      cases hes
      exact .step (by simp [entrySource, valid, hon.running]) he hs' (ih hgives)

end

theorem dropWhile_lt_nil (es : List Entry) : es.dropWhile (fun e => decide (e.1 < ([] : Key))) = es := by
  cases es with
  | nil => rfl
  | cons => exact List.dropWhile_cons_of_neg (by simp)

theorem filter_inRange {es : List Entry} (hsorted : Sorted es) (beginKey endKey : Key) :
    es.filter (inRange beginKey endKey) =
      (es.dropWhile (fun e => e.1 < beginKey)).takeWhile (below endKey) := by
  have hend : Partitioned (below endKey) es := by
    refine hsorted.imp ?_
    intro a b hab hb
    simp only [below, decide_eq_true_eq] at hb ⊢
    exact hb.imp_right hab.trans
  have hsplit : es.filter (inRange beginKey endKey) =
      (es.filter (fun e => !decide (e.1 < beginKey))).filter (below endKey) := by
    rw [List.filter_filter]
    apply List.filter_congr
    intro e _
    rw [Bool.eq_iff_iff]
    simp only [inRange, below, decide_eq_true_eq, Bool.and_eq_true, Bool.not_eq_true', decide_eq_false_iff_not,
      not_lt]
    exact and_comm
  rw [hsplit, filter_not_eq_dropWhile (partitioned_block hsorted beginKey)]
  exact filter_eq_takeWhile (hend.sublist (List.dropWhile_sublist _))

theorem lt_of_blockLastKey_lt {block : List Entry} (hblock : block ∈ f.blocks) {key : Key}
    (h : blockLastKey block < key) : ∀ e ∈ block, e.1 < key := by
  have hsorted : Sorted block := f.sorted.sublist (List.sublist_flatten_of_mem hblock)
  have hends : endsBefore key block = true := by
    rw [← blockLastKey_lt (f.nonempty block hblock)]
    exact decide_eq_true h
  exact fun e he => lt_of_endsBefore hsorted hends he

theorem dropWhile_entries (f : TableFile) (beginKey : Key) :
    f.entries.dropWhile (fun e => e.1 < beginKey) =
      List.dropWhile (fun e => e.1 < beginKey)
        (f.blocks.drop (lowerBound (fun b => blockLastKey b < beginKey) f.blocks)).flatten := by
  rw [drop_lowerBound (f.partitioned_blocks beginKey), TableFile.entries]
  nth_rewrite 1 [← List.takeWhile_append_dropWhile (p := fun b => decide (blockLastKey b < beginKey))
    (l := f.blocks)]
  rw [List.flatten_append, List.dropWhile_append_of_pos]
  intro e he
  obtain ⟨block, hblock, he⟩ := List.mem_flatten.mp he
  have hbefore := List.mem_takeWhile_imp hblock
  have hmem := (List.takeWhile_sublist _).subset hblock
  exact decide_eq_true (lt_of_blockLastKey_lt hmem (of_decide_eq_true hbefore) e he)

theorem dropWhile_block_ne_nil (f : TableFile) (beginKey : Key) {block : List Entry}
    (h : f.blocks[lowerBound (fun b => blockLastKey b < beginKey) f.blocks]? =
      some block) : block.dropWhile (fun e => e.1 < beginKey) ≠ [] := by
  have hnot : ¬ blockLastKey block < beginKey := by
    rw [getElem?_lowerBound (f.partitioned_blocks beginKey)] at h
    simpa using List.find?_some h
  obtain ⟨l, e, rfl⟩ := (List.eq_nil_or_concat block).resolve_left (f.nonempty block (List.mem_of_getElem? h))
  intro hnil
  rw [List.dropWhile_eq_nil_iff] at hnil
  have hlast := hnil e (by simp)
  simp [blockLastKey] at hnot
  simp at hlast
  exact absurd hlast (not_lt_of_ge hnot)

theorem gives_create (hfits : f.Fits) (beginKey endKey : Key) :
    ∃ s, create f.blockReader beginKey endKey = .ok (.ok (), s) ∧
      s.Gives f (f.entries.filter (inRange beginKey endKey)) := by
  have hlast : f.blockReader.lastKeys.length = f.blocks.length := List.length_map _
  have hbound : lowerBound (fun last : Key => decide (last < beginKey)) f.blockReader.lastKeys =
      lowerBound (fun b => decide (blockLastKey b < beginKey)) f.blocks :=
    lowerBound_map _ _ _
  rw [@filter_inRange f.entries f.sorted]
  unfold create
  by_cases hempty : f.blocks = []
  · rw [if_pos (by rw [blockReader, hempty]; rfl), f.entries_eq_nil_iff.mpr hempty]
    exact ⟨_, rfl, .inl ⟨rfl, rfl⟩⟩
  rw [if_neg (by simpa [blockReader] using hempty)]
  by_cases hbegin : beginKey = []
  · rw [if_pos hbegin, hbegin, dropWhile_lt_nil]
    exact gives_loadAndBound (s := unplaced f.blockReader endKey) hfits rfl (List.length_pos_of_ne_nil hempty)
  rw [if_neg hbegin, lowerBoundIn_eq, ok_bind, hbound, hlast, dropWhile_entries]
  generalize hi : lowerBound (fun b => decide (blockLastKey b < beginKey)) f.blocks = i
  split
  next hend =>
    rw [hend, List.drop_length]
    exact ⟨_, rfl, .inl ⟨rfl, rfl⟩⟩
  next hmore =>
    have hlt : i < f.blocks.length := Nat.lt_of_le_of_ne (hi ▸ lowerBound_le _ _) hmore
    obtain ⟨t, hload, hon, hupper, hindex, -⟩ := on_loadBlock
      (s := unplaced f.blockReader endKey) hfits rfl hlt
    have hblock : f.blocks[i]? = some t.entries := hindex ▸ hon.block
    have hsorted : Sorted t.entries :=
      f.sorted.sublist (List.sublist_flatten_of_mem (List.mem_of_getElem? hblock))
    have hdrop := drop_lowerBound (partitioned_block hsorted beginKey)
    have hne := dropWhile_block_ne_nil f beginKey (hi ▸ hblock)
    have hhit : lowerBound (fun e => decide (e.1 < beginKey)) t.entries < t.entries.length := by
      by_contra hge
      exact hne (hdrop.symm.trans (List.drop_eq_nil_of_le (Nat.not_lt.mp hge)))
    have hfound : On f { t with entryIndex := lowerBound (fun e => e.1 < beginKey) t.entries } :=
      ⟨hon.reader, hon.block, hhit, hon.running⟩
    have hahead : ahead f { t with entryIndex := lowerBound (fun e => e.1 < beginKey) t.entries } =
        (f.blocks.drop i).flatten.dropWhile (fun e => e.1 < beginKey) := by
      have hcons : f.blocks.drop i = t.entries :: f.blocks.drop (i + 1) := by
        rw [List.drop_eq_getElem_cons hlt, ← Option.some_inj.mp ((List.getElem?_eq_getElem hlt).symm.trans hblock)]
      rw [hcons, List.flatten_cons, List.dropWhile_append, if_neg (by simpa using hne), ahead, hdrop, hindex]
    have hend : endKey = t.upper := hupper.symm
    rw [andThen, hload, ok_bind]
    dsimp only
    rw [lowerBoundIn_eq, ok_bind, if_neg (Nat.not_le.mpr hhit), ← hahead, hend]
    exact hfound.gives_applyUpperBound

end TableSource

/-- A cursor over a finished table gives exactly the entries of its range, in their order. -/
theorem table_range [Crc] [ProbeCount] (path : Bytes) (mode : ReadMode) (bloomEnabled : Bool)
    (blockSize bitsPerKey : Nat) (es : List Entry) (content : Bytes)
    (hbuilt : SSTableWriter.build blockSize bitsPerKey es = .ok content) :
    ∃ t, SSTableReader.openTable path content mode bloomEnabled = .ok t ∧
      ∀ beginKey endKey, ∃ source, TableSource.create t.blockReader beginKey endKey = .ok (.ok (), source) ∧
        ∃ rounds, ∀ fuel ≥ rounds, TableSource.entrySource.rest fuel source =
          .ok (.ok ((es.map storedEntry).filter fun e => beginKey ≤ e.1 ∧ (endKey = [] ∨ e.1 < endKey))) := by
  rw [SSTableWriter.build_eq] at hbuilt
  cases hf : buildTable blockSize bitsPerKey es with
  | error s => rw [hf] at hbuilt; cases hbuilt
  | ok f =>
    rw [hf] at hbuilt
    cases hbuilt
    have hfits := fits_of_buildTable (ne_nil_of_buildTable hf) hf
    refine ⟨_, SSTableReader.openTable_encodeFile hfits, ?_⟩
    intro beginKey endKey
    rw [SSTableReader.blockReader_ofFile, ← buildTable_entries hf]
    obtain ⟨source, hsource, hgives⟩ := TableSource.gives_create hfits beginKey endKey
    exact ⟨source, hsource, _, fun fuel hfuel => (hgives.streams hfits).rest (Nat.lt_of_succ_le hfuel)⟩

/-- Each entry is a block of its own, and the range begins inside the table. -/
theorem table_range_from_second_block :
    let es : List Entry := [([97], ⟨[1, 2], false⟩), ([98], ⟨[], true⟩), ([99], ⟨[3], false⟩)]
    ∃ content t source rounds, SSTableWriter.build 1 10 es = .ok content ∧
      SSTableReader.openTable (text "000001.sst") content .mmap true = .ok t ∧
      TableSource.create t.blockReader [98] [] = .ok (.ok (), source) ∧
      TableSource.entrySource.rest rounds source = .ok (.ok [([98], ⟨[], true⟩), ([99], ⟨[3], false⟩)]) := by
  intro es
  have hfit : BlocksFit 1 es := by decide
  obtain ⟨f, hf⟩ := (buildTable_ok_iff 10 (by decide) (by decide) (by decide)).mpr hfit
  have hbuilt : SSTableWriter.build 1 10 es = .ok (encodeFile 10 f) := by
    rw [SSTableWriter.build_eq, hf]
    rfl
  obtain ⟨t, ht, hranges⟩ := table_range (text "000001.sst") .mmap true 1 10 es _ hbuilt
  obtain ⟨source, hsource, rounds, hrest⟩ := hranges [98] []
  exact ⟨_, t, source, rounds, hbuilt, ht, hsource, hrest rounds le_rfl⟩

end KVStore
