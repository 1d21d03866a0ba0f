import KVStore.MergingIterator
import KVStore.SSTableReader

namespace KVStore

open Lib Checked PartitionPoint TableFormat

/-- What a table gives to a cursor: the last key of each block, and what each call of
`read_block` returns. -/
structure BlockReader where
  lastKeys : List Key
  readBlock : (call index : Nat) → Read Bytes

def SSTableReader.blockReader [Crc] (t : SSTableReader) : BlockReader where
  lastKeys := t.index.map IndexEntry.key
  readBlock _ index := do
    let block ← t.readBlock index
    return block.bytes

/-- A cursor, with all that a call leaves behind, also one that fails. -/
structure TableSource where
  reader : BlockReader
  reads : Nat
  upper : Key
  blockIndex : Nat
  block : Bytes
  entries : List Entry
  entryIndex : Nat
  exhausted : Bool

namespace TableSource

/-- A call that returns at the first status that is not Ok. -/
def andThen (x : Checked Empty (Except Failure Unit × TableSource))
    (f : TableSource → Checked Empty (Except Failure Unit × TableSource)) :
    Checked Empty (Except Failure Unit × TableSource) := do
  let (r, s) ← x
  match r with
  | .error f => return (.error f, s)
  | .ok _ => f s

/-- The entries that `parse_block` has stored when it stops. -/
def entriesParsed (payload : Bytes) : Nat → Nat → List Entry
  | 0, _ => []
  | fuel + 1, i =>
    if i < payload.length then
      match takeEntry payload i with
      | .ok (e, i) => e :: entriesParsed payload fuel i
      | .error _ => []
    else []

def loadBlock (s : TableSource) (index : Nat) : Checked Empty (Except Failure Unit × TableSource) := do
  match ← attempt (s.reader.readBlock s.reads index) with
  | .error f => return (.error f, { s with reads := s.reads + 1 })
  | .ok block => do
    let s := { s with
      reads := s.reads + 1, block := block, entries := entriesParsed block (block.length + 1) 0 }
    match ← attempt (parseBlock block) with
    | .error f => return (.error f, s)
    | .ok entries => return (.ok (), { s with
        blockIndex := index, entries := entries, entryIndex := 0, exhausted := entries.isEmpty })

/-- What `key`, `value` and `tombstone` read. -/
def entry (s : TableSource) : Checked Empty Entry := item s.entries s.entryIndex

def applyUpperBound (s : TableSource) : Checked Empty (Except Failure Unit × TableSource) :=
  if s.exhausted ∨ s.upper = [] then return (.ok (), s)
  else do
    let e ← s.entry
    return (.ok (), if s.upper ≤ e.1 then { s with exhausted := true } else s)

/-- The cursor before `create` loads a block. -/
def unplaced (reader : BlockReader) (endKey : Key) : TableSource := ⟨reader, 0, endKey, 0, [], [], 0, true⟩

/-- A `create` that fails returns no cursor. -/
def create (reader : BlockReader) (beginKey endKey : Key) : Checked Empty (Except Failure Unit × TableSource) :=
  let source := unplaced reader endKey
  if reader.lastKeys = [] then return (.ok (), source)
  else if beginKey = [] then andThen (source.loadBlock 0) applyUpperBound
  else do
    let firstBlock ← lowerBoundIn (fun last : Key => last < beginKey) reader.lastKeys
    if firstBlock = reader.lastKeys.length then return (.ok (), source)
    else andThen (source.loadBlock firstBlock) fun source => do
      let hit ← lowerBoundIn (fun e : Entry => e.1 < beginKey) source.entries
      let source := { source with entryIndex := hit }
      if source.entries.length ≤ source.entryIndex then
        -- the index and the block have a checksum each, and neither covers the other
        if reader.lastKeys.length ≤ source.blockIndex + 1 then return (.ok (), { source with exhausted := true })
        else andThen (source.loadBlock (source.blockIndex + 1)) applyUpperBound
      else source.applyUpperBound

def valid (s : TableSource) : Bool := !s.exhausted

def advance (s : TableSource) : Checked Empty (Except Failure Unit × TableSource) :=
  if s.exhausted then return (.ok (), s)
  else
    let s := { s with entryIndex := s.entryIndex + 1 }
    if s.entries.length ≤ s.entryIndex then
      if s.reader.lastKeys.length ≤ s.blockIndex + 1 then return (.ok (), { s with exhausted := true })
      else andThen (s.loadBlock (s.blockIndex + 1)) applyUpperBound
    else s.applyUpperBound

def advanceMany : Nat → TableSource → Checked Empty (Except Failure Unit × TableSource)
  | 0, s => return (.ok (), s)
  | n + 1, s => andThen s.advance (advanceMany n)

def entrySource : EntrySource TableSource := ⟨valid, entry, advance⟩

/-- Reading returns, with a block or with a status. -/
def SafeReader (reader : BlockReader) : Prop :=
  ∀ call index, SSTableReader.Returns (reader.readBlock call index)

/-- The call of `read_block` gave a block that can be parsed. -/
def Parses (s : TableSource) (call : Nat) : Prop :=
  ∃ block entries, (∀ index, s.reader.readBlock call index = .ok block) ∧ parseBlock block = .ok entries

/-- A valid cursor stands on an entry, and its entries are the complete parse of its block. -/
def Whole (s : TableSource) : Prop :=
  s.valid = true → s.entryIndex < s.entries.length ∧ parseBlock s.block = .ok s.entries

/-- How a call ends: with the reader it began with, and if it returns Ok, which it does if the
blocks that it was given parse, with a whole cursor. -/
def Ends (s : TableSource) (x : Checked Empty (Except Failure Unit × TableSource)) : Prop :=
  ∃ r s', x = .ok (r, s') ∧ s'.reader = s.reader ∧ s.reads ≤ s'.reads ∧ (r = .ok () → s'.Whole) ∧
    ((∀ n < s'.reads, s.Parses n) → r = .ok ())

variable {s : TableSource} {reader : BlockReader}

theorem whole_of_exhausted (h : s.exhausted = true) : s.Whole := fun hvalid => by simp [valid, h] at hvalid

theorem Whole.entry (h : s.Whole) (hvalid : s.valid = true) : ∃ e, s.entry = .ok e :=
  ⟨_, item_of_getElem? (List.getElem?_eq_getElem (h hvalid).1)⟩

theorem ends_return {s' : TableSource} (hreader : s'.reader = s.reader) (hreads : s.reads = s'.reads)
    (h : s'.Whole) : s.Ends (.ok (.ok (), s')) :=
  ⟨_, _, rfl, hreader, hreads.le, fun _ => h, fun _ => rfl⟩

theorem Ends.trans {s' : TableSource} {x : Checked Empty (Except Failure Unit × TableSource)} (hx : s'.Ends x)
    (hreader : s'.reader = s.reader) (hreads : s.reads ≤ s'.reads) : s.Ends x := by
  obtain ⟨r, t, ht, hreader', hreads', hwhole, hok⟩ := hx
  refine ⟨r, t, ht, hreader'.trans hreader, hreads.trans hreads', hwhole, fun hparses => hok ?_⟩
  rwa [show s'.Parses = s.Parses by unfold Parses; rw [hreader]]

theorem Ends.andThen {x : Checked Empty (Except Failure Unit × TableSource)}
    {f : TableSource → Checked Empty (Except Failure Unit × TableSource)} (hx : s.Ends x)
    (hf : ∀ s' : TableSource, s'.reader = s.reader → s'.Whole → s'.Ends (f s')) : s.Ends (andThen x f) := by
  obtain ⟨r, s', rfl, hreader, hreads, hwhole, hok⟩ := hx
  cases r with
  | error => exact ⟨_, _, rfl, hreader, hreads, nofun, hok⟩
  | ok => exact (hf s' hreader (hwhole rfl)).trans hreader hreads

theorem Whole.ends_applyUpperBound (h : s.Whole) : s.Ends s.applyUpperBound := by
  unfold applyUpperBound
  split
  · exact ends_return rfl rfl h
  next hopen =>
    have hvalid : s.valid = true := by simp [valid, Bool.eq_false_iff.mpr fun hex => hopen (.inl hex)]
    obtain ⟨e, he⟩ := h.entry hvalid
    rw [he, ok_bind]
    by_cases hupper : s.upper ≤ e.1
    · rw [if_pos hupper]
      exact ends_return rfl rfl (whole_of_exhausted rfl)
    · rw [if_neg hupper]
      exact ends_return rfl rfl h

theorem ends_loadBlock (hsafe : SafeReader s.reader) (index : Nat) : s.Ends (s.loadBlock index) := by
  unfold loadBlock
  rcases (hsafe s.reads index).value_or_status with ⟨block, hblock, -⟩ | ⟨f, hf, -⟩
  · rw [hblock, attempt, ok_bind]
    dsimp only
    rcases (yields_parseBlock block).value_or_status with ⟨entries, hentries, -⟩ | ⟨f, hf, -⟩
    · rw [hentries, attempt, ok_bind]
      refine ⟨_, _, rfl, rfl, Nat.le_succ _, fun _ hvalid => ⟨?_, hentries⟩, fun _ => rfl⟩
      cases entries with
      | nil => cases hvalid
      | cons => exact Nat.succ_pos _
    · rw [hf, attempt, ok_bind]
      refine ⟨_, _, rfl, rfl, Nat.le_succ _, nofun, fun hparses => ?_⟩
      obtain ⟨_, _, hread, hparse⟩ := hparses s.reads (Nat.lt_succ_self _)
      cases hblock.symm.trans (hread index)
      cases hf.symm.trans hparse
  · rw [hf, attempt, ok_bind]
    refine ⟨_, _, rfl, rfl, Nat.le_succ _, nofun, fun hparses => ?_⟩
    obtain ⟨_, _, hread, _⟩ := hparses s.reads (Nat.lt_succ_self _)
    cases hf.symm.trans (hread index)

theorem ends_loadAndBound (hsafe : SafeReader s.reader) (index : Nat) :
    s.Ends (andThen (s.loadBlock index) applyUpperBound) :=
  (ends_loadBlock hsafe index).andThen fun _ _ hwhole => hwhole.ends_applyUpperBound

theorem ends_create (hsafe : SafeReader reader) (beginKey endKey : Key) :
    (unplaced reader endKey).Ends (create reader beginKey endKey) := by
  unfold create
  dsimp only
  split
  · exact ends_return rfl rfl (whole_of_exhausted rfl)
  split
  · exact ends_loadAndBound hsafe 0
  rw [lowerBoundIn_eq, ok_bind]
  split
  · exact ends_return rfl rfl (whole_of_exhausted rfl)
  · refine (ends_loadBlock hsafe _).andThen fun s hreader hwhole => ?_
    rw [lowerBoundIn_eq, ok_bind]
    split
    · split
      · exact ends_return rfl rfl (whole_of_exhausted rfl)
      · refine (ends_loadAndBound ?_ _).trans rfl le_rfl
        exact hreader.symm ▸ hsafe
    next hhit =>
      have hfound : Whole { s with entryIndex := lowerBound (fun e => e.1 < beginKey) s.entries } :=
        fun hvalid => ⟨Nat.not_le.mp hhit, (hwhole hvalid).2⟩
      exact hfound.ends_applyUpperBound.trans rfl le_rfl

theorem Whole.ends_advance (h : s.Whole) (hsafe : SafeReader s.reader) : s.Ends s.advance := by
  unfold advance
  dsimp only
  split
  · exact ends_return rfl rfl h
  split
  · split
    · exact ends_return rfl rfl (whole_of_exhausted rfl)
    · have hload := @ends_loadAndBound { s with entryIndex := s.entryIndex + 1 } hsafe (s.blockIndex + 1)
      exact hload.trans rfl le_rfl
  next hnext =>
    have hmoved : Whole { s with entryIndex := s.entryIndex + 1 } :=
      fun hvalid => ⟨Nat.not_le.mp hnext, (h hvalid).2⟩
    exact hmoved.ends_applyUpperBound.trans rfl le_rfl

theorem Whole.ends_advanceMany (h : s.Whole) (hsafe : SafeReader s.reader) (n : Nat) : s.Ends (advanceMany n s) := by
  induction n generalizing s with
  | zero => exact ends_return rfl rfl h
  | succ n ih => exact (h.ends_advance hsafe).andThen fun _ hreader hwhole => ih hwhole (hreader.symm ▸ hsafe)

end TableSource

namespace SSTableReader

variable [Crc]

theorem Sound.safe_blockReader {t : SSTableReader} (h : t.Sound) : TableSource.SafeReader t.blockReader :=
  fun _ index => (h.returns_readBlock index).bind fun _ _ => yields_pure trivial

/-- Whatever the bytes of the file are, opening it and reading from what was opened stays inside
the file, the blocks, the index, the entries and the filter. -/
theorem open_safe (path content : Bytes) (mode : ReadMode) (bloomEnabled : Bool) :
    (∃ f : Failure, openTable path content mode bloomEnabled = .error (.status f) ∧ f.status.code = .corruption) ∨
    ∃ t, openTable path content mode bloomEnabled = .ok t ∧
      (∀ key, Returns (t.lookup key)) ∧
      (∀ blockIndex, Returns (t.readBlock blockIndex)) ∧
      ∀ beginKey endKey calls, ∃ r source,
        TableSource.andThen (TableSource.create t.blockReader beginKey endKey) (TableSource.advanceMany calls) =
          .ok (r, source) ∧
        (r = .ok () → source.valid = true → ∃ e, source.entry = .ok e) := by
  have hload := TableHandle.yields_load ⟨path, content, mode⟩ bloomEnabled
  rcases hload.value_or_status with ⟨t, ht, hsound⟩ | ⟨f, hf, hcorruption⟩
  · refine .inr ⟨t, ht, hsound.returns_lookup, hsound.returns_readBlock, ?_⟩
    intro beginKey endKey calls
    have hsafe := hsound.safe_blockReader
    obtain ⟨r, source, hends, -, -, hwhole, -⟩ := (TableSource.ends_create hsafe beginKey endKey).andThen
      fun s hreader hs => hs.ends_advanceMany (hreader.symm ▸ hsafe) calls
    exact ⟨r, source, hends, fun hok => (hwhole hok).entry⟩
  · exact .inl ⟨f, hf, hcorruption⟩

end SSTableReader

end KVStore
