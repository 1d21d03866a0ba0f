import KVStore.TableSource

namespace KVStore

open Lib Checked TableFormat

/-- A table whose reads are answered one after the other, each as it happens to go. -/
def BlockReader.answering (lastKeys : List Key) (answers : Nat → Except Failure Bytes) : BlockReader where
  lastKeys := lastKeys
  readBlock call _ :=
    match answers call with
    | .ok block => pure block
    | .error f => fail f

namespace TableSource

variable {s s' : TableSource} {r : Except Failure Unit}

theorem safe_answering (lastKeys : List Key) (answers : Nat → Except Failure Bytes) :
    SafeReader (.answering lastKeys answers) := by
  intro call _
  unfold BlockReader.answering
  dsimp only
  cases answers call with
  | ok => exact yields_pure trivial
  | error => exact yields_fail trivial

theorem reads_le_of_advance (hsafe : SafeReader s.reader) (h : s.advance = .ok (r, s')) :
    s'.reader = s.reader ∧ s.reads ≤ s'.reads := by
  unfold advance at h
  dsimp only at h
  split at h
  · cases h
    exact ⟨rfl, le_rfl⟩
  split at h
  · split at h
    · cases h
      exact ⟨rfl, le_rfl⟩
    · obtain ⟨_, _, ht, hreader, hreads, -⟩ :=
        @ends_loadAndBound { s with entryIndex := s.entryIndex + 1 } hsafe (s.blockIndex + 1)
      cases h.symm.trans ht
      exact ⟨hreader, hreads⟩
  · unfold applyUpperBound at h
    split at h
    · cases h
      exact ⟨rfl, le_rfl⟩
    · obtain ⟨e, _, h⟩ := bind_eq_ok.mp h
      cases h
      split
      · exact ⟨rfl, le_rfl⟩
      · exact ⟨rfl, le_rfl⟩

/-- The cursor is whole unless one of its reads failed or gave a block that does not parse. -/
structure WholeIfParsed (s : TableSource) : Prop where
  safe : SafeReader s.reader
  whole : (∀ n < s.reads, s.Parses n) → s.Whole

theorem WholeIfParsed.advance (h : s.WholeIfParsed) (hadvance : s.advance = .ok (r, s')) : s'.WholeIfParsed := by
  obtain ⟨hreader, hreads⟩ := reads_le_of_advance h.safe hadvance
  refine ⟨hreader.symm ▸ h.safe, fun hparses => ?_⟩
  have hsame : s'.Parses = s.Parses := by
    unfold Parses
    rw [hreader]
  rw [hsame] at hparses
  have hs := h.whole fun n hn => hparses n (hn.trans_le hreads)
  obtain ⟨_, _, ht, -, -, hwhole, hok⟩ := hs.ends_advance h.safe
  cases hadvance.symm.trans ht
  exact hwhole (hok hparses)

/-- Cursors over tables in an iterator, after calls of `advance` and `next` that may all
have failed. -/
inductive Reached : MergingIterator TableSource → Prop
  | start {sources : List TableSource} {mode : Tombstones}
      (created : ∀ s ∈ sources, ∃ lastKeys answers beginKey endKey,
        create (.answering lastKeys answers) beginKey endKey = .ok (.ok (), s)) : Reached { sources, mode }
  | advance {it : MergingIterator TableSource} {i : Nat} {s s' : TableSource} {r : Except Failure Unit}
      (reached : Reached it) (source : it.sources[i]? = some s) (called : s.advance = .ok (r, s')) :
      Reached { it with sources := it.sources.set i s' }
  | next {it it' : MergingIterator TableSource} {fuel : Nat} {r : Except Failure Unit} (reached : Reached it)
      (called : it.findNextLive entrySource fuel = .ok (r, it')) : Reached it'

theorem Reached.wholeIfParsed {it : MergingIterator TableSource} (h : Reached it) :
    ∀ s ∈ it.sources, s.WholeIfParsed := by
  induction h with
  | start created =>
    intro s hs
    obtain ⟨lastKeys, answers, beginKey, endKey, hcreate⟩ := created s hs
    have hsafe := safe_answering lastKeys answers
    obtain ⟨_, _, ht, hreader, -, hwhole, -⟩ := ends_create hsafe beginKey endKey
    cases hcreate.symm.trans ht
    exact ⟨hreader.symm ▸ hsafe, fun _ => hwhole rfl⟩
  | advance _ source called ih =>
    intro t ht
    rcases List.mem_or_eq_of_mem_set ht with ht | rfl
    · exact ih t ht
    · exact (ih _ (List.mem_of_getElem? source)).advance called
  | next _ called ih => exact MergingIterator.findNextLive_keeps (fun _ _ _ => WholeIfParsed.advance) ih called

/-- As long as every block that has been asked for was read and parsed, a valid cursor
stands on an entry of the completely parsed block, and no call reads outside it. -/
theorem cursors_whole {it : MergingIterator TableSource} (h : Reached it)
    (hparses : ∀ s ∈ it.sources, ∀ n < s.reads, s.Parses n) :
    (∀ s ∈ it.sources, s.Whole ∧ (s.valid = true → ∃ e, s.entry = .ok e) ∧ ∃ p, s.advance = .ok p) ∧
      ∀ fuel, it.findNextLive entrySource fuel = .error .unfinished ∨
        ∃ p, it.findNextLive entrySource fuel = .ok p := by
  have hwhole : ∀ s ∈ it.sources, s.Whole ∧ SafeReader s.reader := fun s hs =>
    ⟨(h.wholeIfParsed s hs).whole (hparses s hs), (h.wholeIfParsed s hs).safe⟩
  have hadvance : ∀ s : TableSource, s.Whole ∧ SafeReader s.reader →
      ∃ r s', entrySource.advance s = .ok (r, s') ∧ (r = .ok () → s'.Whole ∧ SafeReader s'.reader) := by
    rintro s ⟨hs, hsafe⟩
    obtain ⟨r, s', hs', hreader, -, hnext, -⟩ := hs.ends_advance hsafe
    exact ⟨r, s', hs', fun hok => ⟨hnext hok, hreader.symm ▸ hsafe⟩⟩
  refine ⟨fun s hs => ⟨(hwhole s hs).1, (hwhole s hs).1.entry, ?_⟩, fun fuel =>
    MergingIterator.findNextLive_safe (fun _ hs => hs.1.entry) hadvance fuel hwhole⟩
  obtain ⟨r, s', hs', -⟩ := hadvance s (hwhole s hs)
  exact ⟨_, hs'⟩

def twoBlocks (second : Except Failure Bytes) : BlockReader :=
  .answering [[97], [98]] fun
    | 0 => .ok (encodeEntry ([97], ⟨[1], false⟩))
    | _ => second

theorem reached_of_advance {lastKeys : List Key} {answers : Nat → Except Failure Bytes} {beginKey endKey : Key}
    (hcreate : create (.answering lastKeys answers) beginKey endKey = .ok (.ok (), s))
    (hadvance : s.advance = .ok (r, s')) : Reached { sources := [s'] } := by
  have hstart : Reached { sources := [s] } := by
    apply Reached.start
    intro t ht
    rw [List.mem_singleton.mp ht]
    exact ⟨_, _, _, _, hcreate⟩
  exact hstart.advance (i := 0) rfl hadvance

def onFirstBlock (second : Except Failure Bytes) : TableSource :=
  ⟨twoBlocks second, 1, [], 0, encodeEntry ([97], ⟨[1], false⟩), [([97], ⟨[1], false⟩)], 0, false⟩

theorem create_twoBlocks (second : Except Failure Bytes) :
    create (twoBlocks second) [] [] = .ok (.ok (), onFirstBlock second) := rfl

/-- Both blocks are read and parsed. -/
theorem cursors_whole_of_two_blocks :
    ∃ s, (onFirstBlock (.ok (encodeEntry ([98], ⟨[], true⟩)))).advance = .ok (.ok (), s) ∧
      s.valid = true ∧ s.Whole := by
  refine ⟨_, rfl, rfl, ?_⟩
  have hcreate := create_twoBlocks (.ok (encodeEntry ([98], ⟨[], true⟩)))
  refine ((cursors_whole (reached_of_advance hcreate rfl) ?_).1 _ (List.mem_singleton_self _)).1
  intro s hs n hn
  rw [List.mem_singleton.mp hs] at hn ⊢
  match n, hn with
  | 0, _ => exact ⟨_, _, fun _ => rfl, rfl⟩
  | 1, _ => exact ⟨_, _, fun _ => rfl, rfl⟩

/-- Reading the second block fails: the cursor stays valid behind the last entry of the
first, and the next call reads past the end of its entries. -/
theorem valid_behind_last_entry :
    ∃ s, (onFirstBlock (.error (.ioError []))).advance = .ok (.error (.ioError []), s) ∧
      s.valid = true ∧ ¬ s.Whole ∧ s.entry = .error .outOfBounds ∧ Reached { sources := [s] } ∧
      MergingIterator.findNextLive entrySource 1 { sources := [s] } = .error .outOfBounds := by
  have hcreate := create_twoBlocks (.error (.ioError []))
  refine ⟨_, rfl, rfl, fun hwhole => ?_, rfl, reached_of_advance hcreate rfl, rfl⟩
  exact absurd (hwhole rfl).1 (by decide)

end TableSource

end KVStore
