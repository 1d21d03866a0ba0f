import KVStore.BitcaskFlakyReads

namespace KVStore.Bitcask

open Lib CrashProgram

open Hint

section Replay

variable [Crc]

/-- `replay_hint` on the index it works on: whether it took the hint, and the index behind it. -/
def replayHintInto (id : FileId) (file : LogFile) (k : Keydir) : Io (Except Failure Bool × Keydir) :=
  (replayHint id file).bind fun
    | none => .ret (.ok false, k)
    | some entries => .ret (.ok true, entries.foldl (Keydir.replayEntry id) k)

/-- How `recover` opens a sealed file by it. -/
theorem openSealedFile_eq (opts : BitcaskOptions) (id : FileId) (k : Keydir) :
    openSealedFile opts id k =
      orFail (LogFile.openAt (.log id) opts.syncMode) fun file =>
      if opts.ignoreHints then replayFile id file false k
      else
        (replayHintInto id file k).bind fun
          | (.error e, _) => .ret (.error e)
          | (.ok true, k') => .ret (.ok (file, k'))
          | (.ok false, k') => replayFile id file false k' := by
  unfold openSealedFile
  congr 1
  funext file
  split
  · rfl
  · rw [replayHintInto, Prog.bind_assoc]
    congr 1
    funext found
    cases found with
    | none => rfl
    | some => rfl

variable {listing : Listing} {fails : FileName → Nat → Nat → Bool} {d d' : Directory} {id : FileId}
    {file : LogFile} {entries : List Hint.Entry}

theorem of_replayHint_flaky (h : (replayHint id file).run (flakyMachine listing fails) d = (some entries, d')) :
    d.lookup (.hint id) = some (entriesBytes entries ++ encodeFooter ⟨file.endOffset, entries.length⟩) ∧
      file.endOffset < 2 ^ 64 ∧
      ∀ e ∈ entries, e.Encodable ∧ (e.recordOffset + e.recordSize) % 2 ^ 64 ≤ file.endOffset := by
  rw [run_replayHint_flaky] at h
  obtain ⟨content, hcontent, hread⟩ := Option.bind_eq_some_iff.mp (congrArg Prod.fst h)
  obtain ⟨rfl, hfits, hentries⟩ := readHint_eq_some flakyRead_honest hread
  exact ⟨hcontent, hfits, hentries⟩

/-- The entry loop ends on every file, and the index takes all of a whole hint or nothing. -/
theorem replayHintInto_all_or_nothing (listing : Listing) (fails : FileName → Nat → Nat → Bool) (d : Directory)
    (id : FileId) (file : LogFile) (k : Keydir) :
    (∀ content, EntryLoop (flakyRead (fails (.hint id)) content) (content.length - kFooterSize) file.endOffset 0
      (readEntries (flakyRead (fails (.hint id)) content) (content.length - kFooterSize) file.endOffset
        (content.length - kFooterSize + 1) 0)) ∧
    ((replayHintInto id file k).run (flakyMachine listing fails) d = ((.ok false, k), d) ∨
      ∃ entries, (replayHintInto id file k).run (flakyMachine listing fails) d =
          ((.ok true, entries.foldl (Keydir.replayEntry id) k), d) ∧
        file.endOffset < 2 ^ 64 ∧ (∀ e ∈ entries, e.Encodable) ∧
        d.lookup (.hint id) = some (entriesBytes entries ++ encodeFooter ⟨file.endOffset, entries.length⟩)) := by
  constructor
  · intro content
    exact entryLoop_readEntries _ _ _ (by omega)
  · have hrun := @run_replayHint_flaky listing fails d _ id file
    rw [replayHintInto, Prog.run_bind, hrun]
    cases hfound : (d.lookup (.hint id)).bind fun content =>
        Hint.readHint (flakyRead (fails (.hint id)) content) content.length file.endOffset with
    | none => exact .inl rfl
    | some entries =>
      rw [hfound] at hrun
      obtain ⟨hfile, hfits, hentries⟩ := of_replayHint_flaky hrun
      exact .inr ⟨entries, rfl, hfits, fun e he => (hentries e he).1, hfile⟩

/-- A pointer that stands in the index when its entry has just been put there. -/
def PutByHint (id : FileId) (k : Keydir) (entries : List Hint.Entry) (p : ValuePointer) : Prop :=
  ∃ applied e, applied ++ [e] <+: entries ∧
    ((applied ++ [e]).foldl (Keydir.replayEntry id) k).index.lookup e.key = some p

omit [Crc] in
theorem putByHint_iff {k : Keydir} {p : ValuePointer} :
    PutByHint id k entries p ↔ ∃ e ∈ entries, p = ⟨e.recordOffset, e.timestamp, id, e.recordSize⟩ := by
  have hput (applied : List Hint.Entry) (e : Hint.Entry) :
      ((applied ++ [e]).foldl (Keydir.replayEntry id) k).index.lookup e.key =
        some ⟨e.recordOffset, e.timestamp, id, e.recordSize⟩ := by
    rw [List.foldl_append, List.foldl_cons, List.foldl_nil, Keydir.replayEntry, Keydir.lookup_put, if_pos rfl]
  constructor
  · rintro ⟨applied, e, hpre, hp⟩
    rw [hput] at hp
    exact ⟨e, hpre.subset (by simp), (Option.some.inj hp).symm⟩
  · rintro ⟨e, he, rfl⟩
    obtain ⟨applied, rest, rfl⟩ := List.append_of_mem he
    exact ⟨applied, e, ⟨rest, by simp⟩, hput ..⟩

/-- The check of an entry against the data file is made in 64 bits. -/
theorem putByHint_inside_iff (k : Keydir)
    (h : (replayHint id file).run (flakyMachine listing fails) d = (some entries, d')) :
    (∀ p, PutByHint id k entries p → p.offset + p.size ≤ file.endOffset) ↔
      ∀ e ∈ entries, e.recordOffset + e.recordSize < 2 ^ 64 := by
  obtain ⟨-, hfits, hentries⟩ := of_replayHint_flaky h
  simp only [putByHint_iff]
  constructor
  · intro hinside e he
    exact Nat.lt_of_le_of_lt (hinside _ ⟨e, he, rfl⟩) hfits
  · rintro hexact p ⟨e, he, rfl⟩
    have hchecked := (hentries e he).2
    rwa [Nat.mod_eq_of_lt (hexact e he)] at hchecked

end Replay

def addressed (offset : Nat) : Hint.Entry := ⟨0, offset, 30, text "a"⟩

/-- A hint with one entry, for a data file of a hundred bytes. -/
def hinted (offset : Nat) : Directory :=
  (∅ : Directory).insert (.hint 1) (entriesBytes [addressed offset] ++ encodeFooter ⟨100, 1⟩)

def replayed (offset : Nat) : Option (List Hint.Entry) × Directory :=
  (replayHint 1 ⟨.log 1, 100, .never, true⟩).run (flakyMachine .asStored fun _ _ _ => false) (hinted offset)

theorem replayed_eq {offset : Nat} (h : (replayed offset).1 = some [addressed offset]) :
    replayed offset = (some [addressed offset], hinted offset) := by
  refine Prod.ext h ?_
  rw [replayed, run_replayHint_flaky]

theorem putByHint_inside :
    replayed 70 = (some [addressed 70], hinted 70) ∧
      ∀ p, PutByHint 1 .empty [addressed 70] p → p.offset + p.size ≤ 100 := by
  have hrun := @replayed_eq 70 (by decide +kernel)
  exact ⟨hrun, (putByHint_inside_iff .empty hrun).mpr (by decide)⟩

/-- The end of the record wraps to the twentieth byte of the data file. -/
theorem putByHint_outside :
    replayed (2 ^ 64 - 10) = (some [addressed (2 ^ 64 - 10)], hinted (2 ^ 64 - 10)) ∧
      ∃ p, PutByHint 1 .empty [addressed (2 ^ 64 - 10)] p ∧ 100 < p.offset + p.size := by
  refine ⟨replayed_eq (by decide +kernel), _, putByHint_iff.mpr ⟨_, List.mem_singleton_self _, rfl⟩, ?_⟩
  decide

end KVStore.Bitcask
