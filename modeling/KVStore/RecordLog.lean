import KVStore.BitcaskShortWrite
import KVStore.Wal

namespace KVStore

open Lib CrashProgram Bitcask

section

variable [Crc]

/-- A record log after some appends, any of which may have fallen short: the records
passed to append, those whose append returned Ok, the bytes that the failed ones left past
the end of the log, the open file and the directory. The log starts with the records a
recovery found in it; every append writes over the start of what was left. -/
inductive Appended (listing : Listing) (id : FileId) :
    List Intact → List Intact → Bytes → LogFile → Directory → Prop
  | opened {mode : SyncMode} {d : Directory} {chunks : List Intact}
      (stored : d.lookup (.log id) = some (bytesOf chunks)) :
      Appended listing id chunks chunks [] ⟨.log id, (bytesOf chunks).length, mode, true⟩ d
  | ok {supplied acked : List Intact} {left : Bytes} {file file' : LogFile} {d d' : Directory} {offset : Nat}
      (key : Key) (value : Value) (now : Timestamp) (tombstone : Bool) (keyed : key ≠ [])
      (fits : Record.Fits key value) (before : Appended listing id supplied acked left file d)
      (runs : FaultyRuns listing (file.append (Record.encode key value now tombstone)) d (.ok offset, file') d') :
      Appended listing id (supplied ++ [.ofWrite key value now tombstone keyed fits])
        (acked ++ [.ofWrite key value now tombstone keyed fits])
        (left.drop (Record.encode key value now tombstone).length) file' d'
  | failed {supplied acked : List Intact} {left : Bytes} {file file' : LogFile} {d d' : Directory} {e : Failure}
      (key : Key) (value : Value) (now : Timestamp) (tombstone : Bool) (keyed : key ≠ [])
      (fits : Record.Fits key value) (before : Appended listing id supplied acked left file d)
      (runs : FaultyRuns listing (file.append (Record.encode key value now tombstone)) d (.error e, file') d')
      (written : Bytes) (wrote : d' = d.pwrite (.log id) file.endOffset written) :
      Appended listing id (supplied ++ [.ofWrite key value now tombstone keyed fits]) acked
        (written ++ left.drop written.length) file' d'

/-- Wherever complete records stand in a row from the start of the bytes, they are among
those supplied. -/
def StartsOnly (supplied : List Intact) (left : Bytes) : Prop :=
  ∀ (before : List Intact) (c : Intact) (rest : Bytes), left = bytesOf before ++ (c.raw ++ rest) →
    c.record ∈ supplied.map Intact.record

theorem startsOnly_of_short (supplied : List Intact) {left : Bytes} (h : left.length < Record.kHeaderSize) :
    StartsOnly supplied left := by
  rintro before c rest rfl
  have hsize := c.headerSize_le
  simp only [List.length_append] at h
  omega

def scanned (content : Bytes) : List Record :=
  (scanRecords (readAt content) content.length).1.map Visited.record

theorem map_record_visitedFrom (offset : Nat) (chunks : List Intact) :
    (visitedFrom offset chunks).map Visited.record = chunks.map Intact.record := by
  induction chunks generalizing offset with
  | nil => rfl
  | cons c chunks ih => rw [visitedFrom, List.map_cons, List.map_cons, ih]

theorem scanned_bytesOf (chunks : List Intact) {tail : Bytes} (htail : NoRecord tail) :
    scanned (bytesOf chunks ++ tail) = chunks.map Intact.record := by
  rw [scanned, scanRecords_bytesOf chunks htail, map_record_visitedFrom]

theorem scanned_append (chunks : List Intact) (tail : Bytes) :
    scanned (bytesOf chunks ++ tail) = chunks.map Intact.record ++ scanned tail := by
  obtain ⟨chunks', rest, rfl, hrest⟩ := exists_chunks tail
  have hwhole : bytesOf chunks ++ (bytesOf chunks' ++ rest) = bytesOf (chunks ++ chunks') ++ rest := by
    rw [bytesOf_append, List.append_assoc]
  rw [hwhole, scanned_bytesOf _ hrest, scanned_bytesOf _ hrest, List.map_append]

theorem scanned_subset_iff (supplied : List Intact) (left : Bytes) :
    (∀ r ∈ scanned left, r ∈ supplied.map Intact.record) ↔ StartsOnly supplied left := by
  constructor
  · rintro h before c rest rfl
    apply h
    have hrow : bytesOf before ++ (c.raw ++ rest) = bytesOf (before ++ [c]) ++ rest := by simp
    rw [hrow, scanned_append]
    simp
  · intro h r hr
    obtain ⟨chunks, rest, rfl, hrest⟩ := exists_chunks left
    rw [scanned_bytesOf chunks hrest] at hr
    obtain ⟨c, hc, rfl⟩ := List.mem_map.mp hr
    obtain ⟨before, after, rfl⟩ := List.append_of_mem hc
    exact h before c (bytesOf after ++ rest) (by simp)

namespace Appended

variable {listing : Listing} {id : FileId} {supplied acked : List Intact} {left : Bytes} {file : LogFile}
    {d : Directory}

theorem stored (h : Appended listing id supplied acked left file d) :
    d.lookup (.log id) = some (bytesOf acked ++ left) ∧
      file.name = .log id ∧ file.isOpen = true ∧ file.endOffset = (bytesOf acked).length := by
  induction h with
  | opened stored => exact ⟨by rw [List.append_nil, stored], rfl, rfl, rfl⟩
  | ok key value now tombstone keyed fits before runs ih =>
    obtain ⟨hfile, hname, hopen, hend⟩ := ih
    rcases runs_append hopen hname runs with ⟨hr, rfl⟩ | ⟨e, n, _, hr, _⟩
    · cases hr
      refine ⟨?_, hname, hopen, ?_⟩
      · rw [hend, Directory.lookup_pwrite hfile, overwrite_append, bytesOf_append]
        simp [Intact.ofWrite]
      · rw [hend, bytesOf_append, List.length_append]
        simp [Intact.ofWrite]
    · cases hr
  | failed key value now tombstone keyed fits before runs written wrote ih =>
    obtain ⟨hfile, hname, hopen, hend⟩ := ih
    rcases runs_append hopen hname runs with ⟨hr, _⟩ | ⟨e, n, _, hr, _⟩
    · cases hr
    · cases hr
      refine ⟨?_, hname, hopen, hend⟩
      rw [wrote, hend, Directory.lookup_pwrite hfile, overwrite_append]

theorem fails {file' : LogFile} {d' : Directory} {e : Failure} (h : Appended listing id supplied acked left file d)
    {key : Key} {value : Value} {now : Timestamp} {tombstone : Bool} (keyed : key ≠ [])
    (fits : Record.Fits key value)
    (runs : FaultyRuns listing (file.append (Record.encode key value now tombstone)) d (.error e, file') d') :
    file' = file ∧
      ∃ left', Appended listing id (supplied ++ [.ofWrite key value now tombstone keyed fits]) acked left' file' d' := by
  obtain ⟨_, hname, hopen, _⟩ := h.stored
  rcases runs_append hopen hname runs with ⟨hr, _⟩ | ⟨e, n, _, hr, hd⟩
  · cases hr
  · cases hr
    exact ⟨rfl, _, .failed key value now tombstone keyed fits h runs _ hd⟩

/-- A scan visits the acknowledged records in order and then whatever the bytes that failed
appends left past the end of the log parse into. Nothing but records passed to append comes
up exactly when those bytes start no other record, alone or after such records. -/
theorem scanned_supplied_iff (h : Appended listing id supplied acked left file d) :
    ∃ content, d.lookup (.log id) = some content ∧ content.drop file.endOffset = left ∧
      ((∃ more, scanned content = acked.map Intact.record ++ more ∧
          ∀ r ∈ more, r ∈ supplied.map Intact.record) ↔ StartsOnly supplied left) := by
  obtain ⟨hfile, _, _, hend⟩ := h.stored
  refine ⟨_, hfile, by rw [hend, List.drop_left], ?_⟩
  rw [scanned_append, ← scanned_subset_iff]
  constructor
  · rintro ⟨more, hmore, hsupplied⟩
    rwa [List.append_cancel_left hmore]
  · intro hsupplied
    exact ⟨_, rfl, hsupplied⟩

end Appended

end

/-- An append that falls short after five bytes leaves nothing a scan would visit. -/
theorem scanned_supplied_after_short_append :
    ∃ (supplied acked : List Intact) (left : Bytes) (file : LogFile) (d : Directory) (content : Bytes),
      Appended .asStored 1 supplied acked left file d ∧ d.lookup (.log 1) = some content ∧ left.length = 5 ∧
      ∃ more, scanned content = acked.map Intact.record ++ more ∧ ∀ r ∈ more, r ∈ supplied.map Intact.record := by
  let start : Directory := AList.singleton (.log 1) []
  let file : LogFile := ⟨.log 1, 0, .always, true⟩
  let bytes := Record.encode (text "a") (text "x") 0 false
  have h : ∃ o ∈ runShort (file.append bytes) 5 [true] start, o.1.1.isOk = false ∧
      o.2.lookup (.log 1) = some (bytes.take 5) := by decide +kernel
  obtain ⟨⟨⟨r, file₁⟩, d₁⟩, hshort, hbad, hstored⟩ := h
  cases r with
  | ok => cases hbad
  | error e =>
    have hstart : Appended .asStored 1 [] [] [] file start := .opened rfl
    obtain ⟨rfl, left, hfailed⟩ := hstart.fails (by decide) (by decide) (faultyRuns_of_runShort hshort)
    obtain ⟨content, hcontent, hleft, hiff⟩ := hfailed.scanned_supplied_iff
    obtain rfl : content = bytes.take 5 := Option.some.inj (hcontent.symm.trans hstored)
    have hlength : left.length = 5 := by
      rw [← hleft]
      decide
    exact ⟨_, _, left, _, _, _, hfailed, hcontent, hlength,
      hiff.mpr (startsOnly_of_short _ (hlength.trans_lt (by decide)))⟩

/-- A value that carries an encoded record, one byte in and one byte before its end. -/
def smuggled : Value := text "-" ++ Record.encode (text "forged") (text "!") 0 false ++ text "-"

/-- The long append falls one byte short; the short one that follows uncovers the record
inside the value. -/
theorem scan_visits_forged_record :
    ∃ (supplied acked : List Intact) (left : Bytes) (file : LogFile) (d : Directory) (content : Bytes),
      Appended .asStored 1 supplied acked left file d ∧
      supplied.map (fun c => (c.record.key, c.record.value)) =
        [(text "k", smuggled), (text "a", text "x")] ∧
      d.lookup (.log 1) = some content ∧
      (scanned content).map (fun r => (r.key, r.value)) =
        [(text "a", text "x"), (text "forged", text "!")] := by
  let start : Directory := AList.singleton (.log 1) []
  let file : LogFile := ⟨.log 1, 0, .always, true⟩
  let long := Record.encode (text "k") smuggled 0 false
  let short := Record.encode (text "a") (text "x") 0 false
  have h : ∃ o₁ ∈ runShort (file.append long) 51 [true] start, o₁.1.1.isOk = false ∧
      ∃ o₂ ∈ runShort (o₁.1.2.append short) 0 [] o₁.2, o₂.1.1.isOk = true ∧
      ∃ content ∈ o₂.2.lookup (.log 1), (scanned content).map (fun r => (r.key, r.value)) =
        [(text "a", text "x"), (text "forged", text "!")] := by decide +kernel
  obtain ⟨⟨⟨r₁, file₁⟩, d₁⟩, hlong, hbad, ⟨⟨r₂, file₂⟩, d₂⟩, hshort, hok, content, hcontent, hscan⟩ := h
  cases r₁ with
  | ok => cases hbad
  | error e =>
    cases r₂ with
    | error e => cases hok
    | ok offset =>
      have hstart : Appended .asStored 1 [] [] [] file start := .opened rfl
      obtain ⟨_, left, hfailed⟩ := hstart.fails (by decide) (by decide +kernel) (faultyRuns_of_runShort hlong)
      have hdone := Appended.ok (text "a") (text "x") 0 false (by decide) (by decide) hfailed
        (faultyRuns_of_runShort hshort)
      exact ⟨_, _, _, _, _, content, hdone, rfl, hcontent, hscan⟩

end KVStore
