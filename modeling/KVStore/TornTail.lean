import KVStore.BitcaskStore

namespace KVStore

open Lib CrashProgram

/-- The arguments of `record::encode` for a record that a reader lets through. -/
structure Record.Input where
  key : Key
  value : Value
  timestamp : Timestamp
  isTombstone : Bool
  keyed : key ≠ []
  fits : Record.kHeaderSize + key.length + (Record.stored value isTombstone).length ≤ Record.kMaxRecordSize

namespace Record.Input

def encoded [Crc] (r : Input) : Bytes := Record.encode r.key r.value r.timestamp r.isTombstone

theorem stored_stored (value : Value) (isTombstone : Bool) :
    stored (stored value isTombstone) isTombstone = stored value isTombstone := by
  cases isTombstone <;> rfl

theorem encode_stored [Crc] (key : Key) (value : Value) (timestamp : Timestamp) (isTombstone : Bool) :
    encode key (stored value isTombstone) timestamp isTombstone = encode key value timestamp isTombstone := by
  rw [encode, encode, body, body, stored_stored]

def intact [Crc] (r : Input) : Intact where
  raw := r.encoded
  record := ⟨r.timestamp, r.isTombstone, r.key, stored r.value r.isTombstone, r.encoded.length⟩
  decodes := by
    have hfits : Fits r.key (stored r.value r.isTombstone) := by
      have h := r.fits
      unfold Fits
      omega
    have h := decode_encode r.timestamp r.isTombstone r.keyed hfits
    rwa [encode_stored, stored_stored] at h
  whole := rfl

end Record.Input

namespace LogFile

open Bitcask

def appendAll (file : LogFile) : List Bytes → Io (Except Failure LogFile)
  | [] => .ret (.ok file)
  | bytes :: rest => (file.append bytes).bind fun
      | (.error f, _) => .ret (.error f)
      | (.ok _, file') => file'.appendAll rest

variable (listing : Listing) {file : LogFile} {d : Directory} {content : Bytes}

theorem run_append (hopen : file.isOpen = true) (bytes : Bytes) :
    (file.append bytes).run (machine listing) d =
      ((.ok file.endOffset, { file with endOffset := file.endOffset + bytes.length }),
        d.pwrite file.name file.endOffset bytes) := by
  rw [append, if_pos hopen, Prog.run]
  dsimp only [machine, exec]
  cases file.syncMode with
  | never => rfl
  | always =>
    rw [Prog.run_bind, sync, if_pos hopen]
    rfl

theorem run_truncate (hopen : file.isOpen = true) (length : Nat) :
    (file.truncate length).run (machine listing) d =
      (.ok { file with endOffset := length }, d.truncate file.name length) := by
  rw [truncate, if_pos hopen, Prog.run]
  dsimp only [machine, exec]
  rw [sync, if_pos hopen]
  rfl

theorem run_appendAll (hopen : file.isOpen = true) (hfile : d.lookup file.name = some content)
    (hend : file.endOffset = content.length) (l : List Bytes) :
    ∃ file' d', (file.appendAll l).run (machine listing) d = (.ok file', d') ∧
      d'.lookup file.name = some (content ++ l.flatten) ∧ file'.endOffset = (content ++ l.flatten).length := by
  induction l generalizing file d content with
  | nil => exact ⟨file, d, rfl, by simpa using hfile, by simpa using hend⟩
  | cons bytes rest ih =>
    have hnext : ({ file with endOffset := file.endOffset + bytes.length } : LogFile).isOpen = true := hopen
    have hwritten : (d.pwrite file.name file.endOffset bytes).lookup file.name = some (content ++ bytes) := by
      rw [Directory.lookup_pwrite hfile, hend, overwrite_end]
    obtain ⟨file', d', hrun, hcontent, hsize⟩ :=
      ih hnext hwritten (by rw [List.length_append, hend])
    rw [List.append_assoc] at hcontent hsize
    refine ⟨file', d', ?_, hcontent, hsize⟩
    rw [appendAll, Prog.run_bind, run_append listing hopen]
    exact hrun

end LogFile

open Bitcask in
/-- Records followed by a part of one more: a scan visits the records and says where
they end, and once the file is cut off there and written on, a scan visits the old
records and the new ones up to the end of the file. -/
theorem torn_tail_cut [Crc] (listing : Listing) (records more : List Record.Input) (torn : Record.Input)
    {tail : Bytes} (hpart : tail <+: torn.encoded) (hshort : tail ≠ torn.encoded) {file : LogFile} {d : Directory}
    (hopen : file.isOpen = true)
    (hfile : d.lookup file.name = some ((records.map Record.Input.encoded).flatten ++ tail)) :
    let before := (records.map Record.Input.encoded).flatten
    let all := ((records ++ more).map Record.Input.encoded).flatten
    scanRecords (readAt (before ++ tail)) (before ++ tail).length =
        (visitedFrom 0 (records.map Record.Input.intact), before.length) ∧
      ∃ file' d', (orFail (file.truncate before.length) fun file =>
            file.appendAll (more.map Record.Input.encoded)).run (machine listing) d = (.ok file', d') ∧
        d'.lookup file.name = some all ∧ file'.endOffset = all.length ∧
        scanRecords (readAt all) file'.endOffset =
          (visitedFrom 0 ((records ++ more).map Record.Input.intact), all.length) := by
  have hbytes : ∀ l : List Record.Input,
      (l.map Record.Input.encoded).flatten = bytesOf (l.map Record.Input.intact) := by
    intro l
    rw [bytesOf, List.flatMap_def, List.map_map]
    rfl
  obtain ⟨n, rfl⟩ : ∃ n, tail = torn.intact.raw.take n := ⟨tail.length, (List.prefix_iff_eq_take.mp hpart)⟩
  have hn : n < torn.intact.raw.length := by
    by_contra hle
    exact hshort (List.take_of_length_le (not_lt.mp hle))
  intro before all
  have hall : all = before ++ (more.map Record.Input.encoded).flatten := by
    simp only [all, before, List.map_append, List.flatten_append]
  refine ⟨?_, ?_⟩
  · simp only [before, hbytes]
    exact scanRecords_bytesOf _ (noRecord_take torn.intact hn)
  · have hcut : ({ file with endOffset := before.length } : LogFile).isOpen = true := hopen
    obtain ⟨file', d', hrun, hcontent, hend⟩ :=
      LogFile.run_appendAll listing hcut (Directory.lookup_truncate hfile) rfl (more.map Record.Input.encoded)
    rw [← hall] at hcontent hend
    refine ⟨file', d', ?_, hcontent, hend, ?_⟩
    · rw [orFail, Prog.run_bind, LogFile.run_truncate listing hopen]
      exact hrun
    · have hscan := scanRecords_bytesOf ((records ++ more).map Record.Input.intact) noRecord_nil
      rw [List.append_nil, ← hbytes] at hscan
      rw [hend]
      exact hscan

open Bitcask in
/-- One record, five bytes of a tombstone, and then all of it. -/
theorem torn_tail_cut_inside_header :
    let put : Record.Input := ⟨text "a", text "x", 1, false, by decide, by decide⟩
    let remove : Record.Input := ⟨text "a", text "x", 2, true, by decide, by decide⟩
    let file : LogFile := ⟨.log 1, 0, .always, true⟩
    let d : Directory := AList.singleton (.log 1) (put.encoded ++ remove.encoded.take 5)
    ∃ file' d', (orFail (file.truncate put.encoded.length) fun file => file.appendAll [remove.encoded]).run
          (machine .asStored) d = (.ok file', d') ∧
      scanRecords (readAt (put.encoded ++ remove.encoded)) file'.endOffset =
        (visitedFrom 0 [put.intact, remove.intact], (put.encoded ++ remove.encoded).length) := by
  intro put remove file d
  have hshort : remove.encoded.take 5 ≠ remove.encoded := by decide +kernel
  have hopen : file.isOpen = true := rfl
  have hfile : d.lookup file.name = some (([put].map Record.Input.encoded).flatten ++ remove.encoded.take 5) := rfl
  obtain ⟨-, file', d', hrun, -, -, hscan⟩ :=
    torn_tail_cut .asStored [put] [remove] remove (List.take_prefix 5 _) hshort hopen hfile
  exact ⟨file', d', hrun, hscan⟩

end KVStore
