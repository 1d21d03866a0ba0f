import KVStore.Basic

namespace KVStore

inductive FileSuffix
  | log
  | hint
  | table
  | wal
  deriving DecidableEq

namespace FileSuffix

def text : FileSuffix → Bytes
  | .log => KVStore.text ".log"
  | .hint => KVStore.text ".hint"
  | .table => KVStore.text ".sst"
  | .wal => KVStore.text ".wal"

def fileName (suffix : FileSuffix) (id : FileId) : Bytes := padFileId id ++ suffix.text

theorem eq_of_isSuffix {a b : FileSuffix} {s : Bytes} (ha : a.text <:+ s) (hb : b.text <:+ s) : a = b := by
  have h : a.text <:+ b.text ∨ b.text <:+ a.text :=
    (le_total a.text.length b.text.length).imp (List.suffix_of_suffix_length_le ha hb)
      (List.suffix_of_suffix_length_le hb ha)
  revert h
  cases a <;> cases b <;> decide

end FileSuffix

def logFileName (id : FileId) : Bytes := FileSuffix.log.fileName id
def hintFileName (id : FileId) : Bytes := FileSuffix.hint.fileName id
def sstFileName (id : FileId) : Bytes := FileSuffix.table.fileName id
def walFileName (id : FileId) : Bytes := FileSuffix.wal.fileName id

def kTempSuffix : Bytes := text ".tmp"

def kManifestName : Bytes := text "MANIFEST"

def tempName (finalName : Bytes) : Bytes := finalName ++ kTempSuffix

/-- The loop of `parse_id_with_suffix`. -/
def parseDigits : Nat → Bytes → Option FileId
  | id, [] => some id
  | id, c :: rest =>
    if c.val < 48 ∨ 57 < c.val then none
    else
      let id' := id * 10 + (c.val - 48)
      if maxUInt32 < id' then none else parseDigits id' rest

/-- What stands before the suffix, as long as something does. -/
def stripSuffix (filename suffix : Bytes) : Option Bytes :=
  if filename.length ≤ suffix.length then none
  else if filename.drop (filename.length - suffix.length) ≠ suffix then none
  else some (filename.take (filename.length - suffix.length))

def parseIdWithSuffix (filename suffix : Bytes) : Option FileId :=
  match stripSuffix filename suffix with
  | none => none
  | some digits =>
    match parseDigits 0 digits with
    | none => none
    | some id => if id < kFirstFileId then none else some id

def parseLogFileId (filename : Bytes) : Option FileId := parseIdWithSuffix filename FileSuffix.log.text
def parseHintFileId (filename : Bytes) : Option FileId := parseIdWithSuffix filename FileSuffix.hint.text
def parseSstFileId (filename : Bytes) : Option FileId := parseIdWithSuffix filename FileSuffix.table.text
def parseWalFileId (filename : Bytes) : Option FileId := parseIdWithSuffix filename FileSuffix.wal.text

def isTempName (filename : Bytes) : Bool :=
  match stripSuffix filename kTempSuffix with
  | none => false
  | some stem =>
    stem = kManifestName || (parseLogFileId stem).isSome || (parseHintFileId stem).isSome ||
      (parseSstFileId stem).isSome || (parseWalFileId stem).isSome

def scanIds (suffix : FileSuffix) (names : List Bytes) : List FileId :=
  names.filterMap (parseIdWithSuffix · suffix.text)

section Numerals

def numeral (zeros : Nat) (id : FileId) : Bytes := List.replicate zeros (Fin.ofNat 256 48) ++ text (toString id)

theorem text_toString (n : Nat) :
    text (toString n) = (Nat.toDigits 10 n).map fun c => Fin.ofNat 256 c.toNat := by
  simp [text]

theorem text_toString_of_lt {d : Nat} (h : d < 10) : text (toString d) = [Fin.ofNat 256 (48 + d)] := by
  rw [text_toString, Nat.toDigits_of_lt_base h, List.map_singleton, Nat.toNat_digitChar_of_lt_ten h]

theorem text_toString_append {a d : Nat} (ha : 0 < a) (hd : d < 10) :
    text (toString (a * 10 + d)) = text (toString a) ++ [Fin.ofNat 256 (48 + d)] := by
  rw [← text_toString_of_lt hd, text_toString, text_toString, text_toString, ← List.map_append,
    Nat.toDigits_append_toDigits (by decide) ha hd, Nat.mul_comm]

theorem parseDigits_digit {id d : Nat} (hd : d < 10) (rest : Bytes) :
    parseDigits id (Fin.ofNat 256 (48 + d) :: rest) =
      if maxUInt32 < id * 10 + d then none else parseDigits (id * 10 + d) rest := by
  have hval : (Fin.ofNat 256 (48 + d) : Byte).val = 48 + d := Nat.mod_eq_of_lt (by omega)
  rw [parseDigits, hval, if_neg (by omega), Nat.add_sub_cancel_left]

theorem parseDigits_append (id : Nat) (a b : Bytes) :
    parseDigits id (a ++ b) = (parseDigits id a).bind (parseDigits · b) := by
  induction a generalizing id with
  | nil => rfl
  | cons c a ih =>
    rw [List.cons_append, parseDigits, parseDigits]
    split
    · rfl
    · dsimp only
      split
      · rfl
      · exact ih _

theorem parseDigits_text {n : Nat} (hn : n ≤ maxUInt32) : parseDigits 0 (text (toString n)) = some n := by
  induction n using Nat.strong_induction_on with
  | _ n ih =>
    rcases Nat.lt_or_ge n 10 with hlt | hge
    · rw [text_toString_of_lt hlt, parseDigits_digit hlt, if_neg (by omega), Nat.zero_mul, Nat.zero_add, parseDigits]
    · have hsplit : n / 10 * 10 + n % 10 = n := by omega
      rw [← hsplit, text_toString_append (by omega) (by omega), parseDigits_append,
        ih _ (by omega) (by omega), Option.bind_some, parseDigits_digit (by omega), if_neg (by omega), parseDigits]

theorem parseDigits_numeral (zeros : Nat) {n : Nat} (hn : n ≤ maxUInt32) :
    parseDigits 0 (numeral zeros n) = some n := by
  induction zeros with
  | zero => exact parseDigits_text hn
  | succ zeros ih =>
    rw [numeral, List.replicate_succ, List.cons_append, parseDigits_digit (d := 0) (by omega), if_neg (by decide)]
    exact ih

/-- What the loop has read so far is not forgotten: past the zeros in front, the digits
are those of the number it returns. -/
theorem exists_numeral_of_parseDigits {id n : Nat} {l : Bytes} (hid : id ≤ maxUInt32)
    (h : parseDigits id l = some n) :
    n ≤ maxUInt32 ∧ (0 < id → text (toString id) ++ l = text (toString n)) ∧
      (id = 0 → 0 < n → ∃ zeros, l = numeral zeros n) := by
  induction l generalizing id with
  | nil =>
    cases h
    exact ⟨hid, fun _ => List.append_nil _, fun hzero hpos => absurd hzero hpos.ne'⟩
  | cons c l ih =>
    rw [parseDigits] at h
    split_ifs at h with hdigit
    dsimp only at h
    split at h
    · cases h
    next hle =>
      obtain ⟨hn, hnext, hzeros⟩ := ih (not_lt.mp hle) h
      obtain ⟨d, hd, rfl⟩ : ∃ d, d < 10 ∧ c = Fin.ofNat 256 (48 + d) :=
        ⟨c.val - 48, by omega, Fin.ext (by simp only [Fin.ofNat]; omega)⟩
      have hval : (Fin.ofNat 256 (48 + d) : Byte).val - 48 = d := by simp only [Fin.ofNat]; omega
      rw [hval] at hnext hzeros
      refine ⟨hn, fun hpos => ?_, fun hzero hpos => ?_⟩
      · rw [← hnext (by omega), text_toString_append hpos hd, List.append_assoc]
        rfl
      · subst hzero
        rcases Nat.eq_zero_or_pos d with rfl | hd'
        · obtain ⟨zeros, rfl⟩ := hzeros rfl hpos
          exact ⟨zeros + 1, rfl⟩
        · refine ⟨0, ?_⟩
          have hfirst := hnext (by omega)
          rw [Nat.zero_mul, Nat.zero_add, text_toString_of_lt hd] at hfirst
          exact hfirst

theorem parseDigits_eq_some_iff {l : Bytes} {n : Nat} (hpos : 0 < n) :
    parseDigits 0 l = some n ↔ n ≤ maxUInt32 ∧ ∃ zeros, l = numeral zeros n := by
  constructor
  · intro h
    obtain ⟨hn, _, hzeros⟩ := exists_numeral_of_parseDigits (Nat.zero_le _) h
    exact ⟨hn, hzeros rfl hpos⟩
  · rintro ⟨hn, zeros, rfl⟩
    exact parseDigits_numeral zeros hn

end Numerals

def IsFileId (id : FileId) : Prop := kFirstFileId ≤ id ∧ id ≤ maxUInt32

instance (id : FileId) : Decidable (IsFileId id) := inferInstanceAs (Decidable (_ ∧ _))

theorem stripSuffix_eq_some_iff {s suffix stem : Bytes} :
    stripSuffix s suffix = some stem ↔ stem ≠ [] ∧ s = stem ++ suffix := by
  constructor
  · intro h
    unfold stripSuffix at h
    split at h
    · cases h
    next hlong =>
      split at h
      · cases h
      next hends =>
        cases h
        refine ⟨List.ne_nil_of_length_pos (by rw [List.length_take]; omega), ?_⟩
        conv_lhs => rw [← List.take_append_drop (s.length - suffix.length) s, not_not.mp hends]
  · rintro ⟨hne, rfl⟩
    have hpos := List.length_pos_iff.mpr hne
    have hlen : (stem ++ suffix).length - suffix.length = stem.length := by simp
    rw [stripSuffix, hlen, if_neg (by rw [List.length_append]; omega), List.drop_left, if_neg (by simp),
      List.take_left]

/-- The parser takes any number of zeros in front of the digits. -/
theorem parseIdWithSuffix_eq_some_iff {s suffix : Bytes} {id : FileId} :
    parseIdWithSuffix s suffix = some id ↔ IsFileId id ∧ ∃ zeros, s = numeral zeros id ++ suffix := by
  constructor
  · intro h
    unfold parseIdWithSuffix at h
    split at h
    · cases h
    next digits hdigits =>
      obtain ⟨_, rfl⟩ := stripSuffix_eq_some_iff.mp hdigits
      split at h
      · cases h
      next id' hid =>
        split_ifs at h with hfirst
        cases h
        obtain ⟨hle, zeros, rfl⟩ := (parseDigits_eq_some_iff (not_lt.mp hfirst)).mp hid
        exact ⟨⟨not_lt.mp hfirst, hle⟩, zeros, rfl⟩
  · rintro ⟨⟨hfirst, hle⟩, zeros, rfl⟩
    have hdigits := parseDigits_numeral zeros hle
    have hne : numeral zeros id ≠ [] := by
      intro hnil
      rw [hnil] at hdigits
      exact absurd (Option.some.inj hdigits) (Nat.lt_of_lt_of_le (by decide) hfirst).ne
    rw [parseIdWithSuffix, stripSuffix_eq_some_iff.mpr ⟨hne, rfl⟩]
    dsimp only
    rw [hdigits]
    exact if_neg (not_lt.mpr hfirst)

theorem isTempName_tempName {stem : Bytes} (hne : stem ≠ []) :
    isTempName (tempName stem) = true ↔ stem = kManifestName ∨
      ∃ (suffix : FileSuffix) (id : FileId), parseIdWithSuffix stem suffix.text = some id := by
  rw [isTempName, tempName, stripSuffix_eq_some_iff.mpr ⟨hne, rfl⟩]
  simp only [Bool.or_eq_true, decide_eq_true_eq, Option.isSome_iff_exists, or_assoc]
  refine or_congr_right ⟨?_, ?_⟩
  · rintro (h | h | h | h)
    exacts [⟨.log, h⟩, ⟨.hint, h⟩, ⟨.table, h⟩, ⟨.wal, h⟩]
  · rintro ⟨suffix, h⟩
    cases suffix with
    | log => exact .inl h
    | hint => exact .inr (.inl h)
    | table => exact .inr (.inr (.inl h))
    | wal => exact .inr (.inr (.inr h))

theorem isTempName_iff {s : Bytes} :
    isTempName s = true ↔ s = tempName kManifestName ∨
      ∃ (suffix : FileSuffix) (id : FileId) (zeros : Nat), IsFileId id ∧
        s = tempName (numeral zeros id ++ suffix.text) := by
  constructor
  · intro h
    cases hs : stripSuffix s kTempSuffix with
    | none => simp [isTempName, hs] at h
    | some stem =>
      obtain ⟨hne, rfl⟩ := stripSuffix_eq_some_iff.mp hs
      rcases (isTempName_tempName hne).mp h with rfl | ⟨suffix, id, hparse⟩
      · exact Or.inl rfl
      · obtain ⟨hid, zeros, rfl⟩ := parseIdWithSuffix_eq_some_iff.mp hparse
        exact Or.inr ⟨suffix, id, zeros, hid, rfl⟩
  · rintro (rfl | ⟨suffix, id, zeros, hid, rfl⟩)
    · decide
    · have hne : numeral zeros id ++ suffix.text ≠ [] := by cases suffix <;> simp [FileSuffix.text, text]
      exact (isTempName_tempName hne).mpr
        (Or.inr ⟨suffix, id, parseIdWithSuffix_eq_some_iff.mpr ⟨hid, zeros, rfl⟩⟩)

theorem fileName_eq (suffix : FileSuffix) (id : FileId) :
    suffix.fileName id = numeral (kFileIdDigits - (toString id).length) id ++ suffix.text := rfl

/-- The four parsers and `is_temp_name` know the name for one that the engine writes. -/
def KnownExactly (s : Bytes) : Prop :=
  (∀ (suffix : FileSuffix) (id : FileId),
    parseIdWithSuffix s suffix.text = some id ↔ IsFileId id ∧ s = suffix.fileName id) ∧
  (isTempName s = true ↔ s = tempName kManifestName ∨
    ∃ (suffix : FileSuffix) (id : FileId), IsFileId id ∧ s = tempName (suffix.fileName id))

/-- If the name is that of an id, temporary or not, it has as many zeros in front as
the engine writes. -/
def Padded (s : Bytes) : Prop :=
  ∀ (suffix : FileSuffix) (id : FileId) (zeros : Nat), IsFileId id →
    s = numeral zeros id ++ suffix.text ∨ s = tempName (numeral zeros id ++ suffix.text) →
      zeros = kFileIdDigits - (toString id).length

theorem numeral_append_inj {suffix suffix' : FileSuffix} {id id' zeros zeros' : Nat} (hid : id ≤ maxUInt32)
    (hid' : id' ≤ maxUInt32) (h : numeral zeros id ++ suffix.text = numeral zeros' id' ++ suffix'.text) :
    suffix = suffix' ∧ id = id' ∧ zeros = zeros' := by
  obtain rfl := FileSuffix.eq_of_isSuffix ⟨_, rfl⟩ ⟨_, h.symm⟩
  have hdigits := List.append_cancel_right h
  have hparsed := parseDigits_numeral zeros hid
  rw [hdigits, parseDigits_numeral zeros' hid'] at hparsed
  obtain rfl := Option.some.inj hparsed
  have hlen := congrArg List.length hdigits
  simp only [numeral, List.length_append, List.length_replicate] at hlen
  exact ⟨rfl, rfl, by omega⟩

/-- What the parsers make of a name that the engine writes. -/
theorem parseIdWithSuffix_fileName (suffix suffix' : FileSuffix) {id : FileId} (hid : id ≤ maxUInt32) :
    parseIdWithSuffix (suffix'.fileName id) suffix.text =
      if suffix' = suffix ∧ IsFileId id then some id else none := by
  ext id'
  rw [parseIdWithSuffix_eq_some_iff, fileName_eq]
  split_ifs with h
  · obtain ⟨rfl, hid⟩ := h
    rw [Option.some.injEq]
    constructor
    · rintro ⟨hid', zeros, hs⟩
      exact (numeral_append_inj hid.2 hid'.2 hs).2.1
    · rintro rfl
      exact ⟨hid, _, rfl⟩
  · refine iff_of_false ?_ nofun
    rintro ⟨hid', zeros, hs⟩
    obtain ⟨rfl, rfl, -⟩ := numeral_append_inj hid hid'.2 hs
    exact h ⟨rfl, hid'⟩

theorem not_isSuffix_tempName (suffix : FileSuffix) (stem : Bytes) : ¬ suffix.text <:+ tempName stem := by
  intro h
  have hle : kTempSuffix.length ≤ suffix.text.length := by cases suffix <;> decide
  have htemp := List.suffix_of_suffix_length_le (List.suffix_append stem kTempSuffix) h hle
  revert htemp
  cases suffix <;> decide

theorem parseIdWithSuffix_tempName (suffix : FileSuffix) (stem : Bytes) :
    parseIdWithSuffix (tempName stem) suffix.text = none := by
  refine Option.eq_none_iff_forall_ne_some.mpr fun id h => not_isSuffix_tempName suffix stem ?_
  obtain ⟨_, zeros, hs⟩ := parseIdWithSuffix_eq_some_iff.mp h
  exact ⟨_, hs.symm⟩

theorem isTempName_fileName (suffix : FileSuffix) (id : FileId) : isTempName (suffix.fileName id) = false := by
  refine Bool.eq_false_iff.mpr fun h => ?_
  have hends : ∀ stem, suffix.fileName id ≠ tempName stem := fun stem hs =>
    not_isSuffix_tempName suffix stem (hs ▸ List.suffix_append _ _)
  rcases isTempName_iff.mp h with hs | ⟨_, _, _, _, hs⟩
  · exact hends _ hs
  · exact hends _ hs

theorem isTempName_tempName_fileName (suffix : FileSuffix) {id : FileId} (hid : id ≤ maxUInt32) :
    isTempName (tempName (suffix.fileName id)) = decide (IsFileId id) := by
  have hne : suffix.fileName id ≠ [] := by cases suffix <;> simp [FileSuffix.fileName, FileSuffix.text, text]
  have hmanifest : suffix.fileName id ≠ kManifestName := by
    intro hs
    have hends : suffix.text <:+ kManifestName := hs ▸ List.suffix_append _ _
    revert hends
    cases suffix <;> decide
  rw [Bool.eq_iff_iff, isTempName_tempName hne, or_iff_right hmanifest, decide_eq_true_eq]
  simp only [parseIdWithSuffix_fileName _ _ hid]
  constructor
  · rintro ⟨_, _, h⟩
    split_ifs at h with hparsed
    exact hparsed.2
  · intro hid
    exact ⟨suffix, id, if_pos ⟨rfl, hid⟩⟩

theorem knownExactly_iff (s : Bytes) : KnownExactly s ↔ Padded s := by
  constructor
  · rintro ⟨hparse, htemp⟩ suffix id zeros hid (rfl | rfl)
    · have hname := ((hparse suffix id).mp (parseIdWithSuffix_eq_some_iff.mpr ⟨hid, zeros, rfl⟩)).2
      exact (numeral_append_inj hid.2 hid.2 hname).2.2
    · have htaken := htemp.mp (isTempName_iff.mpr (Or.inr ⟨suffix, id, zeros, hid, rfl⟩))
      rcases htaken with hmanifest | ⟨suffix', id', hid', hname⟩
      · have hparsed := parseIdWithSuffix_eq_some_iff.mpr ⟨hid, zeros, List.append_cancel_right hmanifest.symm⟩
        have hnone : parseIdWithSuffix kManifestName suffix.text = none := by cases suffix <;> decide
        cases hnone.symm.trans hparsed
      · obtain ⟨_, rfl, hzeros⟩ := numeral_append_inj hid.2 hid'.2 (List.append_cancel_right hname)
        exact hzeros
  · intro h
    refine ⟨fun suffix id => ?_, ?_⟩
    · rw [parseIdWithSuffix_eq_some_iff]
      refine and_congr_right fun hid => ⟨?_, fun hs => ⟨_, hs⟩⟩
      rintro ⟨zeros, hs⟩
      rwa [fileName_eq, ← h suffix id zeros hid (Or.inl hs)]
    · rw [isTempName_iff]
      refine or_congr_right ⟨?_, ?_⟩
      · rintro ⟨suffix, id, zeros, hid, hs⟩
        exact ⟨suffix, id, hid, by rwa [fileName_eq, ← h suffix id zeros hid (Or.inr hs)]⟩
      · rintro ⟨suffix, id, hid, hs⟩
        exact ⟨suffix, id, _, hid, hs⟩

/-- The parsers know a name exactly if it is padded as the engine pads it. In a directory
of such names a scan counts no id twice, the names that it makes of the ids are those
that it found, and the temporary files that it removes are the engine's. -/
theorem names_known_exactly_iff (names : List Bytes) :
    (∀ s, KnownExactly s ↔ Padded s) ∧
      (names.Nodup → (∀ s ∈ names, Padded s) →
        (∀ suffix : FileSuffix, (scanIds suffix names).Nodup ∧
          ∀ id ∈ scanIds suffix names, suffix.fileName id ∈ names) ∧
        ∀ s ∈ names, isTempName s = true → s = tempName kManifestName ∨
          ∃ (suffix : FileSuffix) (id : FileId), IsFileId id ∧ s = tempName (suffix.fileName id)) := by
  refine ⟨knownExactly_iff, fun hdistinct hpadded => ?_⟩
  have hknown : ∀ s ∈ names, KnownExactly s := fun s hs => (knownExactly_iff s).mpr (hpadded s hs)
  refine ⟨fun suffix => ⟨?_, ?_⟩, fun s hs => (hknown s hs).2.mp⟩
  · refine List.pairwise_filterMap.mpr (hdistinct.imp_of_mem fun {a b} ha hb hne id hid id' hid' heq => hne ?_)
    rw [(((hknown a ha).1 suffix id).mp hid).2, (((hknown b hb).1 suffix id').mp hid').2, heq]
  · intro id hid
    obtain ⟨s, hs, hparse⟩ := List.mem_filterMap.mp hid
    exact (((hknown s hs).1 suffix id).mp hparse).2 ▸ hs

/-- A name with fewer zeros is taken for the data file with that id, and counted beside
it; the file that is opened is another one. Followed by the temporary suffix it is
removed. -/
theorem unpadded_name_known :
    scanIds .log [text "000001.log", text "1.log"] = [1, 1] ∧
      scanIds .log [text "1.log"] = [1] ∧ FileSuffix.log.fileName 1 ∉ [text "1.log"] ∧
      isTempName (text "1.log.tmp") = true ∧ text "1.log.tmp" ≠ tempName kManifestName ∧
      ∀ suffix : FileSuffix, ∀ id, text "1.log.tmp" ≠ tempName (suffix.fileName id) := by
  refine ⟨by decide, by decide, by decide, by decide, by decide, fun suffix id h => ?_⟩
  have hsix : kFileIdDigits ≤ (padFileId id).length := by
    rw [padFileId, List.length_append, List.length_replicate, text, List.length_map, String.length_toList]
    omega
  have hlen := congrArg List.length h
  rw [tempName, FileSuffix.fileName, List.length_append, List.length_append] at hlen
  have hnine : (text "1.log.tmp").length = 9 := by decide
  have htemp : kTempSuffix.length = 4 := by decide
  have hsix' : kFileIdDigits = 6 := rfl
  omega

end KVStore
