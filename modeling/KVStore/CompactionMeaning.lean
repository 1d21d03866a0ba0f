import KVStore.PickedWork

namespace KVStore.Compaction

open Lib KWayMerge SortedRun Levels TableFile

/-- Tables that hold what the merge lets through, none of them empty. -/
structure Writes (c : Compaction) (outs : List SSTable) : Prop where
  run : runOf outs = (c.merged.filter (survives c.dropTombstones)).map storedEntry
  nonempty : ∀ t ∈ outs, t.entries ≠ []

theorem flatten_tables (c : Compaction) :
    (c.tables.map SSTable.entries).flatten = runOf c.inputs ++ runOf c.overlaps := by
  simp [tables, runOf]

theorem sorted_sources (c : Compaction) : ∀ s ∈ c.tables.map SSTable.entries, Sorted s := by
  intro s hs
  obtain ⟨t, _, rfl⟩ := List.mem_map.mp hs
  exact t.sorted

theorem find_merged (c : Compaction) (key : Key) :
    find key c.merged =
      (find key (runOf c.inputs)).or (find key (runOf c.overlaps)) := by
  rw [merged, find_merge c.sorted_sources, flatten_tables, find_append]

theorem sorted_merged (c : Compaction) : Sorted c.merged :=
  sorted_merge c.sorted_sources

variable {c : Compaction} {ids : List FileId} {files : List TableFile} {opts : LsmOptions}

theorem mem_tables_of_mem_merged {e : Entry} (h : e ∈ c.merged) : ∃ t ∈ c.tables, e ∈ t.entries := by
  have hm := mem_of_mem_merge c.sorted_sources h
  obtain ⟨s, hs, he⟩ := List.mem_flatten.mp hm
  obtain ⟨t, ht, rfl⟩ := List.mem_map.mp hs
  exact ⟨t, ht, he⟩

theorem sorted_map_stored {es : List Entry} (h : Sorted es) : Sorted (es.map storedEntry) :=
  List.pairwise_map.mpr h

theorem map_file_zipWith
    (h : ids.length = files.length) : (List.zipWith SSTable.mk ids files).map SSTable.file = files := by
  induction ids generalizing files with
  | nil => simpa [eq_comm] using h
  | cons id ids ih =>
    cases files with
    | nil => simp at h
    | cons => simpa using ih (by simpa using h)

/-- Tables that hold what the merge lets through up to where writing stopped, cut anywhere. -/
structure Splits (c : Compaction) (outs : List SSTable) : Prop where
  run : ∃ rest, (c.merged.filter (survives c.dropTombstones)).map storedEntry = runOf outs ++ rest
  nonempty : ∀ t ∈ outs, t.entries ≠ []

theorem map_entries_zipWith (h : ids.length = files.length) :
    (List.zipWith SSTable.mk ids files).map SSTable.entries = files.map TableFile.entries := by
  conv_rhs => rw [← map_file_zipWith h, List.map_map]
  rfl

theorem splits_of_outputs (opts : LsmOptions) (c : Compaction) (h : ids.length = (c.outputs opts).1.length) :
    c.Splits (List.zipWith SSTable.mk ids (c.outputs opts).1) := by
  obtain ⟨rest, hcut, -, hne⟩ := @writeOutputs_cut opts c.dropTombstones none c.merged (by simp)
  refine ⟨⟨rest, ?_⟩, ?_⟩
  · rw [runOf, map_entries_zipWith h]
    exact hcut
  · intro t ht
    refine hne t.file ?_
    have hmem := List.mem_map_of_mem (f := SSTable.file) ht
    rwa [map_file_zipWith h] at hmem

theorem writes_of_outputs (h : c.outputs opts = (files, none)) (hlen : ids.length = files.length) :
    c.Writes (List.zipWith SSTable.mk ids files) := by
  have hspec := @writeOutputs_spec opts c.dropTombstones none c.merged (by simp)
    (congrArg Prod.snd h)
  rw [show writeOutputs opts c.dropTombstones none c.merged = (files, none) from h] at hspec
  have hfiles := map_file_zipWith hlen
  refine ⟨?_, fun t ht => ?_⟩
  · rw [runOf, map_entries_zipWith hlen, hspec.1]
    rfl
  · refine hspec.2 t.file ?_
    rw [← hfiles]
    exact List.mem_map_of_mem ht

theorem find_partition {level : List SSTable} (h : Shaped level) (p : SSTable → Bool) (key : Key) :
    find key (runOf level) =
      (find key (runOf (level.filter fun t => !p t))).or
        (find key (runOf (level.filter p))) := by
  have hperm : level.Perm (level.filter (fun t => !p t) ++ level.filter p) :=
    (List.filter_append_perm p level).symm.trans List.perm_append_comm
  rw [find_perm h.sorted.nodup_keys (hperm.map SSTable.entries).flatten,
    ← find_append, ← runOf_append]
  rfl

section Rebuild

variable {levels above deeper : Levels} {source target outs : List SSTable} {c : Compaction} {t : SSTable}
    {e : Entry} {key : Key} (hid : OneTablePerId levels) (hcut : Cut levels c.level above source target deeper)
    (hp : Picked source target deeper c) (hw : c.Writes outs)

include hp in
theorem mem_of_mem_tables (ht : t ∈ c.tables) : t ∈ source ∨ t ∈ target := by
  rcases List.mem_append.mp ht with ht | ht
  · left
    rcases hp.inputs with h | ⟨_, s, hs, h, _⟩
    · exact h ▸ ht
    · rw [h] at ht
      exact List.mem_singleton.mp ht ▸ hs
  · right
    obtain ⟨p, h⟩ := hp.overlaps
    rw [h] at ht
    exact (List.mem_filter.mp ht).1

section

include hid hcut hp

theorem isRetired_iff (ht : t ∈ levels.flatten) : c.isRetired t = true ↔ t ∈ c.tables := by
  rw [isRetired, decide_eq_true_iff]
  constructor
  · intro h
    obtain ⟨s, hs, hst⟩ := List.mem_map.mp h
    have hmem : s ∈ levels.flatten :=
      (mem_of_mem_tables hp hs).elim hcut.mem_source hcut.mem_target
    exact hid s hmem t ht hst ▸ hs
  · exact List.mem_map_of_mem

theorem filter_source : source.filter c.isRetired = c.inputs := by
  have hret : ∀ t ∈ source, (c.isRetired t = true ↔ t ∈ c.tables) := fun t ht =>
    isRetired_iff hid hcut hp (hcut.mem_source ht)
  rcases hp.inputs with h | ⟨hsh, t, ht, h, hov⟩
  · rw [h]
    refine List.filter_eq_self.mpr fun t ht => (hret t ht).mpr ?_
    exact List.mem_append_left _ (h ▸ ht)
  · -- A second table of the source level cannot be an overlap: the two are disjoint.
    have hsame : ∀ s ∈ source, c.isRetired s = decide (s = t) := by
      intro s hs
      rw [Bool.eq_iff_iff, hret s hs, decide_eq_true_iff]
      constructor
      · intro hm
        by_contra hne
        rcases List.mem_append.mp hm with hm | hm
        · exact hne (by simpa [h] using hm)
        · have htouch := rangesOverlap_eq_true.mp (hov s hm)
          rcases hsh.apart ht hs (Ne.symm hne) with hlt | hlt
          · exact not_lt_of_ge htouch.1 hlt
          · exact not_lt_of_ge htouch.2 hlt
      · rintro rfl
        exact List.mem_append_left _ (by simp [h])
    rw [List.filter_congr hsame, h, List.filter_eq,
      List.count_eq_one_of_mem hsh.nodup ht]
    rfl

theorem filter_target : target.filter c.isRetired = c.overlaps := by
  obtain ⟨p, hov⟩ := hp.overlaps
  rw [hov]
  refine List.filter_congr fun t ht => ?_
  rw [Bool.eq_iff_iff, isRetired_iff hid hcut hp (hcut.mem_target ht)]
  have hpt : p t = true ↔ t ∈ c.overlaps := by simp [hov, ht]
  rw [hpt]
  constructor
  · intro hm
    exact (List.mem_append.mp hm).elim (hp.absorbed t ht) id
  · exact List.mem_append_right _

theorem kept_apart (ht : t ∈ target.filter fun t => !c.isRetired t) :
    t.maxKey < c.beginKey ∨ c.endKey < t.minKey := by
  obtain ⟨hmem, hret⟩ := List.mem_filter.mp ht
  refine hp.outside t hmem fun hov => ?_
  have : c.isRetired t = true :=
    (isRetired_iff hid hcut hp (hcut.mem_target hmem)).mpr (List.mem_append_right _ hov)
  simp [this] at hret

end

include hp in
theorem merged_in_range (he : e ∈ c.merged) : c.beginKey ≤ e.1 ∧ e.1 ≤ c.endKey := by
  obtain ⟨t, ht, het⟩ := mem_tables_of_mem_merged he
  obtain ⟨hb, hend⟩ := hp.cover t ht
  exact ⟨hb.trans (minKey_le het), (le_maxKey het).trans hend⟩

include hp hw in
theorem out_in_range (ht : t ∈ outs) (he : e ∈ t.entries) : c.beginKey ≤ e.1 ∧ e.1 ≤ c.endKey := by
  have hm : e ∈ runOf outs := mem_runOf.mpr ⟨t, ht, he⟩
  rw [hw.run] at hm
  obtain ⟨e', he', rfl⟩ := List.mem_map.mp hm
  have hrange : c.beginKey ≤ e'.1 ∧ e'.1 ≤ c.endKey :=
    merged_in_range hp (List.mem_filter.mp he').1
  exact hrange

include hw in
theorem shaped_outs : Shaped outs := by
  refine shaped_of_sorted hw.nonempty ?_
  rw [hw.run]
  exact sorted_map_stored (c.sorted_merged.sublist List.filter_sublist)

theorem shaped_sortByMinKey {level : List SSTable} (hne : ∀ t ∈ level, t.entries ≠ [])
    (h : level.Pairwise fun a b => a.maxKey < b.minKey ∨ b.maxKey < a.minKey) :
    Shaped (sortByMinKey level) := by
  have hperm := sortByMinKey_perm level
  have hne' : ∀ t ∈ sortByMinKey level, t.entries ≠ [] := fun t ht => hne t (hperm.mem_iff.mp ht)
  have happart := hperm.symm.pairwise h (fun h => h.symm)
  have hsorted : (sortByMinKey level).Pairwise fun a b => a.minKey ≤ b.minKey :=
    List.pairwise_insertionSort _ _
  refine ⟨hne', (happart.and hsorted).imp_of_mem ?_⟩
  rintro a b _ hb ⟨hab | hba, hle⟩
  · exact hab
  · have hbb : b.minKey ≤ b.maxKey := minKey_le_maxKey _
    exact absurd (hbb.trans_lt hba) (not_lt_of_ge hle)

include hid hcut hp hw in
theorem shaped_output_level (hs : Shaped target) :
    Shaped (sortByMinKey (target.filter (fun t => !c.isRetired t) ++ outs)) := by
  have hkept : Shaped (target.filter fun t => !c.isRetired t) := hs.sublist List.filter_sublist
  have houts := shaped_outs hw
  refine shaped_sortByMinKey ?_ (List.pairwise_append.mpr ⟨hkept.disjoint.imp Or.inl,
    houts.disjoint.imp Or.inl, ?_⟩)
  · intro t ht
    exact (List.mem_append.mp ht).elim (hkept.nonempty t) (houts.nonempty t)
  · intro a ha b hb
    obtain ⟨e, he, hmin⟩ := List.mem_map.mp (minKey_mem (houts.nonempty b hb))
    obtain ⟨f, hf, hmax⟩ := List.mem_map.mp (maxKey_mem (houts.nonempty b hb))
    rcases kept_apart hid hcut hp ha with h | h
    · exact Or.inl (h.trans_le ((out_in_range hp hw hb he).1.trans_eq hmin))
    · exact Or.inr ((hmax.ge.trans (out_in_range hp hw hb hf).2).trans_lt h)

theorem entries_rdropWhile (levels : Levels) : entries (levels.rdropWhile List.isEmpty) = entries levels := by
  induction levels using List.reverseRecOn with
  | nil => rfl
  | append_singleton levels level ih =>
    cases level with
    | nil => simpa using ih
    | cons => simp

theorem mem_tail_of_mem_tail_rdropWhile {levels : Levels} {l : List SSTable}
    (h : l ∈ (levels.rdropWhile List.isEmpty).tail) : l ∈ levels.tail := by
  obtain ⟨rest, hrest⟩ := List.rdropWhile_prefix List.isEmpty levels
  cases hd : levels.rdropWhile List.isEmpty with
  | nil => simp [hd] at h
  | cons =>
    rw [hd] at h hrest
    rw [← hrest]
    exact List.mem_append_left _ h

include hid hcut hp hw in
theorem rebuild_shaped (hs : ∀ l ∈ levels.tail, Shaped l) : ∀ l ∈ (c.rebuild levels outs).tail, Shaped l := by
  intro l hl
  rw [rebuild_eq c outs hcut.level hcut.split] at hl
  have hout := shaped_output_level hid hcut hp hw (hcut.shaped_target hs)
  have hdeeper : ∀ l ∈ deeper, Shaped l := fun l hl => hs l (hcut.mem_tail_of_mem_deeper hl)
  have hl' := mem_tail_of_mem_tail_rdropWhile hl
  cases above with
  | nil =>
    rcases List.mem_cons.mp hl' with rfl | hl'
    · exact hout
    · exact hdeeper l hl'
  | cons =>
    rcases List.mem_append.mp hl' with hl' | hl'
    · exact hs l (hcut.mem_tail_of_mem_above hl')
    · rcases List.mem_cons.mp hl' with rfl | hl'
      · exact (hcut.shaped_source hs (by simp [hcut.level])).sublist List.filter_sublist
      · rcases List.mem_cons.mp hl' with rfl | hl'
        · exact hout
        · exact hdeeper l hl'

include hid hcut hp in
theorem find_source (key : Key) :
    find key (runOf source) =
      (find key (runOf (source.filter fun t => !c.isRetired t))).or
        (find key (runOf c.inputs)) := by
  have hret := filter_source hid hcut hp
  rcases hp.inputs with h | ⟨hsh, _⟩
  · have hnone : source.filter (fun t => !c.isRetired t) = [] := by
      rw [← h, ← hret, List.filter_filter]
      exact List.filter_eq_nil_iff.mpr fun t _ => by simp
    rw [hnone, h]
    rfl
  · rw [find_partition hsh c.isRetired, hret]

include hid hcut hp hw in
theorem find_output_level (hs : Shaped target) (key : Key) :
    find key
        (runOf (sortByMinKey (target.filter (fun t => !c.isRetired t) ++ outs))) =
      (find key (runOf (target.filter fun t => !c.isRetired t))).or
        (((find key c.merged).filter fun e => !(e.tombstone && c.dropTombstones)).map
          MemEntry.stored) := by
  have hshaped := shaped_output_level hid hcut hp hw hs
  have hperm := ((sortByMinKey_perm
    (target.filter (fun t => !c.isRetired t) ++ outs)).map SSTable.entries).flatten
  rw [find_perm hshaped.sorted.nodup_keys hperm]
  change find key (runOf (_ ++ outs)) = _
  rw [runOf_append, find_append, hw.run, find_map_storedEntry]
  have hfilter := find_filter_payload
    (fun e : MemEntry => !(e.tombstone && c.dropTombstones)) c.sorted_merged.nodup_keys key
  rw [← hfilter]
  rfl

theorem find_deeper_eq_none (hp : Picked source target deeper c) (hdrop : c.dropTombstones = true)
    (hb : c.beginKey ≤ key) (he : key ≤ c.endKey) : find key (entries deeper) = none := by
  refine (find_eq_none_iff _ _).mpr fun hm => ?_
  obtain ⟨e, hmem, rfl⟩ := List.mem_map.mp hm
  obtain ⟨r, hr, her⟩ := List.mem_flatten.mp hmem
  obtain ⟨l, hl, rfl⟩ := List.mem_map.mp hr
  obtain ⟨t, ht, het⟩ := mem_runOf.mp her
  rcases hp.drop hdrop l hl t ht with h | h
  · exact not_lt_of_ge (minKey_le het) (he.trans_lt h)
  · exact not_lt_of_ge (le_maxKey het) (h.trans_le hb)

include hid hcut hp in
theorem find_kept_none_of_merged {e : MemEntry} (h : find key c.merged = some e) :
    find key (runOf (target.filter fun t => !c.isRetired t)) = none := by
  have hr : c.beginKey ≤ key ∧ key ≤ c.endKey := merged_in_range hp (mem_of_find h)
  refine (find_eq_none_iff _ _).mpr fun hm => ?_
  obtain ⟨a, ha, rfl⟩ := List.mem_map.mp hm
  obtain ⟨t, ht, hat⟩ := mem_runOf.mp ha
  rcases kept_apart hid hcut hp ht with hlt | hlt
  · exact not_lt_of_ge (hr.1.trans (le_maxKey hat)) hlt
  · exact not_lt_of_ge ((minKey_le hat).trans hr.2) hlt

include hid hcut hp hw in
theorem rebuild_visible (hs : ∀ l ∈ levels.tail, Shaped l) (key : Key) :
    visible (find key (entries (c.rebuild levels outs))) =
      visible (find key levels.entries) := by
  rw [rebuild_eq c outs hcut.level hcut.split, entries_rdropWhile, hcut.entries_eq, entries_append,
    entries_cons, entries_cons]
  simp only [find_append]
  rw [find_output_level hid hcut hp hw (hcut.shaped_target hs), find_source hid hcut hp,
    find_partition (hcut.shaped_target hs) c.isRetired, filter_target hid hcut hp]
  have hmerged := find_merged c key
  cases find key (entries above) with
  | some => rfl
  | none =>
    cases find key (runOf (source.filter fun t => !c.isRetired t)) with
    | some => rfl
    | none =>
      simp only [Option.none_or]
      cases hm : find key c.merged with
      | none =>
        rw [hm] at hmerged
        obtain ⟨hin, hov⟩ := Option.or_eq_none_iff.mp hmerged.symm
        simp [hin, hov]
      | some e =>
        rw [find_kept_none_of_merged hid hcut hp hm, Option.none_or, Option.none_or,
          ← Option.or_assoc, ← hmerged, hm]
        by_cases hd : (e.tombstone && c.dropTombstones) = true
        · -- The one entry the merge drops: a tombstone with nothing beneath it.
          obtain ⟨ht, hdrop⟩ := Bool.and_eq_true_iff.mp hd
          have hr : c.beginKey ≤ key ∧ key ≤ c.endKey :=
            merged_in_range hp (mem_of_find hm)
          rw [find_deeper_eq_none hp hdrop hr.1 hr.2]
          obtain ⟨v, tomb⟩ := e
          subst ht
          simp [hdrop, visible]
        · have hkeep : (!(e.tombstone && c.dropTombstones)) = true := by
            rw [Bool.eq_false_of_not_eq_true hd]
            rfl
          simp only [Option.filter, hkeep, if_true, Option.map_some, Option.some_or]
          exact visible_map_stored (some e)

end Rebuild

section Widening

variable {opts : LsmOptions} {levels : Levels} {compactPointer : List Key} {force : Bool} {c : Compaction}
  {outs : List SSTable} {o : SSTable}

theorem Splits.separated (h : c.Splits outs) : Separated outs := by
  obtain ⟨rest, hrun⟩ := h.run
  have hsorted := sorted_map_stored (c.sorted_merged.sublist (List.filter_sublist (p := survives c.dropTombstones)))
  rw [hrun] at hsorted
  exact (shaped_of_sorted h.nonempty (List.pairwise_append.mp hsorted).1).disjoint

theorem Splits.mem_merged (h : c.Splits outs) (ho : o ∈ outs) {key : Key}
    (hkey : key ∈ keys o.entries) : ∃ e ∈ c.merged, e.1 = key := by
  obtain ⟨rest, hrun⟩ := h.run
  obtain ⟨e, he, rfl⟩ := List.mem_map.mp hkey
  have hmem : e ∈ runOf outs ++ rest := List.mem_append_left _ (mem_runOf.mpr ⟨o, ho, he⟩)
  rw [← hrun] at hmem
  obtain ⟨e', he', rfl⟩ := List.mem_map.mp hmem
  exact ⟨e', (List.mem_filter.mp he').1, rfl⟩

theorem entry_in_range (h : pickCompaction opts levels compactPointer force = .work c) {t : SSTable}
    (ht : t ∈ c.tables) {e : Entry} (he : e ∈ t.entries) : c.beginKey ≤ e.1 ∧ e.1 ≤ c.endKey := by
  obtain ⟨hb, hend⟩ := cover_of_pick h ht
  exact ⟨hb.trans (minKey_le he), (le_maxKey he).trans hend⟩

theorem Splits.in_range (h : c.Splits outs) (hpick : pickCompaction opts levels compactPointer force = .work c)
    (ho : o ∈ outs) : c.beginKey ≤ o.minKey ∧ o.maxKey ≤ c.endKey := by
  have hkey : ∀ key ∈ keys o.entries, c.beginKey ≤ key ∧ key ≤ c.endKey := by
    intro key hkey
    obtain ⟨e, he, rfl⟩ := h.mem_merged ho hkey
    obtain ⟨t, ht, het⟩ := mem_tables_of_mem_merged he
    exact entry_in_range hpick ht het
  have hne := h.nonempty o ho
  exact ⟨(hkey _ (minKey_mem hne)).1, (hkey _ (maxKey_mem hne)).2⟩

/-- One widening is enough. Where the output level has no overlaps of its own, its tables outside
the overlaps stay clear of the widened range, the range covers every key of the merge, and so the
written tables, cut anywhere, stay clear of each other and of every table that is kept. -/
theorem widening_once_is_enough (h : pickCompaction opts levels compactPointer force = .work c)
    (hs : Separated (levels.getD (c.level + 1) [])) :
    (∀ t ∈ levels.getD (c.level + 1) [], t ∉ c.overlaps →
      rangesOverlap c.beginKey c.endKey t.minKey t.maxKey = false) ∧
    (∀ t ∈ c.inputs ++ c.overlaps, ∀ e ∈ t.entries, c.beginKey ≤ e.1 ∧ e.1 ≤ c.endKey) ∧
    (∀ (opts' : LsmOptions) (ids : List FileId), ids.length = (c.outputs opts').1.length →
      c.Splits (List.zipWith SSTable.mk ids (c.outputs opts').1)) ∧
    ∀ outs, c.Splits outs → Separated outs ∧
      ∀ o ∈ outs, ∀ t ∈ levels.getD (c.level + 1) [], c.isRetired t = false →
        o.maxKey < t.minKey ∨ t.maxKey < o.minKey := by
  refine ⟨?_, fun t ht e he => entry_in_range h ht he, fun opts' ids hids => splits_of_outputs opts' c hids, ?_⟩
  · intro t ht hnot
    exact rangesOverlap_eq_false.mpr (outside_of_pick h hs ht hnot).symm
  · intro outs hw
    refine ⟨hw.separated, fun o ho t ht hkept => ?_⟩
    obtain ⟨hb, hend⟩ := hw.in_range h ho
    have hnot : t ∉ c.overlaps := by
      intro hov
      have hretired : c.isRetired t = true :=
        decide_eq_true (List.mem_map_of_mem (List.mem_append_right _ hov))
      rw [hretired] at hkept
      cases hkept
    rcases outside_of_pick h hs ht hnot with hlt | hlt
    · exact .inr (hlt.trans_le hb)
    · exact .inl (hend.trans_lt hlt)

/-- The input ends where one table of the next level begins, and that table ends just before another. -/
theorem widening_once_is_enough_at_touching_ends :
    ∃ (levels : Levels) (c : Compaction), pickCompaction { l0CompactionTrigger := 1 } levels [] false = .work c ∧
      Separated (levels.getD (c.level + 1) []) ∧ c.overlaps ≠ levels.getD (c.level + 1) [] ∧
      c.endKey = text "e" ∧
      ∀ t ∈ levels.getD (c.level + 1) [], t ∉ c.overlaps →
        rangesOverlap c.beginKey c.endKey t.minKey t.maxKey = false := by
  let newer := SSTable.ofBlock 4 [(text "b", ⟨text "x", false⟩), (text "c", ⟨[], true⟩)] 100 (by decide) (by decide)
  let touched := SSTable.ofBlock 2 [(text "c", ⟨text "x", false⟩), (text "e", ⟨text "y", false⟩)] 120
    (by decide) (by decide)
  let clear := SSTable.ofBlock 3 [(text "f", ⟨text "z", false⟩)] 100 (by decide) (by decide)
  let levels : Levels := [[newer], [touched, clear]]
  have hpick : pickCompaction { l0CompactionTrigger := 1 } levels [] false =
      .work (workFor levels 0 newer [newer]) := rfl
  exact ⟨levels, workFor levels 0 newer [newer], hpick, by decide, by decide, by decide,
    (widening_once_is_enough hpick (by decide)).1⟩

end Widening

theorem lookup_eq_notPresent {t : SSTable} {key : Key} (h : key < t.minKey ∨ t.maxKey < key) :
    t.lookup key = .notPresent := by
  rw [SSTable.lookup, lookup]
  split
  · rfl
  · exact if_pos h

theorem compactOnce_eq_some {levels next : Levels} (h : c.compactOnce opts levels ids = some next) :
    ∃ outs, c.Writes outs ∧ next = c.rebuild levels outs := by
  unfold compactOnce at h
  split at h
  next files hf =>
    split_ifs at h with hlen
    exact ⟨_, writes_of_outputs hf hlen, (Option.some.inj h).symm⟩
  next => cases h

/-- Merging a picked work item changes no answer, and a tombstone is dropped only
where every deeper table is silent about its key. -/
theorem compactOnce_preserves_meaning {opts : LsmOptions} {levels next : Levels}
    {compactPointer : List Key} {force : Bool} {c : Compaction} {ids : List FileId}
    (hshape : ∀ level ∈ levels.tail, Shaped level) (hid : OneTablePerId levels)
    (hpick : pickCompaction opts levels compactPointer force = .work c)
    (hnext : c.compactOnce opts levels ids = some next) :
    (∀ key, (next.search key).answer key = (levels.search key).answer key) ∧
      (c.dropTombstones = true → ∀ e ∈ c.merged, e.2.tombstone = true →
        ∀ level ∈ levels.drop (c.level + 2), ∀ t ∈ level, t.lookup e.1 = .notPresent) := by
  obtain ⟨l, hl, _⟩ := (pickCompaction_spec hpick).1.source
  obtain ⟨above, target, deeper, hcut⟩ := exists_cut hl
  have hp := picked_of_pick hshape hcut hpick
  obtain ⟨outs, hw, rfl⟩ := compactOnce_eq_some hnext
  refine ⟨fun key => Lookup.answer_congr ?_ key, ?_⟩
  · rw [search_eq (rebuild_shaped hid hcut hp hw hshape), search_eq hshape, value_ofEntry,
      value_ofEntry]
    exact rebuild_visible hid hcut hp hw hshape key
  · intro hdrop e he _ level hlevel t ht
    rw [hcut.drop_succ] at hlevel
    obtain ⟨hb, hend⟩ := merged_in_range hp he
    rcases hp.drop hdrop level hlevel t ht with h | h
    · exact lookup_eq_notPresent (Or.inl (hend.trans_lt h))
    · exact lookup_eq_notPresent (Or.inr (h.trans_le hb))

/-- A delete flushed over an older value: the merge drops both. -/
theorem compactOnce_preserves_meaning_of_delete :
    ∃ (opts : LsmOptions) (levels next : Levels) (c : Compaction),
      pickCompaction opts levels [] false = .work c ∧ c.dropTombstones = true ∧
        c.compactOnce opts levels [3] = some next ∧
          ∀ key, (next.search key).answer key = (levels.search key).answer key := by
  let newer := SSTable.ofBlock 2 [(text "a", ⟨[], true⟩)] 100 (by decide) (by decide)
  let older := SSTable.ofBlock 1 [(text "a", ⟨text "x", false⟩), (text "b", ⟨text "y", false⟩)] 120
    (by decide) (by decide)
  let opts : LsmOptions := { l0CompactionTrigger := 1 }
  let levels : Levels := [[newer], [older]]
  have hnext : ((workFor levels 0 newer [newer]).compactOnce opts levels [3]).isSome = true := by
    decide
  obtain ⟨next, hnext⟩ := Option.isSome_iff_exists.mp hnext
  exact ⟨opts, levels, next, workFor levels 0 newer [newer], rfl, by decide, hnext,
    (compactOnce_preserves_meaning (by decide) (by decide)
      (show pickCompaction opts levels [] false = _ from rfl) hnext).1⟩

end KVStore.Compaction
