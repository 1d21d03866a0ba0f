import KVStore.PickCompaction
import KVStore.Lib.KWayMerge

namespace KVStore.Compaction

open Lib

def tables (c : Compaction) : List SSTable := c.inputs ++ c.overlaps

def merged (c : Compaction) : List Entry := KWayMerge.merge (c.tables.map SSTable.entries)

def startOutput (opts : LsmOptions) : Option SSTableBuilder → Except Failure SSTableBuilder
  | some b => .ok b
  | none => SSTableBuilder.create opts.blockSize opts.bitsPerKey

/-- The output loop. It returns the finished tables and, if it stopped early, why. -/
def writeOutputs (opts : LsmOptions) (drop : Bool) :
    Option SSTableBuilder → List Entry → List TableFile × Option Failure
  | none, [] => ([], none)
  | some b, [] =>
    match b.finish with
    | .error s => ([], some s)
    | .ok (_, f) => ([f], none)
  | builder, e :: rest =>
    if e.2.tombstone && drop then writeOutputs opts drop builder rest
    else
      match startOutput opts builder with
      | .error s => ([], some s)
      | .ok b =>
        match b.add e.1 e.2.value e.2.tombstone with
        | .error s => ([], some s)
        | .ok b' =>
          if opts.targetTableSize ≤ b'.fileSize then
            match b'.finish with
            | .error s => ([], some s)
            | .ok (_, f) =>
              (f :: (writeOutputs opts drop none rest).1, (writeOutputs opts drop none rest).2)
          else writeOutputs opts drop (some b') rest

def outputs (opts : LsmOptions) (c : Compaction) : List TableFile × Option Failure :=
  writeOutputs opts c.dropTombstones none c.merged

def isRetired (c : Compaction) (t : SSTable) : Bool := t.id ∈ c.tables.map SSTable.id

def sortByMinKey (level : List SSTable) : List SSTable :=
  level.insertionSort (fun a b => a.minKey ≤ b.minKey)

/-- The level set the commit describes: the retired tables gone, the outputs in
the output level, trailing empty levels dropped. -/
def rebuild (c : Compaction) (levels : Levels) (outs : List SSTable) : Levels :=
  let padded := levels ++ List.replicate (c.level + 2 - levels.length) []
  let keep := fun level : List SSTable => level.filter (fun t => !c.isRetired t)
  ((padded.modify c.level keep).modify (c.level + 1)
    (fun level => sortByMinKey (keep level ++ outs))).rdropWhile List.isEmpty

def compactOnce (opts : LsmOptions) (c : Compaction) (levels : Levels) (ids : List FileId) :
    Option Levels :=
  match c.outputs opts with
  | (files, none) =>
    if ids.length = files.length then
      some (c.rebuild levels (List.zipWith SSTable.mk ids files))
    else none
  | (_, some _) => none

def survives (drop : Bool) (e : Entry) : Bool := !(e.2.tombstone && drop)

def builderEntries (builder : Option SSTableBuilder) : List Entry :=
  builder.elim [] SSTableBuilder.entries

variable {opts : LsmOptions} {builder : Option SSTableBuilder} {drop : Bool} {e : Entry} {es : List Entry}

theorem startOutput_entries {b : SSTableBuilder} (h : startOutput opts builder = .ok b) :
    b.entries = builderEntries builder := by
  cases builder with
  | none => exact (SSTableBuilder.create_spec h).1
  | some =>
    cases h
    rfl

theorem writeOutputs_dropped (h : (e.2.tombstone && drop) = true) :
    writeOutputs opts drop builder (e :: es) = writeOutputs opts drop builder es := by
  cases builder <;> simp [writeOutputs, h]

theorem writeOutputs_cons (h : ¬ (e.2.tombstone && drop) = true) :
    writeOutputs opts drop builder (e :: es) =
      match startOutput opts builder with
      | .error s => ([], some s)
      | .ok b =>
        match b.add e.1 e.2.value e.2.tombstone with
        | .error s => ([], some s)
        | .ok b' =>
          if opts.targetTableSize ≤ b'.fileSize then
            match b'.finish with
            | .error s => ([], some s)
            | .ok (_, f) => (f :: (writeOutputs opts drop none es).1,
                (writeOutputs opts drop none es).2)
          else writeOutputs opts drop (some b') es := by
  cases builder <;> simp only [writeOutputs, h] <;> rfl

theorem writeOutputs_cut {opts : LsmOptions} {drop : Bool} {builder : Option SSTableBuilder}
    {es : List Entry} (hb : ∀ b, builder = some b → b.entries ≠ []) :
    ∃ rest, builderEntries builder ++ (es.filter (survives drop)).map storedEntry =
        ((writeOutputs opts drop builder es).1.map TableFile.entries).flatten ++ rest ∧
      ((writeOutputs opts drop builder es).2 = none → rest = []) ∧
      ∀ f ∈ (writeOutputs opts drop builder es).1, f.entries ≠ [] := by
  induction es generalizing builder with
  | nil =>
    cases builder with
    | none => exact ⟨[], rfl, fun _ => rfl, nofun⟩
    | some b =>
      rw [writeOutputs]
      cases hf : b.finish with
      | error => exact ⟨b.entries, by simp [builderEntries], nofun, nofun⟩
      | ok r =>
        obtain ⟨b', f⟩ := r
        have hfe := SSTableBuilder.finish_entries hf
        refine ⟨[], by simp [hfe, builderEntries], fun _ => rfl, ?_⟩
        simpa [hfe] using hb b rfl
  | cons e es ih =>
    by_cases hdrop : (e.2.tombstone && drop) = true
    · rw [writeOutputs_dropped hdrop, List.filter_cons_of_neg (by simp [survives, hdrop])]
      exact ih hb
    · rw [List.filter_cons_of_pos (by rw [survives, Bool.eq_false_of_not_eq_true hdrop]; rfl),
        writeOutputs_cons hdrop]
      cases hs : startOutput opts builder with
      | error => exact ⟨_, (List.nil_append _).symm, nofun, nofun⟩
      | ok b =>
        dsimp only
        cases ha : b.add e.1 e.2.value e.2.tombstone with
        | error => exact ⟨_, (List.nil_append _).symm, nofun, nofun⟩
        | ok b' =>
          have hentries : b'.entries = builderEntries builder ++ [storedEntry e] := by
            rw [SSTableBuilder.add_entries ha, startOutput_entries hs]
          dsimp only
          by_cases ht : opts.targetTableSize ≤ b'.fileSize
          · rw [if_pos ht]
            cases hf : b'.finish with
            | error => exact ⟨_, (List.nil_append _).symm, nofun, nofun⟩
            | ok r =>
              obtain ⟨b'', f⟩ := r
              obtain ⟨rest, hcut, hnone, hne⟩ := @ih none (by simp)
              have hfe := SSTableBuilder.finish_entries hf
              refine ⟨rest, ?_, hnone, ?_⟩
              · rw [builderEntries, Option.elim_none, List.nil_append] at hcut
                simp [hcut, hfe, hentries]
              · intro g hg
                rcases List.mem_cons.mp hg with rfl | hg
                · simp [hfe, hentries]
                · exact hne g hg
          · rw [if_neg ht]
            have hb' : ∀ b₁, some b' = some b₁ → b₁.entries ≠ [] := by
              rintro _ ⟨rfl⟩
              simp [hentries]
            obtain ⟨rest, hcut, hrest⟩ := ih hb'
            refine ⟨rest, ?_, hrest⟩
            rw [← hcut]
            simp [builderEntries, hentries]

theorem writeOutputs_spec {opts : LsmOptions} {drop : Bool} {builder : Option SSTableBuilder}
    {es : List Entry} (hb : ∀ b, builder = some b → b.entries ≠ [])
    (h : (writeOutputs opts drop builder es).2 = none) :
    ((writeOutputs opts drop builder es).1.map TableFile.entries).flatten =
        builderEntries builder ++ (es.filter (survives drop)).map storedEntry ∧
      ∀ f ∈ (writeOutputs opts drop builder es).1, f.entries ≠ [] := by
  obtain ⟨rest, hcut, hnone, hne⟩ := @writeOutputs_cut opts drop builder es hb
  rw [hcut, hnone h, List.append_nil]
  exact ⟨rfl, hne⟩

theorem modify_append_cons {α : Type} (a : List α) (x : α) (b : List α) (f : α → α) :
    (a ++ x :: b).modify a.length f = a ++ f x :: b := by
  induction a with
  | nil => rfl
  | cons y a ih => simpa using ih

theorem rebuild_eq (c : Compaction) {levels above : Levels} {source target : List SSTable}
    {deeper : Levels} (outs : List SSTable) (hlevel : c.level = above.length)
    (h : levels = above ++ source :: target :: deeper ∨
      levels = above ++ [source] ∧ target = [] ∧ deeper = []) :
    c.rebuild levels outs =
      (above ++ source.filter (fun t => !c.isRetired t) ::
        sortByMinKey (target.filter (fun t => !c.isRetired t) ++ outs) :: deeper).rdropWhile
          List.isEmpty := by
  have hpad : levels ++ List.replicate (c.level + 2 - levels.length) [] =
      above ++ source :: target :: deeper := by
    rcases h with rfl | ⟨rfl, rfl, rfl⟩
    · have : c.level + 2 - (above ++ source :: target :: deeper).length = 0 := by
        simp only [List.length_append, List.length_cons]
        omega
      rw [this]
      simp
    · have : c.level + 2 - (above ++ [source]).length = 1 := by
        simp only [List.length_append, List.length_cons, List.length_nil]
        omega
      rw [this]
      simp
  unfold rebuild
  dsimp only
  rw [hpad, hlevel, modify_append_cons]
  have hmid : above ++ source.filter (fun t => !c.isRetired t) :: target :: deeper =
      (above ++ [source.filter (fun t => !c.isRetired t)]) ++ target :: deeper := by simp
  have hlen : above.length + 1 = (above ++ [source.filter (fun t => !c.isRetired t)]).length := by
    simp
  rw [hmid, hlen, modify_append_cons]
  simp

theorem sortByMinKey_perm (level : List SSTable) : (sortByMinKey level).Perm level :=
  List.perm_insertionSort _ _

end KVStore.Compaction
