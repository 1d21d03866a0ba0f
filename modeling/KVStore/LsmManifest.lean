import KVStore.LsmReads

namespace KVStore

open Lib CrashProgram

/-- The shape of a level set: L0 newest first, the deeper levels in key order, no
id twice. -/
structure WellFormed (levels : Levels) : Prop where
  shaped : ∀ l ∈ levels.tail, Levels.Shaped l
  l0 : levels.l0.Pairwise fun a b => b.id < a.id
  nodup : levels.ids.Nodup

/-- The level set answers every key as the history does. -/
def Answers (levels : Levels) (history : List Entry) : Prop :=
  ∀ key, visible (SortedRun.find key levels.entries) = visible (SortedRun.find key history)

theorem Answers.search {levels : Levels} {history : List Entry} (h : Answers levels history)
    (hw : WellFormed levels) (key : Key) :
    (levels.search key).answer key = (Lookup.ofEntry (SortedRun.find key history)).answer key := by
  rw [Levels.search_eq hw.shaped]
  refine Lookup.answer_congr ?_ key
  rw [value_ofEntry, value_ofEntry]
  exact h key

namespace System

variable {n : Nat} {opts : LsmOptions} {listing : Listing} {s s' : System n}
  {prior live frozen flushed : List Entry} {levels : Levels}

structure OnDisk (s : System n) (levels : Levels) (nextId : FileId) (history : List Entry) : Prop where
  committed : Committed s.env levels nextId
  counter : nextId ≤ s.env.nextId
  below : ∀ t ∈ s.engine.levels.flatten, t.id < nextId
  wellFormed : WellFormed levels
  answers : Answers levels history

theorem BackgroundInv.wellFormed (h : s.BackgroundInv True opts listing) : WellFormed s.engine.levels :=
  ⟨h.shaped, (h.ids trivial).l0, (h.ids trivial).nodup⟩

/-- The level sets the manifest may describe: the one in memory, or the one an
install under way puts in its place. -/
inductive Described (opts : LsmOptions) (s : System n) : Levels → Prop
  | settled : Described opts s s.engine.levels
  | flush {table : Memtable} {f : TableFile} (imm : s.engine.imm = some table)
      (built : buildTable opts.blockSize opts.bitsPerKey table.map = .ok f)
      (flushing : ∀ wal, s.engine.background ≠ .retiring wal) :
      Described opts s (LsmStore.prependL0 ⟨s.engine.immTableId, f⟩ s.engine.levels)
  | compaction {work : Compaction} {ids : List FileId} (picked : PickedFrom opts s.engine.levels work)
      (complete : (work.outputs opts).2 = none)
      (length : ids.length = (LsmStore.outputFiles opts work).length) (nodup : ids.Nodup)
      (fresh : ∀ id ∈ ids, id ∉ s.engine.obsoleteIds ∧ ∀ t ∈ s.engine.levels.flatten, t.id ≠ id) :
      Described opts s (work.rebuild s.engine.levels (LsmStore.placed (held opts work ids)))

theorem described_of_installPoint {next : Levels} (hp : InstallPoint s.env s.engine.levels next)
    (hnext : next = s.engine.levels ∨ Described opts s next) :
    ∃ levels nextId, Described opts s levels ∧ Committed s.env levels nextId ∧
      nextId ≤ s.env.nextId ∧ ∀ t ∈ s.engine.levels.flatten, t.id < nextId := by
  obtain ⟨_, _, m, hm, hbelow, hc | hc⟩ := hp
  · exact ⟨_, m, .settled, hc, hm, hbelow⟩
  · refine ⟨_, m, ?_, hc, hm, hbelow⟩
    rcases hnext with rfl | hnext
    · exact .settled
    · exact hnext

section

variable (h : s.BackgroundInv True opts listing)
include h

theorem manifest_described (hl : Legal True s.shared) :
    ∃ levels nextId, Described opts s levels ∧ Committed s.env levels nextId ∧
      nextId ≤ s.env.nextId ∧ ∀ t ∈ s.engine.levels.flatten, t.id < nextId := by
  have hpromise := h.promise
  have hdone : Settled s.env s.engine.levels → ∃ levels nextId, Described opts s levels ∧
      Committed s.env levels nextId ∧ nextId ≤ s.env.nextId ∧
        ∀ t ∈ s.engine.levels.flatten, t.id < nextId :=
    fun hs => described_of_installPoint (hs.installPoint s.engine.levels) (Or.inl rfl)
  cases hpc : s.engine.background with
  | flushing =>
    rw [hpc] at hpromise
    obtain ⟨table, himm, _, obsolete, hp⟩ := hpromise
    refine described_of_installPoint (hp.now hl trivial) ?_
    unfold LsmStore.flushed
    split
    next f hf => exact Or.inr (.flush himm hf (by simp [hpc]))
    next => exact Or.inl rfl
  | committing =>
    rw [hpc] at hpromise
    obtain ⟨hwork, hout, ids, obsolete, hlen, hnodup, hfresh, hp⟩ := hpromise
    exact described_of_installPoint (hp.now hl trivial)
      (Or.inr (.compaction hwork hout hlen hnodup (hfresh trivial)))
  | _ =>
    rw [hpc] at hpromise
    exact hdone (hpromise.settled trivial hl nofun nofun)

theorem Described.wellFormed (hd : Described opts s levels) : WellFormed levels := by
  cases hd with
  | settled => exact h.wellFormed
  | @flush table f himm =>
    have htables := @tableIds_flush _ _ _ _ (h.ids trivial) ⟨s.engine.immTableId, f⟩
      (by simp [Engine.claimed, himm])
    exact ⟨fun l hl => h.shaped l (mem_tail_prependL0 hl), htables.l0, htables.nodup⟩
  | compaction hwork hout hlen hnodup hfresh =>
    obtain ⟨_, _, hwork⟩ := hwork
    obtain ⟨_, _, _, _, hcut, hpicked⟩ := Levels.exists_picked h.shaped hwork
    have hone := Levels.oneTablePerId_of_nodup (h.ids trivial).nodup
    refine ⟨Compaction.rebuild_shaped hone hcut hpicked (writes_placed hlen hout) h.shaped,
      (h.ids trivial).l0.sublist (Compaction.l0_rebuild_sublist hcut), ?_⟩
    refine Compaction.nodup_ids_rebuild hcut (h.ids trivial).nodup
      ((map_id_placed hlen).symm ▸ hnodup) ?_
    exact fun t ht o ho => (hfresh o.id (mem_ids_of_mem_placed ho)).2 t ht

theorem Described.answers (hd : Described opts s levels) (hh : History prior s live frozen flushed) :
    Answers levels flushed ∨ Answers levels (frozen ++ flushed) ∧ s.engine.imm.isSome ∧
      ∀ wal, s.engine.background ≠ .retiring wal := by
  cases hd with
  | settled => exact Or.inl hh.contents.levels
  | flush himm hf hflushing =>
    have hcontents := hh.contents.flush himm hf s.engine.immTableId s.engine.background
    exact Or.inr ⟨hcontents.levels, by rw [himm]; rfl, hflushing⟩
  | compaction hwork hout hlen =>
    obtain ⟨_, _, hwork⟩ := hwork
    obtain ⟨_, _, _, _, hcut, hpicked⟩ := Levels.exists_picked h.shaped hwork
    have hone := Levels.oneTablePerId_of_nodup (h.ids trivial).nodup
    exact Or.inl fun key => (Compaction.rebuild_visible hone hcut hpicked
      (writes_placed hlen hout) h.shaped key).trans (hh.contents.levels key)

theorem manifest_onDisk (hh : History prior s live frozen flushed) (hl : Legal True s.shared) :
    ∃ levels nextId history, s.OnDisk levels nextId history ∧
      (history = flushed ∨ history = frozen ++ flushed ∧ s.engine.imm.isSome ∧
        ∀ wal, s.engine.background ≠ .retiring wal) := by
  obtain ⟨levels, m, hd, hc, hm, hbelow⟩ := manifest_described h hl
  rcases hd.answers h hh with ha | ⟨ha, hrest⟩
  · exact ⟨levels, m, flushed, ⟨hc, hm, hbelow, hd.wellFormed h, ha⟩, Or.inl rfl⟩
  · exact ⟨levels, m, frozen ++ flushed, ⟨hc, hm, hbelow, hd.wellFormed h, ha⟩, Or.inr ⟨rfl, hrest⟩⟩

theorem BackgroundInv.tablesReadBack (hl : Legal True s.shared) : s.TablesReadBack := by
  obtain ⟨_, hp⟩ := h.promise.point trivial hl
  exact hp.files

end

end System

end KVStore
