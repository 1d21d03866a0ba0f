import KVStore.LsmPlacements
import KVStore.NewestFirst

namespace KVStore

open Lib CrashProgram LsmStore

namespace Engine

variable {n : Nat} {e e' : Engine n}

def frozenKeys (e : Engine n) : List Key := (e.imm.map fun table => SortedRun.keys table.map).getD []

/-- Nothing that is consulted before the outputs of `work` has a key of its inputs:
neither the frozen memtable, nor a table above the output level that is not read. -/
structure Clear (e : Engine n) (work : Compaction) : Prop where
  frozen : ∀ key ∈ e.frozenKeys, key ∉ work.keys
  above : ∀ t ∈ (e.levels.take (work.level + 1)).flatten, t ∉ work.tables →
    ∀ key ∈ t.keys, key ∉ work.keys

instance (e : Engine n) (work : Compaction) : Decidable (e.Clear work) :=
  decidable_of_iff ((∀ key ∈ e.frozenKeys, key ∉ work.keys) ∧
    ∀ t ∈ (e.levels.take (work.level + 1)).flatten, t ∉ work.tables → ∀ key ∈ t.keys, key ∉ work.keys)
    ⟨fun h => ⟨h.1, h.2⟩, fun h => ⟨h.frozen, h.above⟩⟩

/-- An id for an output of `work` that keeps the order: past every table, and below
the id of a frozen memtable with a key in common. -/
structure InOrder (e : Engine n) (work : Compaction) (id : FileId) : Prop where
  past : ∀ t ∈ e.levels.flatten, t.id < id
  frozen : ∀ key ∈ e.frozenKeys, key ∈ work.keys → id < e.immTableId
  above : ∀ t ∈ (e.levels.take (work.level + 1)).flatten, t ∉ work.tables →
    ∀ key ∈ t.keys, key ∉ work.keys

theorem SameFrozen.frozenKeys_eq (h : e.SameFrozen e') : e'.frozenKeys = e.frozenKeys := by
  rw [frozenKeys, frozenKeys, h.imm]

theorem InOrder.congr {work : Compaction} {id : FileId} (h : e.InOrder work id)
    (hlevels : e'.levels = e.levels) (hz : e.SameFrozen e') : e'.InOrder work id := by
  refine ⟨?_, ?_, ?_⟩
  · rw [hlevels]
    exact h.past
  · rw [hz.frozenKeys_eq, hz.immTableId]
    exact h.frozen
  · rw [hlevels]
    exact h.above

end Engine

namespace System

variable {n : Nat} {opts : LsmOptions} {listing : Listing} {s s' : System n} {work : Compaction}
    {ids : List FileId}

def TakesInOrder (s : System n) : Prop :=
  match s.engine.background with
  | .compacting _ work (.op .fetchNextId _) => s.engine.Clear work
  | _ => True

instance (s : System n) : Decidable s.TakesInOrder := by
  unfold TakesInOrder
  split <;> infer_instance

def Outputs (s : System n) (work : Compaction) (ids : List FileId) : Prop :=
  ∀ id ∈ ids, id < s.env.nextId ∧ s.engine.InOrder work id

def OutputsInOrder (opts : LsmOptions) (listing : Listing) (s : System n) : Background → Prop
  | .compacting run work io => ∃ ours taken, (Background.compacting run work io).Careful 0 ours taken ∧ s.Outputs work taken
  | .renamingOutputs _ work ids _ => s.Outputs work ids
  | .committing _ work io => ∃ ids obsolete, s.Outputs work ids ∧
      ids.length = (LsmStore.outputFiles opts work).length ∧
      s.Promise True listing obsolete
        (fun x => True → InstallPoint x.env s.engine.levels
          (work.rebuild s.engine.levels (LsmStore.placed (held opts work ids))))
        (LsmStore.CommitResult True obsolete s.engine.levels
          (work.rebuild s.engine.levels (LsmStore.placed (held opts work ids))) ids) io
  | _ => True

structure Recency (opts : LsmOptions) (listing : Listing) (s : System n) : Prop where
  levels : s.engine.levels.NewestFirst
  frozen : ∀ t ∈ s.engine.levels.flatten, ∀ key ∈ s.engine.frozenKeys, key ∈ t.keys →
    t.id < s.engine.immTableId
  outputs : s.OutputsInOrder opts listing s.engine.background

theorem Outputs.congr (h : s.Outputs work ids)
    (hn : s.env.nextId ≤ s'.env.nextId) (hlevels : s'.engine.levels = s.engine.levels)
    (hz : s.engine.SameFrozen s'.engine) : s'.Outputs work ids :=
  fun id hid => ⟨(h id hid).1.trans_le hn, (h id hid).2.congr hlevels hz⟩

theorem BackgroundInv.levels_below (h : s.BackgroundInv True opts listing) (hl : Legal True s.shared) :
    ∀ t ∈ s.engine.levels.flatten, t.id < s.env.nextId := by
  obtain ⟨_, _, _, m, hm, hbelow, _⟩ := h.promise.point trivial hl
  exact fun t ht => (hbelow t ht).trans_le hm

section

variable (h : s.Recency opts listing)
include h

theorem Recency.others (hb : s.BackgroundInv True opts listing)
    (ho : ByOthers True s s') (hl : Legal True s.shared) (hl' : Legal True s'.shared) :
    s'.Recency opts listing := by
  obtain ⟨_, hids, _⟩ := hb.promise.point trivial hl
  have hm := ho.moved _ fun _ hid => hid
  have hle : s.env.nextId ≤ s'.env.nextId := hm.nextId_le trivial (hl' trivial) hids
  have hfrozen : s.engine.SameFrozen s'.engine ∨
      ∀ key ∈ s'.engine.frozenKeys, s.env.nextId ≤ s'.engine.immTableId := by
    cases himm : s.engine.imm with
    | some table => exact Or.inl (ho.frozen table himm)
    | none =>
      right
      intro key hkey
      have hnone : s.shared.claimed = [] := by simp [System.shared, Engine.claimed, himm]
      have hclaimed : s'.engine.immTableId ∈ s'.shared.claimed := by
        cases himm' : s'.engine.imm with
        | none => simp [Engine.frozenKeys, himm'] at hkey
        | some => simp [System.shared, Engine.claimed, himm']
      rcases hm.claimed trivial (hl' trivial) hids.counted _ hclaimed with hin | hge
      · rw [hnone] at hin
        cases hin
      · exact hge.1
  have houtputs : ∀ {work ids}, s.Outputs work ids → s'.Outputs work ids := by
    intro work ids hout
    rcases hfrozen with hz | hge
    · exact hout.congr hle ho.levels hz
    · intro id hid
      obtain ⟨hlt, hpast, _, habove⟩ := hout id hid
      refine ⟨hlt.trans_le hle, ?_, fun key hkey _ => hlt.trans_le (hge key hkey), ?_⟩
      · rw [ho.levels]
        exact hpast
      · rw [ho.levels]
        exact habove
  refine ⟨ho.levels ▸ h.levels, ?_, ?_⟩
  · rw [ho.levels]
    rcases hfrozen with hz | hge
    · rw [hz.frozenKeys_eq, hz.immTableId]
      exact h.frozen
    · exact fun t ht key hkey _ => (hb.levels_below hl t ht).trans_le (hge key hkey)
  · have hout := h.outputs
    rw [ho.background]
    cases hpc : s.engine.background with
    | compacting =>
      rw [hpc] at hout
      obtain ⟨ours, taken, hio, htaken⟩ := hout
      exact ⟨ours, taken, hio, houtputs htaken⟩
    | renamingOutputs =>
      rw [hpc] at hout
      exact houtputs hout
    | committing =>
      rw [hpc] at hout
      obtain ⟨ids, obsolete, hids, hlen, hp⟩ := hout
      refine ⟨ids, obsolete, houtputs hids, hlen, ?_⟩
      rw [ho.levels]
      exact hp.moved ho
    | _ => trivial

theorem Recency.resume (hlevels : s'.engine.levels = s.engine.levels)
    (hz : s.engine.SameFrozen s'.engine) (hout : s'.OutputsInOrder opts listing s'.engine.background) :
    s'.Recency opts listing := by
  refine ⟨hlevels ▸ h.levels, ?_, hout⟩
  rw [hlevels, hz.frozenKeys_eq, hz.immTableId]
  exact h.frozen

theorem recency_turn {e e' : Engine n}
    (turn : Engine.LoopTurn opts s.env e e') (hlevels : e.levels = s.engine.levels)
    (hz : s.engine.SameFrozen e) : Recency opts listing { s with engine := e' } := by
  obtain ⟨h₁, h₂, h₃⟩ := hz
  cases turn with
  | exit | sleep | halt | undefined | flush => exact h.resume hlevels ⟨h₁, h₂, h₃⟩ trivial
  | @compact work =>
    exact h.resume hlevels ⟨h₁, h₂, h₃⟩
      ⟨false, [], careful_writeCompaction opts work, List.forall_mem_nil _⟩

theorem Recency.flushed {table : Memtable} (himm : s.engine.imm = some table) :
    (flushed opts table.map s.engine.immTableId s.engine.levels).NewestFirst := by
  unfold LsmStore.flushed
  split
  next f hf =>
    apply newestFirst_prependL0 h.levels
    intro t ht key hkey hin
    have hkeys : f.keys = s.engine.frozenKeys := by
      simp [TableFile.keys, Engine.frozenKeys, himm, buildTable_entries hf, SortedRun.keys, storedEntry]
    rw [SSTable.keys, hkeys] at hkey
    exact h.frozen t ht key hkey hin
  next => exact h.levels

end

section

variable (h : s.Recency opts listing) (hb : s.BackgroundInv True opts listing)
    (hwork : PickedFrom opts s.engine.levels work) (hout : (work.outputs opts).2 = none)
    (hlen : ids.length = (outputFiles opts work).length) (hids : s.Outputs work ids)
include h hb hwork hout hlen hids

theorem Recency.rebuilt : (work.rebuild s.engine.levels (LsmStore.placed (held opts work ids))).NewestFirst := by
  obtain ⟨_, _, hwork⟩ := hwork
  obtain ⟨above, source, target, deeper, hcut, hpicked⟩ := Levels.exists_picked hb.shaped hwork
  have hw := writes_placed hlen hout
  refine Compaction.newestFirst_rebuild hcut h.levels hb.shaped (hb.ids trivial).nodup hpicked hw ?_ ?_
  · exact fun o ho => (hids o.id (mem_ids_of_mem_placed ho)).2.past
  · intro hsome
    obtain ⟨o, ho⟩ := List.exists_mem_of_ne_nil _ hsome
    exact (hids o.id (mem_ids_of_mem_placed ho)).2.above

theorem Recency.frozen_rebuilt :
    ∀ t ∈ (work.rebuild s.engine.levels (LsmStore.placed (held opts work ids))).flatten,
      ∀ key ∈ s.engine.frozenKeys, key ∈ t.keys → t.id < s.engine.immTableId := by
  intro t ht key hkey hin
  obtain ⟨_, _, hwork⟩ := hwork
  obtain ⟨above, source, target, deeper, hcut, hpicked⟩ := Levels.exists_picked hb.shaped hwork
  rcases Compaction.mem_rebuild hcut ht with ht | ht
  · exact h.frozen t ht key hkey hin
  · have hread := (writes_placed hlen hout).keys_subset ht key hin
    exact (hids t.id (mem_ids_of_mem_placed ht)).2.frozen key hkey hread

end

theorem Recency.compactOp (h : s.Recency opts listing) (hb : s.BackgroundInv True opts listing)
    (hok : s.TakesInOrder) {run : CompactionRun} {work : Compaction} {o : Op}
    {k : Res o → LsmIo (Except Failure (List FileId))}
    (pc : s.engine.background = .compacting run work (.op o k)) (hl : Legal True s.shared)
    (hl' : Legal True (s.performed listing o (.compacting run work (k (s.env.exec listing o).1))).shared) :
    (s.performed listing o (.compacting run work (k (s.env.exec listing o).1))).Recency opts listing := by
  have hout := h.outputs
  rw [pc] at hout
  obtain ⟨ours, taken, hio, htaken⟩ := hout
  obtain ⟨_, hids, _⟩ := hb.promise.point trivial hl
  have hle := hb.nextId_le (by rw [nextOp, pc]) hl (hl' trivial)
  have hkept : (s.performed listing o (.compacting run work (k (s.env.exec listing o).1))).Outputs work
      taken := htaken.congr hle rfl ⟨rfl, rfl, rfl⟩
  refine h.resume rfl ⟨rfl, rfl, rfl⟩ ⟨_, _, (hio.next listing (Nat.zero_le _)).2, fun id hid => ?_⟩
  rcases Op.mem_heldAfter hid with hid | ⟨rfl, rfl⟩
  · exact hkept id hid
  · rw [TakesInOrder, pc] at hok
    refine ⟨?_, hb.levels_below hl, fun key hkey hin => absurd hin (hok.frozen key hkey), hok.above⟩
    exact (Nat.lt_succ_self _).trans_eq (fetchNextId_nextId hids.counted (hl' trivial)).symm

theorem Recency.background (h : s.Recency opts listing) (hb : s.BackgroundInv True opts listing)
    (hok : s.TakesInOrder) (hl : Legal True s.shared) (hl' : Legal True s'.shared)
    (hstep : BackgroundStep opts listing s s') : s'.Recency opts listing := by
  have hpromise := hb.promise
  have hout := h.outputs
  cases hstep with
  | turn pc next | flushFailed pc next | flushEnded pc next | compactFailed pc next | runEnded pc _ next
  | runExhausted pc next => exact recency_turn h next rfl ⟨rfl, rfl, rfl⟩
  | flushOp | retire | mark | nextUndefined => exact h.resume rfl ⟨rfl, rfl, rfl⟩ trivial
  | flushInstalled pc =>
    rw [pc] at hpromise
    obtain ⟨table, himm, _, obsolete, hp⟩ := hpromise
    obtain ⟨f, hf, rfl, _⟩ := hp.returned hl
    have hnew := @Recency.flushed n opts listing s h table himm
    rw [LsmStore.flushed, hf] at hnew
    exact ⟨hnew, fun _ _ _ => by rintro ⟨⟩, trivial⟩
  | compactOp pc => exact h.compactOp hb hok pc hl hl'
  | written pc =>
    rw [pc] at hout
    obtain ⟨_, taken, hio, htaken⟩ := hout
    cases hio _ rfl
    exact h.resume rfl ⟨rfl, rfl, rfl⟩ (htaken.congr le_rfl rfl ⟨rfl, rfl, rfl⟩)
  | renameOp pc =>
    have hle := hb.nextId_le (by rw [nextOp, pc]) hl (hl' trivial)
    rw [pc] at hout
    exact h.resume rfl ⟨rfl, rfl, rfl⟩ (Outputs.congr hout hle rfl ⟨rfl, rfl, rfl⟩)
  | @renamed run work ids pc =>
    rw [pc] at hpromise hout
    obtain ⟨hwork, _, hlen, obsolete, hp⟩ := hpromise
    have hrenamed := hp.returned hl
    refine h.resume rfl ⟨rfl, rfl, rfl⟩ ⟨ids, obsolete, ?_, hlen, ?_, hp.covers, ?_⟩
    · exact Outputs.congr hout le_rfl rfl ⟨rfl, rfl, rfl⟩
    · exact ofBackground_commitCompaction _ _ _
    · obtain ⟨_, _, hwork⟩ := hwork
      obtain ⟨_, _, _, _, hcut, _⟩ := Levels.exists_picked hb.shaped hwork
      exact guarded_commitCompaction (fun outs t ht => Compaction.mem_rebuild hcut ht)
        hrenamed (map_fst_held hlen) hl
  | commitOp pc =>
    have hle := hb.nextId_le (by rw [nextOp, pc]) hl (hl' trivial)
    rw [pc] at hout
    obtain ⟨ids, obsolete, houtputs, hlen, hp⟩ := hout
    refine h.resume rfl ⟨rfl, rfl, rfl⟩ ⟨ids, obsolete, ?_, hlen, hp.performed hl _ hl'⟩
    exact houtputs.congr hle rfl ⟨rfl, rfl, rfl⟩
  | installed pc =>
    rw [pc] at hpromise hout
    obtain ⟨hwork, hnone, _⟩ := hpromise
    obtain ⟨ids, obsolete, houtputs, hlen, hp⟩ := hout
    obtain ⟨rfl, _⟩ := hp.returned hl
    exact ⟨h.rebuilt hb hwork hnone hlen houtputs, h.frozen_rebuilt hb hwork hnone hlen houtputs,
      trivial⟩
  | @nextWork run work =>
    exact h.resume rfl ⟨rfl, rfl, rfl⟩
      ⟨false, [], careful_writeCompaction opts work, List.forall_mem_nil _⟩

theorem Recency.step (h : s.Recency opts listing) (hb : s.BackgroundInv True opts listing)
    (hok : s.TakesInOrder) (hl : Legal True s.shared) (hl' : Legal True s'.shared) {a : Action n}
    (hstep : Step opts listing s a s') : s'.Recency opts listing := by
  cases hstep with
  | @call c call =>
    have henter := enter_cases (s.note (.invoke c call)) c call
    obtain ⟨henv, hz⟩ := henter.sameFrozen
    exact h.others hb (byOthers_of_same henter.untouched (henv ▸ .refl _) hz) hl hl'
  | client next => exact h.others hb (byOthers_client next) hl hl'
  | background next => exact h.background hb hok hl hl' next
  | unlink hobsolete => exact h.others hb (byOthers_unlink hobsolete) hl hl'
  | stop =>
    refine h.others hb ⟨rfl, rfl, fun _ _ => ⟨rfl, rfl, rfl⟩, fun _ hid => hid, ?_⟩ hl hl'
    exact fun _ _ => OtherThreads.refl _

end System

end KVStore
