import KVStore.LsmBackgroundInv

namespace KVStore.System

open Lib CrashProgram LsmStore

variable {n : Nat} {D : Prop} {opts : LsmOptions} {listing : Listing} {s s' : System n} {c : Fin n}

theorem otherThreads_of_same {a b : Shared} (hf : a.env.SameFiles b.env) (hc : b.claimed = a.claimed)
    (obsolete : List FileId) : OtherThreads D obsolete a b where
  manifest := hf.manifest
  manifestTemp := hf.manifestTemp
  tableTemps := hf.tableTemps
  tables := fun _ => Or.inl (by rw [hf.tables])
  kept := fun _ _ _ => by rw [hf.tables]
  issued := hf.issued.ge
  counted := fun _ _ h => by
    rw [hf.nextId, hf.issued]
    exact ⟨le_rfl, h⟩
  claimed := fun _ _ _ id hid => Or.inl (hc ▸ hid)

theorem byOthers_of_same (hu : s.engine.Untouched s'.engine) (hf : s.env.SameFiles s'.env)
    (hz : s.engine.SameFrozen s'.engine) : ByOthers D s s' where
  levels := hu.levels
  background := hu.background
  frozen := fun _ _ => hz
  obsolete := fun id hid => by
    unfold Engine.obsoleteIds at hid ⊢
    rwa [hu.obsolete] at hid
  moved := fun obsolete _ => otherThreads_of_same hf hz.claimed_eq obsolete

theorem byOthers_note (ev : Event n) : ByOthers D s (s.note ev) :=
  byOthers_of_same ⟨rfl, rfl, rfl, rfl, rfl, rfl, rfl, rfl, rfl⟩ (.refl _) ⟨rfl, rfl, rfl⟩

theorem byOthers_enter {call : Call} (h : EnterStep s c call s') : ByOthers D s s' := by
  obtain ⟨henv, hz⟩ := h.sameFrozen
  exact byOthers_of_same h.untouched (henv ▸ .refl _) hz

theorem byOthers_rotate (c : Fin n) (resume : Resume) (himm : s.engine.imm = none) :
    ByOthers D s (s.rotate c resume) where
  levels := rfl
  background := rfl
  frozen := fun table h => by simp [himm] at h
  obsolete := fun _ hid => hid
  moved := fun obsolete _ =>
    have hcount : (s.rotate c resume).env.issued < idLimit → s.env.nextId ≤ s.env.issued + 1 →
        (s.rotate c resume).env.nextId = s.env.nextId + 1 + 1 := fun hl hc => by
      have hl₁ : s.env.issued + 1 < idLimit := (Nat.lt_succ_self _).trans hl
      have h₁ := fetchNextId_nextId hc hl₁
      have hc₁ : s.env.fetchNextId.nextId ≤ s.env.fetchNextId.issued + 1 := by
        rw [h₁]
        exact Nat.add_le_add_right hc 1
      have h₂ := fetchNextId_nextId hc₁ hl
      rw [h₁] at h₂
      exact h₂
    { manifest := rfl
      manifestTemp := rfl
      tableTemps := rfl
      tables := fun _ => Or.inl rfl
      kept := fun _ _ _ => rfl
      issued := Nat.le_add_right _ 2
      counted := fun _ hl hc => by
        change s.env.nextId ≤ (s.rotate c resume).env.nextId ∧
          (s.rotate c resume).env.nextId ≤ s.env.issued + 1 + 1 + 1
        rw [hcount hl hc]
        exact ⟨Nat.le_add_right _ 2, Nat.add_le_add_right hc 2⟩
      claimed := fun _ hl hc id hid => by
        have hid' : id = s.env.nextId := by
          simpa [shared, rotate, Engine.claimed, Engine.rotate, Engine.setClient] using hid
        refine Or.inr ⟨hid'.ge, ?_⟩
        change id < (s.rotate c resume).env.nextId
        rw [hcount hl hc, hid']
        exact Nat.lt_succ_of_lt (Nat.lt_succ_self _) }

/-- A client may fetch ids, write its log, or freeze the memtable when none is frozen;
what the background thread relies on stays. -/
theorem byOthers_client (h : ClientStep opts s c s') : ByOthers D s s' := by
  rcases h.sameFrozen with ⟨hf, hz⟩ | ⟨himm, resume, rfl⟩
  · exact byOthers_of_same h.untouched hf hz
  · exact byOthers_rotate c resume himm

theorem byOthers_unlink {t : SSTable} (ht : t ∈ s.engine.obsolete) :
    ByOthers D s
      { s with
        env := { s.env with tables := s.env.tables.erase t.id }
        engine := { s.engine with obsolete := s.engine.obsolete.erase t } } where
  levels := rfl
  background := rfl
  frozen := fun _ _ => ⟨rfl, rfl, rfl⟩
  obsolete := fun id hid => by
    obtain ⟨u, hu, rfl⟩ := List.mem_map.mp hid
    exact List.mem_map_of_mem (List.mem_of_mem_erase hu)
  moved := fun obsolete hcovers =>
    { manifest := rfl
      manifestTemp := rfl
      tableTemps := rfl
      tables := fun id => by
        by_cases he : id = t.id
        · exact Or.inr (by rw [he]; exact AList.lookup_erase _ _)
        · exact Or.inl (AList.lookup_erase_ne he)
      kept := fun _ id hid => AList.lookup_erase_ne fun he =>
        hid (he ▸ hcovers t.id (List.mem_map_of_mem ht))
      issued := le_rfl
      counted := fun _ _ h => ⟨le_rfl, h⟩
      claimed := fun _ _ _ _ => Or.inl }

section Background

theorem promise_writeCompaction (work : Compaction) (hsettled : D → Settled s.env s.engine.levels)
    (hids : D → s.engine.tableIds s.env) (hl : Legal D s.shared) :
    ∃ obsolete, s.Promise D listing obsolete (fun x => D → Settled x.env s.engine.levels)
      (WriteResult D obsolete s.engine.levels opts work)
      (writeCompaction opts work) := by
  refine ⟨s.engine.obsoleteIds, ofBackground_writeCompaction _ _, fun _ hid => hid, ?_⟩
  refine guarded_writeCompaction opts work (fun hD => ?_) hl
  exact ⟨hsettled hD, (hids hD).kept, (hids hD).obsoleteBelow,
    fun id hid => ((hids hD).claimed id hid).below⟩

/-- A turn of the loop leaves the thread at rest, or begins a flush or a compaction whose
program keeps its promise from here on. -/
theorem backgroundInv_turn {e e' : Engine n} (turn : Engine.LoopTurn opts s.env e e')
    (hfail : opts.failAt = .none) (hshaped : ∀ l ∈ e.levels.tail, Levels.Shaped l)
    (hsettled : D → Settled s.env e.levels) (hids : D → e.tableIds s.env)
    (hl : Legal D s.shared) : BackgroundInv D opts listing { s with engine := e' } := by
  cases turn with
  | exit | sleep | halt | undefined => exact ⟨hshaped, hsettled, hids⟩
  | @flush table busy frozen =>
    refine ⟨hshaped, ⟨table, frozen, rfl, e.obsoleteIds, ?_, fun _ hid => hid, ?_⟩, hids⟩
    · exact ofBackground_buildTable _ _ _ _ _
    · refine guarded_buildTable hfail (fun hD => ?_) fun hD => ⟨hsettled hD, le_rfl⟩
      obtain ⟨n, hn, hc⟩ := (hsettled hD).committed
      obtain ⟨h₁, h₂, h₃, h₄, _⟩ := (hids hD).claimed e.immTableId (by simp [Engine.claimed, frozen])
      exact ⟨h₄, (hids hD).kept, h₃, h₁, h₂, fun t ht => (hc.below t ht).trans_le hn⟩
  | @compact work busy thawed pick =>
    obtain ⟨obsolete, hp⟩ := @promise_writeCompaction n D opts listing { s with engine := e } work
      hsettled hids hl
    exact ⟨hshaped, ⟨pickedFrom_of_pickStep pick, obsolete, hp.ops, hp.covers, hp.guarded⟩, hids⟩

def performed (s : System n) (listing : Listing) (o : Op) (pc : Background) : System n :=
  ({ s with env := (s.env.exec listing o).2 } : System n).setBackground pc

theorem Promise.performed {α : Type} {obsolete : List FileId} {I : Shared → Prop}
    {Q : α → Shared → Prop} {o : Op} {k : Res o → LsmIo α}
    (h : s.Promise D listing obsolete I Q (.op o k)) (hl : Legal D s.shared) (pc : Background)
    (hl' : Legal D (s.performed listing o pc).shared) :
    (s.performed listing o pc).Promise D listing obsolete I Q (k (s.env.exec listing o).1) where
  ops := h.ops.2 _
  covers := h.covers
  guarded := h.guarded.stepped OtherThreads.refl hl hl'

theorem BackgroundInv.performed {o : Op} (h : s.BackgroundInv D opts listing) (ho : o.ofBackground)
    {pc : Background} (hl : Legal D s.shared) (hl' : Legal D (s.performed listing o pc).shared)
    (hp : (s.performed listing o pc).BackgroundOk D opts listing pc) :
    (s.performed listing o pc).BackgroundInv D opts listing := by
  refine ⟨h.shaped, hp, fun hD => ?_⟩
  obtain ⟨_, hids, _⟩ := h.promise.point hD hl
  exact (h.ids hD).mono ((advances_exec listing ho s.env).nextId hids.counted (hl' hD))

variable {t : SSTable} {levels : Levels} {work : Compaction} {ids : List FileId} {run : CompactionRun}

theorem mem_tail_prependL0 {l : List SSTable} (h : l ∈ (prependL0 t levels).tail) : l ∈ levels.tail := by
  cases levels with
  | nil => simp [prependL0] at h
  | cons => exact h

theorem l0_prependL0 (t : SSTable) (levels : Levels) : (prependL0 t levels).l0 = t :: levels.l0 := by
  cases levels <;> rfl

theorem ids_prependL0 (t : SSTable) (levels : Levels) : (prependL0 t levels).ids = t.id :: levels.ids := by
  cases levels <;> simp [prependL0, Levels.ids]

theorem tableIds_flush {levels : Levels} {obsolete : List FileId} {nextId : FileId}
    {claimed : List FileId} (h : TableIds levels obsolete nextId claimed) {t : SSTable}
    (ht : t.id ∈ claimed) : TableIds (prependL0 t levels) obsolete nextId [] := by
  obtain ⟨_, _, hkept, hfresh, hnewest⟩ := h.claimed t.id ht
  refine ⟨?_, ?_, fun u hu => ?_, h.obsoleteBelow, by simp⟩
  · rw [ids_prependL0]
    refine List.nodup_cons.mpr ⟨fun hm => ?_, h.nodup⟩
    obtain ⟨u, hu, he⟩ := List.mem_map.mp hm
    exact hfresh u hu he
  · rw [l0_prependL0]
    exact List.pairwise_cons.mpr ⟨hnewest, h.l0⟩
  · rcases mem_prependL0.mp hu with rfl | hu
    · exact hkept
    · exact h.kept u hu

theorem map_fst_held {work : Compaction} {ids : List FileId}
    (hlen : ids.length = (outputFiles opts work).length) : (held opts work ids).map Prod.fst = ids :=
  List.map_fst_zip hlen.le

theorem mem_ids_of_mem_placed (ht : t ∈ LsmStore.placed (held opts work ids)) : t.id ∈ ids :=
  (List.of_mem_zip (mem_placed.mp ht)).1

section

variable (hlen : ids.length = (outputFiles opts work).length)
include hlen

theorem map_id_placed :
    (LsmStore.placed (held opts work ids)).map SSTable.id = ids := by
  rw [LsmStore.placed, List.map_map]
  exact map_fst_held hlen

theorem tableIds_rebuild {levels above deeper : Levels} {source target : List SSTable}
    {obsolete obsolete' claimed : List FileId} {env : Env} (h : TableIds levels obsolete env.nextId claimed)
    (hcut : Levels.Cut levels work.level above source target deeper)
    (hnodup : ids.Nodup)
    (hcovers : ∀ id ∈ obsolete, id ∈ obsolete')
    (hown : ∀ id ∈ ids, OwnId obsolete' levels ⟨env, claimed⟩ id) :
    TableIds (work.rebuild levels (LsmStore.placed (held opts work ids))) obsolete env.nextId
      claimed := by
  refine ⟨?_, h.l0.sublist (Compaction.l0_rebuild_sublist hcut), fun t ht hid => ?_, h.obsoleteBelow,
    fun id hid => ?_⟩
  · refine Compaction.nodup_ids_rebuild hcut h.nodup ((map_id_placed hlen).symm ▸ hnodup) ?_
    exact fun t ht o ho => (hown o.id (mem_ids_of_mem_placed ho)).fresh t ht
  · rcases Compaction.mem_rebuild hcut ht with ht | ht
    · exact h.kept t ht hid
    · exact (hown t.id (mem_ids_of_mem_placed ht)).kept (hcovers _ hid)
  · obtain ⟨h₁, h₂, h₃, h₄, h₅⟩ := h.claimed id hid
    refine ⟨h₁, h₂, h₃, fun t ht he => ?_, fun t ht =>
      h₅ t ((Compaction.l0_rebuild_sublist hcut).subset ht)⟩
    rcases Compaction.mem_rebuild hcut ht with ht | ht
    · exact h₄ t ht he
    · exact (hown t.id (mem_ids_of_mem_placed ht)).unclaimed (he ▸ hid)

theorem compactOnce_eq_placed (hout : (work.outputs opts).2 = none) (levels : Levels) :
    work.compactOnce opts levels ids = some (work.rebuild levels (LsmStore.placed (held opts work ids))) := by
  have hfiles : work.outputs opts = (outputFiles opts work, none) := Prod.ext rfl hout
  rw [Compaction.compactOnce, hfiles, LsmStore.placed, held, List.map_zip_eq_zipWith]
  exact if_pos hlen

theorem writes_placed (hout : (work.outputs opts).2 = none) : work.Writes (LsmStore.placed (held opts work ids)) := by
  rw [LsmStore.placed, held, List.map_zip_eq_zipWith]
  exact Compaction.writes_of_outputs (Prod.ext rfl hout) hlen

end

section

variable (h : s.BackgroundInv D opts listing)
include h

/-- A compaction that returns has replaced the tables of its pick by its outputs, as the
pure step on levels does, under ids that no table had. -/
theorem BackgroundInv.merged (hl : Legal D s.shared)
    (pc : s.engine.background = .committing run work (.ret (.ok levels))) :
    PickedFrom opts s.engine.levels work ∧ ∃ ids, ids.Nodup ∧
      (D → ∀ id ∈ ids, ∀ t ∈ s.engine.levels.flatten, t.id ≠ id) ∧
      work.compactOnce opts s.engine.levels ids = some levels := by
  have hp := h.promise
  rw [pc] at hp
  obtain ⟨hwork, hout, ids, _, hlen, hnodup, hfresh, hp⟩ := hp
  refine ⟨hwork, ids, hnodup, fun hD id hid => (hfresh hD id hid).2, ?_⟩
  rw [(hp.returned hl).1]
  exact compactOnce_eq_placed hlen hout _

theorem BackgroundInv.writes (hl : Legal D s.shared)
    (pc : s.engine.background = .committing run work (.ret (.ok levels))) :
    PickedFrom opts s.engine.levels work ∧ ∃ outs, work.Writes outs ∧ levels = work.rebuild s.engine.levels outs := by
  obtain ⟨hwork, ids, _, _, hmerged⟩ := h.merged hl pc
  exact ⟨hwork, Compaction.compactOnce_eq_some hmerged⟩

theorem BackgroundInv.install (hone : Levels.OneTablePerId s.engine.levels) (hl : Legal D s.shared) (pointer : List Key)
    (pc : s.engine.background = .committing run work (.ret (.ok levels))) :
    BackgroundInv D opts listing
      { s with engine := { s.engine with
        levels := levels
        current := levels
        compactPointer := pointer
        background := .marking ⟨run.force, run.steps + 1⟩ work } } := by
  have hp := h.promise
  rw [pc] at hp
  obtain ⟨⟨_, _, hwork⟩, hout, ids, obsolete, hlen, hnodup, _, hp⟩ := hp
  obtain ⟨rfl, hreplaced⟩ := hp.returned hl
  obtain ⟨above, source, target, deeper, hcut, hpicked⟩ := Levels.exists_picked h.shaped hwork
  have hw := writes_placed hlen hout
  refine ⟨Compaction.rebuild_shaped hone hcut hpicked hw h.shaped, fun hD => ?_, fun hD => ?_⟩
  · obtain ⟨_, _, _, m, hm, hbelow, _⟩ := h.promise.point hD hl
    refine ⟨(hreplaced hD).installed.settled, fun t ht => ?_⟩
    have hmem : t ∈ s.engine.levels.flatten :=
      (Compaction.mem_of_mem_tables hpicked ht).elim hcut.mem_source hcut.mem_target
    refine ⟨(hbelow t hmem).trans_le hm, fun hc => ((h.ids hD).claimed _ hc).fresh t hmem rfl,
      fun u hu => Compaction.retired_gone hcut hpicked (h.ids hD).nodup ?_ ht hu⟩
    exact fun t ht o ho => ((hreplaced hD).own o.id (mem_ids_of_mem_placed ho)).fresh t ht
  · exact tableIds_rebuild hlen (h.ids hD) hcut hnodup hp.covers (hreplaced hD).own

theorem BackgroundInv.mark (pc : s.engine.background = .marking run work) :
    BackgroundInv D opts listing
      { s with engine := { s.engine with
        obsolete := work.tables ++ s.engine.obsolete
        background := .finishing run } } := by
  have hp := h.promise
  rw [pc] at hp
  refine ⟨h.shaped, fun hD => (hp hD).1, fun hD => ?_⟩
  obtain ⟨hnodup, hl0, hkept, hobs, hclaimed⟩ := h.ids hD
  have hsplit : ∀ id ∈ Engine.obsoleteIds
      { s.engine with obsolete := work.tables ++ s.engine.obsolete, background := .finishing run },
      (∃ t ∈ work.tables, t.id = id) ∨ id ∈ s.engine.obsoleteIds := by
    intro id hid
    obtain ⟨t, ht, rfl⟩ := List.mem_map.mp hid
    rcases List.mem_append.mp ht with ht | ht
    · exact Or.inl ⟨t, ht, rfl⟩
    · exact Or.inr (List.mem_map_of_mem ht)
  refine ⟨hnodup, hl0, fun u hu hid => ?_, fun id hid => ?_, fun id hid => ?_⟩
  · rcases hsplit _ hid with ⟨t, ht, he⟩ | hid
    · exact ((hp hD).2 t ht).2.2 u hu he.symm
    · exact hkept u hu hid
  · rcases hsplit _ hid with ⟨t, ht, rfl⟩ | hid
    · exact ((hp hD).2 t ht).1
    · exact hobs id hid
  · obtain ⟨h₁, h₂, h₃, h₄, h₅⟩ := hclaimed id hid
    refine ⟨h₁, h₂, fun hid' => ?_, h₄, h₅⟩
    rcases hsplit _ hid' with ⟨t, ht, rfl⟩ | hid'
    · exact ((hp hD).2 t ht).2.1 hid
    · exact h₃ hid'

/-- One step of the thread keeps the invariant. An operation of a program advances its
promise; a program that returns is followed by what its result allows: the next program
of the compaction, the change to the engine under the lock, or a turn of the loop. -/
theorem BackgroundInv.background (hfail : opts.failAt = .none)
    (hone : Levels.OneTablePerId s.engine.levels) (hl : Legal D s.shared) (hl' : Legal D s'.shared)
    (hstep : BackgroundStep opts listing s s') : s'.BackgroundInv D opts listing := by
  have hp := h.promise
  cases hstep with
  | turn pc next | flushEnded pc next | runEnded pc _ next | runExhausted pc next =>
    rw [pc] at hp
    exact backgroundInv_turn next hfail h.shaped hp h.ids hl
  | flushOp pc =>
    rw [pc] at hp
    obtain ⟨table, himm, hwal, obsolete, hp⟩ := hp
    exact h.performed hp.ops.1 hl hl' ⟨table, himm, hwal, obsolete, hp.performed hl _ hl'⟩
  | flushFailed pc next =>
    rw [pc] at hp
    obtain ⟨table, himm, hwal, obsolete, hp⟩ := hp
    exact backgroundInv_turn next hfail h.shaped (fun hD => (hp.returned hl hD).1) h.ids hl
  | flushInstalled pc =>
    rw [pc] at hp
    obtain ⟨table, himm, hwal, obsolete, hp⟩ := hp
    obtain ⟨f, _, rfl, hsettled⟩ := hp.returned hl
    refine ⟨fun l hl => h.shaped l (mem_tail_prependL0 hl), hsettled, fun hD => ?_⟩
    exact tableIds_flush (h.ids hD) (by simp [Engine.claimed, himm])
  | retire pc =>
    rw [pc] at hp
    exact ⟨h.shaped, fun hD => (hp hD).congr rfl rfl rfl rfl, h.ids⟩
  | compactOp pc =>
    rw [pc] at hp
    obtain ⟨hwork, obsolete, hp⟩ := hp
    exact h.performed hp.ops.1 hl hl' ⟨hwork, obsolete, hp.performed hl _ hl'⟩
  | written pc =>
    rw [pc] at hp
    obtain ⟨hwork, obsolete, hp⟩ := hp
    obtain ⟨hout, hlen, hwritten⟩ := hp.returned hl
    refine ⟨h.shaped, ⟨hwork, hout, hlen, obsolete, ?_, hp.covers, ?_⟩, h.ids⟩
    · exact ofBackground_renameOutputs _
    · exact guarded_renameOutputs hwritten.rename (map_fst_held hlen)
  | renameOp pc =>
    rw [pc] at hp
    obtain ⟨hwork, hout, hlen, obsolete, hp⟩ := hp
    exact h.performed hp.ops.1 hl hl' ⟨hwork, hout, hlen, obsolete, hp.performed hl _ hl'⟩
  | @renamed run work ids pc =>
    rw [pc] at hp
    obtain ⟨⟨p, f, hwork⟩, hout, hlen, obsolete, hp⟩ := hp
    have hrenamed := hp.returned hl
    obtain ⟨_, _, _, _, hcut, _⟩ := Levels.exists_picked h.shaped hwork
    have hnodup := hrenamed.nodup
    rw [map_fst_held hlen] at hnodup
    have hfresh : D → ∀ id ∈ ids, id ∉ s.engine.obsoleteIds ∧ ∀ t ∈ s.engine.levels.flatten, t.id ≠ id := by
      intro hD id hid
      have hown := (hrenamed.own hD).own
      rw [List.append_nil, map_fst_held hlen] at hown
      exact ⟨fun hobsolete => (hown id hid).kept (hp.covers id hobsolete), (hown id hid).fresh⟩
    refine ⟨h.shaped, ⟨⟨p, f, hwork⟩, hout, ids, obsolete, hlen, hnodup, hfresh, ?_, hp.covers, ?_⟩,
      h.ids⟩
    · exact ofBackground_commitCompaction _ _ _
    · exact guarded_commitCompaction (fun outs t ht => Compaction.mem_rebuild hcut ht)
        hrenamed (map_fst_held hlen) hl
  | commitOp pc =>
    rw [pc] at hp
    obtain ⟨hwork, hout, ids, obsolete, hlen, hnodup, hfresh, hp⟩ := hp
    exact h.performed hp.ops.1 hl hl'
      ⟨hwork, hout, ids, obsolete, hlen, hnodup, hfresh, hp.performed hl _ hl'⟩
  | compactFailed pc next =>
    refine backgroundInv_turn next hfail h.shaped ?_ h.ids hl
    rcases pc with pc | ⟨_, pc⟩ | pc <;> rw [pc] at hp
    · obtain ⟨_, _, hp⟩ := hp
      exact (hp.returned hl).2
    · obtain ⟨_, _, _, _, hp⟩ := hp
      exact fun hD => absurd hD (hp.returned hl)
    · obtain ⟨_, _, _, _, _, _, _, hp⟩ := hp
      exact fun hD => absurd hD (hp.returned hl)
  | installed pc => exact h.install hone hl _ pc
  | mark pc => exact h.mark pc
  | nextUndefined pc =>
    rw [pc] at hp
    exact ⟨h.shaped, hp, h.ids⟩
  | nextWork pc forced pick =>
    rw [pc] at hp
    exact ⟨h.shaped, ⟨pickedFrom_of_pickStep pick, promise_writeCompaction _ hp h.ids hl⟩, h.ids⟩

/-- Every action keeps the invariant, those of the other threads as moves it relies on. -/
theorem BackgroundInv.step (hfail : opts.failAt = .none)
    (hone : Levels.OneTablePerId s.engine.levels) (hl : Legal D s.shared) (hl' : Legal D s'.shared)
    {a : Action n} (hstep : Step opts listing s a s') : s'.BackgroundInv D opts listing := by
  cases hstep with
  | call =>
    exact (h.moved (byOthers_note _) hl hl).moved (byOthers_enter (enter_cases _ _ _)) hl hl'
  | client next => exact h.moved (byOthers_client next) hl hl'
  | background next => exact h.background hfail hone hl hl' next
  | unlink ho => exact h.moved (byOthers_unlink ho) hl hl'
  | stop =>
    exact h.moved
      ⟨rfl, rfl, fun _ _ => ⟨rfl, rfl, rfl⟩, fun _ hid => hid, fun _ _ => OtherThreads.refl _⟩ hl hl'

end

end Background

end KVStore.System
