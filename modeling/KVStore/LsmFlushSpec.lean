import KVStore.LsmIoSpec

namespace KVStore.LsmStore

open Lib CrashProgram

variable {listing : Listing} {D : Prop} {obsolete : List FileId} {opts : LsmOptions}
  {entries : List Entry} {id nextId : FileId} {base : Levels} {s : Shared} {f : TableFile}

def flushed (opts : LsmOptions) (entries : List Entry) (id : FileId) (base : Levels) : Levels :=
  match buildTable opts.blockSize opts.bitsPerKey entries with
  | .ok f => prependL0 ⟨id, f⟩ base
  | .error _ => base

/-- What has to hold of the id a flush uses and of the counter it commits. -/
structure FlushIds (obsolete : List FileId) (base : Levels) (id nextId : FileId) : Prop where
  fresh : ∀ t ∈ base.flatten, t.id ≠ id
  kept : ∀ t ∈ base.flatten, t.id ∉ obsolete
  idKept : id ∉ obsolete
  positive : 1 ≤ id
  idBelow : id < nextId
  below : ∀ t ∈ base.flatten, t.id < nextId

def FlushResult (D : Prop) (opts : LsmOptions) (entries : List Entry) (id : FileId) (base : Levels) :
    Except Failure Levels → Shared → Prop
  | .error _, s => D → Settled s.env base ∧
      ∃ refusal, buildTable opts.blockSize opts.bitsPerKey entries = .error refusal
  | .ok levels, s => ∃ f, buildTable opts.blockSize opts.bitsPerKey entries = .ok f ∧
      levels = prependL0 ⟨id, f⟩ base ∧ (D → Settled s.env levels)

theorem mem_prependL0 {t s : SSTable} {levels : Levels} :
    s ∈ (prependL0 t levels).flatten ↔ s = t ∨ s ∈ levels.flatten := by
  cases levels <;> simp [prependL0]

theorem entries_prependL0 (id : FileId) (f : TableFile) (levels : Levels) :
    Levels.entries (prependL0 ⟨id, f⟩ levels) = f.entries ++ levels.entries := by
  cases levels <;> simp [prependL0, SSTable.entries]

def Uncommitted (D : Prop) (base : Levels) (nextId : FileId) (s : Shared) : Prop :=
  D → Settled s.env base ∧ nextId ≤ s.env.nextId

def Placed (D : Prop) (base : Levels) (nextId id : FileId) (f : TableFile) (s : Shared) : Prop :=
  Uncommitted D base nextId s ∧ (s.env.tables.lookup id = some f ∨ s.env.tables.lookup id = none) ∧
    (D → s.env.tables.lookup id = some f)

theorem stable_uncommitted (hids : D → FlushIds obsolete base id nextId) :
    Stable D obsolete (Uncommitted D base nextId) :=
  stable_settled_nextId nextId fun hD => (hids hD).kept

theorem stable_placed (hids : D → FlushIds obsolete base id nextId) (f : TableFile) :
    Stable D obsolete (Placed D base nextId id f) :=
  (stable_uncommitted hids).and ((stable_table id f).and (stable_kept f fun hD => (hids hD).idKept))

theorem Uncommitted.withTemps (h : Uncommitted D base nextId s)
    (temps : AList fun _ : FileId => Option TableFile) :
    Uncommitted D base nextId ⟨{ s.env with tableTemps := temps }, s.claimed⟩ :=
  fun hD => ⟨(h hD).1.congr rfl rfl rfl rfl, (h hD).2⟩

theorem Uncommitted.place (h : Uncommitted D base nextId s)
    (hids : D → FlushIds obsolete base id nextId) (f : TableFile)
    (temps : AList fun _ : FileId => Option TableFile) :
    Placed D base nextId id f
      ⟨{ s.env with tables := s.env.tables.insert id f, tableTemps := temps }, s.claimed⟩ := by
  refine ⟨fun hD => ⟨?_, (h hD).2⟩, Or.inl (AList.lookup_insert _), fun _ => AList.lookup_insert _⟩
  exact (h hD).1.insertTable f _ (hids hD).fresh (hids hD).positive
    ((hids hD).idBelow.trans_le (h hD).2)

theorem Placed.install (h : Placed D base nextId id f s) (hids : FlushIds obsolete base id nextId) (hD : D) :
    Installed { s.env with
        manifest := some (levelSetOf (prependL0 ⟨id, f⟩ base) nextId), manifestTemp := none }
      base (prependL0 ⟨id, f⟩ base) := by
  refine (h.1 hD).1.install (h.1 hD).2 hids.below (fun t ht => ?_) (fun t ht => ?_)
    (hids.positive.trans hids.idBelow.le)
  · rcases mem_prependL0.mp ht with rfl | ht
    · exact h.2.2 hD
    · obtain ⟨_, _, hc⟩ := (h.1 hD).1.committed
      exact hc.files t ht
  · rcases mem_prependL0.mp ht with rfl | ht
    · exact hids.idBelow
    · exact hids.below t ht

theorem guarded_commitFlush (hb : buildTable opts.blockSize opts.bitsPerKey entries = .ok f)
    (hids : D → FlushIds obsolete base id nextId) (hs : Placed D base nextId id f s) (hl : Legal D s) :
    Protected listing D obsolete
      (fun s => D → InstallPoint s.env base (flushed opts entries id base))
      (FlushResult D opts entries id base)
      (LsmIo.andThen (commitManifest (prependL0 ⟨id, f⟩ base) nextId) fun _ =>
        .ret (.ok (prependL0 ⟨id, f⟩ base))) s := by
  let next := prependL0 ⟨id, f⟩ base
  have hnext : flushed opts entries id base = next := by simp [flushed, hb, next]
  have hkept : D → ∀ t ∈ next.flatten, t.id ∉ obsolete := by
    intro hD t ht
    rcases mem_prependL0.mp ht with rfl | ht
    · exact (hids hD).idKept
    · exact (hids hD).kept t ht
  have hstable : Stable D obsolete fun s => D → Installed s.env base next :=
    stable_installed (fun hD => (hids hD).kept) hkept
  have hbefore : ∀ s, Placed D base nextId id f s → D → InstallPoint s.env base
      (flushed opts entries id base) := fun s hs hD => (hs.1 hD).1.installPoint _
  have hafter : ∀ s : Shared, (D → Installed s.env base next) → D → InstallPoint s.env base
      (flushed opts entries id base) := fun s hs hD => hnext ▸ (hs hD).installPoint
  refine guarded_andThen (Q := fun r s => r = .ok () ∧ (D → Installed s.env base next))
    (guarded_commitManifest _ _ hs (stable_placed hids f) hstable hbefore hafter ?_
      (fun s hs hD => hs.install (hids hD) hD) fun s hs => ⟨rfl, hs⟩)
    hl (fun e s he => by cases he.1) fun _ s hs _ => ?_
  · exact fun s m hs => ⟨fun hD => ⟨(hs.1 hD).1.congr rfl rfl rfl rfl, (hs.1 hD).2⟩, hs.2⟩
  · exact guarded_ret _ hs.2 hstable hafter fun s hs => ⟨f, hb, rfl, fun hD => (hs hD).settled⟩

theorem guarded_buildTable (hfail : opts.failAt = .none)
    (hids : D → FlushIds obsolete base id nextId) (hready : Uncommitted D base nextId s) :
    Protected listing D obsolete
      (fun s => D → InstallPoint s.env base (flushed opts entries id base))
      (FlushResult D opts entries id base) (buildTableUnlocked opts entries id base nextId) s := by
  have hstable := stable_uncommitted hids
  have hI : ∀ s, Uncommitted D base nextId s → D → InstallPoint s.env base
      (flushed opts entries id base) := fun s hs hD => (hs hD).1.installPoint _
  refine guarded_op _ hready hstable hI fun s hs _ => ?_
  refine guarded_op _ (hs.withTemps _) hstable hI fun s hs _ => ?_
  cases hb : buildTable opts.blockSize opts.bitsPerKey entries with
  | error e => exact guarded_ret _ (hs.withTemps _) hstable hI fun s hs hD => ⟨(hs hD).1, e, hb⟩
  | ok f =>
    refine guarded_op _ (hs.withTemps _) hstable hI fun s hs _ => ?_
    rw [if_neg (by simp [hfail])]
    have hwritten : Stable D obsolete fun s => s.env.tableTemps.lookup id = some (some f) :=
      stable_tableTemps fun temps => temps.lookup id = some (some f)
    refine guarded_op (fun s => Uncommitted D base nextId s ∧ s.env.tableTemps.lookup id = some (some f))
      ⟨hs.withTemps _, AList.lookup_insert _⟩ (hstable.and hwritten) (fun s hs => hI s hs.1)
      fun s hs _ => ?_
    have hrename : (sharedMachine listing).exec (.renameTable id) s = (true, ⟨{ s.env with
        tables := s.env.tables.insert id f, tableTemps := s.env.tableTemps.erase id },
        s.claimed⟩) := by
      simp [sharedMachine, Env.exec, Env.renameTable, hs.2]
    rw [hrename, if_neg (by simp)]
    refine guarded_op _ (hs.1.place hids f _) (stable_placed hids f) (fun s hs => hI s hs.1)
      fun s hs hl => ?_
    have hopen : (sharedMachine listing).exec (.openTable id) s = (s.env.tables.lookup id, s) := rfl
    rw [hopen]
    rcases hs.2.1 with hfile | hfile
    · rw [hfile]
      dsimp only
      rw [if_neg (by simp [hfail])]
      exact guarded_commitFlush hb hids hs hl
    · rw [hfile]
      refine guarded_ret (fun s => Placed D base nextId id f s ∧ ¬ D) ⟨hs, fun hD => ?_⟩
        (fun a b hr hl hp => ⟨stable_placed hids f a b hr hl hp.1, hp.2⟩)
        (fun s hs => hI s hs.1.1) fun s hs hD => absurd hD hs.2
      cases hfile.symm.trans (hs.2.2 hD)

end KVStore.LsmStore
