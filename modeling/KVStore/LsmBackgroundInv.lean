import KVStore.LsmFrame
import KVStore.LsmFlushSpec
import KVStore.LsmCompactionSpec
import KVStore.LsmThreadOps
import KVStore.RebuildTables

namespace KVStore

open Lib CrashProgram

structure ClaimedId (levels : Levels) (obsolete : List FileId) (nextId id : FileId) : Prop where
  positive : 1 ≤ id
  below : id < nextId
  kept : id ∉ obsolete
  fresh : ∀ t ∈ levels.flatten, t.id ≠ id
  newest : ∀ t ∈ levels.l0, t.id < id

/-- How the table ids in use lie: L0 newest first, none twice, none obsolete. -/
structure TableIds (levels : Levels) (obsolete : List FileId) (nextId : FileId)
    (claimed : List FileId) : Prop where
  nodup : levels.ids.Nodup
  l0 : levels.l0.Pairwise fun a b => b.id < a.id
  kept : ∀ t ∈ levels.flatten, t.id ∉ obsolete
  obsoleteBelow : ∀ id ∈ obsolete, id < nextId
  claimed : ∀ id ∈ claimed, ClaimedId levels obsolete nextId id

theorem TableIds.mono {levels : Levels} {obsolete claimed : List FileId} {m m' : FileId}
    (h : TableIds levels obsolete m claimed) (hm : m ≤ m') : TableIds levels obsolete m' claimed :=
  ⟨h.nodup, h.l0, h.kept, fun id hid => (h.obsoleteBelow id hid).trans_le hm, fun id hid =>
    have hc := h.claimed id hid
    ⟨hc.positive, hc.below.trans_le hm, hc.kept, hc.fresh, hc.newest⟩⟩

namespace Engine

variable {n : Nat}

def claimed (e : Engine n) : List FileId := (e.imm.map fun _ => e.immTableId).toList

def obsoleteIds (e : Engine n) : List FileId := e.obsolete.map SSTable.id

theorem SameFrozen.claimed_eq {e e' : Engine n} (h : e.SameFrozen e') : e'.claimed = e.claimed := by
  unfold claimed
  rw [h.imm, h.immTableId]

def tableIds (env : Env) (e : Engine n) : Prop :=
  TableIds e.levels e.obsoleteIds env.nextId e.claimed

end Engine

namespace System

variable {n : Nat} {pc : Background}

def shared (s : System n) : Shared := ⟨s.env, s.engine.claimed⟩

/-- The rest of a program of the background thread does what it set out to do,
whatever the clients do. -/
structure Promise (D : Prop) (listing : Listing) (s : System n) {α : Type}
    (obsolete : List FileId) (I : Shared → Prop) (Q : α → Shared → Prop) (io : LsmIo α) : Prop where
  ops : io.All Op.ofBackground
  covers : ∀ id ∈ s.engine.obsoleteIds, id ∈ obsolete
  guarded : Guarded (sharedMachine listing) (OtherThreads D obsolete) (Legal D) I Q io s.shared

section Promise

variable {D : Prop} {listing : Listing} {s : System n} {α : Type} {obsolete : List FileId} {I : Shared → Prop}
  {Q : α → Shared → Prop}

theorem Promise.now {io : LsmIo α} (h : s.Promise D listing obsolete I Q io) (hl : Legal D s.shared) : I s.shared :=
  h.guarded.now OtherThreads.refl hl

theorem Promise.returned {a : α} (h : s.Promise D listing obsolete I Q (.ret a)) (hl : Legal D s.shared) :
    Q a s.shared :=
  h.guarded.returned OtherThreads.refl hl

end Promise

def PickedFrom (opts : LsmOptions) (levels : Levels) (work : Compaction) : Prop :=
  ∃ compactPointer force, Levels.pickCompaction opts levels compactPointer force = .work work

theorem pickedFrom_of_pickStep {opts : LsmOptions} {e : Engine n} {force : Bool} {work : Compaction}
    (h : e.pickStep opts force = .work work) : PickedFrom opts e.levels work := by
  unfold Engine.pickStep at h
  split at h
  · split_ifs at h
    exact ⟨_, true, h⟩
  next hp => exact ⟨_, false, h⟩

def held (opts : LsmOptions) (work : Compaction) (ids : List FileId) : List (FileId × TableFile) :=
  ids.zip (LsmStore.outputFiles opts work)

/-- What holds at each place the background thread can be. -/
def BackgroundOk (D : Prop) (opts : LsmOptions) (listing : Listing) (s : System n) :
    Background → Prop
  | .flushing wal io => ∃ table, s.engine.imm = some table ∧ wal = s.engine.immWalId ∧ ∃ obsolete,
      s.Promise D listing obsolete
        (fun x => D → InstallPoint x.env s.engine.levels
          (LsmStore.flushed opts table.map s.engine.immTableId s.engine.levels))
        (LsmStore.FlushResult D opts table.map s.engine.immTableId s.engine.levels) io
  | .compacting _ work io => PickedFrom opts s.engine.levels work ∧ ∃ obsolete,
      s.Promise D listing obsolete (fun x => D → Settled x.env s.engine.levels)
        (LsmStore.WriteResult D obsolete s.engine.levels opts work) io
  | .renamingOutputs _ work ids io => PickedFrom opts s.engine.levels work ∧
      (work.outputs opts).2 = none ∧ ids.length = (LsmStore.outputFiles opts work).length ∧
      ∃ obsolete, s.Promise D listing obsolete (fun x => D → Settled x.env s.engine.levels)
        (LsmStore.RenameResult D obsolete s.engine.levels (held opts work ids)) io
  | .committing _ work io => PickedFrom opts s.engine.levels work ∧
      (work.outputs opts).2 = none ∧ ∃ ids obsolete,
      ids.length = (LsmStore.outputFiles opts work).length ∧ ids.Nodup ∧
      (D → ∀ id ∈ ids, id ∉ s.engine.obsoleteIds ∧ ∀ t ∈ s.engine.levels.flatten, t.id ≠ id) ∧
      s.Promise D listing obsolete
        (fun x => D → InstallPoint x.env s.engine.levels
          (work.rebuild s.engine.levels (LsmStore.placed (held opts work ids))))
        (LsmStore.CommitResult D obsolete s.engine.levels
          (work.rebuild s.engine.levels (LsmStore.placed (held opts work ids))) ids) io
  | .marking _ work => D → Settled s.env s.engine.levels ∧ ∀ t ∈ work.tables,
      t.id < s.env.nextId ∧ t.id ∉ s.engine.claimed ∧ ∀ u ∈ s.engine.levels.flatten, u.id ≠ t.id
  | _ => D → Settled s.env s.engine.levels

structure BackgroundInv (D : Prop) (opts : LsmOptions) (listing : Listing) (s : System n) : Prop where
  shaped : ∀ l ∈ s.engine.levels.tail, Levels.Shaped l
  promise : s.BackgroundOk D opts listing s.engine.background
  ids : D → s.engine.tableIds s.env

variable {D : Prop} {opts : LsmOptions} {listing : Listing} {s s' : System n}

theorem BackgroundOk.settled (h : s.BackgroundOk D opts listing pc) (hD : D) (hl : Legal D s.shared)
    (hflush : ∀ wal io, pc ≠ .flushing wal io) (hcommit : ∀ run work io, pc ≠ .committing run work io) :
    Settled s.env s.engine.levels := by
  cases pc with
  | flushing wal io => exact absurd rfl (hflush wal io)
  | committing run work io => exact absurd rfl (hcommit run work io)
  | compacting =>
    obtain ⟨_, obsolete, hp⟩ := h
    exact hp.now hl hD
  | renamingOutputs =>
    obtain ⟨_, _, _, obsolete, hp⟩ := h
    exact hp.now hl hD
  | marking => exact (h hD).1
  | _ => exact h hD

theorem BackgroundOk.point (h : s.BackgroundOk D opts listing pc) (hD : D)
    (hl : Legal D s.shared) : ∃ next, InstallPoint s.env s.engine.levels next := by
  cases pc with
  | flushing =>
    obtain ⟨table, _, _, obsolete, hp⟩ := h
    exact ⟨_, hp.now hl hD⟩
  | committing =>
    obtain ⟨_, _, ids, obsolete, _, _, _, hp⟩ := h
    exact ⟨_, hp.now hl hD⟩
  | _ =>
    exact ⟨[], (h.settled hD hl nofun nofun).installPoint _⟩

def nextOp (s : System n) : Option Op :=
  match s.engine.background with
  | .flushing _ (.op o _) => some o
  | .compacting _ _ (.op o _) => some o
  | .renamingOutputs _ _ _ (.op o _) => some o
  | .committing _ _ (.op o _) => some o
  | _ => none

theorem BackgroundInv.ofBackground (h : s.BackgroundInv D opts listing) {o : Op} (ho : s.nextOp = some o) :
    o.ofBackground := by
  have hpromise := h.promise
  unfold nextOp at ho
  split at ho <;> cases ho
  all_goals
    rename_i pc
    rw [pc] at hpromise
  · obtain ⟨_, _, _, _, hp⟩ := hpromise
    exact hp.ops.1
  · obtain ⟨_, _, hp⟩ := hpromise
    exact hp.ops.1
  · obtain ⟨_, _, _, _, hp⟩ := hpromise
    exact hp.ops.1
  · obtain ⟨_, _, _, _, _, _, _, hp⟩ := hpromise
    exact hp.ops.1

theorem BackgroundInv.nextId_le (h : s.BackgroundInv True opts listing) {o : Op} (ho : s.nextOp = some o)
    (hl : Legal True s.shared) (hl' : (s.env.exec listing o).2.issued < idLimit) :
    s.env.nextId ≤ (s.env.exec listing o).2.nextId := by
  obtain ⟨_, hids, _⟩ := h.promise.point trivial hl
  exact (advances_exec listing (h.ofBackground ho) s.env).nextId hids.counted hl'

/-- What the other threads leave alone, and how they move the rest. -/
structure ByOthers (D : Prop) (s s' : System n) : Prop where
  levels : s'.engine.levels = s.engine.levels
  background : s'.engine.background = s.engine.background
  frozen : ∀ table, s.engine.imm = some table → s.engine.SameFrozen s'.engine
  obsolete : ∀ id ∈ s'.engine.obsoleteIds, id ∈ s.engine.obsoleteIds
  moved : ∀ obsolete, (∀ id ∈ s.engine.obsoleteIds, id ∈ obsolete) →
    OtherThreads D obsolete s.shared s'.shared

theorem Promise.moved {α : Type} {obsolete : List FileId} {I : Shared → Prop}
    {Q : α → Shared → Prop} {io : LsmIo α} (h : s.Promise D listing obsolete I Q io)
    (ho : ByOthers D s s') : s'.Promise D listing obsolete I Q io where
  ops := h.ops
  covers := fun id hid => h.covers id (ho.obsolete id hid)
  guarded := h.guarded.stable (fun _ _ _ h₁ h₂ => h₁.trans h₂) (ho.moved obsolete h.covers)

theorem ByOthers.settled (ho : ByOthers D s s') (hD : D) (hl : Legal D s'.shared)
    (hids : s.engine.tableIds s.env) (h : Settled s.env s.engine.levels) :
    Settled s'.env s'.engine.levels := by
  obtain ⟨hi, n, hn, hc⟩ := h
  have hm := ho.moved _ fun _ hid => hid
  rw [ho.levels]
  exact ⟨hm.idsBelow hD (hl hD) hi, n, hn.trans (hm.nextId_le hD (hl hD) hi),
    hm.committed hD hids.kept hc⟩

theorem BackgroundOk.moved (h : s.BackgroundOk D opts listing pc)
    (ho : ByOthers D s s') (hl : Legal D s'.shared) (hids : D → s.engine.tableIds s.env) :
    s'.BackgroundOk D opts listing pc := by
  cases pc with
  | flushing =>
    obtain ⟨table, himm, hwal, obsolete, hp⟩ := h
    have hsame := ho.frozen table himm
    refine ⟨table, hsame.imm.trans himm, hwal.trans hsame.immWalId.symm, obsolete, ?_⟩
    rw [ho.levels, hsame.immTableId]
    exact hp.moved ho
  | compacting =>
    obtain ⟨hwork, obsolete, hp⟩ := h
    refine ⟨ho.levels.symm ▸ hwork, obsolete, ?_⟩
    rw [ho.levels]
    exact hp.moved ho
  | renamingOutputs =>
    obtain ⟨hwork, hout, hlen, obsolete, hp⟩ := h
    refine ⟨ho.levels.symm ▸ hwork, hout, hlen, obsolete, ?_⟩
    rw [ho.levels]
    exact hp.moved ho
  | committing =>
    obtain ⟨hwork, hout, ids, obsolete, hlen, hnodup, hfresh, hp⟩ := h
    refine ⟨ho.levels.symm ▸ hwork, hout, ids, obsolete, hlen, hnodup, fun hD id hid => ?_, ?_⟩ <;> rw [ho.levels]
    · exact ⟨fun hobsolete => (hfresh hD id hid).1 (ho.obsolete id hobsolete), (hfresh hD id hid).2⟩
    · exact hp.moved ho
  | marking =>
    intro hD
    obtain ⟨hsettled, htables⟩ := h hD
    have hm := ho.moved _ fun _ hid => hid
    refine ⟨ho.settled hD hl (hids hD) hsettled, fun t ht => ?_⟩
    obtain ⟨hlt, hun, hgone⟩ := htables t ht
    refine ⟨hlt.trans_le (hm.nextId_le hD (hl hD) hsettled.ids), fun hc => ?_, ho.levels ▸ hgone⟩
    rcases hm.claimed hD (hl hD) hsettled.ids.counted t.id hc with hc | ⟨hge, _⟩
    · exact hun hc
    · exact absurd hlt (not_lt_of_ge hge)
  | _ =>
    exact fun hD => ho.settled hD hl (hids hD) (h hD)

theorem BackgroundInv.moved (h : s.BackgroundInv D opts listing) (ho : ByOthers D s s')
    (hl : Legal D s.shared) (hl' : Legal D s'.shared) : s'.BackgroundInv D opts listing := by
  refine ⟨ho.levels ▸ h.shaped, ?_, fun hD => ?_⟩
  · rw [ho.background]
    exact h.promise.moved ho hl' h.ids
  · obtain ⟨next, hids, _, m, hm, hbelow, _⟩ := h.promise.point hD hl
    have hmoved := ho.moved _ fun _ hid => hid
    have hle := hmoved.nextId_le hD (hl' hD) hids
    obtain ⟨hnodup, hl0, hkept, hobs, hclaimed⟩ := h.ids hD
    have hlevels : ∀ t ∈ s.engine.levels.flatten, t.id < s.env.nextId :=
      fun t ht => (hbelow t ht).trans_le hm
    unfold Engine.tableIds
    rw [ho.levels]
    refine ⟨hnodup, hl0, fun t ht hid => hkept t ht (ho.obsolete _ hid),
      fun id hid => (hobs id (ho.obsolete id hid)).trans_le hle, fun id hid => ?_⟩
    rcases hmoved.claimed hD (hl' hD) hids.counted id hid with hid | ⟨hge, hlt⟩
    · obtain ⟨h₁, h₂, h₃, h₄, h₅⟩ := hclaimed id hid
      exact ⟨h₁, h₂.trans_le hle, fun hid => h₃ (ho.obsolete _ hid), h₄, h₅⟩
    · exact ⟨hids.positive.trans hge, hlt,
        fun hid => absurd (hobs id (ho.obsolete _ hid)) (not_lt_of_ge hge),
        fun t ht => ((hlevels t ht).trans_le hge).ne,
        fun t ht => (hlevels t (Levels.mem_l0 ht)).trans_le hge⟩

end System

end KVStore
