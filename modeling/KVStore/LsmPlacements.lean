import KVStore.LsmLife
import KVStore.LsmLifetimes

namespace KVStore

open Lib CrashProgram

/-- How a program of the background thread deals with ids. It puts only tables into place
whose ids it holds, each of them once; the ids it holds are those it begins with and those it
takes from the counter. No manifest that it commits has a counter below `b`; `ours` says that
the manifest's temp file is one of its own. -/
def Careful {α : Type} (b : FileId) (Q : α → List FileId → Prop) : Bool → List FileId → LsmIo α → Prop
  | _, held, .ret a => Q a held
  | ours, held, .op o k =>
    match o with
    | .fetchNextId => ∀ id, Careful b Q ours (held ++ [id]) (k id)
    | .loadNextId => ∀ id, b ≤ id → Careful b Q ours held (k id)
    | .renameTable id => id ∈ held ∧ ∀ r, Careful b Q ours (held.erase id) (k r)
    | .writeManifestTemp set => b ≤ set.nextId ∧ ∀ r, Careful b Q true held (k r)
    | .renameManifest => ours = true ∧ ∀ r, Careful b Q ours held (k r)
    | _ => ∀ r, Careful b Q ours held (k r)

/-- The ids that a program holds once it has done an operation. -/
def Op.heldAfter (env : Env) (held : List FileId) : Op → List FileId
  | .fetchNextId => held ++ [env.nextId]
  | .renameTable id => held.erase id
  | _ => held

def Op.oursAfter (ours : Bool) : Op → Bool
  | .writeManifestTemp _ => true
  | _ => ours

/-- What a careful program answers for at an operation. -/
structure Op.Careful (b : FileId) (ours : Bool) (held : List FileId) (o : Op) : Prop where
  place : ∀ id, o = .renameTable id → id ∈ held
  write : ∀ set, o = .writeManifestTemp set → b ≤ set.nextId
  commit : o = .renameManifest → ours = true

section Careful

variable {α β : Type} {b nextId : FileId} {ours : Bool} {held : List FileId} {Q : α → List FileId → Prop}

theorem Careful.next {o : Op} {k : Res o → LsmIo α} (h : Careful b Q ours held (.op o k)) (listing : Listing)
    {env : Env} (hb : b ≤ env.nextId) :
    o.Careful b ours held ∧
      Careful b Q (o.oursAfter ours) (o.heldAfter env held) (k (env.exec listing o).1) := by
  cases o with
  | fetchNextId => exact ⟨⟨nofun, nofun, nofun⟩, h _⟩
  | loadNextId => exact ⟨⟨nofun, nofun, nofun⟩, h _ hb⟩
  | renameTable =>
    refine ⟨⟨fun id hid => ?_, nofun, nofun⟩, h.2 _⟩
    cases hid
    exact h.1
  | writeManifestTemp =>
    refine ⟨⟨nofun, fun set hset => ?_, nofun⟩, h.2 _⟩
    cases hset
    exact h.1
  | renameManifest => exact ⟨⟨nofun, nofun, fun _ => h.1⟩, h.2 _⟩
  | _ => exact ⟨⟨nofun, nofun, nofun⟩, h _⟩

theorem Op.mem_heldAfter {env : Env} {o : Op} {id : FileId} (h : id ∈ o.heldAfter env held) :
    id ∈ held ∨ o = .fetchNextId ∧ id = env.nextId := by
  cases o with
  | fetchNextId => exact (List.mem_append.mp h).imp_right fun h => ⟨rfl, List.mem_singleton.mp h⟩
  | renameTable => exact Or.inl (List.mem_of_mem_erase h)
  | _ => exact Or.inl h

theorem Careful.bind {p : LsmIo α} {f : α → LsmIo β} {R : β → List FileId → Prop} (h : Careful b Q ours held p)
    (hf : ∀ a ours held, Q a held → Careful b R ours held (f a)) : Careful b R ours held (p.bind f) := by
  induction p generalizing ours held with
  | ret a => exact hf a ours held h
  | op o k ih =>
    cases o with
    | fetchNextId => exact fun id => ih id (h id)
    | loadNextId => exact fun id hid => ih id (h id hid)
    | renameTable | writeManifestTemp | renameManifest => exact ⟨h.1, fun r => ih r (h.2 r)⟩
    | _ => exact fun r => ih r (h r)

namespace LsmStore

theorem careful_andThen {p : LsmIo (Except Failure α)} {f : α → LsmIo (Except Failure β)}
    (h : Careful b (fun _ _ => True) ours held p)
    (hf : ∀ a ours held, Careful b (fun _ _ => True) ours held (f a)) :
    Careful b (fun _ _ => True) ours held (LsmIo.andThen p f) := by
  refine h.bind fun r ours held _ => ?_
  cases r with
  | error => trivial
  | ok a => exact hf a ours held

theorem careful_commitManifest (levels : Levels) (hnext : b ≤ nextId) :
    Careful b (fun _ _ => True) ours held (commitManifest levels nextId) :=
  fun _ _ => ⟨hnext, fun _ => ⟨rfl, fun _ => trivial⟩⟩

theorem careful_buildTable (opts : LsmOptions) (entries : List Entry) {id : FileId} (base : Levels)
    (hid : id ∈ held) (hnext : b ≤ nextId) :
    Careful b (fun _ _ => True) ours held (buildTableUnlocked opts entries id base nextId) := by
  refine fun _ _ => ?_
  split
  · trivial
  · refine fun _ => ?_
    split
    · trivial
    · refine ⟨hid, fun renamed => ?_⟩
      dsimp only
      split
      · trivial
      · intro file
        cases file with
        | none => trivial
        | some =>
          dsimp only
          split
          · trivial
          · exact careful_andThen (careful_commitManifest _ hnext) fun _ _ _ => trivial

theorem careful_writeFiles (files : List TableFile) :
    Careful b (fun ids held' => held' = held ++ ids) ours held (writeFiles files) := by
  induction files generalizing ours held with
  | nil => exact (List.append_nil held).symm
  | cons f files ih =>
    have hone : Careful b (fun id held' => held' = held ++ [id]) ours held (writeOutput f) := fun _ _ _ _ => rfl
    refine hone.bind fun id ours held' hid => Careful.bind ih fun ids ours held'' hids => ?_
    exact hids.trans (by rw [hid]; exact List.append_assoc ..)

theorem careful_writeCompaction (opts : LsmOptions) (work : Compaction) :
    Careful b (fun r held => ∀ ids, r = .ok ids → held = ids) ours [] (writeCompaction opts work) := by
  refine Careful.bind (careful_writeFiles _) fun ids ours held hheld => ?_
  split
  · exact fun _ _ _ => nofun
  · rintro _ ⟨⟩
    exact hheld

theorem careful_renameOutputs (ids : List FileId) :
    Careful b (fun _ _ => True) ours ids (renameOutputs ids) := by
  induction ids with
  | nil => trivial
  | cons id ids ih =>
    refine ⟨List.mem_cons_self, fun renamed => ?_⟩
    rw [List.erase_cons_head]
    dsimp only
    split
    · exact ih
    · trivial

theorem careful_openTables (ids : List FileId) : Careful b (fun _ _ => True) ours held (openTables ids) := by
  induction ids with
  | nil => trivial
  | cons id ids ih =>
    intro file
    cases file with
    | none => trivial
    | some => exact careful_andThen ih fun _ _ _ => trivial

theorem careful_commitCompaction (work : Compaction) (levels : Levels) (ids : List FileId) :
    Careful b (fun _ _ => True) ours held (commitCompaction work levels ids) := by
  refine careful_andThen (careful_openTables ids) fun outs _ _ next hnext => ?_
  exact careful_andThen (careful_commitManifest _ hnext) fun _ _ _ => trivial

end LsmStore

end Careful

/-- The rest of the thread's program is careful; what writes the outputs of a compaction
ends with their ids. -/
def Background.Careful (b : FileId) (ours : Bool) (held : List FileId) : Background → Prop
  | .flushing _ io => KVStore.Careful b (fun _ _ => True) ours held io
  | .compacting _ _ io => KVStore.Careful b (fun r held => ∀ ids, r = .ok ids → held = ids) ours held io
  | .renamingOutputs _ _ _ io => KVStore.Careful b (fun _ _ => True) ours held io
  | .committing _ _ io => KVStore.Careful b (fun _ _ => True) ours held io
  | _ => True

def Background.isFlushing : Background → Bool
  | .flushing _ _ => true
  | _ => false

/-- The counter of the manifest. -/
def Env.floor (s : Env) : FileId := (s.manifest.map LevelSet.nextId).getD 0

namespace System

variable {n : Nat} {opts : LsmOptions} {listing : Listing} {s s' : System n} {id : FileId} {c : Fin n}

def pendingLogs (s : System n) : List FileId :=
  (List.finRange n).filterMap fun c =>
    match s.engine.clients c with
    | .rotating next _ => some next
    | _ => none

def logIds (s : System n) : List FileId := s.pendingLogs ++ s.env.logs.keys

theorem mem_pendingLogs : id ∈ s.pendingLogs ↔ ∃ c resume, s.engine.clients c = .rotating id resume := by
  rw [pendingLogs, List.mem_filterMap]
  constructor
  · rintro ⟨c, _, hc⟩
    split at hc
    next next resume hpc =>
      cases hc
      exact ⟨c, resume, hpc⟩
    next => cases hc
  · rintro ⟨c, resume, hpc⟩
    exact ⟨c, List.mem_finRange c, by rw [hpc]⟩

theorem mem_logIds :
    id ∈ s.logIds ↔ (∃ c resume, s.engine.clients c = .rotating id resume) ∨ id ∈ s.env.logs := by
  rw [logIds, List.mem_append, mem_pendingLogs, AList.mem_keys]

theorem mem_appendLog {env : Env} {walId id : FileId} {e : Entry}
    (h : id ∈ (env.appendLog walId e).logs) : id ∈ env.logs := by
  unfold Env.appendLog at h
  split at h
  next log hlog =>
    rcases AList.mem_insert _ |>.mp h with rfl | h
    · exact AList.lookup_isSome.mp (by rw [hlog]; rfl)
    · exact h
  next => exact h

theorem ClientStep.logIds (h : ClientStep opts s c s') (hid : id ∈ s'.logIds) :
    id ∈ s.logIds ∨ (∃ resume, s' = s.rotate c resume) ∧ id = s.env.fetchNextId.nextId := by
  rw [mem_logIds] at hid
  rcases hid with ⟨c', resume, hpc⟩ | hlog
  · by_cases hc : c' = c
    · subst hc
      cases h with
      | rotateWrite | rotateFlush =>
        right
        refine ⟨⟨_, rfl⟩, ?_⟩
        simp [rotate, Engine.setClient] at hpc
        exact hpc.1.symm
      | _ =>
        simp [respond, release, note, setClient, System.insert, Engine.setClient] at hpc
    · rw [h.clients_of_ne hc] at hpc
      exact Or.inl (mem_logIds.mpr (Or.inl ⟨c', resume, hpc⟩))
  · left
    rw [mem_logIds]
    cases h with
    | @createLog next resume pc =>
      rcases (AList.mem_insert _).mp hlog with rfl | hlog
      · exact Or.inl ⟨c, resume, pc⟩
      · exact Or.inr hlog
    | append => exact Or.inr (mem_appendLog hlog)
    | _ => exact Or.inr hlog

theorem EnterStep.logIds {call : Call} (h : EnterStep s c call s') (hid : id ∈ s'.logIds) : id ∈ s.logIds := by
  rw [mem_logIds, h.sameFrozen.1] at hid
  rw [mem_logIds]
  refine hid.imp_left fun ⟨c', resume, hpc⟩ => ?_
  by_cases hc : c' = c
  · subst hc
    cases h <;> simp [respond, note, setClient, Engine.setClient] at hpc
  · rw [h.clients_of_ne hc] at hpc
    exact ⟨c', resume, hpc⟩

/-- The ids of the tables placed so far, against those in use for logs. -/
structure IdsApart (placed : List FileId) (s : System n) : Prop where
  nodup : placed.Nodup
  below : ∀ id ∈ placed, id < s.env.nextId
  logs : ∀ id ∈ placed, id ∉ s.logIds
  claimed : ∀ id ∈ s.engine.claimed, id ∉ s.logIds
  logsBelow : ∀ id ∈ s.logIds, id < s.env.nextId

/-- The thread may put a table under this id into place. -/
structure FreeId (placed : List FileId) (s : System n) (id : FileId) : Prop where
  below : id < s.env.nextId
  log : id ∉ s.logIds
  new : id ∉ placed
  unclaimed : s.engine.background.isFlushing = false → id ∉ s.engine.claimed

/-- A table that was placed has been counted in the manifest, which stays at `b` or above,
or is still there. -/
structure Counted (b : FileId) (ours : Bool) (placed : List FileId) (s : System n) : Prop where
  counter : b ≤ s.env.nextId
  floor : b ≤ s.env.floor
  temp : ours = true → ∀ set, s.env.manifestTemp = some (some set) → b ≤ set.nextId
  placed : ∀ id ∈ placed, id < b ∨ s.env.tables.lookup id ≠ none
  leaving : ∀ t ∈ s.engine.background.unmarked ++ s.engine.obsolete, t.id < b

/-- What the thread holds as it goes on. -/
structure Custody (b : FileId) (ours : Bool) (held placed : List FileId) (s : System n) : Prop where
  careful : s.engine.background.Careful b ours held
  nodup : held.Nodup
  free : ∀ id ∈ held, s.FreeId placed id
  counted : s.Counted b ours placed

structure Placements (placed : List FileId) (s : System n) : Prop where
  apart : s.IdsApart placed
  unplaced : s.engine.backgroundStatus.isOk = true → s.engine.background.isFlushing = false →
    ∀ id ∈ s.engine.claimed, id ∉ placed
  holds : ∃ b ours held, s.Custody b ours held placed

variable {placed : List FileId}

theorem IdsApart.mono (h : s.IdsApart placed) (hn : s.env.nextId ≤ s'.env.nextId)
    (hlogs : ∀ id ∈ s'.logIds, id ∈ s.logIds)
    (hclaimed : ∀ id ∈ s'.engine.claimed, id ∈ s.engine.claimed) : s'.IdsApart placed :=
  ⟨h.nodup, fun id hid => (h.below id hid).trans_le hn, fun id hid hm => h.logs id hid (hlogs id hm),
    fun id hid hm => h.claimed id (hclaimed id hid) (hlogs id hm),
    fun id hid => (h.logsBelow id (hlogs id hid)).trans_le hn⟩

theorem IdsApart.put (h : s.IdsApart placed) {id : FileId} (hnew : id ∉ placed)
    (hlt : id < s.env.nextId) (hlog : id ∉ s.logIds) : s.IdsApart (id :: placed) :=
  ⟨List.nodup_cons.mpr ⟨hnew, h.nodup⟩, List.forall_mem_cons.mpr ⟨hlt, h.below⟩,
    List.forall_mem_cons.mpr ⟨hlog, h.logs⟩, h.claimed, h.logsBelow⟩

/-- What the other threads do to the ids in use. -/
structure IdsByOthers (s s' : System n) : Prop where
  others : ByOthers True s s'
  status : s'.engine.backgroundStatus = s.engine.backgroundStatus
  unmarked : ∀ t ∈ s'.engine.obsolete, t ∈ s.engine.obsolete
  tables : ∀ id, s.env.tables.lookup id ≠ none →
    s'.env.tables.lookup id ≠ none ∨ ∃ t ∈ s.engine.obsolete, t.id = id
  logs : s'.env.issued < idLimit → s.env.nextId ≤ s.env.issued + 1 → ∀ id ∈ s'.logIds,
    id ∈ s.logIds ∨ s.env.nextId ≤ id ∧ id < s'.env.nextId
  claimed : s'.env.issued < idLimit → s.env.nextId ≤ s.env.issued + 1 → s.IdsApart [] →
    ∀ id ∈ s'.engine.claimed, id ∉ s'.logIds

theorem FreeId.mono {placed' : List FileId} (h : s.FreeId placed id) (hn : s.env.nextId ≤ s'.env.nextId)
    (hlogs : ∀ id < s.env.nextId, id ∈ s'.logIds → id ∈ s.logIds) (hplaced : id ∈ placed' → id ∈ placed)
    (hclaimed : s'.engine.background.isFlushing = false → s.engine.background.isFlushing = false ∧
      ∀ id < s.env.nextId, id ∈ s'.engine.claimed → id ∈ s.engine.claimed) : s'.FreeId placed' id :=
  ⟨h.below.trans_le hn, fun hid => h.log (hlogs id h.below hid), fun hid => h.new (hplaced hid),
    fun hpc hid => h.unclaimed (hclaimed hpc).1 ((hclaimed hpc).2 id h.below hid)⟩

theorem Placements.others (h : s.Placements placed) (hb : s.BackgroundInv True opts listing)
    (ho : IdsByOthers s s') (hl : Legal True s.shared) (hl' : Legal True s'.shared) : s'.Placements placed := by
  obtain ⟨_, hids, _⟩ := hb.promise.point trivial hl
  have hm := ho.others.moved _ fun _ hid => hid
  have hle : s.env.nextId ≤ s'.env.nextId := hm.nextId_le trivial (hl' trivial) hids
  have hlogs : ∀ id < s.env.nextId, id ∈ s'.logIds → id ∈ s.logIds := fun id hlt hid =>
    (ho.logs (hl' trivial) hids.counted id hid).resolve_right fun hge => absurd hlt (not_lt_of_ge hge.1)
  have hclaimed : ∀ id < s.env.nextId, id ∈ s'.engine.claimed → id ∈ s.engine.claimed := fun id hlt hid =>
    (hm.claimed trivial (hl' trivial) hids.counted id hid).resolve_right fun hge =>
      absurd hlt (not_lt_of_ge hge.1)
  refine ⟨⟨h.apart.nodup, fun id hid => (h.apart.below id hid).trans_le hle, fun id hid hlog => ?_, ?_,
    fun id hid => ?_⟩, fun hok hpc id hid hplaced => ?_, ?_⟩
  · exact h.apart.logs id hid (hlogs id (h.apart.below id hid) hlog)
  · exact ho.claimed (hl' trivial) hids.counted
      ⟨List.nodup_nil, nofun, nofun, h.apart.claimed, h.apart.logsBelow⟩
  · rcases ho.logs (hl' trivial) hids.counted id hid with hid | hlt
    · exact (h.apart.logsBelow id hid).trans_le hle
    · exact hlt.2
  · rw [ho.status] at hok
    rw [ho.others.background] at hpc
    exact h.unplaced hok hpc id (hclaimed id (h.apart.below id hplaced) hid) hplaced
  · obtain ⟨b, ours, held, hcareful, hnodup, hfree, hcounted⟩ := h.holds
    refine ⟨b, ours, held, ?_, hnodup, fun id hid => ?_, hcounted.counter.trans hle, ?_, ?_, fun id hid => ?_,
      fun t ht => hcounted.leaving t ?_⟩
    · rwa [ho.others.background]
    · refine (hfree id hid).mono hle hlogs (fun hid => hid) ?_
      rw [ho.others.background]
      exact fun hpc => ⟨hpc, hclaimed⟩
    · have hmanifest : s'.env.manifest = s.env.manifest := hm.manifest
      rw [Env.floor, hmanifest]
      exact hcounted.floor
    · have htemp : s'.env.manifestTemp = s.env.manifestTemp := hm.manifestTemp
      rw [htemp]
      exact hcounted.temp
    · rcases hcounted.placed id hid with hlt | hthere
      · exact Or.inl hlt
      · rcases ho.tables id hthere with hthere | ⟨t, ht, rfl⟩
        · exact Or.inr hthere
        · exact Or.inl (hcounted.leaving t (List.mem_append_right _ ht))
    · rw [ho.others.background] at ht
      exact (List.mem_append.mp ht).elim (List.mem_append_left _)
        fun ht => List.mem_append_right _ (ho.unmarked t ht)

theorem idsByOthers_of_same (ho : ByOthers True s s') (hu : s.engine.Untouched s'.engine)
    (hf : s.env.SameFiles s'.env) (hz : s.engine.SameFrozen s'.engine)
    (hlogs : ∀ id ∈ s'.logIds, id ∈ s.logIds) : IdsByOthers s s' := by
  refine ⟨ho, hu.status, fun t ht => hu.obsolete ▸ ht, fun id hid => Or.inl (hf.tables.symm ▸ hid),
    fun _ _ id hid => Or.inl (hlogs id hid), fun _ _ hapart id hid hlog => ?_⟩
  rw [hz.claimed_eq] at hid
  exact hapart.claimed id hid (hlogs id hlog)

theorem idsByOthers_rotate (c : Fin n) (resume : Resume) (himm : s.engine.imm = none)
    (hlogs : ∀ id ∈ (s.rotate c resume).logIds, id ∈ s.logIds ∨ id = s.env.fetchNextId.nextId) :
    IdsByOthers s (s.rotate c resume) := by
  have hcounts : (s.rotate c resume).env.issued < idLimit → s.env.nextId ≤ s.env.issued + 1 →
      s.env.fetchNextId.nextId = s.env.nextId + 1 ∧
        (s.rotate c resume).env.nextId = s.env.fetchNextId.nextId + 1 := by
    intro hl hc
    have hfirst := fetchNextId_nextId hc ((Nat.lt_succ_self _).trans hl)
    have hc' : s.env.fetchNextId.nextId ≤ s.env.fetchNextId.issued + 1 :=
      hfirst ▸ Nat.add_le_add_right hc 1
    exact ⟨hfirst, fetchNextId_nextId hc' hl⟩
  refine ⟨byOthers_rotate c resume himm, rfl, fun t ht => ht, fun id hid => Or.inl hid,
    fun hl hc id hid => ?_, fun hl hc hapart id hid hlog => ?_⟩
  · obtain ⟨hfirst, hsecond⟩ := hcounts hl hc
    rw [hsecond]
    rcases hlogs id hid with hid | rfl
    · exact Or.inl hid
    · exact Or.inr ⟨hfirst ▸ Nat.le_succ _, Nat.lt_succ_self _⟩
  · have htable : id = s.env.nextId := by
      simpa [rotate, Engine.claimed, Engine.rotate, Engine.setClient] using hid
    subst htable
    rcases hlogs _ hlog with hlog | hlog
    · exact (hapart.logsBelow _ hlog).false
    · rw [(hcounts hl hc).1] at hlog
      exact absurd hlog (Nat.succ_ne_self _).symm

theorem idsByOthers_client (h : ClientStep opts s c s') : IdsByOthers s s' := by
  rcases h.sameFrozen with ⟨hf, hz⟩ | ⟨himm, resume, rfl⟩
  · refine idsByOthers_of_same (byOthers_client h) h.untouched hf hz fun id hid => ?_
    rcases h.logIds hid with hid | ⟨⟨resume, rfl⟩, _⟩
    · exact hid
    · have hissued : s.env.issued + 2 = s.env.issued := hf.issued
      omega
  · exact idsByOthers_rotate c resume himm fun id hid => (h.logIds hid).imp_right And.right

theorem idsByOthers_unlink {t : SSTable} (ht : t ∈ s.engine.obsolete) :
    IdsByOthers s { s with
      env := { s.env with tables := s.env.tables.erase t.id }
      engine := { s.engine with obsolete := s.engine.obsolete.erase t } } := by
  refine ⟨byOthers_unlink ht, rfl, fun u hu => List.mem_of_mem_erase hu, fun id hid => ?_,
    fun _ _ id hid => Or.inl hid, fun _ _ hapart => hapart.claimed⟩
  by_cases he : id = t.id
  · exact Or.inr ⟨t, ht, he.symm⟩
  · left
    rwa [AList.lookup_erase_ne he]

end System

end KVStore
