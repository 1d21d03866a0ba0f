import KVStore.LsmIoSpec

namespace KVStore.LsmStore

open Lib CrashProgram

variable {listing : Listing} {D : Prop} {obsolete : List FileId} {base : Levels} {s : Shared} {s' : Shared}
    {id : FileId} {ids : List FileId} {nextId : FileId} {work : Compaction}

/-- Between compactions and at their start: the ids in use are below the counter. -/
structure Ready (obsolete : List FileId) (base : Levels) (s : Shared) : Prop where
  settled : Settled s.env base
  kept : ∀ t ∈ base.flatten, t.id ∉ obsolete
  obsoleteBelow : ∀ id ∈ obsolete, id < s.env.nextId
  claimedBelow : ∀ id ∈ s.claimed, id < s.env.nextId

structure OwnId (obsolete : List FileId) (base : Levels) (s : Shared) (id : FileId) : Prop where
  positive : 1 ≤ id
  below : id < s.env.nextId
  kept : id ∉ obsolete
  unclaimed : id ∉ s.claimed
  fresh : ∀ t ∈ base.flatten, t.id ≠ id

structure OwnIds (obsolete : List FileId) (base : Levels) (ids : List FileId) (s : Shared) : Prop where
  ready : Ready obsolete base s
  nodup : ids.Nodup
  own : ∀ id ∈ ids, OwnId obsolete base s id

theorem Ready.moved (h : Ready obsolete base s) (hD : D)
    (hr : OtherThreads D obsolete s s') (hl : Legal D s') : Ready obsolete base s' := by
  obtain ⟨⟨hids, n, hn, hc⟩, hkept, hobs, hclaimed⟩ := h
  have hle := hr.nextId_le hD (hl hD) hids
  refine ⟨⟨hr.idsBelow hD (hl hD) hids, n, hn.trans hle, hr.committed hD hkept hc⟩, hkept,
    fun id hid => (hobs id hid).trans_le hle, fun id hid => ?_⟩
  rcases hr.claimed hD (hl hD) hids.counted id hid with h | ⟨_, h⟩
  · exact (hclaimed id h).trans_le hle
  · exact h

theorem OwnId.moved (h : OwnId obsolete base s id) (hD : D)
    (hids : IdsBelow s.env) (hr : OtherThreads D obsolete s s') (hl : Legal D s') :
    OwnId obsolete base s' id := by
  refine ⟨h.positive, h.below.trans_le (hr.nextId_le hD (hl hD) hids), h.kept, fun hc => ?_, h.fresh⟩
  rcases hr.claimed hD (hl hD) hids.counted id hc with hc | ⟨hge, _⟩
  · exact h.unclaimed hc
  · exact absurd h.below (not_lt_of_ge hge)

theorem stable_ownIds (ids : List FileId) : Stable D obsolete fun s => D → OwnIds obsolete base ids s :=
  fun _ _ hr hl h hD => ⟨(h hD).ready.moved hD hr hl, (h hD).nodup,
    fun id hid => ((h hD).own id hid).moved hD (h hD).ready.settled.ids hr hl⟩

section

variable (h : OwnIds obsolete base ids s)
include h

theorem OwnIds.congr {env : Env}
    (hm : env.manifest = s.env.manifest) (ht : env.tables = s.env.tables)
    (hn : env.nextId = s.env.nextId) (hi : env.issued = s.env.issued) :
    OwnIds obsolete base ids ⟨env, s.claimed⟩ := by
  obtain ⟨⟨hset, hkept, hobs, hclaimed⟩, hnodup, hown⟩ := h
  refine ⟨⟨hset.congr hm ht hn hi, hkept, ?_, ?_⟩, hnodup, fun id hid => ?_⟩
  · simpa [hn] using hobs
  · simpa [hn] using hclaimed
  · obtain ⟨hpos, hlt, hk, hun, hfresh⟩ := hown id hid
    exact ⟨hpos, by simpa [hn] using hlt, hk, hun, hfresh⟩

theorem OwnIds.withTemps (temps : AList fun _ : FileId => Option TableFile) :
    OwnIds obsolete base ids ⟨{ s.env with tableTemps := temps }, s.claimed⟩ :=
  h.congr rfl rfl rfl rfl

theorem OwnIds.fetch (hl : s.env.issued + 1 < idLimit) :
    OwnIds obsolete base (s.env.nextId :: ids) ⟨s.env.fetchNextId, s.claimed⟩ := by
  obtain ⟨⟨⟨hids, n, hn, hc⟩, hkept, hobs, hclaimed⟩, hnodup, hown⟩ := h
  have hnext := fetchNextId_nextId hids.counted hl
  have hup : s.env.nextId < s.env.fetchNextId.nextId := by
    rw [hnext]
    exact Nat.lt_succ_self _
  refine ⟨⟨⟨hids.fetch hl, n, hn.trans hup.le, hc.manifest, hc.files, hc.below,
    hc.positive⟩, hkept,
    fun id hid => (hobs id hid).trans hup, fun id hid => (hclaimed id hid).trans hup⟩, ?_, ?_⟩
  · exact List.nodup_cons.mpr ⟨fun hm => lt_irrefl _ (hown _ hm).below, hnodup⟩
  · intro id hid
    rcases List.mem_cons.mp hid with rfl | hid
    · refine ⟨hids.positive, hup, fun hm => lt_irrefl _ (hobs _ hm),
        fun hm => lt_irrefl _ (hclaimed _ hm), fun t ht he => ?_⟩
      exact absurd (he ▸ hc.below t ht) (not_lt_of_ge hn)
    · obtain ⟨h₁, h₂, h₃, h₄, h₅⟩ := hown id hid
      exact ⟨h₁, h₂.trans hup, h₃, h₄, h₅⟩

end

/-- Outputs under their temp names. An id claimed twice would have lost one. -/
def Written (D : Prop) (obsolete : List FileId) (base : Levels) (held : List (FileId × TableFile))
    (s : Shared) : Prop :=
  ((held.map Prod.fst).Nodup → ∀ p ∈ held, s.env.tableTemps.lookup p.1 = some (some p.2)) ∧
    (D → OwnIds obsolete base (held.map Prod.fst) s)

def Started (D : Prop) (obsolete : List FileId) (base : Levels) (id : FileId)
    (held : List (FileId × TableFile)) (s : Shared) : Prop :=
  ((id :: held.map Prod.fst).Nodup → ∀ p ∈ held, s.env.tableTemps.lookup p.1 = some (some p.2)) ∧
    (D → OwnIds obsolete base (id :: held.map Prod.fst) s)

variable {held : List (FileId × TableFile)}

theorem stable_written : Stable D obsolete (Written D obsolete base held) :=
  (stable_tableTemps fun temps => (held.map Prod.fst).Nodup →
    ∀ p ∈ held, temps.lookup p.1 = some (some p.2)).and (stable_ownIds _)

theorem stable_started : Stable D obsolete (Started D obsolete base id held) :=
  (stable_tableTemps fun temps => (id :: held.map Prod.fst).Nodup →
    ∀ p ∈ held, temps.lookup p.1 = some (some p.2)).and (stable_ownIds _)

theorem Written.settled (h : Written D obsolete base held s) : D → Settled s.env base :=
  fun hD => (h.2 hD).ready.settled

theorem Started.settled (h : Started D obsolete base id held s) : D → Settled s.env base :=
  fun hD => (h.2 hD).ready.settled

theorem Written.perm {held' : List (FileId × TableFile)} (h : Written D obsolete base held s)
    (hp : held.Perm held') : Written D obsolete base held' s := by
  have hids := hp.map Prod.fst
  refine ⟨fun hnodup p hmem => h.1 (hids.nodup_iff.mpr hnodup) p (hp.mem_iff.mpr hmem), fun hD => ?_⟩
  obtain ⟨hready, hnodup, hown⟩ := h.2 hD
  exact ⟨hready, hids.nodup_iff.mp hnodup, fun id hid => hown id (hids.mem_iff.mpr hid)⟩

theorem Written.start (h : Written D obsolete base held s) (hl : Legal D ⟨s.env.fetchNextId, s.claimed⟩) :
    Started D obsolete base s.env.nextId held ⟨s.env.fetchNextId, s.claimed⟩ :=
  ⟨fun hnodup => h.1 (List.nodup_cons.mp hnodup).2, fun hD => (h.2 hD).fetch (hl hD)⟩

theorem Started.withTemps (h : Started D obsolete base id held s)
    {temps : AList fun _ : FileId => Option TableFile}
    (htemps : ∀ id' ≠ id, temps.lookup id' = s.env.tableTemps.lookup id') :
    Started D obsolete base id held ⟨{ s.env with tableTemps := temps }, s.claimed⟩ := by
  refine ⟨fun hnodup p hp => ?_, fun hD => (h.2 hD).withTemps _⟩
  have hne : p.1 ≠ id := fun he =>
    (List.nodup_cons.mp hnodup).1 (he ▸ List.mem_map_of_mem (f := Prod.fst) hp)
  exact (htemps p.1 hne).trans (h.1 hnodup p hp)

theorem Started.finish (h : Started D obsolete base id held s) (f : TableFile) :
    Written D obsolete base ((id, f) :: held)
      ⟨{ s.env with tableTemps := s.env.tableTemps.insert id (some f) }, s.claimed⟩ := by
  have h' : Started D obsolete base id held
      ⟨{ s.env with tableTemps := s.env.tableTemps.insert id (some f) }, s.claimed⟩ :=
    h.withTemps fun _ hne => AList.lookup_insert_ne hne
  refine ⟨fun hnodup p hp => ?_, h'.2⟩
  rcases List.mem_cons.mp hp with rfl | hp
  · exact AList.lookup_insert _
  · exact h'.1 hnodup p hp

theorem guarded_writeOutput (f : TableFile) (hs : Written D obsolete base held s) :
    Protected listing D obsolete
      (fun s => D → Settled s.env base)
      (fun id s => Written D obsolete base ((id, f) :: held) s) (writeOutput f) s := by
  refine guarded_op _ hs stable_written (fun _ hs => hs.settled) fun s hs hl => ?_
  let id := s.env.nextId
  have herase : ∀ (temps : AList fun _ : FileId => Option TableFile), ∀ id' ≠ id,
      (temps.erase id).lookup id' = temps.lookup id' := fun _ _ hne => AList.lookup_erase_ne hne
  refine guarded_op _ (hs.start hl) stable_started (fun _ hs => hs.settled) fun s hs _ => ?_
  refine guarded_op _ (hs.withTemps (herase _)) stable_started (fun _ hs => hs.settled)
    fun s hs _ => ?_
  refine guarded_op _ (hs.withTemps fun _ hne => AList.lookup_insert_ne hne) stable_started
    (fun _ hs => hs.settled) fun s hs _ => ?_
  exact guarded_ret _ (hs.finish f) stable_written (fun _ hs => hs.settled) fun _ hs => hs

theorem guarded_writeFiles (files : List TableFile) (hs : Written D obsolete base held s) (hl : Legal D s) :
    Protected listing D obsolete
      (fun s => D → Settled s.env base)
      (fun ids s => ids.length = files.length ∧ Written D obsolete base (ids.zip files ++ held) s)
      (writeFiles files) s := by
  induction files generalizing held s with
  | nil => exact guarded_ret _ hs stable_written (fun _ hs => hs.settled) fun _ hs => ⟨rfl, hs⟩
  | cons f files ih =>
    refine (guarded_writeOutput f hs).bind OtherThreads.refl (fun id s hs hl => ?_) hl
    refine (ih hs hl).bind OtherThreads.refl (fun ids s hs _ => ?_) hl
    refine guarded_ret _ (hs.2.perm ?_) stable_written (fun _ hs => hs.settled)
      fun _ hs' => ⟨by simp [hs.1], hs'⟩
    exact List.perm_middle

def outputFiles (opts : LsmOptions) (work : Compaction) : List TableFile := (work.outputs opts).1

/-- The outputs are written, or the builder refuses one of them. -/
def WriteResult (D : Prop) (obsolete : List FileId) (base : Levels) (opts : LsmOptions)
    (work : Compaction) : Except Failure (List FileId) → Shared → Prop
  | .error _, s => (work.outputs opts).2 ≠ none ∧ (D → Settled s.env base)
  | .ok ids, s => (work.outputs opts).2 = none ∧ ids.length = (outputFiles opts work).length ∧
      Written D obsolete base (ids.zip (outputFiles opts work)) s

theorem guarded_abandonOutput (hs : Written D obsolete base held s) :
    Protected listing D obsolete
      (fun s => D → Settled s.env base) (fun _ s => D → OwnIds obsolete base [] s) abandonOutput s := by
  have hsettled : ∀ s : Shared, (D → OwnIds obsolete base [] s) → D → Settled s.env base :=
    fun _ hs hD => (hs hD).ready.settled
  refine guarded_op _ hs stable_written (fun _ hs => hs.settled) fun s hs hl => ?_
  have hstart : D → OwnIds obsolete base [] ⟨s.env.fetchNextId, s.claimed⟩ := fun hD =>
    ⟨((hs.2 hD).fetch (hl hD)).ready, List.nodup_nil, by simp⟩
  refine guarded_op _ hstart (stable_ownIds []) hsettled fun s hs _ => ?_
  refine guarded_op _ (fun hD => (hs hD).withTemps _) (stable_ownIds []) hsettled fun s hs _ => ?_
  exact guarded_ret _ (fun hD => (hs hD).withTemps _) (stable_ownIds []) hsettled fun _ hs => hs

theorem guarded_writeCompaction (opts : LsmOptions) (work : Compaction)
    (hs : D → Ready obsolete base s) (hl : Legal D s) :
    Protected listing D obsolete
      (fun s => D → Settled s.env base) (WriteResult D obsolete base opts work)
      (writeCompaction opts work) s := by
  have hstart : Written D obsolete base [] s :=
    ⟨by simp, fun hD => ⟨hs hD, List.nodup_nil, by simp⟩⟩
  refine (guarded_writeFiles _ hstart hl).bind OtherThreads.refl (fun ids s hs hl => ?_) hl
  rw [List.append_nil] at hs
  cases hout : (work.outputs opts).2 with
  | none =>
    exact guarded_ret _ hs.2 stable_written (fun _ hs => hs.settled)
      fun _ hs' => ⟨hout, hs.1, hs'⟩
  | some =>
    refine (guarded_abandonOutput hs.2).bind OtherThreads.refl (fun _ s hs _ => ?_) hl
    exact guarded_ret _ hs (stable_ownIds []) (fun _ hs hD => (hs hD).ready.settled)
      fun _ hs => ⟨by rw [hout]; nofun, fun hD => (hs hD).ready.settled⟩

/-- Some outputs renamed into place, the others still under their temp names. A
second rename of one id would find its source gone. -/
structure Renaming (D : Prop) (obsolete : List FileId) (base : Levels)
    (done pending : List (FileId × TableFile)) (s : Shared) : Prop where
  nodup : (done.map Prod.fst).Nodup
  gone : ∀ p ∈ done, s.env.tableTemps.lookup p.1 = none
  temps : ((done ++ pending).map Prod.fst).Nodup →
    ∀ p ∈ pending, s.env.tableTemps.lookup p.1 = some (some p.2)
  tables : ((done ++ pending).map Prod.fst).Nodup →
    ∀ p ∈ done, s.env.tables.lookup p.1 = some p.2 ∨ s.env.tables.lookup p.1 = none
  own : D → OwnIds obsolete base ((done ++ pending).map Prod.fst) s
  kept : D → ∀ p ∈ done, s.env.tables.lookup p.1 = some p.2

variable {done pending : List (FileId × TableFile)}

theorem stable_renaming : Stable D obsolete (Renaming D obsolete base done pending) := by
  intro a b hr hl h
  have hown := stable_ownIds _ a b hr hl h.own
  refine ⟨h.nodup, ?_, ?_, fun hnodup p hp => ?_, hown, fun hD p hp => ?_⟩
  · rw [hr.tableTemps]
    exact h.gone
  · rw [hr.tableTemps]
    exact h.temps
  · exact stable_table p.1 p.2 a b hr hl (h.tables hnodup p hp)
  · have hid : p.1 ∈ (done ++ pending).map Prod.fst :=
      List.mem_map_of_mem (List.mem_append_left _ hp)
    exact (hr.kept hD p.1 ((h.own hD).own p.1 hid).kept).trans (h.kept hD p hp)

theorem Written.rename (h : Written D obsolete base held s) : Renaming D obsolete base [] held s :=
  ⟨List.nodup_nil, by simp, h.1, by simp, h.2, by simp⟩

theorem OwnIds.insertTable (h : OwnIds obsolete base ids s)
    (hid : id ∈ ids) (f : TableFile) (temps : AList fun _ : FileId => Option TableFile) :
    OwnIds obsolete base ids
      ⟨{ s.env with tables := s.env.tables.insert id f, tableTemps := temps }, s.claimed⟩ := by
  obtain ⟨⟨hset, hkept, hobs, hclaimed⟩, hnodup, hown⟩ := h
  have ho := hown id hid
  refine ⟨⟨hset.insertTable f temps ho.fresh ho.positive ho.below, hkept, hobs, hclaimed⟩, hnodup,
    fun id' hid' => ?_⟩
  obtain ⟨h₁, h₂, h₃, h₄, h₅⟩ := hown id' hid'
  exact ⟨h₁, h₂, h₃, h₄, h₅⟩

theorem Renaming.step {p : FileId × TableFile} {f : TableFile}
    (h : Renaming D obsolete base done (p :: pending) s) (hf : s.env.tableTemps.lookup p.1 = some (some f)) :
    Renaming D obsolete base (done ++ [p]) pending
      ⟨{ s.env with
        tables := s.env.tables.insert p.1 f, tableTemps := s.env.tableTemps.erase p.1 },
        s.claimed⟩ := by
  have hsplit : done ++ [p] ++ pending = done ++ p :: pending := by simp
  have hnew : ∀ q ∈ done, q.1 ≠ p.1 := fun q hq he => by
    have hg := h.gone q hq
    rw [he, hf] at hg
    cases hg
  have hfile : ((done ++ p :: pending).map Prod.fst).Nodup → f = p.2 := fun hnodup => by
    have ht := h.temps hnodup p (by simp)
    rw [hf] at ht
    exact Option.some.inj (Option.some.inj ht)
  have hpending : ((done ++ p :: pending).map Prod.fst).Nodup → ∀ q ∈ pending, q.1 ≠ p.1 := by
    intro hnodup q hq he
    rw [List.map_append, List.map_cons] at hnodup
    have hp := (List.nodup_cons.mp (List.nodup_append.mp hnodup).2.1).1
    exact hp (he ▸ List.mem_map_of_mem (f := Prod.fst) hq)
  refine ⟨?_, fun q hq => ?_, fun hnodup q hq => ?_, fun hnodup q hq => ?_, fun hD => ?_,
    fun hD q hq => ?_⟩
  · rw [List.map_append, List.nodup_append]
    refine ⟨h.nodup, by simp, fun id hid id' hid' he => ?_⟩
    obtain ⟨q, hq, rfl⟩ := List.mem_map.mp hid
    exact hnew q hq (he.trans (by simpa using hid'))
  · rcases List.mem_append.mp hq with hq | hq
    · exact (AList.lookup_erase_ne (hnew q hq)).trans (h.gone q hq)
    · rw [List.mem_singleton.mp hq]
      exact AList.lookup_erase _ _
  · rw [hsplit] at hnodup
    exact (AList.lookup_erase_ne (hpending hnodup q hq)).trans
      (h.temps hnodup q (List.mem_cons_of_mem _ hq))
  · rw [hsplit] at hnodup
    rcases List.mem_append.mp hq with hq | hq
    · have hsame : (s.env.tables.insert p.1 f).lookup q.1 = s.env.tables.lookup q.1 :=
        AList.lookup_insert_ne (hnew q hq)
      rw [hsame]
      exact h.tables hnodup q hq
    · rw [List.mem_singleton.mp hq, ← hfile hnodup]
      exact Or.inl (AList.lookup_insert _)
  · rw [hsplit]
    exact (h.own hD).insertTable (by simp) f _
  · rcases List.mem_append.mp hq with hq | hq
    · exact (AList.lookup_insert_ne (hnew q hq)).trans (h.kept hD q hq)
    · rw [List.mem_singleton.mp hq, ← hfile (h.own hD).nodup]
      exact AList.lookup_insert _

def RenameResult (D : Prop) (obsolete : List FileId) (base : Levels)
    (held : List (FileId × TableFile)) : Except Failure Unit → Shared → Prop
  | .error _, _ => ¬ D
  | .ok _, s => Renaming D obsolete base held [] s

theorem guarded_renameOutputs (hs : Renaming D obsolete base done pending s)
    (hids : pending.map Prod.fst = ids) :
    Protected listing D obsolete
      (fun s => D → Settled s.env base) (RenameResult D obsolete base (done ++ pending))
      (renameOutputs ids) s := by
  subst hids
  have hsettled : ∀ (done pending : List (FileId × TableFile)) (s : Shared),
      Renaming D obsolete base done pending s → D → Settled s.env base :=
    fun _ _ _ hs hD => (hs.own hD).ready.settled
  induction pending generalizing done s with
  | nil =>
    rw [List.append_nil]
    exact guarded_ret _ hs stable_renaming (hsettled _ _) fun _ hs => hs
  | cons p pending ih =>
    rw [List.map_cons, renameOutputs]
    refine guarded_op _ hs stable_renaming (hsettled _ _) fun s hs _ => ?_
    have hexec : (sharedMachine listing).exec (.renameTable p.1) s =
      ((s.env.renameTable p.1).1, ⟨(s.env.renameTable p.1).2, s.claimed⟩) := rfl
    rw [hexec]
    unfold Env.renameTable
    split
    next f hf =>
      have hnext := ih (hs.step hf)
      rw [List.append_assoc, List.singleton_append] at hnext
      exact hnext
    next hnone =>
      refine guarded_ret _ hs stable_renaming (hsettled _ _) fun _ _ hD => ?_
      exact hnone p.2 (hs.temps (hs.own hD).nodup p List.mem_cons_self)

def placed (held : List (FileId × TableFile)) : List SSTable := held.map fun p => ⟨p.1, p.2⟩

/-- The new levels are committed; the outputs are still this compaction's own. -/
structure Replaced (obsolete : List FileId) (base next : Levels) (ids : List FileId) (s : Shared) :
    Prop where
  installed : Installed s.env base next
  own : ∀ id ∈ ids, OwnId obsolete base s id

theorem stable_replaced {next : Levels}
    (hbase : D → ∀ t ∈ base.flatten, t.id ∉ obsolete) (hkept : D → ∀ t ∈ next.flatten, t.id ∉ obsolete) :
    Stable D obsolete fun s => D → Replaced obsolete base next ids s := by
  intro a b hr hl h hD
  have hi := stable_installed hbase hkept a b hr hl (fun hD => (h hD).installed)
  exact ⟨hi hD, fun id hid => ((h hD).own id hid).moved hD (h hD).installed.ids hr hl⟩

def CommitResult (D : Prop) (obsolete : List FileId) (base next : Levels) (ids : List FileId) :
    Except Failure Levels → Shared → Prop
  | .error _, _ => ¬ D
  | .ok levels, s => levels = next ∧ (D → Replaced obsolete base next ids s)

theorem guarded_openTables {I : Shared → Prop} (hs : Renaming D obsolete base held [] s)
    (hl : Legal D s) (hnodup : (held.map Prod.fst).Nodup) {rest : List (FileId × TableFile)}
    (hsub : ∀ p ∈ rest, p ∈ held) (hI : ∀ s, Renaming D obsolete base held [] s → I s) :
    Protected listing D obsolete I
      (fun r s => Renaming D obsolete base held [] s ∧ (∀ outs, r = .ok outs → outs = placed rest) ∧
        ∀ e, r = .error e → ¬ D)
      (openTables (rest.map Prod.fst)) s := by
  induction rest generalizing s with
  | nil =>
    refine guarded_ret _ hs stable_renaming hI fun _ hs => ⟨hs, fun outs he => ?_, nofun⟩
    cases he
    rfl
  | cons p rest ih =>
    rw [List.map_cons, openTables]
    refine guarded_op _ hs stable_renaming hI fun s hs hl => ?_
    have hopen : (sharedMachine listing).exec (.openTable p.1) s =
      (s.env.tables.lookup p.1, s) := rfl
    rw [hopen]
    rcases hs.tables (by simpa using hnodup) p (hsub p (by simp)) with hf | hf
    · rw [hf]
      refine guarded_andThen (ih hs hl fun q hq => hsub q (List.mem_cons_of_mem _ hq)) hl
        (fun e s he => ?_) fun outs s ho _ => ?_
      · exact guarded_ret _ he.1 stable_renaming hI fun _ hs => ⟨hs, nofun, fun _ _ => he.2.2 _ rfl⟩
      · refine guarded_ret _ ho.1 stable_renaming hI fun _ hs => ⟨hs, fun outs' he => ?_, nofun⟩
        cases he
        rw [ho.2.1 outs rfl]
        rfl
    · rw [hf]
      refine guarded_ret _ hs stable_renaming hI fun _ hs' => ⟨hs', nofun, fun _ _ hD => ?_⟩
      exact absurd (hf.symm.trans (hs.kept hD p (hsub p (by simp)))) nofun

def Rebuilds (work : Compaction) (base : Levels) : Prop :=
  ∀ outs, ∀ t ∈ (work.rebuild base outs).flatten, t ∈ base.flatten ∨ t ∈ outs

structure Loaded (obsolete : List FileId) (base : Levels) (held : List (FileId × TableFile))
    (nextId : FileId) (s : Shared) : Prop where
  own : OwnIds obsolete base (held.map Prod.fst) s
  files : ∀ p ∈ held, s.env.tables.lookup p.1 = some p.2
  positive : 1 ≤ nextId
  counter : nextId ≤ s.env.nextId
  baseBelow : ∀ t ∈ base.flatten, t.id < nextId
  heldBelow : ∀ p ∈ held, p.1 < nextId

theorem stable_loaded : Stable D obsolete fun s => D → Loaded obsolete base held nextId s := by
  intro a b hr hl h hD
  obtain ⟨hown, hfiles, hpos, hcounter, hbase, hheld⟩ := h hD
  refine ⟨stable_ownIds _ a b hr hl (fun _ => hown) hD, fun p hp => ?_, hpos,
    hcounter.trans (hr.nextId_le hD (hl hD) hown.ready.settled.ids), hbase, hheld⟩
  exact (hr.kept hD p.1 (hown.own p.1 (List.mem_map_of_mem hp)).kept).trans (hfiles p hp)

theorem Renaming.load (h : Renaming D obsolete base held [] s) (hD : D) :
    Loaded obsolete base held s.env.nextId s := by
  have hown := h.own hD
  rw [List.append_nil] at hown
  obtain ⟨n, hn, hc⟩ := hown.ready.settled.committed
  exact ⟨hown, h.kept hD, hown.ready.settled.ids.positive, le_rfl, fun t ht => (hc.below t ht).trans_le hn,
    fun p hp => (hown.own p.1 (List.mem_map_of_mem hp)).below⟩

theorem mem_placed {t : SSTable} : t ∈ placed held ↔ (t.id, t.file) ∈ held := by
  constructor
  · intro h
    obtain ⟨p, hp, rfl⟩ := List.mem_map.mp h
    exact hp
  · exact fun h => List.mem_map.mpr ⟨_, h, rfl⟩

theorem Loaded.install (h : Loaded obsolete base held nextId s) (hsub : Rebuilds work base) :
    Replaced obsolete base (work.rebuild base (placed held)) (held.map Prod.fst)
      ⟨{ s.env with
        manifest := some (levelSetOf (work.rebuild base (placed held)) nextId)
        manifestTemp := none }, s.claimed⟩ := by
  obtain ⟨n, _, hc⟩ := h.own.ready.settled.committed
  refine ⟨h.own.ready.settled.install h.counter h.baseBelow (fun t ht => ?_) (fun t ht => ?_)
    h.positive, fun id hid => ?_⟩
  · rcases hsub _ t ht with ht | ht
    · exact hc.files t ht
    · exact h.files _ (mem_placed.mp ht)
  · rcases hsub _ t ht with ht | ht
    · exact h.baseBelow t ht
    · exact h.heldBelow _ (mem_placed.mp ht)
  · obtain ⟨h₁, h₂, h₃, h₄, h₅⟩ := h.own.own id hid
    exact ⟨h₁, h₂, h₃, h₄, h₅⟩

theorem guarded_commitCompaction (hsub : Rebuilds work base)
    (hs : Renaming D obsolete base held [] s) (hids : held.map Prod.fst = ids) (hl : Legal D s) :
    Protected listing D obsolete
      (fun s => D → InstallPoint s.env base (work.rebuild base (placed held)))
      (CommitResult D obsolete base (work.rebuild base (placed held)) ids)
      (commitCompaction work base ids) s := by
  subst hids
  let next := work.rebuild base (placed held)
  have hbefore : ∀ s, Renaming D obsolete base held [] s → D → InstallPoint s.env base next :=
    fun s hs hD => (hs.own hD).ready.settled.installPoint _
  refine guarded_andThen (guarded_openTables hs hl hs.nodup (fun _ hp => hp) hbefore) hl
    (fun e s he => ?_) fun outs s ho _ => ?_
  · exact guarded_ret _ he.1 stable_renaming hbefore fun s hs => he.2.2 _ rfl
  obtain ⟨hs, ho, _⟩ := ho
  rw [ho outs rfl]
  refine guarded_op _ hs stable_renaming hbefore fun s hs hl => ?_
  have hloaded : D → Loaded obsolete base held s.env.nextId s := hs.load
  have hkept : D → ∀ t ∈ next.flatten, t.id ∉ obsolete := by
    intro hD t ht
    rcases hsub _ t ht with ht | ht
    · exact (hloaded hD).own.ready.kept t ht
    · exact ((hloaded hD).own.own t.id (List.mem_map.mpr ⟨_, mem_placed.mp ht, rfl⟩)).kept
  have hreplaced : Stable D obsolete fun s => D → Replaced obsolete base next (held.map Prod.fst) s :=
    stable_replaced (fun hD => (hloaded hD).own.ready.kept) hkept
  have hafter : ∀ s : Shared, (D → Replaced obsolete base next (held.map Prod.fst) s) → D →
      InstallPoint s.env base next := fun s hs hD => (hs hD).installed.installPoint
  refine guarded_andThen
    (Q := fun r s => r = .ok () ∧ (D → Replaced obsolete base next (held.map Prod.fst) s))
    (guarded_commitManifest _ _ hloaded stable_loaded hreplaced
      (fun s hs hD => (hs hD).own.ready.settled.installPoint _) hafter (fun s m hs hD => ?_)
      (fun s hs hD => (hs hD).install hsub) fun s hs => ⟨rfl, hs⟩)
    hl (fun e s he => by cases he.1) fun _ s hs _ => ?_
  · obtain ⟨hown, hfiles, hpos, hcounter, hbase, hheld⟩ := hs hD
    exact ⟨hown.congr rfl rfl rfl rfl, hfiles, hpos, hcounter, hbase, hheld⟩
  · exact guarded_ret _ hs.2 hreplaced hafter fun s hs => ⟨rfl, hs⟩

end KVStore.LsmStore
