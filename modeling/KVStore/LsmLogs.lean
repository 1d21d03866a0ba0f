import KVStore.LsmWriterLock

namespace KVStore

open Lib SortedRun CrashProgram

theorem find_dropOldest {logs : List (FileId × List Entry)} {id : FileId} {records : List Entry}
    (h : (logs ++ [(id, records)]).Pairwise fun a b => b.1 < a.1) (id' : FileId) :
    find id' logs = if id' = id then none else find id' (logs ++ [(id, records)]) := by
  split
  next he =>
    subst he
    rw [find_eq_none_iff]
    intro hm
    obtain ⟨p, hp, heq⟩ := List.mem_map.mp hm
    exact ((List.pairwise_append.mp h).2.2 p hp _ (List.mem_singleton_self _)).ne' heq
  next he => rw [find_append, find, if_neg he, find_nil, Option.or_none]

/-- The directory holds exactly these logs, newest first, all whole. -/
structure LogsAre (env : Env) (logs : List (FileId × List Entry)) : Prop where
  newestFirst : logs.Pairwise fun a b => b.1 < a.1
  ids : ∀ p ∈ logs, 1 ≤ p.1 ∧ p.1 < env.nextId
  stored : ∀ id, env.logs.lookup id = (SortedRun.find id logs).map fun records => ⟨records, false⟩

namespace LogsAre

variable {env env' : Env} {logs : List (FileId × List Entry)} {id : FileId} {records : List Entry}

section

variable (h : LogsAre env logs)
include h

theorem congr (hlogs : env'.logs = env.logs) (hn : env.nextId ≤ env'.nextId) :
    LogsAre env' logs :=
  ⟨h.newestFirst, fun p hp => ⟨(h.ids p hp).1, (h.ids p hp).2.trans_le hn⟩, hlogs ▸ h.stored⟩

theorem lookup_of_mem {p : FileId × List Entry} (hp : p ∈ logs) :
    env.logs.lookup p.1 = some ⟨p.2, false⟩ := by
  have hnodup : (keys logs).Nodup :=
    List.pairwise_map.mpr (h.newestFirst.imp fun hlt => hlt.ne')
  rw [h.stored, find_of_mem hnodup hp, Option.map_some]

theorem lt_nextId {log : Log} (hlog : env.logs.lookup id = some log) :
    id < env.nextId := by
  have hm : id ∈ keys logs := by
    by_contra hm
    rw [h.stored, (find_eq_none_iff _ _).mpr hm] at hlog
    cases hlog
  obtain ⟨p, hp, rfl⟩ := List.mem_map.mp hm
  exact (h.ids p hp).2

theorem create (hpos : 1 ≤ id) (hlt : id < env.nextId)
    (hnewest : ∀ p ∈ logs, p.1 < id) : LogsAre (env.createLog id) ((id, []) :: logs) where
  newestFirst := List.pairwise_cons.mpr ⟨hnewest, h.newestFirst⟩
  ids := List.forall_mem_cons.mpr ⟨⟨hpos, hlt⟩, h.ids⟩
  stored := fun id' => by
    have habsent : env.logs.lookup id = none := by
      rw [h.stored, Option.map_eq_none_iff, find_eq_none_iff]
      intro hm
      obtain ⟨p, hp, rfl⟩ := List.mem_map.mp hm
      exact (hnewest p hp).false
    by_cases he : id' = id
    · subst he
      simp [Env.createLog, find, habsent]
    · rw [find, if_neg he]
      exact (AList.lookup_insert_ne he).trans (h.stored id')

end

theorem append (h : LogsAre env ((id, records) :: logs)) (e : Entry) :
    LogsAre (env.appendLog id e) ((id, e :: records) :: logs) := by
  have hlog : env.logs.lookup id = some ⟨records, false⟩ := h.lookup_of_mem List.mem_cons_self
  obtain ⟨hnewest, hids, hstored⟩ := h
  unfold Env.appendLog
  rw [hlog]
  refine ⟨List.pairwise_cons.mpr (List.pairwise_cons.mp hnewest),
    List.forall_mem_cons.mpr (List.forall_mem_cons.mp hids), fun id' => ?_⟩
  by_cases he : id' = id
  · subst he
    simp [find]
  · have hother := hstored id'
    rw [find, if_neg he] at hother ⊢
    exact (AList.lookup_insert_ne he).trans hother

theorem removeOldest (h : LogsAre env (logs ++ [(id, records)])) :
    LogsAre { env with logs := env.logs.erase id } logs := by
  refine ⟨(List.pairwise_append.mp h.newestFirst).1, fun p hp => h.ids p (List.mem_append_left _ hp), fun id' => ?_⟩
  rw [find_dropOldest h.newestFirst]
  split
  next he =>
    subst he
    exact AList.lookup_erase _ _
  next he => exact (AList.lookup_erase_ne he).trans (h.stored id')

end LogsAre

namespace Engine

variable {n : Nat} {e : Engine n} {opts : LsmOptions} {env : Env}

/-- The log of the live memtable: not there yet during a rotation, one record
ahead between the append and the insert. -/
def liveLogs (e : Engine n) (live : List Entry) : List (FileId × List Entry) :=
  match e.writerPc with
  | .rotating _ _ => []
  | .rotated next _ => [(next, [])]
  | .inserting w => [(e.walId, w :: live)]
  | _ => [(e.walId, live)]

def frozenLogs (e : Engine n) (frozen : List Entry) : List (FileId × List Entry) :=
  match e.imm with
  | some _ => [(e.immWalId, frozen)]
  | none => []

/-- The log of a memtable that has become a table, until it is removed. -/
def retiringLogs (e : Engine n) (retired : List Entry) : List (FileId × List Entry) :=
  match e.background with
  | .retiring wal => [(wal, retired)]
  | _ => []

def expectedLogs (e : Engine n) (live frozen retired : List Entry) : List (FileId × List Entry) :=
  e.liveLogs live ++ (e.frozenLogs frozen ++ e.retiringLogs retired)

theorem liveLogs_of_plain (h : e.writerPc.plain = true) (live : List Entry) :
    e.liveLogs live = [(e.walId, live)] := by
  unfold liveLogs
  cases hpc : e.writerPc <;> simp_all [Client.plain]

theorem LoopTurn.sameFrozen {e e' : Engine n} (h : LoopTurn opts env e e') : e.SameFrozen e' := by
  cases h <;> exact ⟨rfl, rfl, rfl⟩

theorem LoopTurn.not_retiring {e e' : Engine n}
    (h : LoopTurn opts env e e') (wal : FileId) : e'.background ≠ .retiring wal := by
  cases h <;> exact nofun

theorem frozenLogs_none (h : e.imm = none) (frozen : List Entry) : e.frozenLogs frozen = [] := by
  simp [frozenLogs, h]

theorem frozenLogs_some {table : Memtable} (h : e.imm = some table)
    (frozen : List Entry) : e.frozenLogs frozen = [(e.immWalId, frozen)] := by
  simp [frozenLogs, h]

theorem retiringLogs_eq_nil (h : ∀ wal, e.background ≠ .retiring wal)
    (retired : List Entry) : e.retiringLogs retired = [] := by
  unfold retiringLogs
  split
  next wal hpc => exact absurd hpc (h wal)
  next => rfl

end Engine

namespace System

variable {n : Nat} {opts : LsmOptions} {listing : Listing} {s s' : System n}
  {live frozen flushed live' frozen' flushed' : List Entry} {c : Fin n} {e : Engine n} {pc : Client}
    {w : Entry} {table : Memtable}

/-- Writers take turns, and each stretch of the history that is not in a table
yet is in its log. -/
structure LogInv (s : System n) (live frozen flushed : List Entry) : Prop where
  locked : s.engine.Locked
  switching : ∀ next resume, s.engine.writerPc = .rotating next resume ∨
    s.engine.writerPc = .rotated next resume → live = []
  nextLog : ∀ next resume, s.engine.writerPc = .rotating next resume →
    1 ≤ next ∧ next < s.env.nextId ∧ ∀ id log, s.env.logs.lookup id = some log → id < next
  logs : ∃ retired, retired <+: flushed ∧ LogsAre s.env (s.engine.expectedLogs live frozen retired)

theorem LogInv.quiet (h : s.LogInv live frozen flushed) (hlocked : s'.engine.Locked)
    (hpc : s'.engine.writerPc = s.engine.writerPc ∨
      s.engine.writerPc.plain = true ∧ s'.engine.writerPc.plain = true)
    (hwal : s'.engine.walId = s.engine.walId) (hfrozen : s.engine.SameFrozen s'.engine)
    (hretiring : ∀ retired, s'.engine.retiringLogs retired = s.engine.retiringLogs retired)
    (hlogs : s'.env.logs = s.env.logs) (hn : s.env.nextId ≤ s'.env.nextId) :
    s'.LogInv live frozen flushed := by
  obtain ⟨_, hswitching, hnext, retired, hretired, hare⟩ := h
  have hlive : s'.engine.liveLogs live = s.engine.liveLogs live := by
    rcases hpc with hpc | ⟨hp, hp'⟩
    · unfold Engine.liveLogs
      rw [hpc, hwal]
    · rw [Engine.liveLogs_of_plain hp, Engine.liveLogs_of_plain hp', hwal]
  have hfrozenLogs : s'.engine.frozenLogs frozen = s.engine.frozenLogs frozen := by
    unfold Engine.frozenLogs
    rw [hfrozen.imm, hfrozen.immWalId]
  have hback : ∀ {pc : Client}, pc.plain = false → s'.engine.writerPc = pc → s.engine.writerPc = pc := by
    intro pc hplain hpc'
    rcases hpc with hpc | ⟨_, hp'⟩
    · exact hpc.symm.trans hpc'
    · rw [hpc', hplain] at hp'
      cases hp'
  refine ⟨hlocked, fun next resume hsw => ?_, fun next resume hrot => ?_, retired, hretired, ?_⟩
  · exact hswitching next resume (hsw.imp (hback rfl) (hback rfl))
  · obtain ⟨hpos, hlt, hnewest⟩ := hnext next resume (hback rfl hrot)
    exact ⟨hpos, hlt.trans_le hn, hlogs ▸ hnewest⟩
  · unfold Engine.expectedLogs
    rw [hlive, hfrozenLogs, hretiring]
    exact hare.congr hlogs hn

theorem Moves.eq_of_same (h : Moves s s' live frozen flushed live' frozen' flushed')
    (himm : s'.engine.imm = s.engine.imm) (htrace : written s'.trace = written s.trace) :
    live' = live ∧ frozen' = frozen ∧ flushed' = flushed := by
  cases h with
  | same => exact ⟨rfl, rfl, rfl⟩
  | insert _ trace => simp [htrace] at trace
  | rotate thawed imm => simp [himm, thawed] at imm
  | flush full imm => simp [himm, full] at imm

theorem LogInv.of_same (h : s'.LogInv live frozen flushed)
    (hm : Moves s s' live frozen flushed live' frozen' flushed')
    (himm : s'.engine.imm = s.engine.imm) (htrace : written s'.trace = written s.trace) :
    s'.LogInv live' frozen' flushed' := by
  obtain ⟨rfl, rfl, rfl⟩ := hm.eq_of_same himm htrace
  exact h

section

variable (h : s.LogInv live frozen flushed)
include h

theorem lookup_lt {id : FileId} {log : Log}
    (hlog : s.env.logs.lookup id = some log) : id < s.env.nextId := by
  obtain ⟨retired, _, hare⟩ := h.logs
  rw [hare.stored, Option.map_eq_some_iff] at hlog
  obtain ⟨records, hfind, _⟩ := hlog
  exact (hare.ids _ (mem_of_find hfind)).2

theorem LogInv.rotate (resume : Resume)
    (hc : (s.engine.clients c).locked = true) (hplain : (s.engine.clients c).plain = true)
    (hthawed : s.engine.imm = none) (hids : IdsBelow s.env)
    (hl : (s.rotate c resume).env.issued < idLimit) : (s.rotate c resume).LogInv [] live flushed := by
  have hlocked : (s.rotate c resume).engine.Locked :=
    (h.locked.keep (c := c) (by rw [hc]; rfl)).congr rfl rfl
  have hpc : (s.rotate c resume).engine.writerPc = .rotating s.env.fetchNextId.nextId resume := by
    have hlocked' : ((s.rotate c resume).engine.clients c).locked = true := by
      simp [System.rotate, Engine.setClient, Client.locked]
    rw [hlocked.writerPc_eq hlocked']
    simp [System.rotate, Engine.setClient]
  have hold : s.engine.writerPc.plain = true := by rw [h.locked.writerPc_eq hc, hplain]
  have hone : s.env.fetchNextId.nextId = s.env.nextId + 1 :=
    fetchNextId_nextId hids.counted (Nat.lt_of_succ_lt hl)
  have htwo : (s.rotate c resume).env.nextId = s.env.nextId + 1 + 1 := by
    rw [← hone]
    refine fetchNextId_nextId ?_ hl
    rw [hone]
    exact Nat.add_le_add_right hids.counted 1
  have hnewer : s.env.nextId ≤ (s.rotate c resume).env.nextId := by
    rw [htwo]
    exact Nat.le_add_right _ 2
  refine ⟨hlocked, fun _ _ _ => rfl, fun next resume' hrot => ?_, ?_⟩
  · obtain ⟨rfl, rfl⟩ := Client.rotating.inj (hpc.symm.trans hrot)
    rw [hone, htwo]
    refine ⟨Nat.le_add_left 1 _, Nat.lt_succ_self _, fun id log hlog => ?_⟩
    exact (lookup_lt h hlog).trans (Nat.lt_succ_self _)
  · obtain ⟨retired, hretired, hare⟩ := h.logs
    refine ⟨retired, hretired, ?_⟩
    have hsame : (s.rotate c resume).engine.expectedLogs [] live retired =
        s.engine.expectedLogs live frozen retired := by
      unfold Engine.expectedLogs
      rw [Engine.liveLogs_of_plain hold, Engine.frozenLogs_none hthawed]
      simp only [Engine.liveLogs, hpc]
      rfl
    rw [hsame]
    exact hare.congr rfl hnewer

theorem LogInv.writes (hlocked : s'.engine.Locked)
    (hswitch : ∀ next resume, s'.engine.writerPc = .rotated next resume → live' = [])
    (hrotating : ∀ next resume, s'.engine.writerPc ≠ .rotating next resume)
    (hfrozen : s.engine.SameFrozen s'.engine) (hbackground : s'.engine.background = s.engine.background)
    (hlogs : ∀ older, LogsAre s.env (s.engine.liveLogs live ++ older) →
      LogsAre s'.env (s'.engine.liveLogs live' ++ older)) : s'.LogInv live' frozen flushed := by
  obtain ⟨retired, hretired, hare⟩ := h.logs
  refine ⟨hlocked, fun next resume hsw => ?_, fun next resume hrot => absurd hrot (hrotating next resume),
    retired, hretired, ?_⟩
  · exact hswitch next resume (hsw.resolve_left (hrotating next resume))
  · have hold := hlogs _ hare
    have hsame : s'.engine.frozenLogs frozen ++ s'.engine.retiringLogs retired =
        s.engine.frozenLogs frozen ++ s.engine.retiringLogs retired := by
      unfold Engine.frozenLogs Engine.retiringLogs
      rw [hfrozen.imm, hfrozen.immWalId, hbackground]
    unfold Engine.expectedLogs
    rw [hsame]
    exact hold

end

theorem writerPc_setClient (h : (e.setClient c pc).Locked)
    (hpc : pc.locked = true) : (e.setClient c pc).writerPc = pc := by
  have hc : (e.setClient c pc).clients c = pc := Function.update_self ..
  rw [h.writerPc_eq (by rw [hc, hpc]), hc]

section

variable (h : s.LogInv live frozen flushed)
include h

theorem LogInv.createLog {c : Fin n} {next : FileId}
    {resume : Resume} (pc : s.engine.clients c = .rotating next resume)
    (hlocked : (s.engine.setClient c (.rotated next resume)).Locked) :
    (({ s with env := s.env.createLog next } : System n).setClient c
      (.rotated next resume)).LogInv live frozen flushed := by
  have hold : s.engine.writerPc = .rotating next resume := by
    rw [h.locked.writerPc_eq (by rw [pc]; rfl), pc]
  have hnew := writerPc_setClient hlocked rfl
  obtain ⟨hpos, hlt, hnewest⟩ := h.nextLog next resume hold
  refine h.writes hlocked (fun _ _ _ => h.switching next resume (Or.inl hold)) (fun _ _ hrot => ?_)
    ⟨rfl, rfl, rfl⟩ rfl fun older hare => ?_
  · cases hnew.symm.trans hrot
  · simp only [Engine.liveLogs, hold, List.nil_append] at hare
    simp only [Engine.liveLogs, System.setClient, hnew]
    exact hare.create hpos hlt fun p hp => hnewest p.1 _ (hare.lookup_of_mem hp)

theorem LogInv.switch {next : FileId}
    {resume : Resume} (pc : s.engine.clients c = .rotated next resume)
    (hlocked : e.Locked) (hplain : e.writerPc.plain = true) (hwal : e.walId = next)
    (hfrozen : s.engine.SameFrozen e) (hbackground : e.background = s.engine.background) :
    ({ s with engine := e } : System n).LogInv live frozen flushed := by
  have hold : s.engine.writerPc = .rotated next resume := by
    rw [h.locked.writerPc_eq (by rw [pc]; rfl), pc]
  have hlive := h.switching next resume (Or.inr hold)
  refine h.writes hlocked (fun _ _ _ => hlive) (fun _ _ hrot => ?_) hfrozen hbackground
    fun older hare => ?_
  · rw [hrot] at hplain
    cases hplain
  · simp only [Engine.liveLogs, hold] at hare
    rw [Engine.liveLogs_of_plain hplain, hwal, hlive]
    exact hare

theorem LogInv.append (pc : s.engine.clients c = .appending w)
    (hlocked : (s.engine.setClient c (.inserting w)).Locked) :
    (({ s with env := s.env.appendLog s.engine.walId w } : System n).setClient c
      (.inserting w)).LogInv live frozen flushed := by
  have hold : s.engine.writerPc = .appending w := by
    rw [h.locked.writerPc_eq (by rw [pc]; rfl), pc]
  have hnew := writerPc_setClient hlocked rfl
  refine h.writes hlocked (fun _ _ hsw => ?_) (fun _ _ hrot => ?_) ⟨rfl, rfl, rfl⟩ rfl
    fun older hare => ?_
  · cases hnew.symm.trans hsw
  · cases hnew.symm.trans hrot
  · simp only [Engine.liveLogs, hold] at hare
    simp only [Engine.liveLogs, System.setClient, hnew]
    exact hare.append w

theorem LogInv.insert {c : Fin n} {w : Entry}
    (pc : s.engine.clients c = .inserting w) (hlocked : (s.insert c w).engine.Locked) :
    (s.insert c w).LogInv (w :: live) frozen flushed := by
  have hold : s.engine.writerPc = .inserting w := by
    rw [h.locked.writerPc_eq (by rw [pc]; rfl), pc]
  refine h.writes hlocked nofun nofun ⟨rfl, rfl, rfl⟩ rfl fun older hare => ?_
  simp only [Engine.liveLogs, hold] at hare
  exact hare

theorem LogInv.plain (hlocked : s'.engine.Locked) (hset : s'.engine.clients = Function.update s.engine.clients c pc)
    (hc : (s.engine.clients c).plain = true) (hpc : pc.plain = true)
    (hwal : s'.engine.walId = s.engine.walId) (hfrozen : s.engine.SameFrozen s'.engine)
    (hbackground : s'.engine.background = s.engine.background) (henv : s'.env = s.env) :
    s'.LogInv live frozen flushed := by
  have hothers : ∀ d, d ≠ c → s'.engine.clients d = s.engine.clients d := fun d hd => by
    rw [hset, Function.update_of_ne hd]
  have hc' : (s'.engine.clients c).plain = true := by rw [hset, Function.update_self, hpc]
  refine h.quiet hlocked (h.locked.writerPc_step hlocked hothers hc hc') hwal hfrozen (fun _ => ?_)
    (by rw [henv]) (by rw [henv])
  unfold Engine.retiringLogs
  rw [hbackground]

end

section

variable (h : Moves s s' live frozen flushed live' frozen' flushed')
include h

theorem Moves.eq_of_rotate (hthawed : s.engine.imm = none) (himm : s'.engine.imm = some table) :
    live' = [] ∧ frozen' = live ∧ flushed' = flushed := by
  cases h with
  | same imm | insert imm => simp [himm, hthawed] at imm
  | flush full => simp [hthawed] at full
  | rotate => exact ⟨rfl, rfl, rfl⟩

theorem Moves.eq_of_insert (htrace : written s'.trace = w :: written s.trace) :
    live' = w :: live ∧ frozen' = frozen ∧ flushed' = flushed := by
  cases h with
  | insert _ trace =>
    obtain ⟨rfl, _⟩ := List.cons.inj (trace.symm.trans htrace)
    exact ⟨rfl, rfl, rfl⟩
  | same _ trace | rotate _ _ trace | flush _ _ trace => simp [trace] at htrace

theorem Moves.eq_of_flush (hfull : s.engine.imm = some table) (himm : s'.engine.imm = none) :
    live' = live ∧ frozen' = [] ∧ flushed' = frozen ++ flushed := by
  cases h with
  | same imm => simp [himm, hfull] at imm
  | insert imm => simp [himm, hfull] at imm
  | rotate thawed => simp [hfull] at thawed
  | flush => exact ⟨rfl, rfl, rfl⟩

end

theorem LogInv.client (h : s.LogInv live frozen flushed) {c : Fin n} (hids : IdsBelow s.env)
    (hl : s'.env.issued < idLimit) (hm : Moves s s' live frozen flushed live' frozen' flushed')
    (hstep : ClientStep opts s c s') : s'.LogInv live' frozen' flushed' := by
  have hlocked := hstep.locked h.locked
  cases hstep with
  | rotateWrite pc thawed | rotateFlush pc thawed =>
    obtain ⟨rfl, rfl, rfl⟩ := hm.eq_of_rotate thawed rfl
    refine h.rotate _ ?_ ?_ thawed hids hl <;> rcases pc with pc | pc <;> rw [pc] <;> rfl
  | createLog pc => exact (h.createLog pc hlocked).of_same hm rfl rfl
  | switchWrite pc =>
    have hpc := writerPc_setClient (e := { s.engine with walId := _ }) hlocked rfl
    exact (h.switch pc hlocked (congrArg Client.plain hpc) rfl ⟨rfl, rfl, rfl⟩ rfl).of_same hm rfl rfl
  | switchFlush pc => exact (h.switch pc hlocked rfl rfl ⟨rfl, rfl, rfl⟩ rfl).of_same hm rfl rfl
  | append pc => exact (h.append pc hlocked).of_same hm rfl rfl
  | insert pc =>
    obtain ⟨rfl, rfl, rfl⟩ := hm.eq_of_insert rfl
    exact h.insert pc hlocked
  | refuse pc =>
    refine (h.plain hlocked rfl ?_ rfl rfl ⟨rfl, rfl, rfl⟩ rfl rfl).of_same hm rfl rfl
    rcases pc with ⟨e, pc⟩ | ⟨e, pc⟩ | pc | pc <;> rw [pc] <;> rfl
  | proceed pc | flushWait pc =>
    refine (h.plain hlocked rfl ?_ rfl rfl ⟨rfl, rfl, rfl⟩ rfl rfl).of_same hm rfl rfl
    rcases pc with pc | pc <;> rw [pc] <;> rfl
  | acquire pc | stall pc | hit pc | miss pc | search pc | snapshot pc | rows pc
  | flushAcquire pc | flushNothing pc | flushStall pc | refuseCompact pc | request pc
  | settle pc =>
    refine (h.plain hlocked rfl ?_ rfl rfl ⟨rfl, rfl, rfl⟩ rfl rfl).of_same hm rfl rfl
    rw [pc]
    rfl

section

variable (h : s.LogInv live frozen flushed)
include h

theorem LogInv.quietBackground (hw : s.engine.SameWriter s'.engine)
    (hfrozen : s.engine.SameFrozen s'.engine) (hpc : ∀ wal, s.engine.background ≠ .retiring wal)
    (hpc' : ∀ wal, s'.engine.background ≠ .retiring wal) (hlogs : s'.env.logs = s.env.logs)
    (hn : s.env.nextId ≤ s'.env.nextId) : s'.LogInv live frozen flushed := by
  refine h.quiet (h.locked.congr hw.writer hw.clients) (Or.inl hw.writerPc_eq) hw.walId hfrozen
    (fun retired => ?_) hlogs hn
  rw [Engine.retiringLogs_eq_nil hpc, Engine.retiringLogs_eq_nil hpc']

theorem LogInv.performs {o : Op} (ho : o.ofBackground)
    (hids : IdsBelow s.env) (hl : (s.env.exec listing o).2.issued < idLimit) {pc : Background}
    (hpc : ∀ wal, s.engine.background ≠ .retiring wal) (hpc' : ∀ wal, pc ≠ .retiring wal) :
    (({ s with env := (s.env.exec listing o).2 } : System n).setBackground pc).LogInv
      live frozen flushed := by
  have ha := advances_exec listing ho s.env
  exact h.quietBackground ⟨rfl, rfl, rfl, rfl⟩ ⟨rfl, rfl, rfl⟩ hpc hpc' ha.logs
    (ha.nextId hids.counted hl)

theorem LogInv.turns {env : Env} {e e' : Engine n}
    (next : Engine.LoopTurn opts env e e') (hw : s.engine.SameWriter e)
    (hfrozen : s.engine.SameFrozen e) (hpc : ∀ wal, s.engine.background ≠ .retiring wal) :
    ({ s with engine := e' } : System n).LogInv live frozen flushed := by
  have hw' := next.sameWriter
  have hfrozen' := next.sameFrozen
  exact h.quietBackground
    ⟨hw'.writer.trans hw.writer, hw'.clients.trans hw.clients, hw'.walId.trans hw.walId,
      hw'.immWalId.trans hw.immWalId⟩
    ⟨hfrozen'.imm.trans hfrozen.imm, hfrozen'.immTableId.trans hfrozen.immTableId,
      hfrozen'.immWalId.trans hfrozen.immWalId⟩ hpc next.not_retiring rfl le_rfl

theorem LogInv.install {wal : FileId} {levels : Levels} (himm : s.engine.imm = some table)
    (hwal : wal = s.engine.immWalId) (hpc : ∀ wal, s.engine.background ≠ .retiring wal) :
    ({ s with engine := { s.engine with
      levels := levels, current := levels, imm := none, background := .retiring wal } }
        : System n).LogInv live [] (frozen ++ flushed) := by
  obtain ⟨hlocked, hswitching, hnext, retired, _, hare⟩ := h
  refine ⟨hlocked.congr rfl rfl, hswitching, hnext, frozen, List.prefix_append _ _, ?_⟩
  simp only [Engine.expectedLogs, Engine.frozenLogs_some himm, Engine.retiringLogs_eq_nil hpc,
    List.append_nil] at hare
  subst hwal
  exact hare

end

section

variable (h : s.LogInv live frozen flushed)
include h

theorem LogInv.retire {wal : FileId}
    (hpc : s.engine.background = .retiring wal) :
    (({ s with env := { s.env with logs := s.env.logs.erase wal } } : System n).setBackground
      .retired).LogInv live frozen flushed := by
  obtain ⟨hlocked, hswitching, hnext, retired, hretired, hare⟩ := h
  refine ⟨hlocked.congr rfl rfl, hswitching, fun next resume hrot => ?_, retired, hretired, ?_⟩
  · obtain ⟨hpos, hlt, hnewest⟩ := hnext next resume hrot
    refine ⟨hpos, hlt, fun id log hlog => hnewest id log ?_⟩
    by_cases he : id = wal
    · subst he
      exact absurd ((AList.lookup_erase _ _).symm.trans hlog) nofun
    · exact (AList.lookup_erase_ne he).symm.trans hlog
  · simp only [Engine.expectedLogs, Engine.retiringLogs, hpc] at hare
    rw [← List.append_assoc] at hare
    have hremoved := hare.removeOldest
    simp only [Engine.expectedLogs, setBackground, Engine.retiringLogs, List.append_nil]
    exact hremoved

theorem LogInv.background (hb : s.BackgroundInv True opts listing)
    (hids : IdsBelow s.env) (hl : s'.env.issued < idLimit)
    (hm : Moves s s' live frozen flushed live' frozen' flushed')
    (hstep : BackgroundStep opts listing s s') : s'.LogInv live' frozen' flushed' := by
  have hpromise := hb.promise
  have hother : ∀ {pc}, s.engine.background = pc → (∀ wal, pc ≠ .retiring wal) →
      ∀ wal, s.engine.background ≠ .retiring wal := fun hpc hne wal hr => hne wal (hpc.symm.trans hr)
  cases hstep with
  | flushInstalled pc =>
    rw [pc] at hpromise
    obtain ⟨table, himm, hwal, _⟩ := hpromise
    obtain ⟨rfl, rfl, rfl⟩ := hm.eq_of_flush himm rfl
    exact h.install himm hwal (hother pc nofun)
  | retire pc => exact (h.retire pc).of_same hm rfl rfl
  | flushOp pc | renameOp pc | compactOp pc | commitOp pc =>
    refine LogInv.of_same ?_ hm rfl rfl
    exact h.performs (hb.ofBackground (by rw [nextOp, pc])) hids hl (hother pc nofun) nofun
  | turn pc next | flushEnded pc next | runEnded pc _ next | flushFailed pc next
  | runExhausted pc next =>
    exact (h.turns next ⟨rfl, rfl, rfl, rfl⟩ ⟨rfl, rfl, rfl⟩ (hother pc nofun)).of_same hm
      next.sameFrozen.imm rfl
  | compactFailed pc next =>
    refine (h.turns next ⟨rfl, rfl, rfl, rfl⟩ ⟨rfl, rfl, rfl⟩ ?_).of_same hm next.sameFrozen.imm rfl
    rcases pc with pc | ⟨_, pc⟩ | pc <;> exact hother pc nofun
  | nextUndefined pc | written pc | renamed pc | installed pc | mark pc | nextWork pc =>
    refine LogInv.of_same ?_ hm rfl rfl
    exact h.quietBackground ⟨rfl, rfl, rfl, rfl⟩ ⟨rfl, rfl, rfl⟩ (hother pc nofun) nofun rfl le_rfl

theorem LogInv.step (hb : s.BackgroundInv True opts listing)
    (hl : Legal True s.shared) (hl' : s'.env.issued < idLimit)
    (hm : Moves s s' live frozen flushed live' frozen' flushed') {a : Action n}
    (hstep : Step opts listing s a s') : s'.LogInv live' frozen' flushed' := by
  obtain ⟨_, hpoint⟩ := hb.promise.point trivial hl
  cases hstep with
  | call pc running =>
    rename_i c call
    have henter := enter_cases (s.note (.invoke c call)) c call
    have hidle : ((s.note (.invoke c call)).engine.clients c).plain = true := congrArg Client.plain pc
    have hlocked := henter.locked pc (h.locked.congr rfl rfl)
    generalize (s.note (.invoke c call)).enter c call = s' at henter hm hlocked
    cases henter <;>
      exact (h.plain hlocked rfl hidle rfl rfl ⟨rfl, rfl, rfl⟩ rfl rfl).of_same hm rfl rfl
  | client next => exact h.client hpoint.ids hl' hm next
  | background next => exact h.background hb hpoint.ids hl' hm next
  | unlink | stop =>
    refine LogInv.of_same ?_ hm rfl rfl
    exact h.quiet (h.locked.congr rfl rfl) (Or.inl rfl) rfl ⟨rfl, rfl, rfl⟩ (fun _ => rfl) rfl le_rfl

end

end System

end KVStore
