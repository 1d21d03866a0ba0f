import KVStore.LsmWorld

namespace KVStore

open Lib SortedRun CrashProgram

namespace Env

structure PastAll (s : Env) (id : FileId) : Prop where
  positive : kFirstFileId ≤ id
  tables : ∀ id' f, s.tables.lookup id' = some f → id' < id
  logs : ∀ id' log, s.logs.lookup id' = some log → id' < id

theorem PastAll.congr {s s' : Env} {id : FileId} (h : s.PastAll id) (ht : s'.tables = s.tables)
    (hl : s'.logs = s.logs) : s'.PastAll id := by
  refine ⟨h.positive, ?_, ?_⟩
  · rw [ht]
    exact h.tables
  · rw [hl]
    exact h.logs

structure CounterPast (bound : FileId) (s : Env) : Prop where
  bound : bound ≤ s.nextId
  logs : ∀ id log, s.logs.lookup id = some log → id < s.nextId

end Env

/-- What is owed at each operation while ids last: an id that is taken, or put to
use, is past everything in the directory, and not below the bound; nor is the counter
of a manifest that is put into place. -/
def idsOwed (bound : FileId) (o : Op) (s : Env) : Prop :=
  s.issued < idLimit →
    match o with
    | .fetchNextId => bound ≤ s.nextId ∧ s.PastAll s.nextId
    | .renameTable id => bound ≤ id ∧ s.PastAll id
    | .createLog id => bound ≤ id ∧ s.PastAll id
    | .renameManifest => ∀ set, s.manifestTemp = some (some set) → bound ≤ set.nextId
    | _ => True

/-- The operations of recovery that take no id, put none to use, leave the tables alone
and do not move the counter. -/
def Op.surveys : Op → Prop
  | .listTemps | .removeTemp _ | .readManifest | .listTables | .openTable _ | .listLogs
  | .replayLog _ | .truncateLog _ | .removeLog _ | .loadNextId => True
  | _ => False

/-- Those, and the ones that seed the counter and sweep the orphans. -/
def Op.ofOpening (o : Op) : Prop :=
  o.surveys ∨ (∃ id, o = .storeNextId id) ∨ ∃ id, o = .removeTable id

theorem Op.surveys.ofOpening (o : Op) (h : o.surveys) : o.ofOpening := Or.inl h

/-- Demands on the operations of recovery that end with the ids, and that those which
only look around and sweep meet by themselves. -/
structure Owing (owed : Op → Env → Prop) : Prop where
  exhausted : ∀ o s, ¬ s.issued < idLimit → owed o s
  opening : ∀ o s, o.ofOpening → owed o s

theorem owing_ids (bound : FileId) : Owing (idsOwed bound) := by
  refine ⟨fun o s hl hlt => absurd hlt hl, ?_⟩
  rintro o s h _
  rcases h with h | ⟨id, rfl⟩ | ⟨id, rfl⟩
  · cases o <;> trivial
  · trivial
  · trivial

section CounterPast

variable {listing : Listing} {bound : FileId} {s : Env}

/-- The operations that leave the counter alone and add no log. -/
def Op.keepsCounter : Op → Prop
  | .storeNextId _ | .fetchNextId | .createLog _ => False
  | _ => True

theorem Op.surveys.keepsCounter (o : Op) (h : o.surveys) : o.keepsCounter := by
  cases o <;> trivial

theorem Op.plain.keepsCounter (o : Op) (h : o.plain) : o.keepsCounter := by
  cases o <;> trivial

theorem counterPast_exec {o : Op} (ho : o.keepsCounter) (hs : s.CounterPast bound) :
    (s.exec listing o).2.CounterPast bound := by
  obtain ⟨hbound, hlogs⟩ := hs
  have h := s.executes listing o
  generalize (s.exec listing o).2 = s' at h ⊢
  cases h with
  | aside _ _ logs nextId => exact ⟨nextId ▸ hbound, fun id log hlog => nextId ▸ hlogs id log (logs ▸ hlog)⟩
  | @truncate id found hfound =>
    refine ⟨hbound, fun id' log hlog => ?_⟩
    by_cases he : id' = id
    · subst he
      exact hlogs id' found hfound
    · exact hlogs id' log ((AList.lookup_insert_ne he).symm.trans hlog)
  | removeLog id =>
    refine ⟨hbound, fun id' log hlog => ?_⟩
    by_cases he : id' = id
    · subst he
      cases (AList.lookup_erase _ _).symm.trans hlog
    · exact hlogs id' log ((AList.lookup_erase_ne he).symm.trans hlog)
  | place | commit | removeTable => exact ⟨hbound, hlogs⟩
  | _ => cases ho

end CounterPast

namespace LsmStore

section Programs

variable {φ : Op → Prop} (hφ : ∀ o : Op, o.surveys → φ o)
include hφ

theorem all_sweepTempFiles : sweepTempFiles.All φ := by
  refine ⟨hφ _ trivial, fun names => Prog.All.forEach fun name _ => ?_⟩
  exact ⟨hφ _ trivial, fun _ => trivial⟩

theorem all_openLevel (nextId : FileId) (metas : List TableMeta) : (openLevel nextId metas).All φ := by
  induction metas with
  | nil => trivial
  | cons m metas ih =>
    rw [openLevel]
    split
    · trivial
    · refine ⟨hφ _ trivial, fun file => ?_⟩
      cases file with
      | none => trivial
      | some =>
        dsimp only
        split
        · trivial
        · exact all_andThen ih fun _ => trivial

theorem all_openLevels (nextId : FileId) (levels : List (List TableMeta)) :
    (openLevels nextId levels).All φ := by
  induction levels with
  | nil => trivial
  | cons level levels ih =>
    exact all_andThen (all_openLevel hφ nextId level) fun _ => all_andThen ih fun _ => trivial

section

variable (hstore : ∀ id, φ (.storeNextId id))
include hstore

theorem all_openFromManifest (hsweep : ∀ id, φ (.removeTable id))
    (set : LevelSet) : (openFromManifest set).All φ := by
  refine ⟨hstore _, fun _ => all_andThen (all_openLevels hφ _ _) fun levels => ?_⟩
  refine Prog.All.bind ⟨hφ _ trivial, fun ids => ?_⟩ fun _ => trivial
  exact Prog.All.forEach fun id _ => ⟨hsweep _, fun _ => trivial⟩

theorem all_passIds (ids : List FileId) : (passIds ids).All φ := by
  induction ids with
  | nil => trivial
  | cons id ids ih =>
    rw [passIds]
    split
    · trivial
    · exact ⟨hφ _ trivial, fun _ => ⟨hstore _, fun _ => ih⟩⟩

theorem all_adoptUnmanifestedLayout : adoptUnmanifestedLayout.All φ := by
  refine ⟨hφ _ trivial, fun found => ⟨hstore _, fun _ => all_andThen (all_passIds hφ hstore _) ?_⟩⟩
  refine fun _ => all_andThen ?_ fun _ => trivial
  induction (sortIds found).reverse with
  | nil => trivial
  | cons id ids ih =>
    refine ⟨hφ _ trivial, fun file => ?_⟩
    cases file with
    | none => trivial
    | some => exact all_andThen ih fun _ => trivial

end

theorem all_replayLogs (mem : Memtable) (ids : List FileId) : (replayLogs mem ids).All φ := by
  induction ids generalizing mem with
  | nil => trivial
  | cons id ids ih =>
    refine ⟨hφ _ trivial, fun log => ?_⟩
    dsimp only
    split
    · exact ⟨hφ _ trivial, fun _ => ih _⟩
    · exact ih _

theorem all_removeLogs (ids : List FileId) :
    (Prog.forEach ids fun id => .op (.removeLog id) .ret : LsmIo Unit).All φ :=
  Prog.All.forEach fun _ _ => ⟨hφ _ trivial, fun _ => trivial⟩

end Programs

variable {listing : Listing} {bound : FileId} {env : Env} {α β : Type} {owed : Op → Env → Prop}
    {p : LsmIo α} {next : FileId}

theorem requires_of_exhausted (hw : Owing owed) (p : LsmIo α) (h : ¬ env.issued < idLimit) :
    p.Requires (lsmMachine listing) owed env := by
  induction p generalizing env with
  | ret => trivial
  | op o k ih =>
    refine ⟨hw.exhausted o env h, ih _ fun hl => h ?_⟩
    exact (Env.issued_le_exec listing o env).trans_lt hl

theorem requires_bind (hw : Owing owed) {f : α → LsmIo β} (h : p.Requires (lsmMachine listing) owed env)
    (hf : ∀ a env', p.run (lsmMachine listing) env = (a, env') → env'.issued < idLimit →
      (f a).Requires (lsmMachine listing) owed env') : (p.bind f).Requires (lsmMachine listing) owed env := by
  apply h.bind
  by_cases hl : (p.run (lsmMachine listing) env).2.issued < idLimit
  · exact hf _ _ rfl hl
  · exact requires_of_exhausted hw _ hl

theorem requires_andThen (hw : Owing owed) {p : LsmIo (Except Failure α)}
    {f : α → LsmIo (Except Failure β)} (h : p.Requires (lsmMachine listing) owed env)
    (hf : ∀ a env', p.run (lsmMachine listing) env = (.ok a, env') → env'.issued < idLimit →
      (f a).Requires (lsmMachine listing) owed env') :
    (LsmIo.andThen p f).Requires (lsmMachine listing) owed env := by
  apply requires_bind hw h
  intro r env' hr hl
  cases r with
  | error => trivial
  | ok a => exact hf a env' hr hl

theorem requires_opening (hw : Owing owed) (h : p.All Op.ofOpening) :
    p.Requires (lsmMachine listing) owed env :=
  h.requires (fun o s ho => hw.opening o s ho) env

theorem ofOpening_store (id : FileId) : (Op.storeNextId id).ofOpening := Or.inr (Or.inl ⟨id, rfl⟩)

theorem ofOpening_sweep (id : FileId) : (Op.removeTable id).ofOpening := Or.inr (Or.inr ⟨id, rfl⟩)

theorem result_of_run {I : Env → Prop} {Q : α → Env → Prop} {a : α} {env' : Env}
    (h : Alone listing I Q p env) (hrun : p.run (lsmMachine listing) env = (a, env'))
    (hl : env'.issued < idLimit) : Q a env' := by
  have hresult := h.alone_run (fun o s hl => (Env.issued_le_exec listing o s).trans_lt hl)
  rw [hrun] at hresult
  exact hresult hl

theorem run_passIds {ids : List FileId} (h : ∀ id ∈ ids, id ≠ maxUInt32) :
    (passIds ids).run (lsmMachine listing) env =
      (.ok (), { env with nextId := ids.foldl (fun next id => max next (id + 1)) env.nextId }) := by
  induction ids generalizing env with
  | nil => rfl
  | cons id ids ih =>
    obtain ⟨hid, hids⟩ := List.forall_mem_cons.mp h
    rw [passIds, if_neg hid]
    exact ih hids

theorem foldl_passed (ids : List FileId) (start : FileId) :
    start ≤ ids.foldl (fun next id => max next (id + 1)) start ∧
      ∀ id ∈ ids, id < ids.foldl (fun next id => max next (id + 1)) start := by
  induction ids generalizing start with
  | nil => exact ⟨le_rfl, nofun⟩
  | cons id ids ih =>
    obtain ⟨hstart, hids⟩ := ih (max start (id + 1))
    refine ⟨(le_max_left _ _).trans hstart, fun id' hid => ?_⟩
    rcases List.mem_cons.mp hid with rfl | hid
    · exact (le_max_right start (id' + 1)).trans hstart
    · exact hids id' hid

variable {opts : LsmOptions} {levels : Levels} {nextId : FileId}
  {logs : List (FileId × List Entry)} {history : List Entry}

theorem Reading.le_nextId (h : Reading opts levels nextId logs history env) : nextId ≤ env.nextId := by
  obtain ⟨_, m, hm, hc⟩ := h.settled
  have hsame := Option.some.inj (hc.manifest.symm.trans h.durable.manifest.committed.manifest)
  have hn : m = nextId := congrArg LevelSet.nextId hsame
  exact hn ▸ hm

theorem pastAll_of_settled (h : Settled env levels) (hpast : env.CounterPast bound) : env.PastAll env.nextId :=
  ⟨h.ids.positive, fun id f hf => (h.ids.tables id f hf).2, hpast.logs⟩

theorem requires_commitManifest (levels : Levels) (h : bound ≤ next) :
    (commitManifest levels next).Requires (lsmMachine listing) (idsOwed bound) env := by
  refine ⟨fun _ => trivial, fun _ => trivial, fun _ => trivial, fun _ set hset => ?_, trivial⟩
  cases hset
  exact h

theorem requires_buildTable (opts : LsmOptions) (entries : List Entry) {id : FileId} (base : Levels)
    (hbound : bound ≤ id) (hpast : env.PastAll id) (hnext : bound ≤ next) :
    (buildTableUnlocked opts entries id base next).Requires (lsmMachine listing) (idsOwed bound)
      env := by
  refine ⟨fun _ => trivial, fun _ => trivial, ?_⟩
  split
  · trivial
  · refine ⟨fun _ => trivial, ?_⟩
    split
    · trivial
    · refine ⟨fun _ => ⟨hbound, hpast.congr rfl rfl⟩, ?_⟩
      dsimp only
      split
      · trivial
      · refine ⟨fun _ => trivial, ?_⟩
        dsimp only
        split
        · trivial
        · split
          · trivial
          · exact requires_andThen (owing_ids bound) (requires_commitManifest _ hnext) fun _ _ _ _ => trivial

theorem counterPast_fetch (h : Settled env levels) (hpast : env.CounterPast bound)
    (hl : env.issued + 1 < idLimit) : env.fetchNextId.CounterPast bound := by
  have hup : env.nextId < env.fetchNextId.nextId := by
    rw [fetchNextId_nextId h.ids.counted hl]
    exact Nat.lt_succ_self _
  exact ⟨hpast.bound.trans hup.le, fun id log hlog => (hpast.logs id log hlog).trans hup⟩

theorem requires_installReplayed (h : Reading opts levels nextId logs history env)
    (hpast : env.CounterPast bound) (mem : Memtable) :
    (installReplayed opts mem levels true).Requires (lsmMachine listing) (idsOwed bound) env := by
  have hall := pastAll_of_settled h.settled hpast
  rw [installReplayed]
  split
  · trivial
  · refine ⟨fun _ => ⟨hpast.bound, hall⟩, fun _ => trivial, ?_⟩
    by_cases hl : env.issued + 1 < idLimit
    · have hfetched := counterPast_fetch h.settled hpast hl
      exact requires_buildTable _ _ _ hpast.bound (hall.congr rfl rfl) hfetched.bound
    · exact requires_of_exhausted (owing_ids bound) _ hl

theorem counterPast_installReplayed (h : Reading opts levels nextId logs history env)
    (hpast : env.CounterPast bound) (mem : Memtable)
    (hl : ((installReplayed opts mem levels true).run (lsmMachine listing) env).2.issued < idLimit) :
    ((installReplayed opts mem levels true).run (lsmMachine listing) env).2.CounterPast bound := by
  rw [installReplayed] at hl ⊢
  split
  · exact hpast
  next hne =>
    rw [if_neg hne] at hl
    let build : LsmIo (Except Failure Levels) := buildTableUnlocked { opts with failAt := .none } mem.map
      env.nextId levels env.fetchNextId.nextId
    have hfetched : env.fetchNextId.issued < idLimit :=
      (issued_le_run listing build env.fetchNextId).trans_lt hl
    have hall : build.All Op.keepsCounter := all_buildTable Op.plain.keepsCounter _ _ trivial _ _
    exact hall.run_keeps (fun _ _ => counterPast_exec) (counterPast_fetch h.settled hpast hfetched)

/-- The last part of recovery: a new log gets the next id. -/
def openLog (levels : Levels) : LsmIo (Except Failure Recovered) :=
  .op .fetchNextId fun id => .op (.createLog id) fun _ => .ret (.ok ⟨levels, id⟩)

theorem requires_openLog (h : Settled env levels) (hpast : env.CounterPast bound) :
    (openLog levels).Requires (lsmMachine listing) (idsOwed bound) env := by
  have hall := pastAll_of_settled h hpast
  exact ⟨fun _ => ⟨hpast.bound, hall⟩, fun _ => ⟨hpast.bound, hall.congr rfl rfl⟩, trivial⟩

theorem requires_recoverDurable (hw : Owing owed) (h : Durable opts env levels nextId logs history)
    (hbound : bound ≤ nextId)
    (hreplayed : ∀ env, Reading opts levels nextId logs history env → env.CounterPast bound →
      (installReplayed opts (replayAll logs) levels true).Requires (lsmMachine listing) owed env)
    (hlog : ∀ env levels', Settled env levels' → env.CounterPast bound →
      (openLog levels').Requires (lsmMachine listing) owed env) :
    (recover opts).Requires (lsmMachine listing) owed env := by
  refine requires_bind hw (requires_opening hw (all_sweepTempFiles Op.surveys.ofOpening))
    fun _ env hrun hl => ?_
  have h : Durable opts env levels nextId logs history :=
    result_of_run (alone_sweepTempFiles (I := fun _ => True)
      (fun env => Durable opts env levels nextId logs history)
      (fun _ name hs => Durable.removeTemp hs name) (fun _ _ => trivial) h) hrun hl
  refine ⟨hw.opening _ _ (Or.inl trivial), ?_⟩
  rw [show (lsmMachine listing).exec .readManifest env = (some (levelSetOf levels nextId), env) from
    congrArg (·, env) h.manifest.committed.manifest]
  refine requires_andThen hw (requires_opening hw (all_openFromManifest Op.surveys.ofOpening
    ofOpening_store ofOpening_sweep _)) fun opened env hrun hl => ?_
  obtain ⟨hopened, hr⟩ := result_of_run (alone_openFromManifest h) hrun hl
  cases hopened
  refine ⟨hw.opening _ _ (Or.inl trivial), ?_⟩
  have hsort : sortIds ((lsmMachine listing).exec .listLogs env).1 = (keys logs).reverse :=
    hr.durable.logs.sortIds (listing.perm _)
  dsimp only
  rw [hsort]
  have hids : ∀ id ∈ (keys logs).reverse, id ≤ env.issued := fun id hid => by
    obtain ⟨p, hp, rfl⟩ := List.mem_map.mp (List.mem_reverse.mp hid)
    exact (hr.durable.logs.ids p hp).2
  have hpassed := @run_passIds listing env _ fun id hid => (Nat.lt_of_le_of_lt (hids id hid) hl).ne
  refine requires_andThen hw (requires_opening hw (all_passIds Op.surveys.ofOpening
    ofOpening_store _)) fun _ env' hrun hl' => ?_
  have hr' := (result_of_run (alone_passIds hr hids hl) hrun hl').2
  have hpast : env'.CounterPast bound := by
    obtain ⟨hstart, hall⟩ := foldl_passed (keys logs).reverse env.nextId
    cases hpassed.symm.trans hrun
    refine ⟨(hbound.trans hr.le_nextId).trans hstart, fun id log hlog => hall id ?_⟩
    rw [List.mem_reverse, ← hr.durable.logs.mem_keys, ← AList.mem_keys, ← AList.lookup_isSome]
    exact hlog ▸ rfl
  refine requires_bind hw (requires_opening hw (all_replayLogs Op.surveys.ofOpening _ _))
    fun mem env hrun hl => ?_
  obtain ⟨rfl, hr⟩ := result_of_run (alone_replayLogs hr') hrun hl
  have hpast : env.CounterPast bound := by
    have hkept := (all_replayLogs Op.surveys.keepsCounter Memtable.empty (keys logs).reverse).run_keeps
      (M := lsmMachine listing) (fun _ _ => counterPast_exec) hpast
    rwa [hrun] at hkept
  rw [foldl_keys_reverse (List.suffix_refl logs) hr.durable.logs.nodup fun _ => rfl]
  refine requires_andThen hw (hreplayed _ hr hpast) fun levels' env' hrun hl => ?_
  have hinstall : (installReplayed opts (replayAll logs) levels true).run (lsmMachine listing) env =
      (.ok levels', env') := hrun
  have hpast : env'.CounterPast bound := by
    have hkept := @counterPast_installReplayed listing _ _ _ _ _ _ _ hr hpast (replayAll logs)
    rw [hinstall] at hkept
    exact hkept hl
  have hinstalled : InstallResult opts (replayAll logs) logs history (.ok levels') env' :=
    result_of_run (alone_installReplayed hr) hinstall hl
  have hflushed : Flushed opts levels' logs history env' := hinstalled.2
  refine requires_bind hw (requires_opening hw (all_removeLogs Op.surveys.ofOpening _))
    fun _ env hrun' hl' => ?_
  have hlast := result_of_run (alone_removeLogs hflushed hl) hrun' hl'
  refine hlog _ _ hlast.settled ?_
  have hkept := (all_removeLogs Op.surveys.keepsCounter (keys logs).reverse).run_keeps
    (M := lsmMachine listing) (fun _ _ => counterPast_exec) hpast
  rwa [hrun'] at hkept

theorem requires_installFresh (opts : LsmOptions) (h : bound ≤ env.nextId) :
    (installReplayed opts .empty [[]] false).Requires (lsmMachine listing) (idsOwed bound) env :=
  ⟨fun _ => trivial, requires_andThen (owing_ids bound) (requires_commitManifest _ h)
    fun _ _ _ _ => trivial⟩

theorem requires_recoverFresh (hw : Owing owed) (h : Fresh env) (hbound : bound ≤ kFirstFileId)
    (hfresh : ∀ env, Fresh env → env.nextId = kFirstFileId →
      (installReplayed opts .empty [[]] false).Requires (lsmMachine listing) owed env)
    (hlog : ∀ env levels, Settled env levels → env.CounterPast bound →
      (openLog levels).Requires (lsmMachine listing) owed env) :
    (recover opts).Requires (lsmMachine listing) owed env := by
  refine requires_bind hw (requires_opening hw (all_sweepTempFiles Op.surveys.ofOpening))
    fun _ env hrun hl => ?_
  have h : Fresh env := result_of_run (alone_sweepTempFiles (I := fun _ => True) Fresh
    (fun _ name hs => hs.removeTemp name) (fun _ _ => trivial) h) hrun hl
  refine ⟨hw.opening _ _ (Or.inl trivial), ?_⟩
  rw [show (lsmMachine listing).exec .readManifest env = (none, env) from congrArg (·, env) h.manifest]
  refine requires_andThen hw (requires_opening hw (all_adoptUnmanifestedLayout Op.surveys.ofOpening
    ofOpening_store)) fun levels env hrun hl => ?_
  have hadopt : Alone listing (fun env => Recoverable opts env []) _ adoptUnmanifestedLayout _ :=
    alone_adoptUnmanifestedLayout h
  obtain ⟨hlevels, h, hnext⟩ := result_of_run hadopt hrun hl
  cases hlevels
  have hfound : ((lsmMachine listing).exec .listLogs env).1 = [] := by
    simp [lsmMachine, Env.exec, h.logs, recognised, System.order_nil]
  refine ⟨hw.opening _ _ (Or.inl trivial), ?_⟩
  rw [hfound]
  change (LsmIo.andThen (installReplayed opts .empty [[]] false) _).Requires _ _ env
  refine requires_andThen hw (hfresh _ h hnext) fun levels env' hrun hl => ?_
  have hinstalled : InstallResult opts .empty [] [] (.ok levels) env' :=
    result_of_run (alone_installFresh h hnext) hrun hl
  have hflushed : Flushed opts levels [] [] env' := hinstalled.2
  refine hlog _ _ hflushed.settled ⟨hbound.trans hflushed.settled.ids.positive, ?_⟩
  intro id log hlog
  have hnone := hflushed.logs.stored id
  rw [hlog] at hnone
  cases hnone

theorem requires_openStore (h : Recoverable opts env history)
    (hbound : bound ≤ (env.manifest.map LevelSet.nextId).getD kFirstFileId) :
    (openStore opts).Requires (lsmMachine listing) (idsOwed bound) env := by
  rw [openStore]
  split
  · trivial
  · cases h with
    | fresh manifest tables logs =>
      rw [manifest] at hbound
      exact requires_recoverFresh (owing_ids bound) ⟨manifest, tables, logs⟩ hbound
        (fun env _ hnext => requires_installFresh opts (hnext ▸ hbound))
        fun env levels => requires_openLog
    | durable h =>
      rw [h.manifest.committed.manifest] at hbound
      exact requires_recoverDurable (owing_ids bound) h hbound
        (fun env hr hpast => requires_installReplayed hr hpast _) fun env levels => requires_openLog

end LsmStore

/-- The tables recovery removes have ids below the bound. -/
def sweepOwed (bound : FileId) (o : Op) (s : Env) : Prop :=
  ∀ id, o = .removeTable id → ∀ f, s.tables.lookup id = some f → id < bound

def Env.TablesBelow (bound : FileId) (s : Env) : Prop :=
  ∀ id f, s.tables.lookup id = some f → id < bound

def Op.keepsTables (o : Op) : Prop := ∀ id, o ≠ .removeTable id

theorem tablesBelow_opening {listing : Listing} {bound : FileId} {o : Op} {s : Env} (ho : o.ofOpening)
    (hs : s.TablesBelow bound) : (s.exec listing o).2.TablesBelow bound := by
  have h := s.executes listing o
  generalize (s.exec listing o).2 = s' at h ⊢
  cases h with
  | aside _ tables => exact fun id f hf => hs id f (tables ▸ hf)
  | removeTable id =>
    intro id' f hf
    by_cases he : id' = id
    · subst he
      cases (AList.lookup_erase _ _).symm.trans hf
    · exact hs id' f ((AList.lookup_erase_ne he).symm.trans hf)
  | truncate | removeLog | storeNextId => exact hs
  | _ => rcases ho with ho | ⟨_, ho⟩ | ⟨_, ho⟩ <;> cases ho

namespace LsmStore

variable {listing : Listing} {bound : FileId} {env : Env} {α : Type}

theorem sweeps_opening {p : LsmIo α} (h : p.All Op.ofOpening) (hs : env.TablesBelow bound) :
    p.Requires (lsmMachine listing) (sweepOwed bound) env :=
  h.requires_of_kept (fun _ _ _ hs id _ f hf => hs id f hf)
    (fun _ _ ho hs => tablesBelow_opening ho hs) hs

theorem all_afterTables (opts : LsmOptions) (levels : Levels) (hadManifest : Bool) (found : List FileId) :
    (LsmIo.andThen (passIds (sortIds found)) fun _ =>
      (replayLogs Memtable.empty (sortIds found)).bind fun mem =>
      LsmIo.andThen (installReplayed opts mem levels hadManifest) fun levels' =>
      (Prog.forEach (sortIds found) fun id => .op (.removeLog id) .ret).bind fun _ =>
      .op .fetchNextId fun id =>
      .op (.createLog id) fun _ =>
      .ret (.ok ⟨levels', id⟩) : LsmIo (Except Failure Recovered)).All Op.keepsTables := by
  have hsurvey : ∀ o : Op, o.surveys → o.keepsTables := by
    rintro o ho id rfl
    cases ho
  have hplain : ∀ o : Op, o.plain → o.keepsTables := by
    rintro o ho id rfl
    cases ho
  have hrename : ∀ id, (Op.renameTable id).keepsTables := by rintro _ _ ⟨⟩
  have hinstall : ∀ mem, (installReplayed opts mem levels hadManifest).All Op.keepsTables := by
    intro mem
    rw [installReplayed]
    split
    · split
      · trivial
      · exact ⟨by rintro _ ⟨⟩, fun _ => all_andThen (all_commitManifest hplain _ _) fun _ => trivial⟩
    · refine ⟨by rintro _ ⟨⟩, fun id => ⟨by rintro _ ⟨⟩, fun next => ?_⟩⟩
      exact all_buildTable hplain _ _ (hrename id) _ _
  refine all_andThen (all_passIds hsurvey (fun _ => (by rintro _ ⟨⟩)) _) fun _ => ?_
  refine (all_replayLogs hsurvey _ _).bind fun mem => all_andThen (hinstall mem) fun levels' => ?_
  exact (all_removeLogs hsurvey _).bind fun _ => ⟨by rintro _ ⟨⟩, fun id => ⟨by rintro _ ⟨⟩, fun _ => trivial⟩⟩

theorem sweeps_openStore (opts : LsmOptions) (hs : env.TablesBelow bound) :
    (openStore opts).Requires (lsmMachine listing) (sweepOwed bound) env := by
  have hafter : ∀ {p : LsmIo (Except Failure Recovered)} {env : Env}, p.All Op.keepsTables →
      p.Requires (lsmMachine listing) (sweepOwed bound) env := fun h =>
    h.requires (fun o s ho id he => absurd he (ho id)) _
  rw [openStore]
  split
  · trivial
  · have hsweep : sweepTempFiles.All Op.ofOpening := all_sweepTempFiles fun _ ho => Or.inl ho
    refine (sweeps_opening hsweep hs).bind ?_
    have hs := hsweep.run_keeps (M := lsmMachine listing) (fun _ s ho hs => tablesBelow_opening ho hs) hs
    refine ⟨by rintro _ ⟨⟩, ?_⟩
    refine Prog.Requires.bind (sweeps_opening ?_ hs) ?_
    · split
      · exact all_openFromManifest Op.surveys.ofOpening ofOpening_store ofOpening_sweep _
      · exact all_adoptUnmanifestedLayout Op.surveys.ofOpening ofOpening_store
    · split
      · trivial
      · exact ⟨by rintro _ ⟨⟩, hafter (all_afterTables _ _ _ _)⟩

end LsmStore

end KVStore
