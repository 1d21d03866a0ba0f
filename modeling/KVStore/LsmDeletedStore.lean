import KVStore.WholeMerges
import KVStore.LsmFlushCall
import KVStore.LsmCompactRequest

namespace KVStore

open Lib SortedRun CrashProgram

variable {levels : Levels} {opts : LsmOptions} {pointer : List Key} {force : Bool} {c : Compaction}

theorem Levels.l0_eq_nil (h : ¬ levels.Holds 0) : levels.l0 = [] := by
  have hzero : levels.getD 0 [] = [] := not_not.mp h
  cases levels with
  | nil => rfl
  | cons => exact hzero

theorem Levels.not_pickCompaction_of_empty (h : levels.flatten = []) :
    pickCompaction opts levels pointer force ≠ .work c := by
  intro hpick
  obtain ⟨hfrom, first, hfirst, _⟩ := pickCompaction_spec hpick
  obtain ⟨source, hsource, hinputs⟩ := hfrom.source
  have hsub : first ∈ source := by
    rcases hinputs with hall | ⟨_, t, ht, hone⟩
    · exact hall ▸ hfirst
    · rw [hone] at hfirst
      exact List.mem_singleton.mp hfirst ▸ ht
  have hmem : first ∈ levels.flatten := List.mem_flatten.mpr ⟨source, List.mem_of_getElem? hsource, hsub⟩
  rw [h] at hmem
  exact List.not_mem_nil hmem

theorem Levels.Whole.l0_rebuild {outs : List SSTable} (hwhole : levels.Whole c)
    (hpick : pickCompaction opts levels pointer force = .work c) : (c.rebuild levels outs).l0 = [] := by
  obtain ⟨hfrom, _⟩ := pickCompaction_spec hpick
  obtain ⟨source, hsource, _⟩ := hfrom.source
  obtain ⟨above, target, deeper, hcut⟩ := exists_cut hsource
  refine l0_eq_nil (not_not.mpr ?_)
  rw [Compaction.getD_rebuild hcut]
  split
  next heq =>
    have hall : c.inputs = source := by
      rw [hwhole.inputs, List.getD_eq_getElem?_getD, hsource]
      rfl
    refine List.filter_eq_nil_iff.mpr fun t ht => ?_
    simp [Compaction.isRetired_of_mem (List.mem_append_left _ (hall ▸ ht))]
  next hne =>
    rw [if_neg (by omega)]
    exact not_not.mp (hwhole.above 0 (by omega))

namespace Background

def inRun : Background → Bool
  | .compacting _ _ _ | .renamingOutputs _ _ _ _ | .committing _ _ _ | .marking _ _ | .finishing _ => true
  | _ => false

/-- A forced run that merges whole levels, and has emptied L0 by its first merge. -/
def MergesDown (levels : Levels) : Background → Prop
  | .compacting run work _ | .renamingOutputs run work _ _ | .committing run work _ =>
    run.force = true ∧ levels.Whole work
  | .marking run _ | .finishing run => run.force = true ∧ levels.l0 = []
  | _ => False

end Background

namespace Engine

def tableCount {n : Nat} (e : Engine n) : Nat := (e.levels.map List.length).sum

theorem tableCount_eq_zero {n : Nat} {e : Engine n} (h : e.levels.flatten = []) : e.tableCount = 0 := by
  rw [tableCount, ← List.length_flatten, h]
  rfl

structure Vacant (e : Engine 1) : Prop where
  levels : e.levels.flatten = []
  thawed : e.imm = none
  requested : e.compactRequested = false

def Rests (e : Engine 1) : Prop :=
  e.background = .waiting ∨ e.background = .exited ∨ e.background = .undefined

structure HaltedEmpty (e : Engine 1) : Prop where
  halted : e.haltedByFailPoint = true
  levels : e.levels.flatten = []
  rests : e.background = .waiting ∨ e.background = .exited

/-- How far a `compact()` call has come. -/
inductive Serving (e : Engine 1) : Prop
  | called (pc : e.clients 0 = .compactCalled)
  | pending (pc : e.clients 0 = .waiting .compact) (requested : e.compactRequested = true)
      (rest : e.background.inRun = false)
  | merging (pc : e.clients 0 = .waiting .compact) (requested : e.compactRequested = true)
      (stage : e.background.MergesDown e.levels) (clean : e.levels.BottomClean)
  | done (pc : e.clients 0 = .waiting .compact) (vacant : e.Vacant) (rests : e.Rests)
  | failed (pc : e.clients 0 = .waiting .compact) (bad : e.backgroundStatus.isOk = false)

variable {opts : LsmOptions} {env : Env} {e e' : Engine 1}

theorem Serving.not_idle (h : e.Serving) : e.clients 0 ≠ .idle := by
  cases h with
  | called pc | pending pc | merging pc | done pc | failed pc =>
    rw [pc]
    nofun

theorem Serving.forget (h : e.Serving) (obsolete : List SSTable) :
    Serving { e with obsolete := obsolete } := by
  cases h with
  | called pc => exact .called pc
  | pending pc requested rest => exact .pending pc requested rest
  | merging pc requested stage clean => exact .merging pc requested stage clean
  | done pc vacant rests => exact .done pc ⟨vacant.levels, vacant.thawed, vacant.requested⟩ rests
  | failed pc bad => exact .failed pc bad

theorem Quiet.holds_unique {i j : Nat} (h : e.Quiet opts) (hi : e.levels.Holds i) (hj : e.levels.Holds j) :
    i = j :=
  @Tree.Quiet.holds_unique opts ⟨e.levels, e.compactPointer, 0⟩ i j h hi hj

theorem Vacant.turn (h : e.Vacant) (next : LoopTurn opts env e e') : e'.Vacant ∧ e'.Rests := by
  cases next with
  | exit => exact ⟨⟨h.levels, h.thawed, h.requested⟩, Or.inr (Or.inl rfl)⟩
  | sleep => exact ⟨⟨h.levels, h.thawed, h.requested⟩, Or.inl rfl⟩
  | undefined => exact ⟨⟨h.levels, h.thawed, h.requested⟩, Or.inr (Or.inr rfl)⟩
  | flush _ frozen => cases h.thawed.symm.trans frozen
  | halt _ _ requested => cases h.requested.symm.trans requested
  | compact _ _ pick =>
    obtain ⟨_, _, hpick⟩ := System.pickedFrom_of_pickStep pick
    exact absurd hpick (Levels.not_pickCompaction_of_empty h.levels)

theorem HaltedEmpty.turn (h : e.HaltedEmpty) (next : LoopTurn opts env e e') : e'.HaltedEmpty := by
  have hidle : e.idle = true := by simp [idle, h.halted]
  cases next with
  | exit => exact ⟨h.halted, h.levels, Or.inr rfl⟩
  | sleep => exact ⟨h.halted, h.levels, Or.inl rfl⟩
  | flush busy | halt busy | undefined busy | compact busy => cases hidle.symm.trans busy

theorem serving_of_turn (next : LoopTurn opts env e e') (pc : e.clients 0 = .waiting .compact)
    (hthawed : e.imm = none) (hrequested : e.compactRequested = true) (hstop : e.stopping = false)
    (hhalted : e.haltedByFailPoint = false) (hempty : e.Quiet opts → e.levels.flatten = [])
    (hwhole : e.levels.MergesWhole opts) (hclean : e.levels.BottomClean) : e'.Serving ∨ e'.HaltedEmpty := by
  cases next with
  | exit stopping => cases hstop.symm.trans stopping
  | sleep _ reason =>
    rcases reason with hidle | ⟨_, hnone, _⟩
    · refine Or.inl (.failed pc ?_)
      simpa [idle, hstop, hhalted] using hidle
    · cases hrequested.symm.trans hnone
  | flush _ frozen => cases hthawed.symm.trans frozen
  | halt _ _ _ quiet => exact Or.inr ⟨rfl, hempty quiet, Or.inl rfl⟩
  | undefined => exact Or.inl (.pending pc hrequested rfl)
  | compact _ _ pick =>
    obtain ⟨_, _, hpick⟩ := System.pickedFrom_of_pickStep pick
    exact Or.inl (.merging pc hrequested ⟨hrequested, Levels.whole_of_pick hwhole hpick⟩ hclean)

end Engine

namespace System

variable {opts : LsmOptions} {listing : Listing} {s s' : System 1}
  {prior live frozen flushed : List Entry} {older : List (Event 1)} {call : Call}

/-- No `compact()` raises its flag while a compaction is running. A `compact()` is
taken up on a tree that is not already quiet, unless it is empty, with no tombstone
in its deepest level, and no merge of a forced run takes a single table of a level
over its budget. -/
def compactsThoroughly (opts : LsmOptions) (s : System 1) : Action 1 → Bool
  | .client _ => !((s.engine.clients 0 matches .compactCalled) && s.engine.background.inRun)
  | .background =>
    match s.engine.background with
    | .waiting | .retired =>
      !(s.engine.compactRequested && s.engine.imm.isNone) ||
        decide ((s.engine.Quiet opts → s.engine.levels.flatten = []) ∧
          s.engine.levels.MergesWhole opts ∧ s.engine.levels.BottomClean)
    | .finishing run => !run.force || decide (s.engine.levels.MergesWhole opts)
    | _ => true
  | _ => true

theorem takesUp_of_compactsThoroughly (hcond : compactsThoroughly opts s .background = true)
    (pc : s.engine.background = .waiting ∨ s.engine.background = .retired)
    (hrequested : s.engine.compactRequested = true) (hthawed : s.engine.imm = none) :
    (s.engine.Quiet opts → s.engine.levels.flatten = []) ∧ s.engine.levels.MergesWhole opts ∧
      s.engine.levels.BottomClean := by
  refine of_decide_eq_true (?_ : decide _ = true)
  rcases pc with pc | pc <;>
    simpa [compactsThoroughly, pc, hrequested, hthawed] using hcond

section Background

theorem BackgroundStep.thawed {n : Nat} {s s' : System n} (h : BackgroundStep opts listing s s')
    (hthawed : s.engine.imm = none) : s'.engine.imm = none := by
  cases h with
  | turn _ next | flushEnded _ next | flushFailed _ next | compactFailed _ next | runEnded _ _ next
  | runExhausted _ next => exact next.sameContents.imm.trans hthawed
  | flushInstalled => rfl
  | _ => exact hthawed

theorem vacant_background (next : BackgroundStep opts listing s s') (h : s.engine.Vacant)
    (hrests : s.engine.Rests) : s'.engine.Vacant ∧ s'.engine.Rests := by
  cases next with
  | turn _ next => exact h.turn next
  | compactFailed pc =>
    rcases pc with pc | ⟨_, pc⟩ | pc <;> rcases hrests with hr | hr | hr <;> cases hr.symm.trans pc
  | _ pc => rcases hrests with hr | hr | hr <;> cases hr.symm.trans pc

theorem haltedEmpty_background (next : BackgroundStep opts listing s s') (h : s.engine.HaltedEmpty) :
    s'.engine.HaltedEmpty := by
  cases next with
  | turn _ next => exact h.turn next
  | compactFailed pc => rcases pc with pc | ⟨_, pc⟩ | pc <;> rcases h.rests with hr | hr <;> cases hr.symm.trans pc
  | _ pc => rcases h.rests with hr | hr <;> cases hr.symm.trans pc

theorem haltedEmpty_of_takesQuietRequest {a : Action 1} (hfail : opts.failAt = .none)
    (hcond : compactsThoroughly opts s a = true) (htakes : TakesQuietRequest opts s a)
    (hstep : s.step opts listing a = some s') : s'.engine.HaltedEmpty := by
  have hrunning : s.engine.haltedByFailPoint = false := by
    have hidle := htakes.2.2.1
    simp only [Engine.idle, Bool.or_eq_false_iff] at hidle
    exact hidle.2
  have hhalted := (step_halted_iff hfail hstep hrunning).mpr htakes
  obtain ⟨rfl, hpc, _, hthawed, hrequested, hquiet⟩ := htakes
  have hempty := (takesUp_of_compactsThoroughly hcond hpc hrequested hthawed).1 hquiet
  cases step_cases hfail hstep with
  | background next =>
    have hrests := (next.halted_quiet (fun h => absurd (hrunning.symm.trans h) (by decide)) hhalted).2
    refine ⟨hhalted, ?_, hrests⟩
    cases next with
    | turn _ next | flushEnded _ next => exact next.levels_eq.1 ▸ hempty
    | compactFailed pc => rcases pc with pc | ⟨_, pc⟩ | pc <;> rcases hpc with h | h <;> cases h.symm.trans pc
    | _ pc => rcases hpc with h | h <;> cases h.symm.trans pc

theorem haltedEmpty_step {a : Action 1} (hfail : opts.failAt = .none) (h : s.engine.HaltedEmpty)
    (hstep : s.step opts listing a = some s') : s'.engine.HaltedEmpty := by
  cases step_cases hfail hstep with
  | @call c call =>
    have hframe := (enter_cases (s.note (.invoke c call)) c call).untouched
    exact ⟨hframe.halted.trans h.halted, hframe.levels ▸ h.levels, hframe.background ▸ h.rests⟩
  | client next =>
    have hframe := next.untouched
    exact ⟨hframe.halted.trans h.halted, hframe.levels ▸ h.levels, hframe.background ▸ h.rests⟩
  | background next => exact haltedEmpty_background next h
  | unlink | stop => exact ⟨h.halted, h.levels, h.rests⟩

variable (hstop : s.engine.stopping = false) (hhalted : s.engine.haltedByFailPoint = false)
  (hthawed : s.engine.imm = none) (pc : s.engine.clients 0 = .waiting .compact)
  (hrequested : s.engine.compactRequested = true)

include hstop hhalted hthawed pc hrequested in
theorem pending_background (next : BackgroundStep opts listing s s')
    (hcond : compactsThoroughly opts s .background = true) (hrest : s.engine.background.inRun = false) :
    s'.engine.Serving ∨ s'.engine.HaltedEmpty := by
  cases next with
  | turn hpc next | flushEnded hpc next =>
    obtain ⟨hempty, hwhole, hclean⟩ :=
      takesUp_of_compactsThoroughly hcond (by simp [hpc]) hrequested hthawed
    exact Engine.serving_of_turn next pc hthawed hrequested hstop hhalted hempty hwhole hclean
  | flushFailed _ next =>
    refine Or.inl (.failed ?_ (next.status_eq ▸ Failure.bad _))
    exact next.clients_eq ▸ pc
  | flushOp | flushInstalled | retire => exact Or.inl (.pending pc hrequested rfl)
  | compactFailed hpc => rcases hpc with hpc | ⟨_, hpc⟩ | hpc <;> rw [hpc] at hrest <;> cases hrest
  | compactOp hpc | written hpc | renameOp hpc | renamed hpc | commitOp hpc | installed hpc | mark hpc
  | runEnded hpc | runExhausted hpc | nextUndefined hpc | nextWork hpc =>
    rw [hpc] at hrest
    cases hrest

theorem installs_whole (h : s.BackgroundInv True opts listing) (hl : Legal True s.shared)
    {run : CompactionRun} {work : Compaction} {levels : Levels}
    (hpc : s.engine.background = .committing run work (.ret (.ok levels)))
    (hwhole : s.engine.levels.Whole work) (hclean : s.engine.levels.BottomClean) :
    levels.l0 = [] ∧ levels.BottomClean := by
  obtain ⟨⟨_, _, hwork⟩, outs, hwrites, rfl⟩ := h.writes hl hpc
  exact ⟨hwhole.l0_rebuild hwork, Compaction.bottomClean_rebuild hwork hwhole hwrites hclean⟩

include hstop hthawed pc hrequested in
theorem merging_background (h : s.BackgroundInv True opts listing) (hl : Legal True s.shared)
    (next : BackgroundStep opts listing s s') (hcond : compactsThoroughly opts s .background = true)
    (hdead : ∀ key, visible (find key s.engine.levels.entries) = none)
    (hstage : s.engine.background.MergesDown s.engine.levels) (hclean : s.engine.levels.BottomClean) :
    s'.engine.Serving := by
  cases next with
  | compactFailed _ next | runExhausted _ next =>
    exact .failed (next.clients_eq ▸ pc) (next.status_eq ▸ Failure.bad _)
  | compactOp hpc | written hpc | renameOp hpc | renamed hpc | commitOp hpc | mark hpc =>
    rw [hpc] at hstage
    exact .merging pc hrequested hstage hclean
  | installed hpc =>
    rw [hpc] at hstage
    obtain ⟨hl0, hclean'⟩ := installs_whole h hl hpc hstage.2 hclean
    exact .merging pc hrequested ⟨hstage.1, hl0⟩ hclean'
  | nextUndefined => exact .pending pc hrequested rfl
  | nextWork hpc forced pick =>
    have hwhole : s.engine.levels.MergesWhole opts := by
      simpa [compactsThoroughly, hpc, forced] using hcond
    obtain ⟨_, _, hpick⟩ := pickedFrom_of_pickStep pick
    exact .merging pc hrequested ⟨forced, Levels.whole_of_pick hwhole hpick⟩ hclean
  | runEnded hpc reason next =>
    rw [hpc] at hstage
    have hquiet : s.engine.Quiet opts := by
      rcases reason with hforce | hs | hquiet
      · cases hstage.1.symm.trans hforce
      · cases hstop.symm.trans hs
      · exact hquiet
    have hempty : s.engine.levels.flatten = [] :=
      Levels.flatten_eq_nil_of_dead h.shaped (fun _ _ => hquiet.holds_unique) hstage.2 hclean hdead
    have hvacant : s.engine.cleared.Vacant := ⟨hempty, hthawed, rfl⟩
    obtain ⟨hvacant', hrests⟩ := hvacant.turn next
    exact .done (next.clients_eq ▸ pc) hvacant' hrests
  | turn hpc | flushOp hpc | flushFailed hpc | flushInstalled hpc | retire hpc | flushEnded hpc =>
    rw [hpc] at hstage
    exact hstage.elim

end Background

/-- The trace when the `flush()` has returned, when `compact()` is called after it,
and when that has returned. -/
def flushReturned (older : List (Event 1)) : List (Event 1) :=
  .respond 0 (.status .ok) :: .invoke 0 .flush :: older

def compactEntered (older : List (Event 1)) : List (Event 1) := .invoke 0 .compact :: flushReturned older

def compactReturned (older : List (Event 1)) : List (Event 1) :=
  .respond 0 (.status .ok) :: compactEntered older

structure Stages (older : List (Event 1)) (s : System 1) : Prop where
  flushed : s.trace = flushReturned older → s.engine.imm = none ∧ s.engine.clients 0 = .idle
  entered : s.trace = compactEntered older → s.engine.imm = none ∧ s.engine.Serving
  returned : s.trace = compactReturned older →
    s.engine.Vacant ∧ s.engine.Rests ∧ s.engine.clients 0 = .idle

theorem dead_levels (hh : History prior s live frozen flushed) (hf : Flushes prior s frozen flushed)
    (htrace : s.trace = compactEntered older)
    (hdead : ∀ key, visible (find key (written older ++ prior)) = none) (key : Key) :
    visible (find key s.engine.levels.entries) = none := by
  have hkept := hf.kept
  rw [htrace] at hkept
  have hsuffix : written older ++ prior <:+ flushed :=
    @FlushesKept.kept 1 prior flushed [.invoke 0 .compact] (.invoke 0 .flush :: older) 0 .ok hkept rfl rfl
  have hall := hh.all
  rw [htrace] at hall
  have hlength := congrArg List.length hall
  simp only [List.length_append, compactEntered, flushReturned, written] at hlength
  have hle := hsuffix.length_le
  rw [List.length_append] at hle
  have heq : written older ++ prior = flushed := hsuffix.eq_of_length (by rw [List.length_append]; omega)
  rw [hh.contents.levels key, ← heq]
  exact hdead key

/-- A client step that ends a trace with an Ok answered a call that waited, or a
`flush()` of an empty memtable. -/
theorem ClientStep.answers_ok (h : ClientStep opts s 0 s')
    (hnew : s'.trace = .respond 0 (.status .ok) :: .invoke 0 call :: older) (hsame : s'.trace ≠ s.trace) :
    s.trace = .invoke 0 call :: older ∧ s'.engine.imm = s.engine.imm ∧
      s'.engine.compactRequested = s.engine.compactRequested ∧ s'.engine.clients 0 = .idle ∧
      (s.engine.clients 0 = .flushChecking ∧ s.engine.imm = none ∨
        s.engine.settled = true ∧ s.engine.backgroundStatus.isOk = true ∧
          ∃ call, s.engine.clients 0 = .waiting call) := by
  cases h with
  | refuse pc bad | refuseCompact pc bad =>
    simp only [respond, note, release, setClient, List.cons.injEq, Event.respond.injEq, Response.status.injEq,
      true_and] at hnew
    rw [hnew.1] at bad
    cases bad
  | flushNothing pc _ thawed =>
    exact ⟨(List.cons.inj hnew).2, rfl, rfl, setClient_self _ 0 .idle, Or.inl ⟨pc, thawed⟩⟩
  | settle pc settled =>
    obtain ⟨hst, htrace⟩ := List.cons.inj hnew
    have hok : s.engine.backgroundStatus = .ok := by injection hst with _ hr; injection hr
    exact ⟨htrace, rfl, rfl, setClient_self _ 0 .idle, Or.inr ⟨settled, hok ▸ rfl, _, pc⟩⟩
  | insert | hit | miss | search | rows =>
    injection hnew with hhead htail
    first | cases htail | cases hhead
  | _ => exact absurd rfl hsame

theorem Flushes.thawed_of_settled (h : Flushes prior s frozen flushed) (hc : s.engine.clients 0 ≠ .idle)
    (hok : s.engine.backgroundStatus.isOk = true) (hsettled : s.engine.settled = true) :
    s.engine.imm = none ∧ s.engine.compactRequested = false := by
  simp only [Engine.settled, h.busy hc hok, Bool.false_or, Bool.and_eq_true, Option.isNone_iff_eq_none,
    Bool.not_eq_true'] at hsettled
  exact ⟨hsettled.1.2, hsettled.2⟩

theorem serving_client (h : s.engine.Serving) (next : ClientStep opts s 0 s')
    (htrace : s'.trace = s.trace) (hcond : compactsThoroughly opts s (.client 0) = true) :
    s'.engine.imm = s.engine.imm ∧ s'.engine.Serving := by
  have hwaiting : s.engine.clients 0 ≠ .waiting .compact := by
    intro hpc
    cases next with
    | settle => exact List.cons_ne_self _ _ htrace
    | rotateWrite pc | proceed pc | flushWait pc | rotateFlush pc =>
      rcases pc with pc | pc <;> cases hpc.symm.trans pc
    | refuse pc => rcases pc with ⟨_, pc⟩ | ⟨_, pc⟩ | pc | pc <;> cases hpc.symm.trans pc
    | _ pc => cases hpc.symm.trans pc
  cases h with
  | pending pc | merging pc | done pc | failed pc => exact absurd pc hwaiting
  | called hpc =>
    cases next with
    | request =>
      have hrest : s.engine.background.inRun = false := by
        simpa [compactsThoroughly, hpc] using hcond
      exact ⟨rfl, .pending (setClient_self _ 0 _) rfl hrest⟩
    | refuseCompact => exact absurd htrace (List.cons_ne_self _ _)
    | rotateWrite pc | proceed pc | flushWait pc | rotateFlush pc =>
      rcases pc with pc | pc <;> cases hpc.symm.trans pc
    | refuse pc => rcases pc with ⟨_, pc⟩ | ⟨_, pc⟩ | pc | pc <;> cases hpc.symm.trans pc
    | _ pc => cases hpc.symm.trans pc

theorem Stages.client (h : Stages older s) (hf : Flushes prior s frozen flushed)
    (next : ClientStep opts s 0 s') (hcond : compactsThoroughly opts s (.client 0) = true) :
    Stages older s' := by
  have hbusy := next.not_idle
  have hframe := next.untouched
  refine ⟨fun htrace => ?_, fun htrace => ?_, fun htrace => ?_⟩
  · by_cases hsame : s'.trace = s.trace
    · exact absurd (h.flushed (hsame.symm.trans htrace)).2 hbusy
    · obtain ⟨_, himm, _, hidle, hhow⟩ := next.answers_ok htrace hsame
      rw [himm]
      refine ⟨?_, hidle⟩
      rcases hhow with ⟨_, hthawed⟩ | ⟨hsettled, hok, _⟩
      · exact hthawed
      · exact (hf.thawed_of_settled hbusy hok hsettled).1
  · obtain ⟨events, hevents, hnot⟩ := next.events
    cases events with
    | nil =>
      obtain ⟨hthawed, hserving⟩ := h.entered (hevents.symm.trans htrace)
      obtain ⟨himm, hserving'⟩ := serving_client hserving next hevents hcond
      exact ⟨himm.trans hthawed, hserving'⟩
    | cons ev =>
      have hhead : ev = .invoke 0 .compact := (List.cons.inj (hevents.symm.trans htrace)).1
      exact absurd (hhead ▸ trivial) (hnot ev List.mem_cons_self)
  · by_cases hsame : s'.trace = s.trace
    · exact absurd (h.returned (hsame.symm.trans htrace)).2.2 hbusy
    · obtain ⟨hold, himm, hreq, hidle, hhow⟩ := next.answers_ok htrace hsame
      obtain ⟨hthawed, hserving⟩ := h.entered hold
      obtain ⟨hsettled, hok, call, hwaits⟩ := hhow.resolve_left fun hpc => by
        cases hserving with
        | called pc | pending pc | merging pc | done pc | failed pc => cases pc.symm.trans hpc.1
      have hcleared := (hf.thawed_of_settled hbusy hok hsettled).2
      cases hserving with
      | called pc => cases pc.symm.trans hwaits
      | pending _ requested | merging _ requested => cases hcleared.symm.trans requested
      | failed _ bad => cases hok.symm.trans bad
      | done _ vacant rests =>
        refine ⟨⟨hframe.levels ▸ vacant.levels, himm.trans vacant.thawed, hreq.trans vacant.requested⟩, ?_, hidle⟩
        unfold Engine.Rests
        rw [hframe.background]
        exact rests

theorem Stages.enter (h : Stages older s) (next : EnterStep (s.note (.invoke 0 call)) 0 call s') :
    Stages older s' := by
  have hanswers {rest : List (Event 1)} : s'.trace ≠ .respond 0 (.status .ok) :: rest := by
    intro htrace
    cases next with
    | refuse bad =>
      injection htrace with hhead
      injection hhead with _ hr
      injection hr with hst
      rw [hst] at bad
      cases bad
    | _ =>
      injection htrace with hhead
      cases hhead
  refine ⟨fun htrace => absurd htrace hanswers, fun htrace => ?_, fun htrace => absurd htrace hanswers⟩
  cases next with
  | refuse | absent =>
    injection htrace with hhead
    cases hhead
  | compact => exact ⟨(h.flushed (List.cons.inj htrace).2).1, .called (setClient_self _ 0 _)⟩
  | write writes =>
    injection htrace with hhead
    injection hhead with _ hcall
    rw [hcall] at writes
    cases writes
  | get | scan | flush | wait =>
    injection htrace with hhead
    injection hhead with _ hcall
    cases hcall

section

variable (hdead : ∀ key, visible (find key (written older ++ prior)) = none)
include hdead

theorem Stages.background (h : Stages older s) (hb : s.BackgroundInv True opts listing)
    (hl : Legal True s.shared) (hh : History prior s live frozen flushed) (hf : Flushes prior s frozen flushed)
    (next : BackgroundStep opts listing s s') (hcond : compactsThoroughly opts s .background = true) :
    s'.engine.HaltedEmpty ∨ Stages older s' := by
  have htrace : s'.trace = s.trace := next.contents.1
  have hclients : s'.engine.clients 0 = s.engine.clients 0 := congrFun next.clients_eq 0
  have hserving : s.trace = compactEntered older →
      s'.engine.HaltedEmpty ∨ s'.engine.imm = none ∧ s'.engine.Serving := by
    intro hentered
    obtain ⟨hthawed, hserving⟩ := h.entered hentered
    have hbusy := hserving.not_idle
    have hstop : s.engine.stopping = false := by
      by_contra hs
      exact hbusy (hf.stopped (by simpa using hs) 0)
    have hdead' := dead_levels hh hf hentered hdead
    refine Or.symm (?_ : (_ ∧ _) ∨ _)
    cases hserving with
    | called pc => exact Or.inl ⟨next.thawed hthawed, .called (hclients.trans pc)⟩
    | pending pc requested rest =>
      refine (pending_background hstop hf.running hthawed pc requested next hcond rest).imp_left fun h' => ?_
      exact ⟨next.thawed hthawed, h'⟩
    | merging pc requested stage clean =>
      exact Or.inl ⟨next.thawed hthawed,
        merging_background hstop hthawed pc requested hb hl next hcond hdead' stage clean⟩
    | done pc vacant rests =>
      obtain ⟨hvacant, hrests⟩ := vacant_background next vacant rests
      exact Or.inl ⟨next.thawed hthawed, .done (hclients.trans pc) hvacant hrests⟩
    | failed pc bad => exact Or.inl ⟨next.thawed hthawed, .failed (hclients.trans pc) (next.status_mono bad)⟩
  by_cases hentered : s.trace = compactEntered older
  · refine (hserving hentered).imp_right fun h' => ⟨fun ht => ?_, fun _ => h', fun ht => ?_⟩
    · exact ⟨h'.1, hclients.trans (h.flushed (htrace.symm.trans ht)).2⟩
    · rw [htrace, hentered] at ht
      injection ht with hhead
      cases hhead
  · refine Or.inr ⟨fun ht => ?_, fun ht => absurd (htrace.symm.trans ht) hentered, fun ht => ?_⟩
    · obtain ⟨hthawed, hidle⟩ := h.flushed (htrace.symm.trans ht)
      exact ⟨next.thawed hthawed, hclients.trans hidle⟩
    · obtain ⟨hvacant, hrests, hidle⟩ := h.returned (htrace.symm.trans ht)
      obtain ⟨hvacant', hrests'⟩ := vacant_background next hvacant hrests
      exact ⟨hvacant', hrests', hclients.trans hidle⟩

theorem stages_step {a : Action 1} (hfail : opts.failAt = .none) (h : Stages older s)
    (hb : s.BackgroundInv True opts listing) (hl : Legal True s.shared)
    (hh : History prior s live frozen flushed) (hf : Flushes prior s frozen flushed)
    (hcond : compactsThoroughly opts s a = true) (hstep : s.step opts listing a = some s') :
    s'.engine.HaltedEmpty ∨ Stages older s' := by
  cases step_cases hfail hstep with
  | @call c call =>
    obtain rfl : c = 0 := Subsingleton.elim _ _
    exact Or.inr (h.enter (enter_cases (s.note (.invoke 0 call)) 0 call))
  | @client c _ next =>
    obtain rfl : c = 0 := Subsingleton.elim _ _
    exact Or.inr (h.client hf next hcond)
  | background next => exact h.background hdead hb hl hh hf next hcond
  | unlink =>
    refine Or.inr ⟨h.flushed, fun ht => ?_, fun ht => ?_⟩
    · exact (h.entered ht).imp_right (·.forget _)
    · obtain ⟨hvacant, hrests, hidle⟩ := h.returned ht
      exact ⟨⟨hvacant.levels, hvacant.thawed, hvacant.requested⟩, hrests, hidle⟩
  | stop quiet =>
    refine Or.inr ⟨h.flushed, fun ht => ?_, fun ht => ?_⟩
    · exact absurd (quiet 0) (h.entered ht).2.not_idle
    · obtain ⟨hvacant, hrests, hidle⟩ := h.returned ht
      exact ⟨⟨hvacant.levels, hvacant.thawed, hvacant.requested⟩, hrests, hidle⟩

theorem stages_run {env : Env} {r : Recovered} {past : List (System 1 × Action 1)}
    (hfail : opts.failAt = .none) (hopen : World.Reachable opts listing (.running (opened 1 env r) prior))
    (hrun : Run opts listing (opened 1 env r) past s) (hids : s.env.issued < idLimit)
    (hcond : ∀ x ∈ past, compactsThoroughly opts x.1 x.2 = true) :
    s.engine.HaltedEmpty ∨ s.BackgroundInv True opts listing ∧ ∃ live frozen flushed,
      History prior s live frozen flushed ∧ Flushes prior s frozen flushed ∧ Stages older s := by
  induction hrun with
  | start =>
    obtain ⟨⟨live, frozen, flushed, hinv⟩, _⟩ := hopen.inv hfail hids
    refine Or.inr ⟨hinv.background, live, frozen, flushed, hinv.history, flushes_opened, ?_⟩
    exact ⟨by rintro ⟨⟩, by rintro ⟨⟩, by rintro ⟨⟩⟩
  | @step past s s' a _ next ih =>
    simp only [List.mem_cons, forall_eq_or_imp] at hcond
    have hstep := step_cases hfail next
    have hbefore : s.env.issued < idLimit := hstep.issued_le.trans_lt hids
    rcases ih hbefore hcond.2 with hhalted | ⟨hb, live, frozen, flushed, hh, hf, hstages⟩
    · exact Or.inl (haltedEmpty_step hfail hhalted next)
    have hone := Levels.oneTablePerId_of_nodup (hb.ids trivial).nodup
    obtain ⟨live', frozen', flushed', hh', hm⟩ := history_step hh hb hone (fun _ => hbefore) hstep
    by_cases htakes : TakesQuietRequest opts s a
    · exact Or.inl (haltedEmpty_of_takesQuietRequest hfail hcond.1 htakes next)
    · refine (stages_step hdead hfail hstages hb (fun _ => hbefore) hh hf hcond.1 next).imp_right fun h' => ?_
      exact ⟨hb.step hfail hone (fun _ => hbefore) (fun _ => hids) hstep, live', frozen', flushed', hh',
        hf.step hfail hh hh' hm next htakes, h'⟩

end

/-- Where every `compact()` was thorough, a `flush()` and a `compact()` that return
Ok on a store with no live key leave no table. -/
theorem deleted_store_compacts_to_nothing {env : Env} {r : Recovered} {past : List (System 1 × Action 1)}
    (hfail : opts.failAt = .none) (hopen : World.Reachable opts listing (.running (opened 1 env r) prior))
    (hrun : Run opts listing (opened 1 env r) past s) (hids : s.env.issued < idLimit)
    (hcond : ∀ x ∈ past, compactsThoroughly opts x.1 x.2 = true)
    (htrace : s.trace = .respond 0 (.status .ok) :: .invoke 0 .compact ::
      .respond 0 (.status .ok) :: .invoke 0 .flush :: older)
    (hdead : ∀ key, visible (SortedRun.find key (written older ++ prior)) = none) :
    s.engine.tableCount = 0 := by
  refine Engine.tableCount_eq_zero ?_
  rcases stages_run hdead hfail hopen hrun hids hcond with hhalted | ⟨_, _, _, _, _, _, hstages⟩
  · exact hhalted.levels
  · exact (hstages.returned htrace).1.levels

theorem dead_of_entries {history : List Entry}
    (h : ∀ e ∈ history, visible (find e.1 history) = none) (key : Key) :
    visible (find key history) = none := by
  cases hfind : find key history with
  | none => rfl
  | some w =>
    have hmem := mem_of_find hfind
    exact hfind ▸ h (key, w) hmem

def flushCall (background : Nat) : List (Action 1) :=
  calling 0 .flush 4 ++ List.replicate background .background ++ [.client 0]

def compactCall (background : Nat) : List (Action 1) :=
  [.call 0 .compact, .client 0] ++ List.replicate background .background ++ [.client 0]

/-- Two keys merged into L1, both removed, and their tombstones merged on top. -/
theorem deleted_store_compacts_to_nothing_two_keys :
    ∃ past s start older, fresh 1 { l0CompactionTrigger := 2 } .asStored = some start ∧
      Run { l0CompactionTrigger := 2 } .asStored start past s ∧ (written older).length = 4 ∧
      s.trace = .respond 0 (.status .ok) :: .invoke 0 .compact ::
        .respond 0 (.status .ok) :: .invoke 0 .flush :: older ∧
      s.engine.tableCount = 0 := by
  let opts : LsmOptions := { l0CompactionTrigger := 2 }
  let actions : List (Action 1) := calling 0 (.put (text "a") (text "x")) 4 ++ flushCall 13 ++
    calling 0 (.put (text "b") (text "x")) 4 ++ flushCall 40 ++ calling 0 (.remove (text "a")) 4 ++
    calling 0 (.remove (text "b")) 4 ++ flushCall 13 ++ compactCall 20
  have h : ∃ r ∈ runFresh 1 opts actions, r.2.trace = compactReturned (r.2.trace.drop 4) ∧
      (written (r.2.trace.drop 4)).length = 4 ∧ r.2.env.issued < idLimit ∧
      (∀ x ∈ r.1, compactsThoroughly opts x.1 x.2 = true) ∧
      ∀ e ∈ written (r.2.trace.drop 4) ++ [], visible (find e.1 (written (r.2.trace.drop 4) ++ [])) = none := by
    decide +kernel
  obtain ⟨_, _, past, s, hstart, hrun, htrace, hlength, hids, hcond, hdead⟩ := exists_fresh_run h
  exact ⟨past, s, _, _, hstart, hrun, hlength, htrace,
    deleted_store_compacts_to_nothing rfl (World.reachable_of_fresh hstart) hrun hids hcond htrace
      (dead_of_entries hdead)⟩

/-- A key is put and removed; `flush()` and `compact()` both return Ok, and one table
with its tombstone stays in L0: a forced run finds nothing to merge it with. -/
theorem compact_keeps_a_tombstone :
    ∃ past s start older, fresh 1 {} .asStored = some start ∧ Run {} .asStored start past s ∧
      s.trace = .respond 0 (.status .ok) :: .invoke 0 .compact ::
        .respond 0 (.status .ok) :: .invoke 0 .flush :: older ∧
      (∀ key, visible (SortedRun.find key (written older)) = none) ∧ s.engine.tableCount = 1 := by
  let actions : List (Action 1) := calling 0 (.put (text "a") (text "x")) 4 ++
    calling 0 (.remove (text "a")) 4 ++ flushCall 13 ++ compactCall 1
  have h : ∃ r ∈ runFresh 1 {} actions, r.2.trace = compactReturned (r.2.trace.drop 4) ∧
      (∀ e ∈ written (r.2.trace.drop 4), visible (find e.1 (written (r.2.trace.drop 4))) = none) ∧
      r.2.engine.tableCount = 1 := by decide +kernel
  obtain ⟨_, _, past, s, hstart, hrun, htrace, hdead, hcount⟩ := exists_fresh_run h
  exact ⟨past, s, _, _, hstart, hrun, htrace, dead_of_entries hdead, hcount⟩

end System

end KVStore
