import KVStore.ForcedMerges
import KVStore.LsmStall

namespace KVStore

open Lib CrashProgram LsmStore Engine

namespace Background

/-- The compaction run that the thread is in, and the merge it is at. -/
def merging : Background → Option (CompactionRun × Option Compaction)
  | .compacting run work _ | .renamingOutputs run work _ _ | .committing run work _ => some (run, some work)
  | .marking run _ | .finishing run => some (run, none)
  | _ => none

def Forced (pc : Background) : Prop := ∃ run work, pc.merging = some (run, work) ∧ run.force = true

end Background

namespace System

variable {n : Nat} {opts : LsmOptions} {listing : Listing} {s s' start : System n}
  {levels : Levels} {pointer : List Key} {past : List (System n × Action n)}

/-- A forced run has left its loop by the step limit. -/
def AtStepLimit (s : System n) : Prop :=
  ∃ run, s.engine.background = .finishing run ∧ run.force = true ∧ maxSteps ≤ run.steps

/-- The background thread is about to take up a `compact()`. -/
def takesUpRequest (s : System n) : Action n → Bool
  | .background =>
    match s.engine.background with
    | .waiting | .retired => s.engine.compactRequested && s.engine.imm.isNone
    | _ => false
  | _ => false

theorem takesUpRequest_iff : s.takesUpRequest .background = true ↔
    (s.engine.background = .waiting ∨ s.engine.background = .retired) ∧
      s.engine.compactRequested = true ∧ s.engine.imm = none := by
  simp only [takesUpRequest]
  split <;> simp_all

/-- The thread is in a forced run, and the merges it has made lead from `levels` and
`pointer` to where the store is. -/
def InRun (opts : LsmOptions) (levels : Levels) (pointer : List Key) (s : System n) : Prop :=
  ∃ run work, s.engine.background.merging = some (run, work) ∧ run.force = true ∧
    MergedTo opts levels pointer run.steps s.engine.levels s.engine.compactPointer ∧
    run.steps + work.toList.length ≤ maxSteps ∧
    ∀ c ∈ work, forcedPick opts s.engine.levels s.engine.compactPointer = .work c

theorem pickStep_eq_forcedPick (opts : LsmOptions) (e : Engine n) :
    e.pickStep opts true = forcedPick opts e.levels e.compactPointer := by
  unfold pickStep forcedPick Tree.pick Engine.pick
  cases Levels.pickCompaction opts e.levels e.compactPointer false <;> rfl

theorem forced_of_turn {e : Engine n} (h : s.engine.background.Forced)
    (next : LoopTurn opts s.env e s.engine) : e.idle = false ∧ e.imm = none ∧ e.compactRequested = true ∧
      s.InRun opts e.levels e.compactPointer := by
  obtain ⟨env, e', trace⟩ := s
  change LoopTurn opts env e e' at next
  obtain ⟨run, work, hmerging, hforce⟩ := h
  cases next with
  | compact busy thawed pick =>
    cases hmerging
    rw [show e.compactRequested = true from hforce, pickStep_eq_forcedPick] at pick
    refine ⟨busy, thawed, hforce, _, _, rfl, hforce, .start, (by decide : 1 ≤ maxSteps), ?_⟩
    rintro _ ⟨⟩
    exact pick
  | _ => cases hmerging

namespace InRun

variable (h : s.InRun opts levels pointer)
include h

theorem forced : s.engine.background.Forced := by
  obtain ⟨run, work, hmerging, hforce, _⟩ := h
  exact ⟨run, work, hmerging, hforce⟩

theorem congr (hlevels : s'.engine.levels = s.engine.levels)
    (hpointer : s'.engine.compactPointer = s.engine.compactPointer)
    (hbackground : s'.engine.background = s.engine.background) : s'.InRun opts levels pointer := by
  unfold InRun
  rw [hlevels, hpointer, hbackground]
  exact h

theorem not_atStepLimit (hends : EndsWithinLimit opts levels pointer) : ¬ s.AtStepLimit := by
  rintro ⟨run, pc, _, hlimit⟩
  obtain ⟨_, _, hmerging, _, hmerged, _⟩ := h
  rw [pc] at hmerging
  cases hmerging
  exact absurd (hends _ _ _ hmerged) (Nat.not_lt.mpr hlimit)

/-- Short of the limit, a forced run makes the next merge of the sequence, unless the
store is being closed or the sequence ends there. -/
theorem background (hb : s.BackgroundInv True opts listing) (hl : Legal True s.shared)
    (hlimit : ¬ s.AtStepLimit) (next : BackgroundStep opts listing s s') :
    s'.InRun opts levels pointer ∧ s'.engine.background.toGo < s.engine.background.toGo ∨
      ¬ s'.engine.background.Forced ∧ (s.engine.stopping = true ∨ ¬ GoesOnToLimit opts levels pointer) := by
  obtain ⟨run, work, hmerging, hforce, hmerged, hbegun, hwork⟩ := h
  have hends (hk : run.steps < maxSteps) (hnone : ∀ c,
      forcedPick opts s.engine.levels s.engine.compactPointer = .work c → (c.outputs opts).2 ≠ none) :
      ¬ GoesOnToLimit opts levels pointer := by
    intro hgoes
    obtain ⟨c, hpick, hout⟩ := hgoes _ _ _ hmerged hk
    exact hnone c hpick hout
  have hp := hb.promise
  cases next with
  | turn pc | flushOp pc | flushFailed pc | flushInstalled pc | retire pc | flushEnded pc =>
    rw [pc] at hmerging
    cases hmerging
  | compactOp pc | renameOp pc | commitOp pc =>
    rw [pc] at hmerging ⊢
    exact Or.inl ⟨⟨run, work, hmerging, hforce, hmerged, hbegun, hwork⟩, toGo_lt_of_op _ _ _⟩
  | written pc | renamed pc | mark pc =>
    rw [pc] at hmerging ⊢
    exact Or.inl ⟨⟨run, work, hmerging, hforce, hmerged, hbegun, hwork⟩, toGo_lt_of_left (Nat.lt_succ_self _)⟩
  | @installed _ work levels' pc =>
    obtain ⟨_, ids, hnodup, hfresh, honce⟩ := hb.merged hl pc
    rw [pc] at hmerging ⊢
    cases hmerging
    refine Or.inl ⟨⟨_, none, rfl, hforce, hmerged.merge (hwork work rfl) hnodup (hfresh trivial) honce,
      hbegun, nofun⟩, toGo_lt_of_left ?_⟩
    simp only [Background.halfPasses]
    omega
  | compactFailed pc next =>
    refine Or.inr ⟨fun hf => absurd (forced_of_turn hf next).2.2.1 Bool.false_ne_true, Or.inr ?_⟩
    rcases pc with pc | ⟨_, pc⟩ | pc <;> rw [pc] at hmerging hp <;> cases hmerging
    · obtain ⟨_, _, hp⟩ := hp
      refine hends hbegun fun c hc => ?_
      cases (hwork _ rfl).symm.trans hc
      exact (hp.returned hl).1
    · obtain ⟨_, _, _, _, hp⟩ := hp
      exact absurd trivial (hp.returned hl)
    · obtain ⟨_, _, _, _, _, _, _, hp⟩ := hp
      exact absurd trivial (hp.returned hl)
  | runEnded pc reason next =>
    refine Or.inr ⟨fun hf => absurd (forced_of_turn hf next).2.2.1 Bool.false_ne_true, ?_⟩
    rw [pc] at hmerging
    cases hmerging
    refine (reason.resolve_left (by simp [hforce])).imp_right fun hquiet => ?_
    refine hends (Nat.not_le.mp fun hk => hlimit ⟨run, pc, hforce, hk⟩) fun c hc => ?_
    rw [← pickStep_eq_forcedPick, pickStep_of_quiet hquiet] at hc
    cases hc
  | runExhausted pc _ limit =>
    rw [pc] at hmerging
    cases hmerging
    exact absurd ⟨run, pc, hforce, limit⟩ hlimit
  | nextUndefined pc pick =>
    rw [pc] at hmerging
    cases hmerging
    refine Or.inr ⟨by rintro ⟨_, _, ⟨⟩, _⟩, Or.inr ?_⟩
    refine hends (Nat.not_le.mp fun hk => hlimit ⟨run, pc, hforce, hk⟩) fun c hc => ?_
    cases (pick.symm.trans (pickStep_eq_forcedPick opts s.engine)).trans hc
  | nextWork pc _ pick =>
    rw [pc] at hmerging ⊢
    cases hmerging
    have hk : run.steps < maxSteps := Nat.not_le.mp fun hk => hlimit ⟨run, pc, hforce, hk⟩
    refine Or.inl ⟨⟨run, _, rfl, hforce, hmerged, hk, ?_⟩, toGo_lt_of_left ?_⟩
    · rintro _ ⟨⟩
      exact (pickStep_eq_forcedPick opts s.engine).symm.trans pick
    · unfold Background.halfPasses
      omega

end InRun

/-- A forced run is one that ends within the limit. -/
def Limited (opts : LsmOptions) (s : System n) : Prop :=
  s.engine.background.Forced →
    ∃ levels pointer, EndsWithinLimit opts levels pointer ∧ s.InRun opts levels pointer

theorem Limited.background (h : s.Limited opts) (hb : s.BackgroundInv True opts listing)
    (hl : Legal True s.shared) (hcond : s.takesUpRequest .background = true →
      EndsWithinLimit opts s.engine.levels s.engine.compactPointer)
    (next : BackgroundStep opts listing s s') : s'.Limited opts := by
  intro hforced
  by_cases hbefore : s.engine.background.Forced
  · obtain ⟨levels, pointer, hends, hrun⟩ := h hbefore
    rcases hrun.background hb hl (hrun.not_atStepLimit hends) next with ⟨hrun', _⟩ | ⟨hleft, _⟩
    · exact ⟨levels, pointer, hends, hrun'⟩
    · exact absurd hforced hleft
  cases next with
  | turn pc next =>
    obtain ⟨_, hthawed, hrequested, hrun⟩ := forced_of_turn hforced next
    exact ⟨_, _, hcond (takesUpRequest_iff.mpr ⟨Or.inl pc, hrequested, hthawed⟩), hrun⟩
  | flushEnded pc next =>
    -- clearing the busy flag changes nothing that the loop looks at
    obtain ⟨_, hthawed, hrequested, hrun⟩ := forced_of_turn hforced next
    exact ⟨_, _, hcond (takesUpRequest_iff.mpr ⟨Or.inr pc, hrequested, hthawed⟩), hrun⟩
  | flushFailed pc next =>
    have hbusy := (forced_of_turn hforced next).1
    simp [idle, rested, Engine.failed, Failure.bad] at hbusy
  | compactFailed _ next | runEnded _ _ next | runExhausted _ next =>
    cases (forced_of_turn hforced next).2.2.1
  | flushOp | flushInstalled | retire | nextUndefined =>
    obtain ⟨_, _, ⟨⟩, _⟩ := hforced
  | compactOp pc | written pc | renameOp pc | renamed pc | commitOp pc | installed pc | mark pc | nextWork pc =>
    obtain ⟨_, _, ⟨⟩, hforce⟩ := hforced
    exact absurd ⟨_, _, congrArg Background.merging pc, hforce⟩ hbefore

theorem Limited.step {a : Action n} (hfail : opts.failAt = .none) (h : s.Limited opts)
    (hb : s.BackgroundInv True opts listing) (hl : Legal True s.shared)
    (hcond : s.takesUpRequest a = true → EndsWithinLimit opts s.engine.levels s.engine.compactPointer)
    (hstep : s.step opts listing a = some s') : s'.Limited opts := by
  have hkept {t : System n} (hlevels : t.engine.levels = s.engine.levels)
      (hpointer : t.engine.compactPointer = s.engine.compactPointer)
      (hbackground : t.engine.background = s.engine.background) : t.Limited opts := by
    intro hforced
    obtain ⟨levels, pointer, hends, hrun⟩ := h (hbackground ▸ hforced)
    exact ⟨levels, pointer, hends, hrun.congr hlevels hpointer hbackground⟩
  cases step_cases hfail hstep with
  | @call c call =>
    have hframe := (enter_cases (s.note (.invoke c call)) c call).untouched
    exact hkept hframe.levels hframe.compactPointer hframe.background
  | client next => exact hkept next.untouched.levels next.untouched.compactPointer next.untouched.background
  | background next => exact h.background hb hl hcond next
  | unlink | stop => exact hkept rfl rfl rfl

/-- After the run `past`, the background thread alone has gone on to `s`. -/
def GoneOn (opts : LsmOptions) (listing : Listing) (start : System n) (past : List (System n × Action n))
    (s : System n) : Prop :=
  ∃ alone, Run opts listing start (alone ++ past) s ∧ ∀ x ∈ alone, x.2 = .background

theorem GoneOn.step (h : GoneOn opts listing start past s) (next : s.step opts listing .background = some s') :
    GoneOn opts listing start past s' := by
  obtain ⟨alone, hrun, halone⟩ := h
  exact ⟨(s, .background) :: alone, hrun.step next, List.forall_mem_cons.mpr ⟨rfl, halone⟩⟩

/-- At most `m` ids are fetched, whatever the operations return. -/
def FetchesAtMost {α : Type} : Nat → LsmIo α → Prop
  | _, .ret _ => True
  | m, .op o k => ∃ m' ≤ m, (o = .fetchNextId → m' < m) ∧ ∀ r, FetchesAtMost m' (k r)

theorem FetchesAtMost.exec {α : Type} {m : Nat} {o : Op} {k : Res o → LsmIo α}
    (h : FetchesAtMost m (.op o k)) (listing : Listing) (env : Env) :
    ∃ m', FetchesAtMost m' (k (env.exec listing o).1) ∧ (env.exec listing o).2.issued + m' ≤ env.issued + m := by
  obtain ⟨m', hle, hfetch, hk⟩ := h
  refine ⟨m', hk _, ?_⟩
  rcases (env.executes listing o).issued_eq with hsame | rfl
  · exact hsame ▸ Nat.add_le_add_left hle _
  · have hlt := hfetch rfl
    change env.fetchNextId.issued + m' ≤ _
    rw [(Env.counts_fetchNextId env).issued]
    omega

theorem fetchesAtMost_of_all {α : Type} {io : LsmIo α} (h : io.All (· ≠ .fetchNextId)) : FetchesAtMost 0 io := by
  induction io with
  | ret => trivial
  | op o k ih => exact ⟨0, le_rfl, fun ho => absurd ho h.1, fun r => ih r (h.2 r)⟩

theorem fetchesAtMost_lone (i : Nat) (id : FileId) :
    FetchesAtMost 1 (writeCompaction deepOptions (loneWork i id)) := by
  rw [writeCompaction, outputs_lone]
  refine ⟨0, by decide, fun _ => by decide, fun _ => fetchesAtMost_of_all ?_⟩
  exact ⟨nofun, fun _ => ⟨nofun, fun _ => ⟨nofun, fun _ => trivial⟩⟩⟩

def ThreadFetches (m : Nat) : Background → Prop
  | .compacting _ _ io => FetchesAtMost m io
  | .renamingOutputs _ _ _ io => FetchesAtMost m io
  | .committing _ _ io => FetchesAtMost m io
  | _ => True

/-- One id for every merge begun. -/
def OneIdEach (base : Nat) (s : System n) : Prop :=
  ∃ run work m, s.engine.background.merging = some (run, work) ∧ ThreadFetches m s.engine.background ∧
    s.env.issued + m ≤ base + (run.steps + work.toList.length)

theorem OneIdEach.background {base : Nat} {id : FileId} (h' : s'.InRun deepOptions (lone 0 id) [])
    (next : BackgroundStep deepOptions listing s s') (h : s.OneIdEach base) : s'.OneIdEach base := by
  obtain ⟨run, work, m, hmerging, hm, hle⟩ := h
  have hfetched := Nat.le_of_add_right_le hle
  cases next with
  | turn pc | flushOp pc | flushFailed pc | flushInstalled pc | retire pc | flushEnded pc =>
    rw [pc] at hmerging
    cases hmerging
  | compactOp pc | renameOp pc | commitOp pc =>
    rw [pc] at hmerging hm
    obtain ⟨m', hm', hle'⟩ := FetchesAtMost.exec hm listing s.env
    exact ⟨run, work, m', hmerging, hm', hle'.trans hle⟩
  | written pc =>
    rw [pc] at hmerging
    exact ⟨run, work, 0, hmerging, fetchesAtMost_of_all (all_renameOutputs fun _ _ => nofun), hfetched⟩
  | renamed pc =>
    rw [pc] at hmerging
    refine ⟨run, work, 0, hmerging, fetchesAtMost_of_all (all_commitCompaction ?_ _ _ _), hfetched⟩
    rintro _ ho rfl
    exact ho
  | installed pc | mark pc =>
    rw [pc] at hmerging
    cases hmerging
    exact ⟨_, _, 0, rfl, trivial, hfetched⟩
  | nextUndefined => obtain ⟨_, _, ⟨⟩, _⟩ := h'
  | compactFailed _ next | runEnded _ _ next | runExhausted _ next =>
    cases (forced_of_turn h'.forced next).2.2.1
  | nextWork pc =>
    rw [pc] at hmerging
    cases hmerging
    obtain ⟨_, _, ⟨⟩, _, hmerged, hbegun, hwork⟩ := h'
    obtain ⟨⟨id', hlevels⟩, hpointer⟩ := hmerged.lone (Nat.lt_succ_of_lt hbegun)
    have hpick := hwork _ rfl
    rw [hlevels, forcedPick_lone (Nat.succ_lt_succ hbegun) (hpointer _ le_rfl)] at hpick
    cases hpick
    exact ⟨run, _, 1, rfl, fetchesAtMost_lone _ _, Nat.add_le_add_right hfetched 1⟩

end System

end KVStore
