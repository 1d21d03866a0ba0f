import KVStore.LsmMonitor
import KVStore.LsmFlushCall

namespace KVStore

open Lib CrashProgram Engine

inductive Phase
  | resting
  | building
  | retiring
  | compacting
  deriving DecidableEq

namespace Background

def phase : Background → Phase
  | .flushing _ _ => .building
  | .retiring _ | .retired => .retiring
  | .compacting _ _ _ | .renamingOutputs _ _ _ _ | .committing _ _ _ | .marking _ _ | .finishing _ => .compacting
  | .waiting | .exited | .undefined => .resting

/-- The passes through the loop of `run_compaction` that may still come, a pass in
progress counted as half. -/
def halfPasses (run : CompactionRun) : Nat := 2 * (Engine.maxSteps - run.steps)

/-- How far the thread is from the end of what it is at. -/
noncomputable def toGo : Background → ℕ ×ₗ Ordinal.{0}
  | .compacting run _ io => toLex (5 * (halfPasses run - 1) + 4, io.height)
  | .renamingOutputs run _ _ io => toLex (5 * (halfPasses run - 1) + 3, io.height)
  | .committing run _ io => toLex (5 * (halfPasses run - 1) + 2, io.height)
  | .marking run _ => toLex (5 * halfPasses run + 1, 0)
  | .finishing run => toLex (5 * halfPasses run, 0)
  | .flushing _ io => toLex (0, io.height)
  | .waiting | .retiring _ => toLex (1, 0)
  | .exited | .undefined | .retired => toLex (0, 0)

end Background

namespace Engine

variable {n : Nat} {opts : LsmOptions} {env : Env} {e e' : Engine n}

theorem pickStep_ne_undefined (ht : 1 ≤ opts.l0CompactionTrigger) (e : Engine n) (force : Bool) :
    e.pickStep opts force ≠ .undefined := by
  have hdefined := Levels.pickCompaction_ne_undefined ht e.levels e.compactPointer
  unfold pickStep
  split
  · split
    · exact hdefined true
    · nofun
  · exact hdefined false

theorem stallOver_eq_false_iff : e.stallOver = false ↔ e.idle = false ∧ ∃ table, e.imm = some table := by
  rw [stallOver, Bool.or_eq_false_iff, Option.isNone_eq_false_iff, Option.isSome_iff_exists]

section

variable (h : LoopTurn opts env e e')
include h

theorem LoopTurn.builds (ht : 1 ≤ opts.l0CompactionTrigger)
    (hstall : e.stallOver = false) : e'.background.phase = .building ∧ e'.stallOver = false := by
  obtain ⟨hidle, table, himm⟩ := stallOver_eq_false_iff.mp hstall
  cases h with
  | exit stopping => simp [idle, stopping] at hidle
  | sleep _ reason =>
    rcases reason with hr | ⟨hr, _⟩
    · cases hidle.symm.trans hr
    · cases himm.symm.trans hr
  | flush => exact ⟨rfl, hstall⟩
  | halt _ thawed | compact _ thawed => cases himm.symm.trans thawed
  | undefined _ pick => exact absurd pick (pickStep_ne_undefined ht e _)

theorem LoopTurn.defined (ht : 1 ≤ opts.l0CompactionTrigger) : e'.background ≠ .undefined := by
  cases h with
  | undefined _ pick => exact absurd pick (pickStep_ne_undefined ht e _)
  | _ => nofun

theorem LoopTurn.exited (hexited : e'.background = .exited) : e.stopping = true := by
  cases h with
  | exit stopping => exact stopping
  | _ => cases hexited

theorem LoopTurn.sleeps (hwaiting : e'.background = .waiting) : e'.stallOver = true := by
  cases h with
  | sleep _ reason =>
    rcases reason with hr | ⟨hr, _⟩
    · exact (congrArg (· || e.imm.isNone) hr).trans (Bool.true_or _)
    · exact (congrArg (e.idle || ·.isNone) hr).trans (Bool.or_true _)
  | halt => simp [stallOver, haltRun, idle]
  | exit | flush | undefined | compact => cases hwaiting

theorem LoopTurn.stallOver_eq (hhalted : e'.haltedByFailPoint = e.haltedByFailPoint) : e'.stallOver = e.stallOver := by
  cases h with
  | halt _ thawed => simp [stallOver, haltRun, thawed]
  | _ => rfl

end

end Engine

namespace System

variable {n : Nat} {opts : LsmOptions} {listing : Listing} {s s' : System n} {c : Fin n}

/-- What a piece of the background thread is to a stalled writer. -/
inductive Piece (opts : LsmOptions) (s s' : System n) : Prop
  /-- An operation ends, well or with an error, and the loop goes round. -/
  | ended {op : Operation} {e : Engine n} (ends : s.ends opts = some op)
      (imm : e.imm = s.engine.imm) (halted : e.haltedByFailPoint = s.engine.haltedByFailPoint)
      (idle : e.idle = true ∨ e.idle = s.engine.idle) (stopping : e.stopping = s.engine.stopping)
      (next : Engine.LoopTurn opts s.env e s'.engine)
      (origin : s.engine.background.phase = .compacting ∧ op = .compaction ∨
        s.engine.background.phase = .retiring ∧ op = .flush ∨
          s.engine.background.phase = .building ∧ op = .flush ∧ e.idle = true)
  /-- The thread, awake, goes round its loop. -/
  | loop (pc : s.engine.background = .waiting) (ends : s.ends opts = none)
      (next : Engine.LoopTurn opts s.env s.engine s'.engine)
  /-- A flush clears the frozen memtable. -/
  | installs (phase : s.engine.background.phase = .building) (ends : s.ends opts = none)
      (thawed : s'.engine.imm = none) (idle : s'.engine.idle = s.engine.idle)
      (retiring : s'.engine.background.phase = .retiring)
  /-- Within an operation. -/
  | inside (works : s.engine.background.phase ≠ .resting) (ends : s.ends opts = none)
      (imm : s'.engine.imm = s.engine.imm) (idle : s'.engine.idle = s.engine.idle)
      (phase : s'.engine.background.phase = s.engine.background.phase)
      (closer : s'.engine.background.toGo < s.engine.background.toGo)

theorem step_background (h : s.step opts listing .background = some s') :
    s.backgroundStep opts listing = some s' := by
  simp only [step] at h
  split at h
  · cases h
  · exact h

theorem toGo_lt_of_left {a b : ℕ} {x y : Ordinal.{0}} (h : a < b) : toLex (a, x) < toLex (b, y) :=
  Prod.Lex.toLex_lt_toLex.mpr (Or.inl h)

theorem toGo_lt_of_op {α : Type} (a : ℕ) {o : Op} (k : Res o → LsmIo α) (r : Res o) :
    toLex (a, (k r).height) < toLex (a, (Prog.op o k : LsmIo α).height) :=
  Prod.Lex.toLex_lt_toLex.mpr (Or.inr ⟨rfl, Prog.height_lt o k r⟩)

theorem piece_of_finishing {run : CompactionRun} (ht : 1 ≤ opts.l0CompactionTrigger)
    (pc : s.engine.background = .finishing run) (h : s.backgroundStep opts listing = some s') :
    Piece opts s s' := by
  have hends : ∀ {p : Prop}, (run.force = true ∧ run.steps < maxSteps ∧ ¬ s.engine.stopping = true ∧
      s.engine.pickStep opts true ≠ .nothing → p) → ¬ p → s.ends opts = some .compaction := by
    intro p hp hnot
    unfold ends
    rw [pc]
    exact if_neg fun hc => hnot (hp hc)
  have horigin {e : Engine n} : s.engine.background.phase = .compacting ∧ Operation.compaction = .compaction ∨
      s.engine.background.phase = .retiring ∧ Operation.compaction = .flush ∨
        s.engine.background.phase = .building ∧ Operation.compaction = .flush ∧ e.idle = true :=
    Or.inl ⟨by rw [pc]; rfl, rfl⟩
  unfold backgroundStep at h
  simp only [pc] at h
  split at h
  next hforce =>
    cases h
    unfold nextStep
    split
    next hmax =>
      have hend := endRun_error opts s.env s.engine converged true
      refine .ended (e := (s.engine.failed converged).cleared)
        (hends (fun hc => hc.2.1) (Nat.not_lt.mpr hmax)) rfl rfl (Or.inl ?_) rfl ?_ horigin
      · simp [Engine.idle, cleared, failed, Failure.bad]
      · exact hend ▸ backgroundLoop_turn _ _ _
    next hmax =>
      split
      next hstop =>
        rw [endRun_ok]
        exact .ended (e := s.engine.cleared) (hends (fun hc => hc.2.2.1) (not_not.mpr hstop)) rfl rfl (Or.inr rfl)
          rfl (backgroundLoop_turn _ _ _) horigin
      next hstop =>
        rw [hforce]
        split
        next hpick =>
          rw [endRun_ok]
          exact .ended (e := s.engine.cleared) (hends (fun hc => hc.2.2.2) (not_not.mpr hpick)) rfl rfl
            (Or.inr rfl) rfl (backgroundLoop_turn _ _ _) horigin
        next hpick => exact absurd hpick (Engine.pickStep_ne_undefined ht _ _)
        next c hpick =>
          have hroom : run.steps < maxSteps := Nat.lt_of_not_le hmax
          refine .inside (by rw [pc]; rintro ⟨⟩) ?_ rfl rfl (by rw [pc]; rfl) ?_
          · unfold ends
            rw [pc]
            exact if_pos ⟨hforce, hroom, hstop, by rw [hpick]; rintro ⟨⟩⟩
          · rw [pc]
            refine toGo_lt_of_left ?_
            unfold Background.halfPasses
            omega
  next hforce =>
    cases h
    rw [endRun_ok]
    exact .ended (e := s.engine.cleared) (hends (fun hc => hc.1) hforce) rfl rfl (Or.inr rfl) rfl
      (backgroundLoop_turn _ _ _) horigin

theorem piece_of_step (hfail : opts.failAt = .none) (ht : 1 ≤ opts.l0CompactionTrigger)
    (h : s.step opts listing .background = some s') : Piece opts s s' := by
  by_cases hfinishing : ∃ run, s.engine.background = .finishing run
  · obtain ⟨run, pc⟩ := hfinishing
    exact piece_of_finishing ht pc (step_background h)
  cases step_cases hfail h with
  | background next =>
    cases next with
    | turn pc next => exact .loop pc (by simp [ends, pc]) next
    | flushOp pc | compactOp pc | renameOp pc | commitOp pc =>
      refine .inside (by rw [pc]; rintro ⟨⟩) (by simp [ends, pc]) rfl rfl (by rw [pc]; rfl) ?_
      rw [pc]
      exact toGo_lt_of_op _ _ _
    | @flushFailed _ f _ pc next =>
      have hidle : (s.engine.failed f).rested.idle = true := by
        simp [Engine.idle, rested, failed, Failure.bad]
      refine .ended (e := (s.engine.failed f).rested) (?_ : _ = some .flush) rfl rfl (Or.inl hidle) rfl next
        (Or.inr (Or.inr ⟨by rw [pc]; rfl, rfl, hidle⟩))
      simp [ends, pc]
    | flushInstalled pc => exact .installs (by rw [pc]; rfl) (by simp [ends, pc, hfail]) rfl rfl rfl
    | flushEnded pc next =>
      refine .ended (e := s.engine.rested) (?_ : _ = some .flush) rfl rfl (Or.inr rfl) rfl next
        (Or.inr (Or.inl ⟨by rw [pc]; rfl, rfl⟩))
      simp [ends, pc]
    | retire pc | mark pc =>
      refine .inside (by rw [pc]; rintro ⟨⟩) (by simp [ends, pc]) rfl rfl (by rw [pc]; rfl) ?_
      rw [pc]
      exact toGo_lt_of_left (Nat.lt_succ_self _)
    | written pc | renamed pc =>
      refine .inside (by rw [pc]; rintro ⟨⟩) (by simp [ends, pc, hfail]) rfl rfl (by rw [pc]; rfl) ?_
      rw [pc]
      exact toGo_lt_of_left (Nat.lt_succ_self _)
    | @installed run _ _ pc =>
      refine .inside (by rw [pc]; rintro ⟨⟩) (by simp [ends, pc]) rfl rfl (by rw [pc]; rfl) ?_
      rw [pc]
      refine toGo_lt_of_left ?_
      simp only [Background.halfPasses]
      omega
    | @compactFailed _ _ f _ pc next =>
      refine .ended (e := (s.engine.failed f).cleared) (?_ : s.ends opts = some .compaction) rfl rfl (Or.inl ?_) rfl next
        (Or.inl ⟨?_, rfl⟩)
      · rcases pc with pc | ⟨_, pc⟩ | pc <;> simp [ends, pc]
      · simp [Engine.idle, cleared, failed, Failure.bad]
      · rcases pc with pc | ⟨_, pc⟩ | pc <;> rw [pc] <;> rfl
    | runEnded pc | runExhausted pc | nextUndefined pc | nextWork pc => exact absurd ⟨_, pc⟩ hfinishing

theorem idle_eq_of_untouched {e e' : Engine n} (h : e.Untouched e') : e'.idle = e.idle := by
  unfold Engine.idle
  rw [h.stopping, h.status, h.halted]

theorem ClientStep.keeps_stall (h : ClientStep opts s c s') (hstall : s.engine.stallOver = false) :
    s'.engine.stallOver = false := by
  obtain ⟨hidle, table, himm⟩ := Engine.stallOver_eq_false_iff.mp hstall
  rcases h.sameFrozen with ⟨_, hsame⟩ | ⟨hnone, _⟩
  · exact Engine.stallOver_eq_false_iff.mpr
      ⟨(idle_eq_of_untouched h.untouched).trans hidle, table, hsame.imm.trans himm⟩
  · cases himm.symm.trans hnone

theorem stallOver_of_stalls (h : s.clientStep opts c = some s')
    (hstalls : (s'.engine.clients c).stalls = true) : s'.engine.stallOver = false := by
  cases clientStep_cases h with
  | @stall e pc =>
    by_contra hover
    have hover' : s.engine.stallOver = true := Bool.eq_true_of_not_eq_false hover
    rw [clientStep, pc] at h
    rw [← Option.some.inj h, checkWrite, if_pos hover', afterStall] at hstalls
    split_ifs at hstalls <;> cases of_setClient (P := fun pc => pc.stalls = true) hstalls
  | flushStall pc =>
    by_contra hover
    have hover' : s.engine.stallOver = true := Bool.eq_true_of_not_eq_false hover
    rw [clientStep, pc] at h
    rw [← Option.some.inj h, checkFlush, if_pos hover', afterFlushStall] at hstalls
    split_ifs at hstalls <;> cases of_setClient (P := fun pc => pc.stalls = true) hstalls
  | _ =>
    simp [setClient, Engine.setClient, respond, insert, note, rotate, release, Client.stalls] at hstalls

theorem EnterStep.not_stalls {call : Call} (h : EnterStep s c call s') :
    ¬ (s'.engine.clients c).stalls = true := by
  intro hstalls
  cases h with
  | _ =>
    exact nomatch @of_setClient n (fun pc => pc.stalls = true) _ c _ hstalls

/-- What lets the thread sleep, that there is no stall to wait for it or that a
rotation is about to wake it, holds until it is woken. -/
theorem ClientStep.keeps_excuse (h : ClientStep opts s c s')
    (hsleep : s.engine.stallOver = true ∨ ∃ d, (s.engine.clients d).rotates = true) :
    s.clientNotifies opts c s' = true ∨ s'.engine.stallOver = true ∨
      ∃ d, (s'.engine.clients d).rotates = true := by
  rcases hsleep with hover | ⟨d, hd⟩
  · rcases h.sameFrozen with ⟨_, hsame⟩ | ⟨_, resume, rfl⟩
    · refine Or.inr (Or.inl ?_)
      rwa [Engine.stallOver, idle_eq_of_untouched h.untouched, hsame.imm]
    · exact Or.inr (Or.inr ⟨c, (setClient_self _ c _).symm ▸ rfl⟩)
  · by_cases hdc : d = c
    · subst hdc
      cases h with
      | createLog => exact Or.inr (Or.inr ⟨d, (setClient_self _ d _).symm ▸ rfl⟩)
      | switchWrite pc | switchFlush pc =>
        left
        rw [clientNotifies, pc]
      | refuse pc =>
        rcases pc with ⟨_, pc⟩ | ⟨_, pc⟩ | pc | pc <;> rw [pc] at hd <;> cases hd
      | rotateWrite pc | proceed pc | flushWait pc | rotateFlush pc =>
        rcases pc with pc | pc <;> rw [pc] at hd <;> cases hd
      | _ pc =>
        rw [pc] at hd
        cases hd
    · exact Or.inr (Or.inr ⟨d, (h.clients_of_ne hdc).symm ▸ hd⟩)

end System

namespace Monitor

variable {n : Nat} {opts : LsmOptions} {listing : Listing} {m m' : Monitor n}

structure Inv (m : Monitor n) : Prop where
  locked : m.system.engine.Locked
  defined : m.system.engine.background ≠ .undefined
  exits : m.system.engine.background = .exited → m.system.engine.stopping = true
  stopped : m.system.engine.stopping = true → ∀ c, m.system.engine.clients c = .idle
  sleeps : m.asleep = true → m.system.engine.background = .waiting ∧
    (m.system.engine.stallOver = true ∨ ∃ c, (m.system.engine.clients c).rotates = true)
  waits : ∀ c, m.blocked c = true → (m.system.engine.clients c).stalls = true →
    m.system.engine.stallOver = false ∨ m.system.engine.background.phase = .retiring
  pays : ∀ c, (m.system.engine.clients c).stalls = true → m.owes c = false

theorem inv_opened (env : Env) (r : Recovered) : (opened n env r).Inv where
  locked := fun c => by simp [opened, System.opened, ofRecovered, Client.locked]
  defined := nofun
  exits := nofun
  stopped := nofun
  sleeps := nofun
  waits := nofun
  pays := fun _ _ => rfl

theorem waiting_of_asleep {s : System n} (h : (m.afterBackground opts s).asleep = true) :
    s.engine.background = .waiting := by
  dsimp only [afterBackground] at h
  split at h
  next hw => exact hw
  next => cases h

theorem Inv.background (h : m.Inv) (hfail : opts.failAt = .none) (ht : 1 ≤ opts.l0CompactionTrigger)
    {s : System n} (hstep : m.system.step opts listing .background = some s) :
    (m.afterBackground opts s).Inv := by
  have hpiece := System.piece_of_step hfail ht hstep
  have hnext : System.BackgroundStep opts listing m.system s := by
    cases System.step_cases hfail hstep with
    | background next => exact next
  refine ⟨System.locked_step h.locked (.background hnext), ?_, ?_, ?_, ?_, ?_, hnext.clients_eq ▸ h.pays⟩
  · change s.engine.background ≠ .undefined
    cases hpiece with
    | ended _ _ _ _ _ next => exact next.defined ht
    | loop _ _ next => exact next.defined ht
    | installs _ _ _ _ retiring =>
      intro hundefined
      rw [hundefined] at retiring
      cases retiring
    | inside works _ _ _ phase =>
      intro hundefined
      rw [hundefined] at phase
      exact works phase.symm
  · change s.engine.background = .exited → s.engine.stopping = true
    intro hexited
    rw [hnext.stopping_eq]
    cases hpiece with
    | ended _ _ _ _ stopping next => exact stopping ▸ next.exited hexited
    | loop _ _ next => exact next.exited hexited
    | installs _ _ _ _ retiring =>
      rw [hexited] at retiring
      cases retiring
    | inside works _ _ _ phase =>
      rw [hexited] at phase
      exact absurd phase.symm works
  · change s.engine.stopping = true → ∀ c, s.engine.clients c = .idle
    rw [hnext.stopping_eq, hnext.clients_eq]
    exact h.stopped
  · intro hasleep
    have hwaiting := waiting_of_asleep hasleep
    refine ⟨hwaiting, Or.inl ?_⟩
    cases hpiece with
    | ended _ _ _ _ _ next | loop _ _ next => exact next.sleeps hwaiting
    | installs _ _ _ _ retiring =>
      rw [hwaiting] at retiring
      cases retiring
    | inside works _ _ _ phase =>
      rw [hwaiting] at phase
      exact absurd phase.symm works
  · intro c hblocked hstalls
    change s.engine.stallOver = false ∨ s.engine.background.phase = .retiring
    replace hstalls : (m.system.engine.clients c).stalls = true := hnext.clients_eq ▸ hstalls
    -- nobody is blocked after a notification
    have hquiet : m.system.notifies opts s = false ∧ m.blocked c = true := by
      simp only [afterBackground] at hblocked
      split_ifs at hblocked with hn
      exact ⟨Bool.eq_false_of_not_eq_true hn, hblocked⟩
    have hends : m.system.ends opts = none := by
      have hn := hquiet.1
      rw [System.notifies, Bool.or_eq_false_iff, Option.isSome_eq_false_iff, Option.isNone_iff_eq_none] at hn
      exact hn.1
    cases hpiece with
    | ended ends => cases hends.symm.trans ends
    | loop pc _ next =>
      have hwaits := (h.waits c hquiet.2 hstalls).resolve_right (by rw [pc]; rintro ⟨⟩)
      left
      rw [next.stallOver_eq ?_]
      · exact hwaits
      · have hidle := (Engine.stallOver_eq_false_iff.mp hwaits).1
        have hrunning : m.system.engine.haltedByFailPoint = false := by
          simp only [Engine.idle, Bool.or_eq_false_iff] at hidle
          exact hidle.2
        have hn := hquiet.1
        simp only [System.notifies, hrunning, Bool.not_false, Bool.and_true, Bool.or_eq_false_iff] at hn
        rw [hn.2, hrunning]
    | installs _ _ _ _ retiring => exact Or.inr retiring
    | inside _ _ imm idle phase =>
      rw [phase, Engine.stallOver, idle, imm]
      exact h.waits c hquiet.2 hstalls

theorem Inv.client (h : m.Inv) {c : Fin n} {s : System n}
    (hstep : m.system.step opts listing (.client c) = some s) : (m.afterClient opts c s).Inv := by
  have hclient := System.step_client hstep
  have hnext := System.clientStep_cases hclient
  have hframe := hnext.untouched
  refine ⟨hnext.locked h.locked, ?_, ?_, ?_, ?_, ?_, fun d hstalls => ?_⟩
  · exact hframe.background ▸ h.defined
  · exact hframe.background ▸ hframe.stopping ▸ h.exits
  · intro hstop
    exact absurd (h.stopped (hframe.stopping ▸ hstop) c) hnext.not_idle
  · intro hasleep
    obtain ⟨hasleep, hnotified⟩ := Bool.and_eq_true_iff.mp hasleep
    obtain ⟨hwaiting, hsleep⟩ := h.sleeps hasleep
    refine ⟨hframe.background.trans hwaiting, (hnext.keeps_excuse hsleep).resolve_left ?_⟩
    simpa using hnotified
  · intro d hblocked hstalls
    change s.engine.stallOver = false ∨ s.engine.background.phase = .retiring
    have hblocked' : Function.update m.blocked c (s.engine.clients c).stalls d = true := by
      simp only [afterClient] at hblocked
      split_ifs at hblocked
      exact hblocked
    by_cases hdc : d = c
    · subst hdc
      exact Or.inl (System.stallOver_of_stalls hclient hstalls)
    · rw [Function.update_of_ne hdc] at hblocked'
      have hstalls' : (m.system.engine.clients d).stalls = true := (hnext.clients_of_ne hdc) ▸ hstalls
      rw [hframe.background]
      exact (h.waits d hblocked' hstalls').imp_left hnext.keeps_stall
  · change Function.update m.owes c _ d = false
    replace hstalls : (s.engine.clients d).stalls = true := hstalls
    by_cases hdc : d = c
    · subst hdc
      rw [Function.update_self]
      cases hpc : s.engine.clients d <;> simp_all [Client.stalls]
    · rw [Function.update_of_ne hdc]
      exact h.pays d (hnext.clients_of_ne hdc ▸ hstalls)

theorem Inv.enters (h : m.Inv) (hfail : opts.failAt = .none) {c : Fin n} {call : Call} {s : System n}
    (hstep : m.system.step opts listing (.call c call) = some s) : Inv { m with system := s } := by
  have hlocked := System.locked_step h.locked (System.step_cases hfail hstep)
  cases System.step_cases hfail hstep with
  | call pc running =>
    have henter := System.enter_cases (m.system.note (.invoke c call)) c call
    have hframe := henter.untouched
    have hstall : ((m.system.note (.invoke c call)).enter c call).engine.stallOver =
        m.system.engine.stallOver := by
      rw [Engine.stallOver, System.idle_eq_of_untouched hframe, henter.sameFrozen.2.imm]
      rfl
    refine ⟨hlocked, ?_, ?_, ?_, ?_, ?_, ?_⟩
    · exact hframe.background ▸ h.defined
    · exact hframe.background ▸ hframe.stopping ▸ h.exits
    · intro hstop
      exact absurd ((hframe.stopping.symm.trans hstop).symm.trans running) (by decide)
    · intro hasleep
      obtain ⟨hwaiting, hsleep⟩ := h.sleeps hasleep
      refine ⟨hframe.background.trans hwaiting, ?_⟩
      rw [hstall]
      refine hsleep.imp_right (Exists.imp fun d hd => ?_)
      have hdc : d ≠ c := by
        rintro rfl
        rw [pc] at hd
        cases hd
      exact (henter.clients_of_ne hdc).symm ▸ hd
    · intro d hblocked hstalls
      rw [hstall, hframe.background]
      have hdc : d ≠ c := by
        rintro rfl
        exact henter.not_stalls hstalls
      exact h.waits d hblocked (henter.clients_of_ne hdc ▸ hstalls)
    · intro d hstalls
      have hdc : d ≠ c := by
        rintro rfl
        exact henter.not_stalls hstalls
      exact h.pays d (henter.clients_of_ne hdc ▸ hstalls)

theorem Inv.wakes (h : m.Inv) {asleep : Bool} {blocked owes : Fin n → Bool}
    (hasleep : asleep = true → m.asleep = true)
    (hblocked : ∀ c, blocked c = true → (m.system.engine.clients c).stalls = true →
      m.blocked c = true ∨ m.system.engine.stallOver = false) (howes : ∀ c, owes c = true → m.owes c = true) :
    Inv ⟨m.system, asleep, blocked, owes, m.finished⟩ := by
  refine ⟨h.locked, h.defined, h.exits, h.stopped, fun ha => h.sleeps (hasleep ha), fun c hc hstalls => ?_,
    fun c hstalls => Bool.eq_false_of_not_eq_true fun hc => ?_⟩
  rcases hblocked c hc hstalls with hold | hstall
  · exact h.waits c hold hstalls
  · exact Or.inl hstall
  · exact absurd ((h.pays c hstalls).symm.trans (howes c hc)) (by decide)

theorem Inv.turn (h : m.Inv) (hfail : opts.failAt = .none) (ht : 1 ≤ opts.l0CompactionTrigger) {t : Turn n}
    (next : m.turn opts listing t = some m') : m'.Inv := by
  cases t with
  | wake =>
    cases next
    exact h.wakes (by rintro ⟨⟩) (fun _ hc _ => Or.inl hc) fun _ => id
  | wakeClient c =>
    cases next
    refine h.wakes id (fun d hd _ => Or.inl ?_) fun _ => id
    by_cases hdc : d = c
    · subst hdc
      simp at hd
    · rwa [Function.update_of_ne hdc] at hd
  | act a =>
    cases a with
    | background =>
      rw [Monitor.turn] at next
      split_ifs at next
      obtain ⟨s, hs, rfl⟩ := Option.map_eq_some_iff.mp next
      exact h.background hfail ht hs
    | client c =>
      rw [Monitor.turn] at next
      split_ifs at next with _ _ hcondition
      · cases next
        refine h.wakes (by rintro ⟨⟩) (by rintro _ ⟨⟩) fun d hd => ?_
        by_cases hdc : d = c
        · subst hdc
          simp at hd
        · rwa [Function.update_of_ne hdc] at hd
      · obtain ⟨s, hs, rfl⟩ := Option.map_eq_some_iff.mp next
        exact h.client hs
      · cases next
        refine h.wakes id (fun d hd hstalls => ?_) fun _ => id
        by_cases hdc : d = c
        · subst hdc
          right
          simp only [condition] at hcondition
          cases hpc : m.system.engine.clients d <;> simp_all [Client.stalls]
        · rw [Function.update_of_ne hdc] at hd
          exact Or.inl hd
    | call =>
      obtain ⟨s, hs, rfl⟩ := Option.map_eq_some_iff.mp next
      exact h.enters hfail hs
    | unlink =>
      obtain ⟨s, hs, rfl⟩ := Option.map_eq_some_iff.mp next
      cases System.step_cases hfail hs with
      | unlink => exact ⟨h.locked.congr rfl rfl, h.defined, h.exits, h.stopped, h.sleeps, h.waits, h.pays⟩
    | stop =>
      obtain ⟨s, hs, rfl⟩ := Option.map_eq_some_iff.mp next
      cases System.step_cases hfail hs with
      | stop quiet =>
        exact ⟨h.locked.congr rfl rfl, h.defined, fun _ => rfl, fun _ => quiet, by rintro ⟨⟩, by rintro _ ⟨⟩, h.pays⟩

theorem Reachable.inv (h : Reachable opts listing m) (hfail : opts.failAt = .none)
    (ht : 1 ≤ opts.l0CompactionTrigger) : m.Inv := by
  induction h with
  | opened env r => exact inv_opened env r
  | turn _ next ih => exact ih.turn hfail ht next

end Monitor

end KVStore
