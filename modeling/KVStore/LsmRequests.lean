import KVStore.LsmFrame

namespace KVStore

open Lib CrashProgram

namespace Engine

variable {n : Nat} {opts : LsmOptions} {e e' : Engine n} {env : Env}

theorem quiet_congr (hl : e'.levels = e.levels)
    (hp : e'.compactPointer = e.compactPointer) (h : e.Quiet opts) : e'.Quiet opts := by
  unfold Quiet pick
  rw [hl, hp]
  exact h

theorem LoopTurn.halted_iff (h : LoopTurn opts env e e') :
    e'.haltedByFailPoint = true ↔ e.haltedByFailPoint = true ∨
      e.idle = false ∧ e.imm = none ∧ e.compactRequested = true ∧ e.Quiet opts := by
  cases h with
  | exit hs =>
    have : e.idle = true := by simp [idle, hs]
    simp [this]
  | sleep _ hr =>
    rcases hr with hr | ⟨_, hr, _⟩
    · simp [hr]
    · simp [hr]
  | flush hb hf => simp [beginFlush, hf]
  | halt hb ht hreq hq => simp [haltRun, hb, ht, hreq, hq]
  | undefined hb hp | compact hb ht hp =>
    refine ⟨Or.inl, Or.rec id ?_⟩
    rintro ⟨_, _, _, hq⟩
    simp [pickStep_of_quiet hq] at hp

theorem quiet_of_rested {e : Engine n} (h : e.rested.Quiet opts) : e.Quiet opts := h

theorem LoopTurn.halted_quiet (h : LoopTurn opts env e e') (he : e.haltedByFailPoint = true → e.Quiet opts)
    (he' : e'.haltedByFailPoint = true) :
    e'.Quiet opts ∧ (e'.background = .waiting ∨ e'.background = .exited) := by
  cases h with
  | exit => exact ⟨he he', Or.inr rfl⟩
  | sleep => exact ⟨he he', Or.inl rfl⟩
  | halt hb ht hreq hq => exact ⟨hq, Or.inl rfl⟩
  | flush hb | undefined hb | compact hb =>
    have hidle : e.idle = true := by
      have : e.haltedByFailPoint = true := he'
      simp [idle, this]
    simp [hb] at hidle

end Engine

namespace Background

def unforced : Background → Bool
  | .compacting run _ _ => !run.force
  | .renamingOutputs run _ _ _ => !run.force
  | .committing run _ _ => !run.force
  | .marking run _ => !run.force
  | .finishing run => !run.force
  | _ => false

end Background

namespace Engine

variable {n : Nat}

theorem LoopTurn.request {opts : LsmOptions} {env : Env} {e e' : Engine n}
    (h : LoopTurn opts env e e') (hreq : e.compactRequested = true) :
    e.Quiet opts ∨ e'.compactRequested = true ∧ e'.background.unforced = false := by
  cases h with
  | exit => exact Or.inr ⟨hreq, rfl⟩
  | sleep => exact Or.inr ⟨hreq, rfl⟩
  | flush => exact Or.inr ⟨hreq, rfl⟩
  | halt hb ht _ hq => exact Or.inl hq
  | undefined => exact Or.inr ⟨hreq, rfl⟩
  | compact => exact Or.inr ⟨hreq, by simp [Background.unforced, hreq]⟩

end Engine

namespace System

variable {n : Nat}

/-- The background thread takes up a `compact()` request while the tree is quiet. -/
def TakesQuietRequest (opts : LsmOptions) (s : System n) (a : Action n) : Prop :=
  a = .background ∧ (s.engine.background = .waiting ∨ s.engine.background = .retired) ∧
    s.engine.idle = false ∧ s.engine.imm = none ∧ s.engine.compactRequested = true ∧
      s.engine.Quiet opts

theorem step_halted_iff {opts : LsmOptions} {listing : Listing} {s s' : System n} {a : Action n}
    (hfail : opts.failAt = .none) (h : s.step opts listing a = some s')
    (hrun : s.engine.haltedByFailPoint = false) :
    s'.engine.haltedByFailPoint = true ↔ TakesQuietRequest opts s a := by
  cases step_cases hfail h with
  | call => simp [(enter_cases _ _ _).untouched.halted, note, hrun, TakesQuietRequest]
  | client hc => simp [hc.untouched.halted, hrun, TakesQuietRequest]
  | unlink | stop => simp [hrun, TakesQuietRequest]
  | background hb =>
    cases hb with
    | turn pc next => simp [next.halted_iff, hrun, TakesQuietRequest, pc]
    | flushEnded pc next =>
      simp only [next.halted_iff, TakesQuietRequest, pc, Engine.rested, hrun]
      simp [Engine.idle, Engine.Quiet, Engine.pick, hrun]
    | flushFailed pc next => simp [next.halted_iff, hrun, TakesQuietRequest, pc, Engine.rested,
        Engine.failed, Engine.idle, Failure.bad]
    | compactFailed pc next =>
      rcases pc with pc | ⟨ids, pc⟩ | pc <;>
        simp [next.halted_iff, hrun, TakesQuietRequest, pc, Engine.cleared, Engine.failed]
    | runEnded pc _ next =>
      simp [next.halted_iff, hrun, TakesQuietRequest, pc, Engine.cleared]
    | runExhausted pc next =>
      simp [next.halted_iff, hrun, TakesQuietRequest, pc, Engine.cleared, Engine.failed]
    | flushOp pc | flushInstalled pc | retire pc | compactOp pc | written pc | renameOp pc
    | renamed pc | commitOp pc | installed pc | mark pc | nextUndefined pc | nextWork pc =>
      simp [hrun, TakesQuietRequest, pc, setBackground]

theorem opened_running (n : Nat) (env : Env) (r : Recovered) :
    (opened n env r).engine.haltedByFailPoint = false := rfl

/-- The background thread keeps working through a run exactly when no step of the
run takes up a `compact()` request on a quiet tree. -/
theorem never_halted_iff {opts : LsmOptions} {listing : Listing} {env : Env} {r : Recovered}
    {past : List (System n × Action n)} {s : System n} (hfail : opts.failAt = .none)
    (hrun : Run opts listing (opened n env r) past s) :
    ((∀ x ∈ past, x.1.engine.haltedByFailPoint = false) ∧ s.engine.haltedByFailPoint = false) ↔
      ∀ x ∈ past, ¬ TakesQuietRequest opts x.1 x.2 := by
  induction hrun with
  | start => simp [opened_running]
  | @step past s s' a _ next ih =>
    simp only [List.mem_cons, forall_eq_or_imp]
    constructor
    · rintro ⟨⟨hs, hpast⟩, hs'⟩
      refine ⟨fun htake => ?_, ih.mp ⟨hpast, hs⟩⟩
      have := (step_halted_iff hfail next hs).mpr htake
      simp [hs'] at this
    · rintro ⟨htake, hpast⟩
      obtain ⟨hpast', hs⟩ := ih.mpr hpast
      refine ⟨⟨hs, hpast'⟩, ?_⟩
      by_contra hne
      exact htake ((step_halted_iff hfail next hs).mp (by simpa using hne))

/-- One put, acknowledged while the background thread sleeps. -/
theorem never_halted_iff_of_put :
    ∃ past s start, fresh 1 {} .asStored = some start ∧ Run {} .asStored start past s ∧
      past.length = 6 ∧
      (((∀ x ∈ past, x.1.engine.haltedByFailPoint = false) ∧ s.engine.haltedByFailPoint = false) ↔
        ∀ x ∈ past, ¬ TakesQuietRequest {} x.1 x.2) := by
  have h : ∃ r ∈ runFresh 1 {} (calling 0 (.put (text "a") (text "x")) 4 ++ [.background]), r.1.length = 6 := by
    decide +kernel
  obtain ⟨_, _, past, s, hstart, hrun, hlength⟩ := exists_fresh_run h
  exact ⟨past, s, _, hstart, hrun, hlength, never_halted_iff rfl hrun⟩

/-- `compact()` on an empty store: no fail point, no failure, and the background
thread stops for good. -/
theorem compact_on_empty_store_halts :
    ∃ past s start, fresh 1 {} .asStored = some start ∧ Run {} .asStored start past s ∧
      s.engine.haltedByFailPoint = true := by
  have h : ∃ r ∈ runFresh 1 {} [.call 0 .compact, .client 0, .background],
      r.2.engine.haltedByFailPoint = true := by decide +kernel
  obtain ⟨_, _, past, s, hstart, hrun, hhalted⟩ := exists_fresh_run h
  exact ⟨past, s, _, hstart, hrun, hhalted⟩

end System

end KVStore
