import KVStore.LsmRequests

namespace KVStore.System

open Lib CrashProgram Engine

variable {n : Nat} {c : Fin n} {a : Action n} {past : List (System n × Action n)} {opts : LsmOptions}
    {s s' : System n} {call : Call} {listing : Listing}

/-- A `compact()` raises its flag while an automatic compaction is running. -/
def requestsDuringAutomaticRun (s : System n) : Action n → Bool
  | .client c => (s.engine.clients c matches .compactCalled) && s.engine.background.unforced
  | _ => false

theorem duringCall_cons {s : System n}
    (h : s.engine.clients c ≠ .idle) : duringCall c ((s, a) :: past) = s :: duringCall c past := by
  unfold duringCall
  rw [List.map_cons, List.takeWhile_cons_of_pos]
  cases hpc : s.engine.clients c <;> simp_all

/-- What holds of requests and of the flag that halts the thread, along a run. -/
structure RequestsServed (opts : LsmOptions) (past : List (System n × Action n)) (s : System n) :
    Prop where
  halted : s.engine.haltedByFailPoint = true → s.engine.Quiet opts ∧
    (s.engine.background = .waiting ∨ s.engine.background = .exited)
  stopped : s.engine.stopping = true → ∀ c, s.engine.clients c = .idle
  served : ∀ c, s.engine.clients c = .waiting .compact →
    (∃ q ∈ s :: duringCall c past, q.engine.Quiet opts) ∨
      s.engine.backgroundStatus.isOk = false ∨
      s.engine.compactRequested = true ∧ s.engine.background.unforced = false

theorem served_of_step (h : RequestsServed opts past s) (hpc : s.engine.clients c = .waiting .compact)
    (hbad : s.engine.backgroundStatus.isOk = false → s'.engine.backgroundStatus.isOk = false)
    (hreq : s.engine.compactRequested = true → s.engine.background.unforced = false →
      s.engine.Quiet opts ∨ s'.engine.backgroundStatus.isOk = false ∨
        s'.engine.compactRequested = true ∧ s'.engine.background.unforced = false) :
    (∃ q ∈ s' :: duringCall c ((s, a) :: past), q.engine.Quiet opts) ∨
      s'.engine.backgroundStatus.isOk = false ∨
      s'.engine.compactRequested = true ∧ s'.engine.background.unforced = false := by
  rw [duringCall_cons (by simp [hpc])]
  rcases h.served c hpc with ⟨q, hq, hquiet⟩ | hb | ⟨hr, hu⟩
  · exact Or.inl ⟨q, List.mem_cons_of_mem _ hq, hquiet⟩
  · exact Or.inr (Or.inl (hbad hb))
  · rcases hreq hr hu with hquiet | h'
    · exact Or.inl ⟨s, by simp, hquiet⟩
    · exact Or.inr h'

theorem ClientStep.waits_compact
    (h : ClientStep opts s c s') (hpc : s'.engine.clients c = .waiting .compact) :
    s.engine.clients c = .compactCalled ∧ s'.engine.compactRequested = true := by
  cases h
  case request pc ok => exact ⟨pc, rfl⟩
  all_goals
    exfalso
    simp [setClient, Engine.setClient, System.respond, System.insert, System.note, System.rotate]
      at hpc

theorem EnterStep.not_waits_compact (h : EnterStep s c call s') : s'.engine.clients c ≠ .waiting .compact := by
  cases h <;> simp [setClient, Engine.setClient, System.respond, System.note]

theorem EnterStep.requested_eq
    (h : EnterStep s c call s') : s'.engine.compactRequested = s.engine.compactRequested := by
  cases h <;> rfl

theorem ClientStep.requested_mono (h : ClientStep opts s c s') (hr : s.engine.compactRequested = true) :
    s'.engine.compactRequested = true := by
  cases h <;> first | exact hr | rfl

section

variable (h : BackgroundStep opts listing s s')
include h

theorem BackgroundStep.carries_request (hrun : s.engine.stopping = false)
    (hreq : s.engine.compactRequested = true) (hforced : s.engine.background.unforced = false) :
    s.engine.Quiet opts ∨ s'.engine.backgroundStatus.isOk = false ∨
      s'.engine.compactRequested = true ∧ s'.engine.background.unforced = false := by
  cases h with
  | turn pc next => exact (next.request hreq).imp_right Or.inr
  | flushEnded pc next => exact (next.request hreq).imp quiet_of_rested Or.inr
  | flushFailed pc next | compactFailed pc next | runExhausted pc next =>
    exact Or.inr (Or.inl (next.status_eq ▸ Failure.bad _))
  | runEnded pc reason =>
    rcases reason with hf | hs | hq
    · simp [pc, Background.unforced, hf] at hforced
    · simp [hrun] at hs
    · exact Or.inl hq
  | nextWork pc forced =>
    exact Or.inr (Or.inr ⟨hreq, by simp [setBackground, Background.unforced, forced]⟩)
  | flushOp | flushInstalled | retire | nextUndefined =>
    exact Or.inr (Or.inr ⟨hreq, rfl⟩)
  | compactOp pc | written pc | renameOp pc | renamed pc | commitOp pc | installed pc | mark pc =>
    rw [pc] at hforced
    exact Or.inr (Or.inr ⟨hreq, hforced⟩)

theorem BackgroundStep.status_mono (hbad : s.engine.backgroundStatus.isOk = false) :
    s'.engine.backgroundStatus.isOk = false := by
  cases h with
  | turn pc next | flushEnded pc next | runEnded pc _ next => exact next.status_eq ▸ hbad
  | flushFailed pc next | compactFailed pc next | runExhausted pc next =>
    exact next.status_eq ▸ Failure.bad _
  | _ => exact hbad

theorem BackgroundStep.halted_quiet
    (hs : s.engine.haltedByFailPoint = true → s.engine.Quiet opts ∧
      (s.engine.background = .waiting ∨ s.engine.background = .exited))
    (hs' : s'.engine.haltedByFailPoint = true) :
    s'.engine.Quiet opts ∧ (s'.engine.background = .waiting ∨ s'.engine.background = .exited) := by
  have hnot : s.engine.background ≠ .waiting → s.engine.haltedByFailPoint = false ∨
      s.engine.background = .exited := by
    intro hne
    cases hh : s.engine.haltedByFailPoint
    · exact Or.inl rfl
    · exact Or.inr ((hs hh).2.resolve_left hne)
  cases h with
  | turn pc next => exact next.halted_quiet (fun h => (hs h).1) hs'
  | flushEnded pc next | flushFailed pc next | runEnded pc _ next | runExhausted pc next =>
    have hh := (hnot (by simp [pc])).resolve_right (by simp [pc])
    exact next.halted_quiet (fun h => by simp [rested, failed, cleared, hh] at h) hs'
  | compactFailed pc next =>
    have hh : s.engine.haltedByFailPoint = false := by
      rcases pc with pc | ⟨ids, pc⟩ | pc <;> exact (hnot (by simp [pc])).resolve_right (by simp [pc])
    exact next.halted_quiet (fun h => by simp [failed, cleared, hh] at h) hs'
  | flushOp pc | flushInstalled pc | retire pc | nextUndefined pc | compactOp pc | written pc
  | renameOp pc | renamed pc | commitOp pc | installed pc | mark pc | nextWork pc =>
    have hh := (hnot (by simp [pc])).resolve_right (by simp [pc])
    simp [setBackground, hh] at hs'

end

theorem requestsServed_step (hfail : opts.failAt = .none) (h : RequestsServed opts past s)
    (hcond : requestsDuringAutomaticRun s a = false) (hstep : s.step opts listing a = some s') :
    RequestsServed opts ((s, a) :: past) s' := by
  cases step_cases hfail hstep with
  | @call c call pc running =>
    have henter := enter_cases (s.note (.invoke c call)) c call
    have hu := henter.untouched
    refine ⟨?_, ?_, ?_⟩
    · rw [hu.halted, hu.background]
      exact fun hh => (h.halted hh).imp_left (quiet_congr hu.levels hu.compactPointer)
    · rw [hu.stopping]
      intro hst
      simp [note, running] at hst
    · intro c' hpc'
      by_cases hne : c' = c
      · subst hne
        exact absurd hpc' henter.not_waits_compact
      · have hpc : s.engine.clients c' = .waiting .compact := (henter.clients_of_ne hne) ▸ hpc'
        refine served_of_step h hpc (by rw [hu.status]; exact id) fun hr hf => Or.inr (Or.inr ?_)
        rw [henter.requested_eq, hu.background]
        exact ⟨hr, hf⟩
  | @client c _ hc =>
    have hu := hc.untouched
    refine ⟨?_, ?_, ?_⟩
    · rw [hu.halted, hu.background]
      exact fun hh => (h.halted hh).imp_left (quiet_congr hu.levels hu.compactPointer)
    · rw [hu.stopping]
      intro hst
      have hidle := h.stopped hst c
      cases hc <;> simp_all
    · intro c' hpc'
      by_cases hne : c' = c
      · subst hne
        obtain ⟨hpc, hr⟩ := hc.waits_compact hpc'
        refine Or.inr (Or.inr ⟨hr, ?_⟩)
        rw [hu.background]
        by_contra hf
        simp [requestsDuringAutomaticRun, hpc, hf] at hcond
      · have hpc : s.engine.clients c' = .waiting .compact := (hc.clients_of_ne hne) ▸ hpc'
        refine served_of_step h hpc (by rw [hu.status]; exact id) fun hr hf => Or.inr (Or.inr ?_)
        rw [hu.background]
        exact ⟨hc.requested_mono hr, hf⟩
  | background hb =>
    refine ⟨hb.halted_quiet h.halted, ?_, ?_⟩
    · rw [hb.stopping_eq, hb.clients_eq]
      exact h.stopped
    · intro c hpc'
      rw [hb.clients_eq] at hpc'
      have hrun : s.engine.stopping = false := by
        by_contra hst
        simp [h.stopped (by simpa using hst) c] at hpc'
      exact served_of_step h hpc' hb.status_mono (hb.carries_request hrun)
  | unlink =>
    exact ⟨h.halted, h.stopped, fun c hpc =>
      served_of_step h hpc id fun hr hf => Or.inr (Or.inr ⟨hr, hf⟩)⟩
  | stop hq =>
    refine ⟨h.halted, fun _ => hq, fun c hpc => ?_⟩
    simp [hq c] at hpc

theorem requestsServed_run {env : Env} {r : Recovered} {s : System n} (hfail : opts.failAt = .none)
    (hrun : Run opts listing (opened n env r) past s)
    (hcond : ∀ x ∈ past, requestsDuringAutomaticRun x.1 x.2 = false) : RequestsServed opts past s := by
  induction hrun with
  | start => exact ⟨by simp [opened_running], by simp [opened, ofRecovered],
      by simp [opened, ofRecovered]⟩
  | step _ next ih =>
    simp only [List.mem_cons, forall_eq_or_imp] at hcond
    exact requestsServed_step hfail (ih hcond.2) hcond.1 next

/-- Where no request arrives during an automatic compaction, a `compact()` that
returns Ok has seen the tree quiet between its call and its return. -/
theorem compact_sees_quiet_tree {opts : LsmOptions} {listing : Listing} {env : Env} {r : Recovered}
    {past : List (System n × Action n)} {s s' : System n} {c : Fin n} {st : Status}
    (hfail : opts.failAt = .none) (hrun : Run opts listing (opened n env r) past s)
    (hcond : ∀ x ∈ past, requestsDuringAutomaticRun x.1 x.2 = false)
    (hpc : s.engine.clients c = .waiting .compact) (hstep : s.step opts listing (.client c) = some s')
    (hret : s'.trace = .respond c (.status st) :: s.trace) (hok : st.isOk = true) :
    ∃ q ∈ s :: duringCall c past, q.engine.Quiet opts := by
  have hinv := requestsServed_run hfail hrun hcond
  cases step_cases hfail hstep with
  | client hc =>
    cases hc
    case settle call pc settled =>
      simp only [respond, note, List.cons.injEq, Event.respond.injEq, Response.status.injEq,
        true_and] at hret
      have hst : s.engine.backgroundStatus.isOk = true := by
        rw [hret.1]
        exact hok
      have hrunning : s.engine.stopping = false := by
        by_contra hs
        simp [hinv.stopped (by simpa using hs) c] at hpc
      simp only [Engine.settled, idle, hrunning, hst, Bool.not_true, Bool.false_or,
        Bool.or_eq_true, Bool.and_eq_true, Bool.not_eq_true'] at settled
      rcases settled with hh | ⟨_, hreq⟩
      · exact ⟨s, by simp, (hinv.halted hh).1⟩
      · rcases hinv.served c hpc with hq | hb | ⟨hr, _⟩
        · exact hq
        · simp [hst] at hb
        · simp [hreq] at hr
    all_goals simp_all

def flushedOnce (value : Value) (background : Nat) : List (Action 2) :=
  putFlush 0 (text "a") value ++ List.replicate background .background

def callCompact : List (Action 2) := [.call 1 .compact, .client 1]

/-- A request raised between two pieces of background work, then served. -/
theorem compact_sees_quiet_tree_after_flush :
    ∃ past s start, fresh 2 { l0CompactionTrigger := 1 } .asStored = some start ∧
      Run { l0CompactionTrigger := 1 } .asStored start past s ∧
      ∃ q ∈ s :: duringCall 1 past, q.engine.Quiet { l0CompactionTrigger := 1 } := by
  let opts : LsmOptions := { l0CompactionTrigger := 1 }
  have h : ∃ r ∈ runFresh 2 opts (flushedOnce (text "x") 12 ++ callCompact ++ List.replicate 17 .background),
      (∀ x ∈ r.1, requestsDuringAutomaticRun x.1 x.2 = false) ∧ r.2.engine.clients 1 = .waiting .compact ∧
      ∃ s' ∈ r.2.step opts .asStored (.client 1), s'.trace = .respond 1 (.status .ok) :: r.2.trace := by
    decide +kernel
  obtain ⟨_, _, past, s, hstart, hrun, hlate, hpc, s', hstep, htrace⟩ := exists_fresh_run h
  exact ⟨past, s, _, hstart, hrun, compact_sees_quiet_tree rfl hrun hlate hpc hstep htrace Status.isOk_ok⟩

/-- L2 holds a table when a small one lands in L0. Its automatic merge into L1 is
under way when `compact()` is called; the end of that merge clears the flag, and
the call returns Ok with L1 above L2 and never having seen the tree quiet. -/
theorem compact_request_lost :
    ∃ past s s' start,
      fresh 2 { l0CompactionTrigger := 1, levelBaseBytes := 110 } .asStored = some start ∧
      Run { l0CompactionTrigger := 1, levelBaseBytes := 110 } .asStored start past s ∧
      s.engine.clients 1 = .waiting .compact ∧
      s.step { l0CompactionTrigger := 1, levelBaseBytes := 110 } .asStored (.client 1) = some s' ∧
      s'.trace = .respond 1 (.status .ok) :: s.trace ∧
      ∀ q ∈ s :: duringCall 1 past,
        ¬ q.engine.Quiet { l0CompactionTrigger := 1, levelBaseBytes := 110 } := by
  let opts : LsmOptions := { l0CompactionTrigger := 1, levelBaseBytes := 110 }
  have h : ∃ r ∈ runFresh 2 opts (flushedOnce (text "a value of 20 bytes.") 45 ++ [.client 0] ++
        flushedOnce (text "x") 13 ++ callCompact ++ List.replicate 16 .background),
      r.2.engine.clients 1 = .waiting .compact ∧
      ∃ s' ∈ r.2.step opts .asStored (.client 1), s'.trace = .respond 1 (.status .ok) :: r.2.trace ∧
        ∀ q ∈ r.2 :: duringCall 1 r.1, ¬ q.engine.Quiet opts := by decide +kernel
  obtain ⟨_, _, past, s, hstart, hrun, hpc, s', hstep, htrace, hbusy⟩ := exists_fresh_run h
  exact ⟨past, s, s', _, hstart, hrun, hpc, hstep, htrace, hbusy⟩

end KVStore.System
