import KVStore.BitcaskFailedSync
import KVStore.LsmFailedSync

namespace KVStore

open Lib CrashProgram

/-- A put or remove that returned an error because its fsync failed is not seen while the
store stays open. After the store is opened again, it is not seen exactly if its record
never reached the log or its key already answered that way, and, in the other engine, the
records in the logs fit a table; runs in which failed writes only repeat what is there are
answered by the acknowledged writes alone. -/
theorem failed_sync_unseen [Crc] {n : Nat} {opts : LsmOptions} {listing : Listing} (hfail : opts.failAt = .none)
    (hblock : opts.blockSize ≠ 0) :
    (∀ {s : Bitcask} {d : Directory} {history : List Write},
      Bitcask.SyncReached listing s d history →
      Bitcask.AnswersOpen listing s d history ∧ Bitcask.AnswersReopened listing d history ∧
        ∀ {call : Bitcask.Call} {w : Write} {e : Failure} {s' : Bitcask} {d' : Directory} {landed : Bool},
          call.writes = [w] →
          Bitcask.SyncRuns listing (call.program s) (d, false) (.error e, s') (d', landed) →
          Bitcask.AnswersOpen listing s' d' history ∧
            (Bitcask.AnswersReopened listing d' history ↔ (landed = true → Bitcask.Repeats history w))) ∧
    (∀ {env : Env} {history : List Entry}, World.SyncReachable opts listing (.down env history : World n) →
      ((LsmStore.openStore opts).run (lsmMachine listing) env).2.issued < idLimit →
      (System.AnswersReopened n opts listing env history ↔ BlocksFit opts.blockSize (replayed env).map)) ∧
    ∀ {s : System n} {history : List Entry}, World.SyncReachable opts listing (.running s history) →
      s.env.issued < idLimit →
      s.AnswersNow opts listing (acknowledged s.trace ++ history) ∧
        ∀ {c : Fin n} {entry : Entry} {s' : System n} (e : Failure), s.engine.clients c = .appending entry →
          s.step opts listing (.client c) = some s' →
          (s'.failSync c e).AnswersNow opts listing (acknowledged s.trace ++ history) ∧
            (((LsmStore.openStore opts).run (lsmMachine listing) s'.env).2.issued < idLimit →
              (System.AnswersReopened n opts listing (s'.failSync c e).env (acknowledged s.trace ++ history) ↔
                BlocksFit opts.blockSize (replayed s'.env).map ∧
                  visible (SortedRun.find entry.1 (acknowledged s.trace ++ history)) = visible (some entry.2))) := by
  refine ⟨fun h => h.failed_write_unseen, fun h hids => h.answersReopened_iff hfail hblock hids, ?_⟩
  intro s history h hids
  obtain ⟨hnow, hfailed⟩ := h.failed_write_unseen hfail hids
  refine ⟨hnow, fun e pc next => ?_⟩
  obtain ⟨hopen, hreopened⟩ := hfailed e pc next
  exact ⟨hopen, hreopened hblock⟩

/-- Both engines put a key twice with one value, and the second fsync fails. In the other
engine the first put is in a table by then, and the removal of an absent key fails next. -/
theorem failed_sync_unseen_of_repeated_put :
    (∃ (s s' : Bitcask) (d d' : Directory) (history : List Write) (e : Failure),
      Bitcask.SyncReached .asStored s d history ∧
      Bitcask.SyncRuns .asStored (s.put (text "a") (text "x") 0) (d, false) (.error e, s') (d', true) ∧
      Bitcask.AnswersOpen .asStored s' d' history ∧ Bitcask.AnswersReopened .asStored d' history) ∧
    ∃ (s s' : System 1) (e : Failure), World.SyncReachable {} .asStored (.running s []) ∧
      s.engine.mem.isEmpty = true ∧ s.env.logs.lookup s.engine.walId = some ⟨[(text "a", ⟨text "x", false⟩)], false⟩ ∧
      s.step {} .asStored (.client 0) = some s' ∧
      (s'.failSync 0 e).AnswersNow {} .asStored [(text "a", ⟨text "x", false⟩)] ∧
      System.AnswersReopened 1 {} .asStored (s'.failSync 0 e).env [(text "a", ⟨text "x", false⟩)] := by
  have hunseen := @failed_sync_unseen _ 1 {} .asStored rfl (by decide)
  constructor
  · have h : ∃ o ∈ Bitcask.openAndPut {} [(text "a", text "x")],
        ∃ r ∈ Bitcask.runSync (o.1.put (text "a") (text "x") 0) [false, true] o.2,
          r.1.1.isOk = false ∧ r.2.2 = true := by decide +kernel
    obtain ⟨⟨s, d⟩, hput, ⟨⟨r, s'⟩, d', landed⟩, hagain, hbad, rfl⟩ := h
    cases r with
    | ok => cases hbad
    | error e =>
      have hreached := Bitcask.syncReached_of_openAndPut rfl hput
      have hruns : Bitcask.SyncRuns .asStored ((Bitcask.Call.put (text "a") (text "x") 0).program s)
          (d, false) (.error e, s') (d', true) := Bitcask.syncRuns_of_runSync hagain
      obtain ⟨hopen, hreopened⟩ := (hunseen.1 hreached).2.2 rfl hruns
      exact ⟨s, s', d, d', _, e, hreached, hruns, hopen, hreopened.mpr fun _ => rfl⟩
  · let e : Failure := .ioError (text "fsync: Input/output error")
    let actions : List (Action 1) := putFlush 0 (text "a") (text "x") ++ List.replicate 13 .background ++
      [.client 0] ++ calling 0 (.put (text "a") (text "x")) 2
    have h : ∃ r ∈ System.runFresh 1 {} actions, r.2.engine.clients 0 = .appending (text "a", ⟨text "x", false⟩) ∧
        acknowledged r.2.trace = [(text "a", ⟨text "x", false⟩)] ∧ ∃ s₁ ∈ r.2.step {} .asStored (.client 0),
        ∃ r' ∈ System.runFrom {} .asStored [] (s₁.failSync 0 e) (calling 0 (.remove (text "b")) 2),
        r'.2.engine.clients 0 = .appending (text "b", ⟨[], true⟩) ∧
        acknowledged r'.2.trace = [(text "a", ⟨text "x", false⟩)] ∧ ∃ s' ∈ r'.2.step {} .asStored (.client 0),
        decide (r'.2.env.issued < idLimit ∧ r'.2.engine.mem.isEmpty = true ∧
          r'.2.env.logs.lookup r'.2.engine.walId = some ⟨[(text "a", ⟨text "x", false⟩)], false⟩ ∧
          ((LsmStore.openStore {}).run (lsmMachine .asStored) s'.env).2.issued < idLimit ∧
          BlocksFit 4096 (replayed s'.env).map) := by decide +kernel
    obtain ⟨_, s₀, hreach, hpc₀, hack₀, s₁, hstep₀, ⟨past, s⟩, hrun, hpc, hack, s', hstep, h⟩ :=
      World.exists_reachable h
    obtain ⟨hids, hempty, hlog, hids', hfits⟩ := of_decide_eq_true h
    have hfailed : World.SyncReachable {} .asStored (.running (s₁.failSync 0 e) []) :=
      .step (.of_reachable hreach) (.failed e hpc₀ hstep₀ (by rw [hack₀]; rfl))
    have hreached := hfailed.run (System.run_of_runFrom .start hrun)
    obtain ⟨hnow, hreopened⟩ := (hunseen.2.2 hreached hids).2 e hpc hstep
    rw [hack] at hnow hreopened
    exact ⟨s, s', e, hreached, hempty, hlog, hstep, hnow, (hreopened hids').mpr ⟨hfits, rfl⟩⟩

/-- The second put has another value; its fsync fails, and the store opened again answers
with it. -/
theorem failed_put_seen_after_reopening :
    (∃ (s s' s'' : Bitcask) (d d' d'' : Directory) (e : Failure),
      Bitcask.SyncReached .asStored s d [⟨text "a", some (text "x")⟩] ∧
      Bitcask.SyncRuns .asStored (s.put (text "a") (text "z") 0) (d, false) (.error e, s') (d', true) ∧
      (Bitcask.recover {}).run (Bitcask.machine .asStored) d' = (.ok s'', d'') ∧
      ((s''.get (text "a")).run (Bitcask.machine .asStored) d'').1 = (.ok, some (text "z"))) ∧
    ∃ (s s' : System 1) (e : Failure) (store : Recovered) (env : Env),
      World.SyncReachable {} .asStored (.running s []) ∧ acknowledged s.trace = [(text "a", ⟨text "x", false⟩)] ∧
      s.step {} .asStored (.client 0) = some s' ∧
      (LsmStore.openStore {}).run (lsmMachine .asStored) (s'.failSync 0 e).env = (.ok store, env) ∧
      (System.opened 1 env store).getAlone {} .asStored 0 (text "a") = some (.ok, some (text "z")) := by
  constructor
  · have h : ∃ o ∈ Bitcask.openAndPut {} [(text "a", text "x")],
        ∃ r ∈ Bitcask.runSync (o.1.put (text "a") (text "z") 0) [false, true] o.2, r.1.1.isOk = false ∧ r.2.2 = true ∧
        Returned (fun s'' d'' =>
            ((s''.get (text "a")).run (Bitcask.machine .asStored) d'').1 = (.ok, some (text "z")))
          ((Bitcask.recover {}).run (Bitcask.machine .asStored) r.2.1) := by decide +kernel
    obtain ⟨⟨s, d⟩, hput, ⟨⟨r, s'⟩, d', landed⟩, hagain, hbad, rfl, s'', d'', hrecover, hget⟩ := h
    cases r with
    | ok => cases hbad
    | error e =>
      exact ⟨s, s', s'', d, d', d'', e, Bitcask.syncReached_of_openAndPut rfl hput,
        Bitcask.syncRuns_of_runSync hagain, hrecover, hget⟩
  · have h : ∃ r ∈ System.runFresh 1 {} (calling 0 (.put (text "a") (text "x")) 4 ++
        calling 0 (.put (text "a") (text "z")) 2), acknowledged r.2.trace = [(text "a", ⟨text "x", false⟩)] ∧
        ∃ s' ∈ r.2.step {} .asStored (.client 0),
        Returned (fun store env => (System.opened 1 env store).getAlone {} .asStored 0 (text "a") =
            some (.ok, some (text "z")))
          ((LsmStore.openStore {}).run (lsmMachine .asStored) s'.env) := by decide +kernel
    obtain ⟨_, s, hreach, hack, s', hstep, store, env, hrun, hget⟩ := World.exists_reachable h
    exact ⟨s, s', .ioError (text "fsync: Input/output error"), store, env, .of_reachable hreach, hack, hstep, hrun, hget⟩

end KVStore
