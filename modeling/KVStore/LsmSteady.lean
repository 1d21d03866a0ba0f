import KVStore.LsmCrash
import KVStore.LsmWakeups
import KVStore.OutputLimits

namespace KVStore

open Lib SortedRun CrashProgram

/-- A thread that no `compact` has asked anything of, at work that fits the format. -/
def Background.Unasked (opts : LsmOptions) : Background → Prop
  | .waiting | .flushing _ _ | .retiring _ | .retired => True
  | .compacting run work _ => run.force = false ∧ work.OutputsFit opts
  | .renamingOutputs run _ _ _ | .committing run _ _ | .marking run _ | .finishing run => run.force = false
  | .exited | .undefined => False

namespace Engine

variable {n : Nat} {opts : LsmOptions} {env : Env} {e e' : Engine n}

structure Steady (opts : LsmOptions) (e : Engine n) : Prop where
  status : e.backgroundStatus = .ok
  running : e.stopping = false
  unhalted : e.haltedByFailPoint = false
  unrequested : e.compactRequested = false
  background : e.background.Unasked opts

/-- The table of the frozen memtable, and those of the next merge, keep to the 32-bit
sizes of the format. -/
def TablesFit (opts : LsmOptions) (e : Engine n) : Prop :=
  (∀ table ∈ e.imm, BlocksFit opts.blockSize table.map) ∧
    match e.pick opts false with
    | .work work => work.OutputsFit opts
    | _ => True

instance (opts : LsmOptions) (e : Engine n) : Decidable (e.TablesFit opts) := by
  unfold TablesFit
  cases e.pick opts false <;> infer_instance

theorem TablesFit.merge (h : e.TablesFit opts) {work : Compaction} (hpick : e.pick opts false = .work work) :
    work.OutputsFit opts := by
  have hmerge := h.2
  rw [hpick] at hmerge
  exact hmerge

theorem pickStep_unforced {c : Compaction} (h : e.pickStep opts false = .work c) : e.pick opts false = .work c := by
  unfold pickStep at h
  cases hp : e.pick opts false with
  | nothing => simp [hp] at h
  | undefined => simp [hp] at h
  | work => simpa [hp] using h

theorem LoopTurn.steady (h : LoopTurn opts env e e') (ht : 1 ≤ opts.l0CompactionTrigger)
    (hstatus : e.backgroundStatus = .ok) (hrunning : e.stopping = false) (hunhalted : e.haltedByFailPoint = false)
    (hunrequested : e.compactRequested = false)
    (hmerge : ∀ work, e.pick opts false = .work work → work.OutputsFit opts) : e'.Steady opts := by
  cases h with
  | exit stopping => cases hrunning.symm.trans stopping
  | sleep | flush => exact ⟨hstatus, hrunning, hunhalted, hunrequested, trivial⟩
  | halt _ _ requested => cases hunrequested.symm.trans requested
  | undefined _ pick => exact absurd pick (pickStep_ne_undefined ht e _)
  | compact _ _ pick =>
    rw [hunrequested] at pick
    exact ⟨hstatus, hrunning, hunhalted, hunrequested, hunrequested, hmerge _ (pickStep_unforced pick)⟩

theorem Steady.congr (h : e.Steady opts) (hstatus : e'.backgroundStatus = e.backgroundStatus)
    (hstopping : e'.stopping = e.stopping) (hhalted : e'.haltedByFailPoint = e.haltedByFailPoint)
    (hrequested : e'.compactRequested = e.compactRequested) (hbackground : e'.background.Unasked opts) :
    e'.Steady opts :=
  ⟨hstatus.trans h.status, hstopping.trans h.running, hhalted.trans h.unhalted,
    hrequested.trans h.unrequested, hbackground⟩

theorem Steady.untouched (h : e.Steady opts) (hframe : e.Untouched e')
    (hrequested : e'.compactRequested = e.compactRequested) : e'.Steady opts :=
  h.congr hframe.status hframe.stopping hframe.halted hrequested (hframe.background ▸ h.background)

end Engine

namespace System

variable {n : Nat} {opts : LsmOptions} {listing : Listing} {s s' : System n} {prior live frozen flushed : List Entry}
    {table : Memtable}

section

variable (h : StoreInv opts listing prior s live frozen flushed)
include h

theorem StoreInv.frozen_writable (himm : s.engine.imm = some table) {e : Entry} (he : e ∈ table.map) : Writable e := by
  have hfound : find e.1 table.map = some e.2 := find_of_mem table.sorted.nodup_keys he
  have hwritten : find e.1 frozen = some e.2 := (h.history.contents.imm table himm e.1).symm.trans hfound
  have hall := h.accepted.written
  rw [h.history.all] at hall
  refine hall e ?_
  exact List.mem_append_right _ (List.mem_append_left _ (mem_of_find hwritten))

theorem StoreInv.builds_frozen (hblock : 1 ≤ opts.blockSize) (himm : s.engine.imm = some table)
    (hfits : BlocksFit opts.blockSize table.map) :
    ∃ f, buildTable opts.blockSize opts.bitsPerKey table.map = .ok f := by
  refine (buildTable_ok_iff opts.bitsPerKey hblock (fun e he => ?_) table.sorted).mpr hfits
  exact (h.frozen_writable himm he).1

theorem StoreInv.steady_background (hsteady : s.engine.Steady opts) (hfits : s.engine.TablesFit opts)
    (hl : Legal True s.shared)
    (hfail : opts.failAt = .none) (ht : 1 ≤ opts.l0CompactionTrigger) (hblock : 1 ≤ opts.blockSize)
    (hstep : s.step opts listing .background = some s') : s'.engine.Steady opts := by
  have hturn {e : Engine n} (next : Engine.LoopTurn opts s.env e s'.engine)
      (hstatus : e.backgroundStatus = s.engine.backgroundStatus) (hstopping : e.stopping = s.engine.stopping)
      (hhalted : e.haltedByFailPoint = s.engine.haltedByFailPoint)
      (hrequested : e.compactRequested = false)
      (hpick : e.pick opts false = s.engine.pick opts false) : s'.engine.Steady opts :=
    next.steady ht (hstatus.trans hsteady.status) (hstopping.trans hsteady.running)
      (hhalted.trans hsteady.unhalted) hrequested fun work hwork => hfits.merge (hpick ▸ hwork)
  have hback := hsteady.background
  have hpromise := h.background.promise
  by_cases hfinishing : ∃ run, s.engine.background = .finishing run
  · -- a run that was not asked for ends after its one step
    obtain ⟨run, pc⟩ := hfinishing
    have hforce : run.force = false := by
      rw [pc] at hback
      exact hback
    have hraw := step_background hstep
    rw [backgroundStep, pc] at hraw
    simp only [hforce, Bool.false_eq_true, if_false, Engine.endRun_ok, Option.some.injEq] at hraw
    subst hraw
    exact hturn (Engine.backgroundLoop_turn opts s.env s.engine.cleared) rfl rfl rfl rfl rfl
  cases step_cases hfail hstep with
  | background next =>
    cases next with
    | runEnded pc | runExhausted pc | nextUndefined pc | nextWork pc => exact absurd ⟨_, pc⟩ hfinishing
    | turn pc next | flushEnded pc next => exact hturn next rfl rfl rfl hsteady.unrequested rfl
    | flushOp | retire | flushInstalled => exact hsteady.congr rfl rfl rfl rfl trivial
    | flushFailed pc =>
      rw [pc] at hpromise
      obtain ⟨table, himm, _, _, hp⟩ := hpromise
      obtain ⟨_, refusal, hrefused⟩ := hp.returned hl trivial
      obtain ⟨f, hbuilt⟩ := h.builds_frozen hblock himm (hfits.1 table himm)
      cases hrefused.symm.trans hbuilt
    | compactFailed pc =>
      rcases pc with pc | ⟨_, pc⟩ | pc
      · rw [pc] at hback hpromise
        obtain ⟨_, _, hp⟩ := hpromise
        have hstopped := (hp.returned hl).1
        exact absurd ((Compaction.outputs_ok_iff _).mpr hback.2) hstopped
      · rw [pc] at hpromise
        obtain ⟨_, _, _, _, hp⟩ := hpromise
        exact absurd trivial (hp.returned hl)
      · rw [pc] at hpromise
        obtain ⟨_, _, _, _, _, _, _, hp⟩ := hpromise
        exact absurd trivial (hp.returned hl)
    | compactOp pc | renameOp pc | commitOp pc | installed pc | mark pc | renamed pc =>
      rw [pc] at hback
      exact hsteady.congr rfl rfl rfl rfl hback
    | written pc =>
      rw [pc] at hback
      exact hsteady.congr rfl rfl rfl rfl hback.1

end

end System

end KVStore
