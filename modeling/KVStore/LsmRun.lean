import KVStore.LsmStep

namespace KVStore

/-- A client enters a call and makes so many steps in it. -/
def calling {n : Nat} (c : Fin n) (call : Call) (pieces : Nat) : List (Action n) :=
  .call c call :: List.replicate pieces (.client c)

/-- A put, and a flush up to where it waits for the background thread. -/
def putFlush {n : Nat} (c : Fin n) (key : Key) (value : Value) : List (Action n) :=
  calling c (.put key value) 4 ++ calling c .flush 4

namespace System

open Lib CrashProgram LsmStore

variable {n : Nat} {opts : LsmOptions} {listing : Listing} {actions : List (Action n)} {s : System n}

def opened (n : Nat) (env : Env) (r : Recovered) : System n where
  env := env
  engine := .ofRecovered n r
  trace := []

/-- A run: the states it left, each with the action taken there, newest first,
and the state it is in. -/
inductive Run (opts : LsmOptions) (listing : Listing) (start : System n) :
    List (System n × Action n) → System n → Prop
  | start : Run opts listing start [] start
  | step {past : List (System n × Action n)} {s s' : System n} {a : Action n}
      (run : Run opts listing start past s) (next : s.step opts listing a = some s') :
      Run opts listing start ((s, a) :: past) s'

def runFrom (opts : LsmOptions) (listing : Listing) :
    List (System n × Action n) → System n → List (Action n) →
      Option (List (System n × Action n) × System n)
  | past, s, [] => some (past, s)
  | past, s, a :: rest =>
    match s.step opts listing a with
    | none => none
    | some s' => runFrom opts listing ((s, a) :: past) s' rest

theorem run_of_runFrom {start s s' : System n} {past past' : List (System n × Action n)}
    (hrun : Run opts listing start past s) (h : runFrom opts listing past s actions = some (past', s')) :
    Run opts listing start past' s' := by
  induction actions generalizing past s with
  | nil =>
    cases h
    exact hrun
  | cons a rest ih =>
    rw [runFrom] at h
    split at h
    · cases h
    next s₁ hs => exact ih (.step hrun hs) h

def fresh (n : Nat) (opts : LsmOptions) (listing : Listing) : Option (System n) :=
  match (LsmStore.openStore opts).run (lsmMachine listing) Env.empty with
  | (.ok r, env) => some (opened n env r)
  | (.error _, _) => none

def runFresh (n : Nat) (opts : LsmOptions) (actions : List (Action n)) :
    Option (List (System n × Action n) × System n) :=
  (fresh n opts .asStored).bind fun s => runFrom opts .asStored [] s actions

def emptyStore : Env :=
  { manifest := some (levelSetOf [[]] kFirstFileId)
    manifestTemp := none
    tables := ∅
    tableTemps := ∅
    logs := AList.insert kFirstFileId ⟨[], false⟩ ∅
    nextId := kFirstFileId + 1
    issued := 1 }

theorem order_nil (listing : Listing) {α : Type} : listing.order ([] : List α) = [] :=
  (listing.perm []).eq_nil

theorem fresh_of_blockSize (hblock : opts.blockSize ≠ 0) :
    fresh n opts listing = some (opened n emptyStore ⟨[[]], kFirstFileId⟩) := by
  unfold fresh openStore
  rw [if_neg hblock]
  -- nothing to sweep, adopt or replay: recovery commits a manifest and opens a log
  simp [recover, sweepTempFiles, adoptUnmanifestedLayout,
    passIds, sortIds, openTables, replayLogs,
    installReplayed, commitManifest, LsmIo.andThen, Prog.forEach, Prog.run,
    lsmMachine, Env.exec, Env.empty, Env.temps, Env.removeTemp, Env.renameManifest, recognised,
    order_nil, Memtable.isEmpty, Memtable.empty]
  rfl

theorem fresh_eq (h : fresh n opts listing = some s) : s = opened n emptyStore ⟨[[]], kFirstFileId⟩ := by
  by_cases hblock : opts.blockSize = 0
  · simp [fresh, openStore, hblock, Prog.run] at h
  · exact Option.some.inj (h.symm.trans (fresh_of_blockSize hblock))

theorem fresh_opened (h : fresh n opts listing = some s) : ∃ env r, s = opened n env r :=
  ⟨_, _, fresh_eq h⟩

theorem exists_fresh_run {P : List (System n × Action n) × System n → Prop}
    (h : ∃ r ∈ runFresh n opts actions, P r) :
    ∃ env r past s, fresh n opts .asStored = some (opened n env r) ∧
      Run opts .asStored (opened n env r) past s ∧ P (past, s) := by
  obtain ⟨⟨past, s⟩, hr, hp⟩ := h
  obtain ⟨start, hstart, hrun⟩ := Option.bind_eq_some_iff.mp hr
  obtain ⟨env, r, rfl⟩ := fresh_opened hstart
  exact ⟨env, r, past, s, hstart, run_of_runFrom .start hrun, hp⟩

/-- The states since client `c` entered the call it is in, the current one apart. -/
def duringCall (c : Fin n) (past : List (System n × Action n)) : List (System n) :=
  (past.map Prod.fst).takeWhile fun s => !(s.engine.clients c matches .idle)

end System

end KVStore
