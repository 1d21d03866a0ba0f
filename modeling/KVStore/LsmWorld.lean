import KVStore.LsmCrash

namespace KVStore

open Lib CrashProgram

/-- A directory over its whole life: no process has it open, one is recovering it,
or one is running on it. The history lists the writes that count, newest first. -/
inductive World (n : Nat)
  | down (env : Env) (history : List Entry)
  | recovering (env : Env) (io : LsmIo (Except Failure Recovered)) (history : List Entry)
  | running (s : System n) (history : List Entry)

namespace World

variable {n : Nat}

def env : World n → Env
  | .down env _ => env
  | .recovering env _ _ => env
  | .running s _ => s.env

/-- Opening, crashes, and the steps of a running store. A crash during recovery
stops it between two operations. -/
inductive Step (opts : LsmOptions) (listing : Listing) : World n → World n → Prop
  | «open» {env : Env} {history : List Entry} :
      Step opts listing (.down env history) (.recovering env (LsmStore.openStore opts) history)
  | recover {env : Env} {o : Op} {k : Res o → LsmIo (Except Failure Recovered)}
      {history : List Entry} :
      Step opts listing (.recovering env (.op o k) history)
        (.recovering (env.exec listing o).2 (k (env.exec listing o).1) history)
  | opened {env : Env} {store : Recovered} {history : List Entry} :
      Step opts listing (.recovering env (.ret (.ok store)) history)
        (.running (System.opened n env store) history)
  | refused {env : Env} {f : Failure} {history : List Entry} :
      Step opts listing (.recovering env (.ret (.error f)) history) (.down env history)
  | crashRecovering {env : Env} {io : LsmIo (Except Failure Recovered)} {history : List Entry} :
      Step opts listing (.recovering env io history) (.down env history)
  | run {s s' : System n} {a : Action n} {history : List Entry}
      (next : s.step opts listing a = some s') :
      Step opts listing (.running s history) (.running s' history)
  | crash {s : System n} {env : Env} {writes history : List Entry} (left : s.Crash env writes) :
      Step opts listing (.running s history) (.down env (writes ++ history))

inductive Reachable (opts : LsmOptions) (listing : Listing) : World n → Prop
  | start : Reachable opts listing (.down .empty [])
  | step {w w' : World n} (reached : Reachable opts listing w) (next : Step opts listing w w') :
      Reachable opts listing w'

def Inv (opts : LsmOptions) (listing : Listing) : World n → Prop
  | .down env history => Recoverable opts env history ∧ ∀ e ∈ history, Writable e
  | .recovering env io history =>
    (∃ mem, Alone listing (fun env => Recoverable opts env history)
      (LsmStore.RecoverResult opts mem history) io env) ∧ ∀ e ∈ history, Writable e
  | .running s history => (∃ live frozen flushed,
      System.StoreInv opts listing history s live frozen flushed) ∧ ∀ e ∈ history, Writable e

variable {opts : LsmOptions} {listing : Listing} {w w' : World n}

theorem Step.issued_le (hfail : opts.failAt = .none) (h : Step opts listing w w') :
    w.env.issued ≤ w'.env.issued := by
  cases h with
  | recover => exact Env.issued_le_exec listing _ _
  | run next => exact (System.step_cases hfail next).issued_le
  | crash left =>
    cases left with
    | between => exact le_rfl
    | torn => exact (Env.sameFiles_tearLog _ _).issued.ge
  | «open» | opened | refused | crashRecovering => exact le_rfl

theorem Inv.step (h : w.Inv opts listing) (hfail : opts.failAt = .none) (hl : w.env.issued < idLimit)
    (hl' : w'.env.issued < idLimit) (hstep : Step opts listing w w') : w'.Inv opts listing := by
  have hrefl : ∀ a : Env, a = a := fun _ => rfl
  cases hstep with
  | «open» => exact ⟨⟨_, LsmStore.alone_openStore h.1 hl⟩, h.2⟩
  | recover =>
    obtain ⟨⟨mem, hio⟩, hw⟩ := h
    exact ⟨⟨mem, hio.stepped hrefl hl hl'⟩, hw⟩
  | opened =>
    obtain ⟨⟨mem, hio⟩, hw⟩ := h
    obtain ⟨_, hready⟩ := hio.returned hrefl hl
    exact ⟨⟨_, _, _, System.storeInv_opened hready hw⟩, hw⟩
  | refused | crashRecovering =>
    obtain ⟨⟨mem, hio⟩, hw⟩ := h
    have hr := hio.now hrefl hl
    exact ⟨hr, hw⟩
  | run next =>
    obtain ⟨⟨live, frozen, flushed, hs⟩, hw⟩ := h
    exact ⟨hs.step hfail (fun _ => hl) (fun _ => hl') (System.step_cases hfail next), hw⟩
  | crash left =>
    obtain ⟨⟨live, frozen, flushed, hs⟩, hw⟩ := h
    exact hs.crash (fun _ => hl) left

theorem Reachable.inv (h : Reachable opts listing w) (hfail : opts.failAt = .none)
    (hl : w.env.issued < idLimit) : w.Inv opts listing := by
  induction h with
  | start => exact ⟨.fresh rfl rfl rfl rfl, nofun⟩
  | step reached next ih =>
    have hbefore := (next.issued_le hfail).trans_lt hl
    exact (ih hbefore).step hfail hbefore hl next

end World

theorem issued_le_run (listing : Listing) {α : Type} (p : LsmIo α) (env : Env) :
    env.issued ≤ (p.run (lsmMachine listing) env).2.issued := by
  induction p generalizing env with
  | ret => exact le_rfl
  | op o k ih => exact (Env.issued_le_exec listing o env).trans (ih _ _)

namespace System

variable {n : Nat}

def lastAnswer (c : Fin n) : List (Event n) → Option (Status × Option Value)
  | .respond d (.got answer) :: _ => if d = c then some answer else none
  | _ => none

def getAlone (opts : LsmOptions) (listing : Listing) (s : System n) (c : Fin n) (key : Key) :
    Option (Status × Option Value) :=
  let pieces := if key = [] then [] else [.client c, .client c]
  (runFrom opts listing [] s (.call c (.get key) :: pieces)).bind fun r => lastAnswer c r.2.trace

theorem getAlone_opened (opts : LsmOptions) (listing : Listing) (env : Env) (store : Recovered)
    (c : Fin n) {key : Key} (hkey : key ≠ []) :
    (opened n env store).getAlone opts listing c key =
      some ((Levels.search store.levels key).answer key) := by
  simp [getAlone, hkey, runFrom, step, opened, Engine.ofRecovered, enter, note, setClient,
    Engine.setClient, clientStep, probe, Memtable.get, Memtable.empty, respond, lastAnswer]

theorem getAlone_nil (opts : LsmOptions) (listing : Listing) (env : Env) (store : Recovered)
    (c : Fin n) : (opened n env store).getAlone opts listing c [] =
      some (Lookup.notPresent.answer []) := by
  simp [getAlone, runFrom, step, opened, Engine.ofRecovered, enter, note, setClient,
    Engine.setClient, respond, lastAnswer]

end System

end KVStore
