import KVStore.LsmAccepted
import KVStore.LsmLiveFrame

namespace KVStore

open Lib CrashProgram

/-- What the three calls that `rotate_memtable` makes outside the lock return. -/
structure RotationCalls where
  closed : Status
  opened : Status
  synced : Status

/-- The results are looked at in this order, once all three calls are made. -/
def RotationCalls.status (calls : RotationCalls) : Status :=
  if !calls.closed.isOk then calls.closed
  else if !calls.opened.isOk then calls.opened
  else calls.synced

/-- A running store, and whether `wal_` still has a descriptor. -/
structure Logged (n : Nat) where
  system : System n
  walOpen : Bool

inductive LoggedAction (n : Nat)
  | plain (a : Action n)
  | rotation (c : Fin n) (calls : RotationCalls)

def LoggedAction.isOf {n : Nat} (c : Fin n) : LoggedAction n → Bool
  | .plain (.call d _) | .plain (.client d) | .rotation d _ => d = c
  | .plain _ => false

namespace Logged

variable {n : Nat} {opts : LsmOptions} {listing : Listing} {s s' : Logged n}

def closedFile (id : FileId) : Status :=
  .ioError (text "append on a closed file: " ++ walFileName id)

section

variable (opts : LsmOptions) (listing : Listing) (s : Logged n)

/-- The unlocked half of `rotate_memtable` and the checks that follow it. `close`
gives the descriptor up whatever it returns, and a log that could be opened
stays in the directory. -/
def finishRotation (c : Fin n) (next : FileId) (resume : Resume) (calls : RotationCalls) : Logged n :=
  let t : System n :=
    { s.system with env := if calls.opened.isOk then s.system.env.createLog next else s.system.env }
  if calls.status.isOk then ⟨t.setClient c (.rotated next resume), false⟩
  else ⟨t.release.respond c (.status calls.status), false⟩

def plainStep (a : Action n) : Option (Logged n) :=
  (s.system.step opts listing a).map fun t => ⟨t, s.walOpen⟩

def clientStep (c : Fin n) : Option (Logged n) :=
  match s.system.engine.clients c with
  | .rotating _ _ => none
  | .rotated _ _ => (s.system.step opts listing (.client c)).map fun t => ⟨t, true⟩
  | .appending _ =>
    if s.walOpen then s.plainStep opts listing (.client c)
    else some ⟨s.system.release.respond c (.status (closedFile s.system.engine.walId)), false⟩
  | _ => s.plainStep opts listing (.client c)

def step (a : LoggedAction n) : Option (Logged n) :=
  match s.system.engine.background with
  | .undefined => none
  | _ =>
    match a with
    | .plain (.client c) => s.clientStep opts listing c
    | .plain a => s.plainStep opts listing a
    | .rotation c calls =>
      match s.system.engine.clients c with
      | .rotating next resume => some (s.finishRotation c next resume calls)
      | _ => none

def rotate (c : Fin n) (resume : Resume) : Logged n := { s with system := s.system.rotate c resume }

def runFrom : Logged n → List (LoggedAction n) → Option (Logged n)
  | s, [] => some s
  | s, a :: rest => (s.step opts listing a).bind fun s' => runFrom s' rest

end

def Moves (opts : LsmOptions) (listing : Listing) (p : LoggedAction n → Prop) (s s' : Logged n) : Prop :=
  ∃ a, p a ∧ s.step opts listing a = some s'

abbrev Steps (opts : LsmOptions) (listing : Listing) (p : LoggedAction n → Prop) :
    Logged n → Logged n → Prop :=
  Relation.ReflTransGen (Moves opts listing p)

def Reachable (opts : LsmOptions) (listing : Listing) (s : Logged n) : Prop :=
  ∃ env r, Steps opts listing (fun _ => True) ⟨.opened n env r, true⟩ s

/-- The writer is as it was: the memtables, the log, open for append, and its id. -/
def Undone (s s' : Logged n) : Prop :=
  s'.system.engine.mem = s.system.engine.mem ∧ s'.system.engine.imm = s.system.engine.imm ∧
    s'.walOpen = true ∧ s'.system.engine.walId = s.system.engine.walId

inductive Step (opts : LsmOptions) (s : Logged n) : LoggedAction n → Logged n → Prop
  | plain {a : Action n} {t : System n} (next : s.system.LiveStep opts a t)
      (held : ∀ c next resume, a = .client c →
        s.system.engine.clients c ≠ .rotating next resume ∧
          s.system.engine.clients c ≠ .rotated next resume)
      (logged : ∀ c e, a = .client c → s.system.engine.clients c = .appending e → s.walOpen = true) :
      Step opts s (.plain a) ⟨t, s.walOpen⟩
  | switched {c : Fin n} {next : FileId} {resume : Resume} {t : System n}
      (pc : s.system.engine.clients c = .rotated next resume)
      (moved : s.system.LiveStep opts (.client c) t) : Step opts s (.plain (.client c)) ⟨t, true⟩
  | refused {c : Fin n} {e : Entry} (pc : s.system.engine.clients c = .appending e)
      (closed : s.walOpen = false) :
      Step opts s (.plain (.client c))
        ⟨s.system.release.respond c (.status (closedFile s.system.engine.walId)), false⟩
  | rotation {c : Fin n} {next : FileId} {resume : Resume} {calls : RotationCalls}
      (pc : s.system.engine.clients c = .rotating next resume) :
      Step opts s (.rotation c calls) (s.finishRotation c next resume calls)

theorem plainStep_cases {a : Action n} (h : s.plainStep opts listing a = some s') :
    ∃ t, s' = ⟨t, s.walOpen⟩ ∧ s.system.LiveStep opts a t := by
  obtain ⟨t, ht, rfl⟩ := Option.map_eq_some_iff.mp h
  exact ⟨t, rfl, System.step_live ht⟩

theorem clientStep_cases {c : Fin n}
    (h : s.clientStep opts listing c = some s') : Step opts s (.plain (.client c)) s' := by
  unfold clientStep at h
  split at h
  next => cases h
  next next resume pc =>
    obtain ⟨t, ht, rfl⟩ := Option.map_eq_some_iff.mp h
    exact .switched pc (System.step_live ht)
  next e pc =>
    split at h
    next hopen =>
      obtain ⟨t, rfl, ht⟩ := plainStep_cases h
      refine .plain ht ?_ fun _ _ _ _ => hopen
      rintro _ next resume ⟨⟩
      simp [pc]
    next hopen =>
      cases h
      exact .refused pc (Bool.eq_false_of_not_eq_true hopen)
  next hrotating hrotated happending =>
    obtain ⟨t, rfl, ht⟩ := plainStep_cases h
    refine .plain ht ?_ ?_
    · rintro _ next resume ⟨⟩
      exact ⟨hrotating next resume, hrotated next resume⟩
    · rintro _ e ⟨⟩ hpc
      exact absurd hpc (happending e)

theorem step_cases {a : LoggedAction n} (h : s.step opts listing a = some s') : Step opts s a s' := by
  unfold step at h
  split at h
  · cases h
  split at h
  next c => exact clientStep_cases h
  next a ha =>
    obtain ⟨t, rfl, ht⟩ := plainStep_cases h
    exact .plain ht (fun c _ _ hc => absurd hc (ha c)) fun c _ hc _ => absurd hc (ha c)
  next c calls =>
    split at h
    next next resume pc =>
      cases h
      exact .rotation pc
    next => cases h

end Logged

def Engine.Emptied {n : Nat} (e : Engine n) : Prop :=
  ∀ c next resume, e.clients c = .rotating next resume → e.mem.isEmpty = true

namespace System

variable {n : Nat} {opts : LsmOptions} {s s' : System n} {c d : Fin n} {next : FileId} {resume : Resume}
    {call : Call}

theorem ClientStep.rotating_cases
    (h : ClientStep opts s c s') (hd : s'.engine.clients d = .rotating next resume) :
    (∃ r, s' = s.rotate c r) ∨ d ≠ c ∧ s.engine.clients d = .rotating next resume := by
  by_cases hne : d = c
  · subst hne
    left
    cases h
    case rotateWrite | rotateFlush => exact ⟨_, rfl⟩
    all_goals
      exfalso
      simp [setClient, Engine.setClient, System.respond, System.insert, System.note] at hd
  · exact Or.inr ⟨hne, h.clients_of_ne hne ▸ hd⟩

theorem EnterStep.rotating_cases
    (h : EnterStep s c call s') (hd : s'.engine.clients d = .rotating next resume) :
    s.engine.clients d = .rotating next resume := by
  by_cases hne : d = c
  · subst hne
    exfalso
    cases h <;> simp [setClient, Engine.setClient, System.respond, System.note] at hd
  · exact h.clients_of_ne hne ▸ hd

theorem EnterStep.mem_eq {c : Fin n} (h : EnterStep s c call s') : s'.engine.mem = s.engine.mem := by
  cases h <;> rfl

theorem LiveStep.emptied {a : Action n} (h : LiveStep opts s a s') (hlock : s.engine.Locked)
    (hs : s.engine.Emptied) : s'.engine.Emptied := by
  intro d next resume hd
  cases h with
  | call pc hnext =>
    rw [hnext.mem_eq]
    exact hs d next resume (hnext.rotating_cases hd)
  | @client c _ hnext =>
    rcases hnext.rotating_cases hd with ⟨r, rfl⟩ | ⟨hne, hd'⟩
    · rfl
    · rcases hnext.contents with ⟨hsame, _⟩ | ⟨_, r, rfl⟩ | ⟨e, pc, _⟩
      · rw [hsame.mem]
        exact hs d next resume hd'
      · rfl
      · -- the lock is held by the rotation, so no one else is inserting
        have heq := hlock.holder_unique (c := d) (d := c) (by rw [hd']; rfl) (by rw [pc]; rfl)
        exact absurd heq hne
  | other frame =>
    rw [frame.mem]
    rw [frame.clients] at hd
    exact hs d next resume hd

end System

namespace Logged

variable {n : Nat} {opts : LsmOptions} {listing : Listing} {s s' : Logged n} {c : Fin n} {pc : Client}
    {next : FileId} {resume : Resume} {a : LoggedAction n} {p : LoggedAction n → Prop} {t : System n}
    {calls : RotationCalls}

structure Held (s : Logged n) : Prop where
  locked : s.system.engine.Locked
  emptied : s.system.engine.Emptied

theorem emptied_setClient {e e' : Engine n} (h : e.Emptied)
    (hmem : e'.mem = e.mem) (hclients : e'.clients = Function.update e.clients c pc)
    (hpc : ∀ next resume, pc ≠ .rotating next resume) : e'.Emptied := by
  intro d next resume hd
  rw [hmem]
  rw [hclients] at hd
  by_cases hne : d = c
  · subst hne
    rw [Function.update_self] at hd
    exact absurd hd (hpc next resume)
  · rw [Function.update_of_ne hne] at hd
    exact h d next resume hd

theorem held_finishRotation (calls : RotationCalls)
    (h : s.Held) (pc : s.system.engine.clients c = .rotating next resume) :
    (s.finishRotation c next resume calls).Held := by
  unfold finishRotation
  dsimp only
  split
  · exact ⟨(h.locked.keep (c := c) (by rw [pc]; rfl)).congr rfl rfl,
      emptied_setClient (c := c) h.emptied rfl rfl (by simp)⟩
  · exact ⟨(h.locked.release (c := c) (by rw [pc]; rfl) rfl).congr rfl rfl,
      emptied_setClient (c := c) h.emptied rfl rfl (by simp)⟩

theorem Step.held (h : Step opts s a s') (hs : s.Held) : s'.Held := by
  cases h with
  | plain next | switched pc next => exact ⟨next.locked hs.locked, next.emptied hs.locked hs.emptied⟩
  | @refused c e pc =>
    exact ⟨(hs.locked.release (c := c) (by rw [pc]; rfl) rfl).congr rfl rfl,
      emptied_setClient (c := c) hs.emptied rfl rfl (by simp)⟩
  | rotation pc => exact held_finishRotation _ hs pc

theorem Steps.held (h : Steps opts listing p s s') (hs : s.Held) : s'.Held := by
  induction h with
  | refl => exact hs
  | tail _ last ih =>
    obtain ⟨a, _, hstep⟩ := last
    exact (step_cases hstep).held ih

theorem Reachable.held (h : Reachable opts listing s) : s.Held := by
  obtain ⟨env, r, hsteps⟩ := h
  refine Steps.held hsteps ⟨fun c => ?_, fun c next resume hc => ?_⟩
  · simp [System.opened, Engine.ofRecovered, Client.locked]
  · simp [System.opened, Engine.ofRecovered] at hc

structure Silent (s : Logged n) : Prop where
  closed : s.walOpen = false
  empty : s.system.engine.mem.isEmpty = true
  plain : ∀ c, (s.system.engine.clients c).plain = true

theorem Silent.full_eq_false (h : s.Silent) (hsize : 0 < opts.memtableSize) :
    s.system.engine.full opts = false := by
  by_contra hfull
  have hmap := System.map_ne_nil_of_full hsize (Bool.eq_true_of_not_eq_false hfull)
  exact hmap (List.isEmpty_iff.mp h.empty)

theorem Silent.keep (h : s.Silent) (hmem : t.engine.mem = s.system.engine.mem)
    (hclients : t.engine.clients = Function.update s.system.engine.clients c pc)
    (hpc : pc.plain = true) : Silent ⟨t, false⟩ := by
  refine ⟨rfl, by rw [hmem]; exact h.empty, fun d => ?_⟩
  rw [hclients]
  by_cases hd : d = c
  · subst hd
    rw [Function.update_self]
    exact hpc
  · rw [Function.update_of_ne hd]
    exact h.plain d

theorem Silent.enter {call : Call} (h : s.Silent)
    (hnext : System.EnterStep (s.system.note (.invoke c call)) c call t) :
    Silent ⟨t, false⟩ ∧ written t.trace = written s.system.trace := by
  cases hnext <;> exact ⟨h.keep (c := c) rfl rfl rfl, rfl⟩

theorem Silent.client {t : System n} {c : Fin n} (h : s.Silent) (hsize : 0 < opts.memtableSize)
    (hnext : System.ClientStep opts s.system c t) (hlogged : ∀ e, s.system.engine.clients c ≠ .appending e) :
    Silent ⟨t, false⟩ ∧ written t.trace = written s.system.trace := by
  have hplain := h.plain c
  cases hnext with
  | createLog pc | switchWrite pc | switchFlush pc | insert pc =>
    rw [pc] at hplain
    cases hplain
  | append pc => exact absurd pc (hlogged _)
  | rotateWrite _ _ full =>
    rw [h.full_eq_false hsize] at full
    cases full
  | rotateFlush _ _ live =>
    rw [h.empty] at live
    cases live
  | _ => exact ⟨h.keep (c := c) rfl rfl rfl, rfl⟩

/-- Nothing is written any more: the only way to a new log is a rotation, and an
empty memtable is never rotated. -/
theorem Step.silent (hstep : Step opts s a s') (hsize : 0 < opts.memtableSize)
    (h : s.Silent) : s'.Silent ∧ written s'.system.trace = written s.system.trace := by
  cases hstep with
  | plain next held logged =>
    rw [h.closed]
    cases next with
    | call pc hnext => exact h.enter hnext
    | client hnext =>
      refine h.client hsize hnext fun e he => ?_
      have hopen := logged _ e rfl he
      rw [h.closed] at hopen
      cases hopen
    | other frame trace =>
      refine ⟨⟨rfl, by rw [frame.mem]; exact h.empty, ?_⟩, by rw [trace]⟩
      intro c
      rw [frame.clients]
      exact h.plain c
  | @switched c _ _ _ pc | @rotation c _ _ _ pc =>
    have hplain := h.plain c
    rw [pc] at hplain
    cases hplain
  | @refused c => exact ⟨h.keep (c := c) rfl rfl rfl, rfl⟩

theorem Silent.steps (hsize : 0 < opts.memtableSize) (h : s.Silent) (hsteps : Steps opts listing p s s') :
    s'.Silent ∧ written s'.system.trace = written s.system.trace := by
  induction hsteps with
  | refl => exact ⟨h, rfl⟩
  | tail _ last ih =>
    obtain ⟨a, _, hstep⟩ := last
    have hnext := (step_cases hstep).silent hsize ih.1
    exact ⟨hnext.1, hnext.2.trans ih.2⟩

theorem plain_of_not_locked (h : pc.locked = false) : pc.plain = true := by
  cases pc <;> first | rfl | cases h

theorem silent_of_failed (h : s.Held) (pc : s.system.engine.clients c = .rotating next resume)
    (hbad : calls.status.isOk = false) : (s.finishRotation c next resume calls).Silent := by
  rw [finishRotation, hbad, if_neg Bool.false_ne_true]
  refine ⟨rfl, h.emptied c next resume pc, fun d => ?_⟩
  change (Function.update s.system.engine.clients c .idle d).plain = true
  by_cases hd : d = c
  · subst hd
    rw [Function.update_self]
    rfl
  · rw [Function.update_of_ne hd]
    refine plain_of_not_locked (Bool.eq_false_of_not_eq_true fun hlocked => hd ?_)
    exact h.locked.holder_unique hlocked (by rw [pc]; rfl)

/-- A rotation that fails never leaves the writer as it was. The log is closed,
and unless every memtable counts as full no write is logged or acknowledged in
any run from there on, whatever the background thread's status. -/
theorem failed_rotation_never_undone {t t' : Logged n} {c : Fin n} {resume : Resume}
    {calls : RotationCalls} (hs : Reachable opts listing s)
    (hrotate : s.step opts listing (.plain (.client c)) = some (s.rotate c resume))
    (hothers : Steps opts listing (fun a => a.isOf c = false) (s.rotate c resume) t)
    (hcalls : t.step opts listing (.rotation c calls) = some t') (hbad : calls.status.isOk = false) :
    ¬ Undone s t' ∧ t'.walOpen = false ∧
      (0 < opts.memtableSize → ∀ u, Steps opts listing (fun _ => True) t' u →
        u.walOpen = false ∧ written u.system.trace = written t'.system.trace) := by
  have hheld : t.Held := Steps.held hothers ((step_cases hrotate).held hs.held)
  cases step_cases hcalls with
  | @rotation _ next resume' _ pc =>
    have hsilent := silent_of_failed hheld pc hbad
    refine ⟨fun hundone => ?_, hsilent.closed, fun hsize u hu => ?_⟩
    · have hopen := hundone.2.2.1
      rw [hsilent.closed] at hopen
      cases hopen
    · obtain ⟨hsilent', hwritten⟩ := hsilent.steps hsize hu
      exact ⟨hsilent'.closed, hwritten⟩

theorem steps_of_runFrom {actions : List (LoggedAction n)}
    (hp : ∀ a ∈ actions, p a) (h : runFrom opts listing s actions = some s') : Steps opts listing p s s' := by
  induction actions generalizing s with
  | nil =>
    cases h
    exact .refl
  | cons a rest ih =>
    obtain ⟨t, ht, hrest⟩ := Option.bind_eq_some_iff.mp h
    exact .head ⟨a, hp a List.mem_cons_self, ht⟩ (ih (fun b hb => hp b (List.mem_cons_of_mem a hb)) hrest)

def start : Logged 1 := ⟨.opened 1 System.emptyStore ⟨[[]], kFirstFileId⟩, true⟩

def putLocked (key : Key) : List (LoggedAction 1) :=
  [.plain (.call 0 (.put key (text "x"))), .plain (.client 0)]

def putWhole (key : Key) : List (LoggedAction 1) :=
  putLocked key ++ [.plain (.client 0), .plain (.client 0), .plain (.client 0)]

def unopened : RotationCalls :=
  ⟨.ok, .ioError (text "open 000003.wal: Too many open files"), .ok⟩

def lastStatus (s : Logged n) : Option Status :=
  match s.system.trace with
  | .respond _ (.status st) :: _ => some st
  | _ => none

/-- The new log cannot be opened. -/
theorem failed_rotation_never_undone_unopened :
    ∃ s t' : Logged 1, Reachable { memtableSize := 1 } .asStored s ∧ ¬ Undone s t' ∧ t'.walOpen = false := by
  let rotated (s : Logged 1) : Logged 1 := s.rotate 0 (.write (text "b", ⟨text "x", false⟩))
  obtain ⟨s, t', hs, hrotate, hcalls⟩ : ∃ s t' : Logged 1,
      runFrom { memtableSize := 1 } .asStored start (putWhole (text "a") ++ putLocked (text "b")) = some s ∧
      s.step { memtableSize := 1 } .asStored (.plain (.client 0)) = some (rotated s) ∧
      (rotated s).step { memtableSize := 1 } .asStored (.rotation 0 unopened) = some t' := ⟨_, _, rfl, rfl, rfl⟩
  have hreach : Reachable { memtableSize := 1 } .asStored s :=
    ⟨_, _, steps_of_runFrom (fun _ _ => trivial) hs⟩
  obtain ⟨hundone, hclosed, _⟩ :=
    failed_rotation_never_undone hreach hrotate .refl hcalls (by decide)
  exact ⟨s, t', hreach, hundone, hclosed⟩

/-- One put fills the memtable; the next cannot open the log of its rotation, and
the one after it, with the disk well again, is refused by the closed log. -/
theorem put_refused_after_failed_rotation :
    ∃ s t t' u : Logged 1,
      runFrom { memtableSize := 1 } .asStored start (putWhole (text "a") ++ putLocked (text "b")) = some s ∧
      s.step { memtableSize := 1 } .asStored (.plain (.client 0)) = some t ∧
      t.step { memtableSize := 1 } .asStored (.rotation 0 unopened) = some t' ∧ ¬ Undone s t' ∧
      runFrom { memtableSize := 1 } .asStored t'
        (putLocked (text "c") ++ [.plain (.client 0), .plain (.client 0)]) = some u ∧
      u.system.engine.backgroundStatus = .ok ∧ u.lastStatus = some (closedFile 1) := by
  have h : ∃ s ∈ runFrom { memtableSize := 1 } .asStored start (putWhole (text "a") ++ putLocked (text "b")),
      ∃ t ∈ s.step { memtableSize := 1 } .asStored (.plain (.client 0)),
      ∃ t' ∈ t.step { memtableSize := 1 } .asStored (.rotation 0 unopened), t'.walOpen = false ∧
      ∃ u ∈ runFrom { memtableSize := 1 } .asStored t' (putLocked (text "c") ++
          [.plain (.client 0), .plain (.client 0)]),
        u.system.engine.backgroundStatus = .ok ∧ u.lastStatus = some (closedFile 1) := by decide +kernel
  obtain ⟨s, hs, t, ht, t', ht', hclosed, u, hu, hok, hlast⟩ := h
  refine ⟨s, t, t', u, hs, ht, ht', fun hundone => ?_, hu, hok, hlast⟩
  have hopen := hundone.2.2.1
  rw [hclosed] at hopen
  cases hopen

end Logged

end KVStore
