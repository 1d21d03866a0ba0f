import KVStore.LsmDurability

namespace KVStore

open Lib SortedRun CrashProgram

/-- What a `get` finds: the newest entry in the memtables, or what the current version holds. -/
def Engine.read {n : Nat} (e : Engine n) (key : Key) : Status × Option Value :=
  match (e.mem.get key).or (e.imm.bind fun m => m.get key) with
  | some entry => (Lookup.ofEntry (some entry)).answer key
  | none => (e.current.search key).answer key

namespace System

variable {n : Nat} {opts : LsmOptions} {listing : Listing} {s s' : System n} {c : Fin n}
  {prior live frozen flushed : List Entry} {key : Key} {entry : Entry}

def finishCall (opts : LsmOptions) (listing : Listing) (c : Fin n) : Nat → System n → Option (System n)
  | 0, s => some s
  | k + 1, s =>
    match s.engine.clients c with
    | .idle => some s
    | _ => (s.step opts listing (.client c)).bind (finishCall opts listing c k)

def getNow (opts : LsmOptions) (listing : Listing) (s : System n) (c : Fin n) (key : Key) :
    Option (Status × Option Value) :=
  ((s.step opts listing (.call c (.get key))).bind (finishCall opts listing c 2)).bind fun s' =>
    lastAnswer c s'.trace

structure Serving (s : System n) (c : Fin n) : Prop where
  idle : s.engine.clients c = .idle
  running : s.engine.stopping = false
  defined : s.engine.background ≠ .undefined

theorem getNow_nil (hs : s.Serving c) : s.getNow opts listing c [] = some (Lookup.notPresent.answer []) := by
  unfold getNow
  rw [step_call_eq hs.defined hs.idle hs.running]
  simp [enter, finishCall, respond, setClient, Engine.setClient, note, lastAnswer]

theorem getNow_eq (hs : s.Serving c) (hkey : key ≠ []) :
    s.getNow opts listing c key = some (s.engine.read key) := by
  have hdefined := hs.defined
  unfold getNow Engine.read
  rw [step_call_eq hs.defined hs.idle hs.running, enter, if_neg hkey]
  cases hprobe : (s.engine.mem.get key).or (s.engine.imm.bind fun m => m.get key) with
  | some | none =>
    simp [finishCall, setClient, Engine.setClient, note, step_client_eq, hdefined, clientStep, probe, hprobe,
      respond, lastAnswer]

def AnswersNow (opts : LsmOptions) (listing : Listing) (s : System n) (history : List Entry) : Prop :=
  ∀ c, s.Serving c → ∀ key, s.getNow opts listing c key =
    some ((Lookup.ofEntry (SortedRun.find key history)).answer key)

theorem answersNow_of_read {history : List Entry}
    (hread : ∀ key, s.engine.read key = (Lookup.ofEntry (find key history)).answer key)
    (hnil : find ([] : Key) history = none) : s.AnswersNow opts listing history := by
  intro c hs key
  by_cases hkey : key = []
  · subst hkey
    rw [getNow_nil hs, hnil]
    rfl
  · rw [getNow_eq hs hkey, hread]

theorem StoreInv.read (h : StoreInv opts listing prior s live frozen flushed) (key : Key) :
    s.engine.read key = (Lookup.ofEntry (find key (acknowledged s.trace ++ prior))).answer key := by
  rw [h.acknowledges.inserted]
  unfold Engine.read
  split
  next e hprobe => exact h.history.hit hprobe
  next hprobe => exact h.history.miss h.background.shaped hprobe

/-- The write has appended its record, the fsync fails, and the write returns. -/
def failSync (s : System n) (c : Fin n) (e : Failure) : System n := s.release.respond c (.status e.status)

theorem acknowledged_failSync (s : System n) (c : Fin n) (e : Failure) :
    acknowledged (s.failSync c e).trace = acknowledged s.trace := by
  simp [failSync, respond, release, setClient, note, acknowledged, e.bad]

/-- A failed write whose record repeats what its key held leaves the store as it was, with
one record more in the log. -/
theorem StoreInv.failSync (h : StoreInv opts listing prior s live frozen flushed) (hl : Legal True s.shared)
    (pc : s.engine.clients c = .inserting entry)
    (hsame : visible (find entry.1 (acknowledged s.trace ++ prior)) = visible (some entry.2)) (e : Failure) :
    StoreInv opts listing prior (s.failSync c e) live frozen flushed := by
  have hothers : ByOthers True s (s.failSync c e) :=
    byOthers_of_same ⟨rfl, rfl, rfl, rfl, rfl, rfl, rfl, rfl, rfl⟩ (.refl _) ⟨rfl, rfl, rfl⟩
  have hclient {d : Fin n} (hd : d ≠ c) : (s.failSync c e).engine.clients d = s.engine.clients d :=
    Function.update_of_ne hd _ _
  have hself : (s.failSync c e).engine.clients c = .idle := setClient_self _ c _
  obtain ⟨_, _, _, hlogged, hlogs⟩ := h.logs
  have hheld : s.engine.writerPc = .inserting entry := by
    rw [hlogs.locked.writerPc_eq (by rw [pc]; rfl), pc]
  rw [h.acknowledges.inserted, h.history.all] at hsame
  refine ⟨h.background.moved hothers hl hl, ⟨h.history.contents.congr ⟨rfl, rfl, rfl, rfl⟩, h.history.all⟩,
    ⟨_, _, _, ⟨.repeated hlogged.live (h.accepted.carried c entry (by rw [pc]; rfl)).1 hsame, hlogged.frozen,
      hlogged.flushed⟩, ?_⟩, ⟨fun d w hw => ?_, h.accepted.written⟩, ⟨fun d hd => ?_, ?_⟩,
    fun hsize => ⟨(h.filled hsize).tables, (h.filled hsize).frozen⟩⟩
  · refine hlogs.writes (hlogs.locked.release (by rw [pc]; rfl) rfl) nofun nofun ⟨rfl, rfl, rfl⟩ rfl
      fun older hare => ?_
    simp only [Engine.liveLogs, hheld] at hare
    exact hare
  · by_cases hdc : d = c
    · rw [hdc, hself] at hw
      cases hw
    · exact h.accepted.carried d w (hclient hdc ▸ hw)
  · have hdc : d ≠ c := fun hdc => hd (hdc ▸ hself)
    rw [hclient hdc] at hd ⊢
    exact h.acknowledges.carried d hd
  · rw [acknowledged_failSync]
    exact h.acknowledges.inserted

end System

namespace World

variable {n : Nat} {opts : LsmOptions} {listing : Listing} {w : World n} {history : List Entry}
    {s : System n}

/-- The steps of a directory when the fsync of a write may fail, provided the write only
repeats what its key already holds. -/
inductive SyncStep (opts : LsmOptions) (listing : Listing) : World n → World n → Prop
  | step {w w' : World n} (next : Step opts listing w w') : SyncStep opts listing w w'
  | failed {s s' : System n} {c : Fin n} {entry : Entry} {history : List Entry} (e : Failure)
      (pc : s.engine.clients c = .appending entry) (next : s.step opts listing (.client c) = some s')
      (repeats : visible (SortedRun.find entry.1 (acknowledged s.trace ++ history)) = visible (some entry.2)) :
      SyncStep opts listing (.running s history) (.running (s'.failSync c e) history)

inductive SyncReachable (opts : LsmOptions) (listing : Listing) : World n → Prop
  | start : SyncReachable opts listing (.down .empty [])
  | step {w w' : World n} (reached : SyncReachable opts listing w) (next : SyncStep opts listing w w') :
      SyncReachable opts listing w'

theorem SyncReachable.inv (h : SyncReachable opts listing w) (hfail : opts.failAt = .none)
    (hl : w.env.issued < idLimit) : w.Inv opts listing := by
  induction h with
  | start => exact Reachable.start.inv hfail hl
  | step reached next ih =>
    cases next with
    | step next =>
      have hbefore := (next.issued_le hfail).trans_lt hl
      exact (ih hbefore).step hfail hbefore hl next
    | @failed s s' c entry history e pc next repeats =>
      have hbefore := (System.step_cases hfail next).issued_le.trans_lt hl
      have hinv : World.Inv opts listing (.running s' history) := (ih hbefore).step hfail hbefore hl (.run next)
      obtain ⟨⟨live, frozen, flushed, hs⟩, hw⟩ := hinv
      rw [System.step_appending (System.defined_of_step next) pc] at next
      cases next
      exact ⟨⟨live, frozen, flushed, hs.failSync (fun _ => hl) (System.setClient_self _ c _) repeats e⟩, hw⟩

theorem SyncReachable.answersReopened_iff {env : Env}
    (h : SyncReachable opts listing (.down env history : World n)) (hfail : opts.failAt = .none)
    (hblock : opts.blockSize ≠ 0)
    (hids : ((LsmStore.openStore opts).run (lsmMachine listing) env).2.issued < idLimit) :
    System.AnswersReopened n opts listing env history ↔ BlocksFit opts.blockSize (replayed env).map := by
  obtain ⟨hr, hw⟩ : Recoverable opts env history ∧ ∀ e ∈ history, Writable e :=
    h.inv hfail ((issued_le_run listing _ env).trans_lt hids)
  exact hr.opens_iff hw hblock hids

theorem SyncReachable.read (h : SyncReachable opts listing (.running s history)) (hfail : opts.failAt = .none)
    (hids : s.env.issued < idLimit) :
    (∀ key, s.engine.read key =
      (Lookup.ofEntry (find key (acknowledged s.trace ++ history))).answer key) ∧
      find ([] : Key) (acknowledged s.trace ++ history) = none := by
  obtain ⟨⟨live, frozen, flushed, hs⟩, _⟩ := h.inv hfail hids
  exact ⟨hs.read, find_nil_of_writable (hs.acknowledges.inserted ▸ hs.accepted.written)⟩

theorem SyncReachable.appended {s s' : System n} {c : Fin n} {entry : Entry}
    (h : SyncReachable opts listing (.running s history)) (hfail : opts.failAt = .none)
    (hids : s'.env.issued < idLimit) (pc : s.engine.clients c = .appending entry)
    (next : s.step opts listing (.client c) = some s') :
    Recoverable opts s'.env (entry :: (acknowledged s.trace ++ history)) ∧
      ∀ e ∈ entry :: (acknowledged s.trace ++ history), Writable e := by
  obtain ⟨⟨live, frozen, flushed, hs⟩, _⟩ := (SyncReachable.step h (.step (.run next))).inv hfail hids
  have hcrash := hs.crash (fun _ => hids) .between
  rw [System.step_appending (System.defined_of_step next) pc] at next
  cases next
  have hflight : System.inFlight (({ s with env := s.env.appendLog s.engine.walId entry } : System n).setClient c
      (.inserting entry)) = [entry] := by
    have hpc := System.setClient_self s.engine c (.inserting entry)
    rw [System.inFlight, hs.locked.writerPc_eq (c := c) (by rw [System.setClient, hpc]; rfl), System.setClient, hpc]
  rwa [hflight] at hcrash

/-- LSM: a write that returns an error because its fsync failed is not seen while the
store stays open, and is not seen after it is opened again either, exactly if the records
in the logs fit a table and its key already answers as it would make it answer. -/
theorem SyncReachable.failed_write_unseen
    (h : SyncReachable opts listing (.running s history)) (hfail : opts.failAt = .none)
    (hids : s.env.issued < idLimit) :
    s.AnswersNow opts listing (acknowledged s.trace ++ history) ∧
      ∀ {c : Fin n} {entry : Entry} {s' : System n} (e : Failure), s.engine.clients c = .appending entry →
        s.step opts listing (.client c) = some s' →
        (s'.failSync c e).AnswersNow opts listing (acknowledged s.trace ++ history) ∧
          (opts.blockSize ≠ 0 →
            ((LsmStore.openStore opts).run (lsmMachine listing) s'.env).2.issued < idLimit →
            (System.AnswersReopened n opts listing (s'.failSync c e).env (acknowledged s.trace ++ history) ↔
              BlocksFit opts.blockSize (replayed s'.env).map ∧
                visible (find entry.1 (acknowledged s.trace ++ history)) = visible (some entry.2))) := by
  obtain ⟨hread, hnil⟩ := h.read hfail hids
  refine ⟨System.answersNow_of_read hread hnil, fun {c entry s'} e pc next => ⟨?_, ?_⟩⟩
  · apply System.answersNow_of_read _ hnil
    rw [System.step_appending (System.defined_of_step next) pc] at next
    cases next
    exact hread
  · intro hblock hids'
    have hl : s'.env.issued < idLimit := (issued_le_run listing _ s'.env).trans_lt hids'
    obtain ⟨hr, hw⟩ := h.appended hfail hl pc next
    have hopens := hr.opens_iff (n := n) hw hblock hids'
    have henv : (s'.failSync c e).env = s'.env := rfl
    rw [henv, ← hopens]
    obtain ⟨k, v⟩ := entry
    constructor
    · rintro ⟨store, env', hrun, hanswers⟩
      have hwhole := hr.answers_opened (n := n) (by rw [find_nil_of_writable hw]; rfl) (by rwa [hrun] at hids') hrun
      refine ⟨⟨store, env', hrun, hwhole⟩, ?_⟩
      have hkey := Option.some.inj ((hwhole c k).symm.trans (hanswers c k))
      rw [answer_eq_iff, find, if_pos rfl] at hkey
      exact hkey.symm
    · rintro ⟨⟨store, env', hrun, hanswers⟩, hsame⟩
      refine ⟨store, env', hrun, fun c key => ?_⟩
      rw [hanswers, Option.some_inj, answer_eq_iff, find]
      split
      next hkey => rw [hkey, hsame]
      next => rfl

theorem SyncReachable.run {s' : System n} {past : List (System n × Action n)}
    (h : SyncReachable opts listing (.running s history)) (hrun : System.Run opts listing s past s') :
    SyncReachable opts listing (.running s' history) := by
  induction hrun with
  | start => exact h
  | step _ next ih => exact .step ih (.step (.run next))

theorem SyncReachable.of_reachable (h : Reachable opts listing w) : SyncReachable opts listing w := by
  induction h with
  | start => exact .start
  | step _ next ih => exact .step ih (.step next)

end World

end KVStore
