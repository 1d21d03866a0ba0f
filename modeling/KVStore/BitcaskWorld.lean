import KVStore.BitcaskCalls
import KVStore.BitcaskGet

namespace KVStore.Bitcask

open Lib CrashProgram

inductive Call
  | put (key : Key) (value : Value) (now : Timestamp)
  | remove (key : Key) (now : Timestamp)
  | rotate
  | compact

def Call.writes : Call → List Write
  | .put key value _ => [⟨key, some value⟩]
  | .remove key _ => [⟨key, none⟩]
  | .rotate | .compact => []

def Call.program [Crc] (s : Bitcask) : Call → Io (Except Failure Unit × Bitcask)
  | .put key value now => s.put key value now
  | .remove key now => s.remove key now
  | .rotate => s.rotate
  | .compact => s.compact

/-- A directory over its whole life: no process has it open, one is recovering it, one
has it open, or one is inside a call. The history lists the writes that count, oldest
first: those acknowledged, and those a crash left on disk. -/
inductive World
  | down (d : Directory) (history : List Write)
  | recovering (opts : BitcaskOptions) (io : Io (Except Failure Bitcask)) (d : Directory)
      (history : List Write)
  | running (s : Bitcask) (d : Directory) (history : List Write)
  | busy (s : Bitcask) (call : Call) (io : Io (Except Failure Unit × Bitcask)) (d : Directory)
      (landed : Bool) (history : List Write)

namespace World

def directory : World → Directory
  | .down d _ | .recovering _ _ d _ | .running _ d _ | .busy _ _ _ d _ _ => d

def history : World → List Write
  | .down _ history | .recovering _ _ _ history | .running _ _ history | .busy _ _ _ _ _ history => history

def inFlight : World → List Write
  | .busy _ call _ _ _ _ => call.writes
  | _ => []

def survivors : World → List Write
  | .busy _ call _ _ true history => history ++ call.writes
  | w => w.history

/-- The directories a crash may leave: as it stands, or with the next write torn. -/
inductive Leaves : World → Directory → Prop
  | whole (w : World) : Leaves w w.directory
  | torn {s : Bitcask} {call : Call} {o : Op} {k : Res o → Io (Except Failure Unit × Bitcask)}
      {d d' : Directory} {landed : Bool} {history : List Write} (torn : Torn o d d') (legal : Legal d') :
      Leaves (.busy s call (.op o k) d landed history) d'

variable [Crc]

/-- No system call fails: every operation succeeds and its files keep to the limits of
the file system. -/
inductive Step (listing : Listing) : World → World → Prop
  | openStore {d : Directory} {history : List Write} (opts : BitcaskOptions) (failAt : opts.failAt = .none) :
      Step listing (.down d history) (.recovering opts (recover opts) d history)
  | replay {opts : BitcaskOptions} {o : Op} {k : Res o → Io (Except Failure Bitcask)} {d : Directory}
      {history : List Write} (legal : Legal (exec listing o d).2) :
      Step listing (.recovering opts (.op o k) d history)
        (.recovering opts (k (exec listing o d).1) (exec listing o d).2 history)
  | opened {opts : BitcaskOptions} {s : Bitcask} {d : Directory} {history : List Write} :
      Step listing (.recovering opts (.ret (.ok s)) d history) (.running s d history)
  | refused {opts : BitcaskOptions} {e : Failure} {d : Directory} {history : List Write} :
      Step listing (.recovering opts (.ret (.error e)) d history) (.down d history)
  | call {s : Bitcask} {d : Directory} {history : List Write} (call : Call) :
      Step listing (.running s d history) (.busy s call (call.program s) d false history)
  | work {s : Bitcask} {call : Call} {o : Op} {k : Res o → Io (Except Failure Unit × Bitcask)} {d : Directory}
      {landed : Bool} {history : List Write} (legal : Legal (exec listing o d).2) :
      Step listing (.busy s call (.op o k) d landed history)
        (.busy s call (k (exec listing o d).1) (exec listing o d).2 (landed || o.lands) history)
  | acknowledged {s s' : Bitcask} {call : Call} {d : Directory} {landed : Bool} {history : List Write} :
      Step listing (.busy s call (.ret (.ok (), s')) d landed history) (.running s' d (history ++ call.writes))
  | failed {s s' : Bitcask} {call : Call} {e : Failure} {d : Directory} {landed : Bool} {history : List Write} :
      Step listing (.busy s call (.ret (.error e, s')) d landed history) (.running s' d history)
  | crash {w : World} {d : Directory} (leaves : w.Leaves d) : Step listing w (.down d w.survivors)

inductive Reachable (listing : Listing) : World → Prop
  | start : Reachable listing (.down ∅ [])
  | step {w w' : World} (reached : Reachable listing w) (next : Step listing w w') : Reachable listing w'

def Inv (listing : Listing) : World → Prop
  | .down d history => Recoverable d history ∧ Legal d
  | .recovering opts io d history => opts.failAt = .none ∧ Legal d ∧
      Alone listing (fun _ => True) (fun d => Recoverable d history) (Reopened opts history) io d
  | .running s d history => s.options.failAt = .none ∧ Legal d ∧
      ∃ sealedOnes active, StoreInv s d sealedOnes active history
  | .busy s call io d landed history => s.options.failAt = .none ∧ Legal d ∧
      Tracked listing Legal (fun t => Recoverable t.1 (if t.2 then history ++ call.writes else history))
        (fun r t => Finished s history call.writes r t.1) io (d, landed)

variable {listing : Listing} {w w' : World}

theorem tracked_program {s : Bitcask} {d : Directory} {sealedOnes : DataFiles}
    {active : DataFile} {history : List Write} (h : StoreInv s d sealedOnes active history)
    (hfail : s.options.failAt = .none) (hl : Legal d) (call : Call) :
    Tracked listing Legal (fun t => Recoverable t.1 (if t.2 then history ++ call.writes else history))
      (fun r t => Finished s history call.writes r t.1) (call.program s) (d, false) := by
  have hquiet : ∀ {t : Directory × Bool}, Recoverable t.1 history →
      Recoverable t.1 (if t.2 then history ++ [] else history) := by
    intro t ht
    rw [List.append_nil, ite_self]
    exact ht
  cases call with
  | put key value now => exact (tracked_writing h (writing_put s key value now) hl).mono fun _ _ hr => hr.1
  | remove key now => exact (tracked_writing h (writing_remove s key now) hl).mono fun _ _ hr => hr.1
  | rotate =>
    have hrotate : Alone listing Legal (fun d => Recoverable d history) (Finished s history []) s.rotate d :=
      (alone_rotate_storeInv h hl).mono fun r d' hr => h.rotation hr
    exact (tracked_of_alone hrotate false).imp fun t ht => hquiet ht
  | compact =>
    have hcompact : Alone listing Legal (fun d => Recoverable d history) (Finished s history []) s.compact d :=
      (alone_compact_storeInv h hfail hl).mono fun r d' hr => h.compaction hr
    exact (tracked_of_alone hcompact false).imp fun t ht => hquiet ht

theorem Inv.leaves (h : w.Inv listing) {d : Directory} (hd : w.Leaves d) :
    Recoverable d w.survivors ∧ Legal d := by
  have hrefl : ∀ t : Directory × Bool, t = t := fun _ => rfl
  have hsurvivors : ∀ (s : Bitcask) (call : Call) (io : Io (Except Failure Unit × Bitcask)) (d : Directory)
      (landed : Bool) (history : List Write), (World.busy s call io d landed history).survivors =
        if landed then history ++ call.writes else history := by
    intro s call io d landed history
    cases landed <;> rfl
  cases hd with
  | whole =>
    cases w with
    | down => exact h
    | recovering =>
      have hnow := h.2.2.now (fun _ => rfl) trivial
      exact ⟨hnow, h.2.1⟩
    | running =>
      obtain ⟨_, hl, _, _, hs⟩ := h
      exact ⟨.durable hs.durable, hl⟩
    | busy =>
      rw [hsurvivors]
      have hnow := h.2.2.now hrefl h.2.1
      exact ⟨hnow, h.2.1⟩
  | torn torn legal =>
    rw [hsurvivors]
    have htorn := (h.2.2 _ rfl h.2.1).2.1 (d, _) ⟨torn, rfl⟩
    exact ⟨htorn, legal⟩

theorem Inv.step (h : w.Inv listing) (hstep : Step listing w w') : w'.Inv listing := by
  have hrefl : ∀ t : Directory × Bool, t = t := fun _ => rfl
  cases hstep with
  | openStore opts failAt => exact ⟨failAt, h.2, h.1.alone_recover⟩
  | replay legal =>
    obtain ⟨hfail, _, hio⟩ := h
    exact ⟨hfail, legal, hio.stepped (fun _ => rfl) trivial trivial⟩
  | opened =>
    obtain ⟨hfail, hl, hio⟩ := h
    obtain ⟨sealedOnes, activeId, active, hr, hs⟩ := hio.returned (fun _ => rfl) trivial
    cases hr
    exact ⟨hfail, hl, sealedOnes, active, hs⟩
  | refused =>
    have hnow := h.2.2.now (fun _ => rfl) trivial
    exact ⟨hnow, h.2.1⟩
  | call call =>
    obtain ⟨hfail, hl, sealedOnes, active, hs⟩ := h
    exact ⟨hfail, hl, tracked_program hs hfail hl call⟩
  | work legal =>
    obtain ⟨hfail, hl, hio⟩ := h
    exact ⟨hfail, legal, hio.stepped hrefl hl legal⟩
  | acknowledged | failed =>
    obtain ⟨hfail, hl, hio⟩ := h
    obtain ⟨hopts, hs⟩ := hio.returned hrefl hl
    exact ⟨hopts ▸ hfail, hl, hs⟩
  | crash leaves => exact h.leaves leaves

theorem Reachable.inv (h : Reachable listing w) : w.Inv listing := by
  induction h with
  | start => exact ⟨.fresh (fun _ => rfl) (fun _ => rfl) rfl, fun _ _ h => nomatch h⟩
  | step _ next ih => exact ih.step next

end World

end KVStore.Bitcask
