import KVStore.LsmDurability
import KVStore.LsmRequests

namespace KVStore

open Lib CrashProgram

section Trace

variable {n : Nat}

def beforeCall (c : Fin n) : List (Event n) → List (Event n)
  | [] => []
  | .invoke d _ :: older => if d = c then older else beforeCall c older
  | _ :: older => beforeCall c older

/-- Every `flush` that returned Ok returned with the writes before its call flushed. -/
def FlushesKept (prior flushed : List Entry) : List (Event n) → Prop
  | [] => True
  | .respond c (.status st) :: older =>
    (st.isOk = true → callOf c older = some .flush →
      written (beforeCall c older) ++ prior <:+ flushed) ∧ FlushesKept prior flushed older
  | _ :: older => FlushesKept prior flushed older

theorem beforeCall_suffix (c : Fin n) (trace : List (Event n)) : beforeCall c trace <:+ trace := by
  induction trace with
  | nil => exact List.suffix_refl _
  | cons ev older ih =>
    have ih' := ih.trans (List.suffix_cons ev older)
    cases ev with
    | invoke =>
      rw [beforeCall]
      split
      · exact List.suffix_cons _ _
      · exact ih'
    | insert | probe | respond => exact ih'

theorem beforeCall_append {c : Fin n} {events older : List (Event n)}
    (h : ∀ ev ∈ events, ¬ ev.isInvoke) : beforeCall c (events ++ older) = beforeCall c older := by
  induction events with
  | nil => rfl
  | cons ev events ih =>
    have ih' := ih fun ev hev => h ev (List.mem_cons_of_mem _ hev)
    cases ev with
    | invoke => exact absurd trivial (h _ List.mem_cons_self)
    | insert | respond | probe => exact ih'

theorem written_suffix {a b : List (Event n)} (h : a <:+ b) : written a <:+ written b := by
  induction b with
  | nil =>
    rw [List.suffix_nil.mp h]
  | cons ev b ih =>
    rcases List.suffix_cons_iff.mp h with rfl | h
    · exact List.suffix_refl _
    · have ih' := ih h
      cases ev with
      | insert e => exact ih'.trans (List.suffix_cons e _)
      | invoke | probe | respond => exact ih'

theorem FlushesKept.mono {prior flushed flushed' : List Entry} {trace : List (Event n)}
    (h : FlushesKept prior flushed trace) (hsub : flushed <:+ flushed') :
    FlushesKept prior flushed' trace := by
  induction trace with
  | nil => trivial
  | cons ev older ih =>
    cases ev with
    | respond c r =>
      cases r with
      | status => exact ⟨fun hok hcall => (h.1 hok hcall).trans hsub, ih h.2⟩
      | got => exact ih h
      | rows => exact ih h
    | invoke | insert | probe => exact ih h

theorem FlushesKept.kept {prior flushed : List Entry} {newer older : List (Event n)} {c : Fin n}
    {st : Status} (h : FlushesKept prior flushed (newer ++ .respond c (.status st) :: older))
    (hok : st.isOk = true) (hcall : callOf c older = some .flush) :
    written (beforeCall c older) ++ prior <:+ flushed := by
  induction newer with
  | nil => exact h.1 hok hcall
  | cons ev newer ih =>
    cases ev with
    | respond d r =>
      cases r with
      | status => exact ih h.2
      | got => exact ih h
      | rows => exact ih h
    | invoke | insert | probe => exact ih h

end Trace

namespace Client

def inFlush : Client → Prop
  | .flushWantWriter | .flushChecking | .flushStalled => True
  | .rotating _ .flush | .rotated _ .flush | .waiting .flush => True
  | _ => False

def rotatedAway : Client → Prop
  | .rotating _ .flush | .rotated _ .flush | .waiting .flush => True
  | _ => False

end Client

theorem Contents.live_eq_nil {n : Nat} {e : Engine n} {live frozen flushed : List Entry}
    (h : Contents e live frozen flushed) (hempty : e.mem.isEmpty = true) : live = [] := by
  cases live with
  | nil => rfl
  | cons a =>
    have hfind := h.mem a.1
    have hmap : e.mem.map = [] := List.isEmpty_iff.mp hempty
    rw [Memtable.get, hmap] at hfind
    simp [SortedRun.find] at hfind

namespace System

variable {n : Nat} {opts : LsmOptions} {listing : Listing} {s s' : System n}
  {prior live frozen flushed live' frozen' flushed' : List Entry} {c : Fin n} {call : Call}
    {start : System n}

theorem Moves.suffix (h : Moves s s' live frozen flushed live' frozen' flushed')
    (hthawed : s.engine.imm = none → frozen = []) :
    flushed <:+ flushed' ∧ frozen ++ flushed <:+ frozen' ++ flushed' := by
  cases h with
  | same | insert => exact ⟨List.suffix_refl _, List.suffix_refl _⟩
  | rotate thawed =>
    rw [hthawed thawed]
    exact ⟨List.suffix_refl _, List.suffix_append _ _⟩
  | flush => exact ⟨List.suffix_append _ _, List.suffix_refl _⟩

structure Flushes (prior : List Entry) (s : System n) (frozen flushed : List Entry) : Prop where
  calls : ∀ c, callOf c s.trace = some .flush → s.engine.clients c ≠ .idle →
    (s.engine.clients c).inFlush
  moved : ∀ c, (s.engine.clients c).rotatedAway →
    written (beforeCall c s.trace) ++ prior <:+ frozen ++ flushed
  kept : FlushesKept prior flushed s.trace
  running : s.engine.haltedByFailPoint = false
  stopped : s.engine.stopping = true → ∀ c, s.engine.clients c = .idle

theorem ClientStep.inFlush (h : ClientStep opts s c s') (hc : (s.engine.clients c).inFlush) :
    s'.engine.clients c = .idle ∨ (s'.engine.clients c).inFlush := by
  cases h with
  | refuse | flushNothing | settle | insert | hit | search | rows | refuseCompact =>
    exact Or.inl (setClient_self _ c .idle)
  | flushAcquire | flushWait | flushStall | rotateFlush | switchFlush =>
    exact Or.inr ((setClient_self _ c _).symm ▸ trivial)
  | @createLog next resume pc =>
    rw [pc] at hc
    refine Or.inr ((setClient_self _ c _).symm ▸ ?_)
    cases resume with
    | write => exact hc
    | flush => trivial
  | rotateWrite pc | proceed pc =>
    rcases pc with pc | pc <;> rw [pc] at hc <;> exact absurd hc id
  | acquire pc | stall pc | switchWrite pc | append pc | miss pc | snapshot pc | request pc =>
    rw [pc] at hc
    exact absurd hc id

theorem ClientStep.not_idle (h : ClientStep opts s c s') : s.engine.clients c ≠ .idle := by
  cases h with
  | rotateWrite pc | proceed pc | flushWait pc | rotateFlush pc =>
    rcases pc with pc | pc <;> rw [pc] <;> nofun
  | refuse pc =>
    rcases pc with ⟨_, pc⟩ | ⟨_, pc⟩ | pc | pc <;> rw [pc] <;> nofun
  | _ pc =>
    rw [pc]
    nofun

theorem ClientStep.rotatedAway (h : ClientStep opts s c s') (hc : (s'.engine.clients c).rotatedAway) :
    (s.engine.clients c).rotatedAway ∨ s'.engine.mem.isEmpty = true ∨
      s.engine.idle = true ∧ s.engine.backgroundStatus.isOk = true := by
  cases h with
  | flushWait pc ok reason =>
    rcases reason with h | h
    · exact Or.inr (Or.inl h)
    · exact Or.inr (Or.inr ⟨h, ok⟩)
  | rotateFlush => exact Or.inr (Or.inl rfl)
  | rotateWrite => exact Or.inr (Or.inl rfl)
  | switchFlush pc =>
    rw [pc]
    exact Or.inl trivial
  | @createLog next resume pc =>
    have hc' : (Client.rotated next resume).rotatedAway := of_setClient hc
    rw [pc]
    cases resume with
    | write => exact absurd hc' id
    | flush => exact Or.inl trivial
  | refuse | flushNothing | settle | insert | hit | search | rows | refuseCompact =>
    exact absurd (@of_setClient n Client.rotatedAway _ c .idle hc) id
  | _ => exact absurd (of_setClient (P := Client.rotatedAway) hc) id

theorem Flushes.busy (h : Flushes prior s frozen flushed)
    (hc : s.engine.clients c ≠ .idle) (hok : s.engine.backgroundStatus.isOk = true) :
    s.engine.idle = false := by
  have hstop : s.engine.stopping = false := by
    cases hs : s.engine.stopping with
    | false => rfl
    | true => exact absurd (h.stopped hs c) hc
  simp [Engine.idle, hstop, hok, h.running]

theorem history_of_empty (hh : History prior s live frozen flushed)
    (hempty : s.engine.mem.isEmpty = true) (c : Fin n) :
    written (beforeCall c s.trace) ++ prior <:+ frozen ++ flushed := by
  have hall := hh.all
  rw [hh.contents.live_eq_nil hempty, List.nil_append] at hall
  rw [← hall]
  obtain ⟨newer, hn⟩ := written_suffix (beforeCall_suffix c s.trace)
  exact ⟨newer, by rw [← hn, List.append_assoc]⟩

theorem Flushes.responds (h : Flushes prior s frozen flushed)
    (hh : History prior s live frozen flushed) (hstep : ClientStep opts s c s')
    (hsuffix : flushed <:+ flushed') : FlushesKept prior flushed' s'.trace := by
  have hkept := h.kept.mono hsuffix
  have hbusy := fun hok => h.busy hstep.not_idle hok
  cases hstep with
  | refuse pc bad | refuseCompact pc bad => exact ⟨fun hok => absurd (bad.symm.trans hok) (by decide), hkept⟩
  | insert pc =>
    refine ⟨fun _ hcall => ?_, hkept⟩
    have hin := h.calls c hcall (by rw [pc]; nofun)
    rw [pc] at hin
    exact absurd hin id
  | flushNothing pc empty thawed =>
    refine ⟨fun _ _ => ?_, hkept⟩
    have hall := history_of_empty hh empty c
    rw [hh.contents.thawed thawed] at hall
    exact hall.trans hsuffix
  | @settle call pc settled =>
    refine ⟨fun hok hcall => ?_, hkept⟩
    have hin := h.calls c hcall (by rw [pc]; nofun)
    have hmoved := h.moved c
    rw [pc] at hin hmoved
    have hthawed : s.engine.imm = none := by
      simp only [Engine.settled, hbusy hok, Bool.false_or, Bool.and_eq_true,
        Option.isNone_iff_eq_none] at settled
      exact settled.1.2
    cases call with
    | flush =>
      rw [hh.contents.thawed hthawed] at hmoved
      exact (hmoved trivial).trans hsuffix
    | _ => exact absurd hin id
  | _ => exact hkept

theorem Flushes.client (h : Flushes prior s frozen flushed) (hh : History prior s live frozen flushed)
    (hh' : History prior s' live' frozen' flushed')
    (hm : Moves s s' live frozen flushed live' frozen' flushed') {c : Fin n}
    (hstep : ClientStep opts s c s') : Flushes prior s' frozen' flushed' := by
  obtain ⟨hflushed, hfrozen⟩ := hm.suffix hh.contents.thawed
  obtain ⟨events, htrace, hevents⟩ := hstep.events
  have hcall : ∀ d, callOf d s'.trace = callOf d s.trace := fun d => by
    rw [htrace, callOf_append hevents]
  have hbefore : ∀ d, beforeCall d s'.trace = beforeCall d s.trace := fun d => by
    rw [htrace, beforeCall_append hevents]
  have hu := hstep.untouched
  refine ⟨fun d hd hidle => ?_, fun d hd => ?_, h.responds hh hstep hflushed, hu.halted.trans h.running,
    fun hs d => ?_⟩
  · rw [hcall] at hd
    by_cases hdc : d = c
    · subst hdc
      exact (hstep.inFlush (h.calls d hd hstep.not_idle)).resolve_left hidle
    · rw [hstep.clients_of_ne hdc] at hidle ⊢
      exact h.calls d hd hidle
  · rw [hbefore]
    by_cases hdc : d = c
    · subst hdc
      rcases hstep.rotatedAway hd with hold | hempty | ⟨hidle, hok⟩
      · exact (h.moved d hold).trans hfrozen
      · rw [← hbefore]
        exact history_of_empty hh' hempty d
      · rw [h.busy hstep.not_idle hok] at hidle
        cases hidle
    · rw [hstep.clients_of_ne hdc] at hd
      exact (h.moved d hd).trans hfrozen
  · exact absurd (h.stopped (hu.stopping ▸ hs) c) hstep.not_idle

theorem EnterStep.inFlush (h : EnterStep s c call s') :
    ¬ (s'.engine.clients c).rotatedAway ∧
      (call = .flush → s'.engine.clients c ≠ .idle → (s'.engine.clients c).inFlush) := by
  cases h with
  | refuse | absent =>
    have hidle : (s.setClient c .idle).engine.clients c = .idle := setClient_self _ c .idle
    exact ⟨fun hd => absurd (@of_setClient n Client.rotatedAway _ c .idle hd) id,
      fun _ hne => absurd hidle hne⟩
  | write writes =>
    refine ⟨fun hd => absurd (of_setClient (P := Client.rotatedAway) hd) id, ?_⟩
    rintro rfl
    exact absurd writes nofun
  | flush =>
    refine ⟨fun hd => absurd (of_setClient (P := Client.rotatedAway) hd) id, fun _ _ => ?_⟩
    exact (setClient_self _ c _).symm ▸ trivial
  | get | scan | compact | wait =>
    exact ⟨fun hd => absurd (of_setClient (P := Client.rotatedAway) hd) id, nofun⟩

section

variable (h : Flushes prior s frozen flushed)
include h

theorem Flushes.enter
    (hrun : s.engine.stopping = false) (hstep : EnterStep (s.note (.invoke c call)) c call s') :
    Flushes prior s' frozen flushed := by
  have hu := hstep.untouched
  obtain ⟨hnew, hflush⟩ := hstep.inFlush
  have hothers : ∀ d ≠ c, s'.engine.clients d = s.engine.clients d :=
    fun d hd => hstep.clients_of_ne hd
  obtain ⟨events, htrace, hevents, hkept⟩ : ∃ events : List (Event n),
      s'.trace = events ++ .invoke c call :: s.trace ∧ (∀ ev ∈ events, ¬ ev.isInvoke) ∧
        FlushesKept prior flushed s'.trace := by
    cases hstep with
    | refuse bad =>
      exact ⟨[.respond c _], rfl, by simp [Event.isInvoke],
        fun hok => absurd (bad.symm.trans hok) (by decide), h.kept⟩
    | absent => exact ⟨[.respond c _], rfl, by simp [Event.isInvoke], h.kept⟩
    | _ => exact ⟨[], rfl, by simp, h.kept⟩
  have hcall : ∀ d, callOf d s'.trace = callOf d (.invoke c call :: s.trace) := fun d => by
    rw [htrace, callOf_append hevents]
  have hbefore : ∀ d, beforeCall d s'.trace = beforeCall d (.invoke c call :: s.trace) := fun d => by
    rw [htrace, beforeCall_append hevents]
  refine ⟨fun d hd hidle => ?_, fun d hd => ?_, hkept, hu.halted.trans h.running, fun hs d => ?_⟩
  · rw [hcall] at hd
    by_cases hdc : d = c
    · subst hdc
      simp only [callOf, if_true, Option.some.injEq] at hd
      exact hflush hd hidle
    · simp only [callOf, Ne.symm hdc, if_false] at hd
      rw [hothers d hdc] at hidle ⊢
      exact h.calls d hd hidle
  · have hdc : d ≠ c := fun he => hnew (he ▸ hd)
    rw [hothers d hdc] at hd
    have hmoved := h.moved d hd
    rw [hbefore]
    simpa [beforeCall, hdc.symm] using hmoved
  · rw [hu.stopping] at hs
    exact absurd (hrun.symm.trans hs) (by decide)

theorem Flushes.congr (htrace : s'.trace = s.trace)
    (hclients : s'.engine.clients = s.engine.clients) (hflushed : flushed <:+ flushed')
    (hfrozen : frozen ++ flushed <:+ frozen' ++ flushed') (hrunning : s'.engine.haltedByFailPoint = false)
    (hstopped : s'.engine.stopping = true → ∀ c, s.engine.clients c = .idle) :
    Flushes prior s' frozen' flushed' := by
  refine ⟨?_, fun c hc => ?_, ?_, hrunning, ?_⟩
  · rw [htrace, hclients]
    exact h.calls
  · rw [htrace]
    exact (h.moved c (hclients ▸ hc)).trans hfrozen
  · rw [htrace]
    exact h.kept.mono hflushed
  · rw [hclients]
    exact hstopped

theorem Flushes.step (hfail : opts.failAt = .none)
    (hh : History prior s live frozen flushed) (hh' : History prior s' live' frozen' flushed')
    (hm : Moves s s' live frozen flushed live' frozen' flushed') {a : Action n}
    (hnext : s.step opts listing a = some s') (hquiet : ¬ TakesQuietRequest opts s a) :
    Flushes prior s' frozen' flushed' := by
  obtain ⟨hflushed, hfrozen⟩ := hm.suffix hh.contents.thawed
  have hhalted : s'.engine.haltedByFailPoint = false := by
    by_contra hne
    exact hquiet ((step_halted_iff hfail hnext h.running).mp (by simpa using hne))
  cases step_cases hfail hnext with
  | @call c call pc running =>
    have h' := h.enter running (enter_cases (s.note (.invoke c call)) c call)
    exact h'.congr rfl rfl hflushed hfrozen hhalted h'.stopped
  | client next => exact h.client hh hh' hm next
  | background next =>
    exact h.congr next.contents.1 next.clients_eq hflushed hfrozen hhalted
      (next.stopping_eq ▸ h.stopped)
  | unlink => exact h.congr rfl rfl hflushed hfrozen hhalted h.stopped
  | stop hq => exact h.congr rfl rfl hflushed hfrozen hhalted fun _ => hq

end

section

variable {env : Env} {r : Recovered} {past : List (System n × Action n)}

theorem flushes_opened : Flushes prior (opened n env r) frozen flushed :=
  ⟨by rintro _ ⟨⟩, by rintro _ ⟨⟩, trivial, rfl, by rintro ⟨⟩⟩

theorem flushes_run (hfail : opts.failAt = .none)
    (hopen : World.Reachable opts listing (.running (opened n env r) prior))
    (hrun : Run opts listing (opened n env r) past s) (hids : s.env.issued < idLimit)
    (hquiet : ∀ x ∈ past, ¬ TakesQuietRequest opts x.1 x.2) :
    s.BackgroundInv True opts listing ∧ ∃ live frozen flushed,
      History prior s live frozen flushed ∧ Flushes prior s frozen flushed := by
  induction hrun with
  | start =>
    obtain ⟨⟨live, frozen, flushed, hinv⟩, _⟩ := hopen.inv hfail hids
    exact ⟨hinv.background, live, frozen, flushed, hinv.history, flushes_opened⟩
  | @step past s s' a _ next ih =>
    have hstep := step_cases hfail next
    have hids' : s.env.issued < idLimit := hstep.issued_le.trans_lt hids
    obtain ⟨hb, live, frozen, flushed, hh, hf⟩ :=
      ih hids' fun x hx => hquiet x (List.mem_cons_of_mem _ hx)
    have hone := Levels.oneTablePerId_of_nodup (hb.ids trivial).nodup
    obtain ⟨live', frozen', flushed', hh', hm⟩ := history_step hh hb hone (fun _ => hids') hstep
    exact ⟨hb.step hfail hone (fun _ => hids') (fun _ => hids) hstep, live', frozen', flushed', hh',
      hf.step hfail hh hh' hm next (hquiet _ List.mem_cons_self)⟩

/-- In any life of a directory, once a `flush` has returned Ok the tables in the manifest
hold every write inserted before its call, those found by recovery included, provided no
`compact()` request was taken up on a quiet tree since the store was opened. -/
theorem flush_leaves_writes_on_disk (hfail : opts.failAt = .none)
    (hopen : World.Reachable opts listing (.running (opened n env r) prior))
    (hrun : Run opts listing (opened n env r) past s) (hids : s.env.issued < idLimit)
    (hquiet : ∀ x ∈ past, ¬ TakesQuietRequest opts x.1 x.2) {c : Fin n} {st : Status}
    {newer older : List (Event n)} (htrace : s.trace = newer ++ .respond c (.status st) :: older)
    (hok : st.isOk = true) (hcall : callOf c older = some .flush) :
    ∃ levels nextId history, s.OnDisk levels nextId history ∧
      written (beforeCall c older) ++ prior <:+ history ∧ history <:+ written s.trace ++ prior := by
  obtain ⟨hb, live, frozen, flushed, hh, hf⟩ := flushes_run hfail hopen hrun hids hquiet
  have hkept := hf.kept
  rw [htrace] at hkept
  have hwrites := hkept.kept hok hcall
  have hall := hh.all
  obtain ⟨levels, nextId, history, hdisk, hhist⟩ := manifest_onDisk hb hh fun _ => hids
  refine ⟨levels, nextId, history, hdisk, ?_⟩
  rcases hhist with rfl | ⟨rfl, _⟩
  · exact ⟨hwrites, hall ▸ (List.suffix_append _ _).trans (List.suffix_append _ _)⟩
  · exact ⟨hwrites.trans (List.suffix_append _ _), hall ▸ List.suffix_append _ _⟩

end

/-- A put and a crash; in the next life a put, and a `flush` that waits for the
background thread. -/
theorem flush_leaves_writes_on_disk_after_put :
    ∃ env r prior past s older levels nextId history,
      World.Reachable {} .asStored (.running (opened 1 env r) prior) ∧
      prior = [(text "a", ⟨text "x", false⟩)] ∧ Run {} .asStored (opened 1 env r) past s ∧
      s.trace = .respond 0 (.status .ok) :: older ∧
      written (beforeCall 0 older) = [(text "b", ⟨text "y", false⟩)] ∧
      s.OnDisk levels nextId history ∧ written (beforeCall 0 older) ++ prior <:+ history := by
  let actions : List (Action 1) := putFlush 0 (text "b") (text "y") ++ List.replicate 13 .background ++ [.client 0]
  have h : ∃ r ∈ runFresh 1 {} (calling 0 (.put (text "a") (text "x")) 4),
      r.2.inFlight ++ acknowledged r.2.trace = [(text "a", ⟨text "x", false⟩)] ∧
      Returned (fun store env => ∃ r' ∈ runFrom {} .asStored [] (.opened 1 env store) actions,
          r'.2.trace = .respond 0 (.status .ok) :: r'.2.trace.tail ∧
          callOf 0 r'.2.trace.tail = some .flush ∧ r'.2.env.issued < idLimit ∧
          written (beforeCall 0 r'.2.trace.tail) = [(text "b", ⟨text "y", false⟩)] ∧
          ∀ x ∈ r'.1, x.1.engine.compactRequested = false)
        ((LsmStore.openStore {}).run (lsmMachine .asStored) r.2.env) := by decide +kernel
  obtain ⟨_, s₀, hdown, hprior, store, env, hopened, ⟨past, s⟩, hrun, htrace, hcall, hids, hwritten, hreq⟩ :=
    World.exists_crashed h
  rw [hprior] at hdown
  have hopen := World.Reachable.recovered (.step hdown .open) hopened
  replace hrun := run_of_runFrom .start hrun
  have hquiet : ∀ x ∈ past, ¬ TakesQuietRequest {} x.1 x.2 := fun x hx ht =>
    absurd ((hreq x hx).symm.trans ht.2.2.2.2.1) (by decide)
  have hlast : s.trace = [] ++ .respond 0 (.status .ok) :: s.trace.tail := htrace
  obtain ⟨levels, nextId, history, hdisk, hsub, _⟩ :=
    flush_leaves_writes_on_disk rfl hopen hrun hids hquiet hlast rfl hcall
  exact ⟨_, _, _, past, s, _, levels, nextId, history, hopen, rfl, hrun, htrace, hwritten, hdisk, hsub⟩

/-- After a `compact()` on the empty store a put is acknowledged and `flush`
returns Ok, and the manifest names no table. -/
theorem flush_after_compact_leaves_nothing :
    ∃ past s start older, fresh 1 {} .asStored = some start ∧ Run {} .asStored start past s ∧
      s.trace = .respond 0 (.status .ok) :: older ∧ callOf 0 older = some .flush ∧
      written (beforeCall 0 older) = [(text "a", ⟨text "x", false⟩)] ∧
      s.env.manifest = some ⟨kFirstFileId, [[]]⟩ := by
  let actions : List (Action 1) := [.call 0 .compact, .client 0, .background, .client 0] ++
    putFlush 0 (text "a") (text "x") ++ [.client 0]
  have h : ∃ r ∈ runFresh 1 {} actions, r.2.trace = .respond 0 (.status .ok) :: r.2.trace.tail ∧
      callOf 0 r.2.trace.tail = some .flush ∧
      written (beforeCall 0 r.2.trace.tail) = [(text "a", ⟨text "x", false⟩)] ∧
      r.2.env.manifest = some ⟨kFirstFileId, [[]]⟩ := by decide +kernel
  obtain ⟨_, _, past, s, hstart, hrun, hlast⟩ := exists_fresh_run h
  exact ⟨past, s, _, _, hstart, hrun, hlast⟩

end System

end KVStore
