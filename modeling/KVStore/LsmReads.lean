import KVStore.LsmHistory

namespace KVStore

open Lib SortedRun CrashProgram

section Trace

variable {n : Nat} {c : Fin n} {events older : List (Event n)} {prior : List Entry}

def callOf (c : Fin n) : List (Event n) → Option Call
  | [] => none
  | .invoke d call :: older => if d = c then some call else callOf c older
  | _ :: older => callOf c older

def probeOf (c : Fin n) : List (Event n) → Option (Key × List (Event n))
  | [] => none
  | .probe d key :: older => if d = c then some (key, older) else probeOf c older
  | .invoke d _ :: older => if d = c then none else probeOf c older
  | _ :: older => probeOf c older

def answerAt (prior : List Entry) (key : Key) (before : List (Event n)) : Status × Option Value :=
  (Lookup.ofEntry (SortedRun.find key (written before ++ prior))).answer key

/-- The response to a `get` is the answer at its probe. -/
def AnswersProbe (prior : List Entry) (c : Fin n) (answer : Status × Option Value)
    (older : List (Event n)) : Prop :=
  ∀ key, callOf c older = some (.get key) → key ≠ [] →
    ∃ before, probeOf c older = some (key, before) ∧ answer = answerAt prior key before

def GetsAnswered (prior : List Entry) : List (Event n) → Prop
  | [] => True
  | .respond c (.got answer) :: older => AnswersProbe prior c answer older ∧ GetsAnswered prior older
  | _ :: older => GetsAnswered prior older

def Event.plain : Event n → Prop
  | .insert _ => True
  | .respond _ (.status _) => True
  | .respond _ (.rows _) => True
  | _ => False

def Event.isInvoke : Event n → Prop
  | .invoke _ _ => True
  | _ => False

theorem Event.plain.not_isInvoke {ev : Event n} (h : ev.plain) : ¬ ev.isInvoke := by
  cases ev with
  | invoke => exact absurd h id
  | insert | respond | probe => exact id

theorem callOf_append (h : ∀ ev ∈ events, ¬ ev.isInvoke) : callOf c (events ++ older) = callOf c older := by
  induction events with
  | nil => rfl
  | cons ev events ih =>
    have ih' := ih fun ev hev => h ev (List.mem_cons_of_mem _ hev)
    cases ev with
    | invoke => exact absurd trivial (h _ List.mem_cons_self)
    | insert | respond | probe => exact ih'

theorem probeOf_plain (h : ∀ ev ∈ events, ev.plain) : probeOf c (events ++ older) = probeOf c older := by
  induction events with
  | nil => rfl
  | cons ev events ih =>
    have ih' := ih fun ev hev => h ev (List.mem_cons_of_mem _ hev)
    have hev := h ev List.mem_cons_self
    cases ev with
    | insert => exact ih'
    | respond => exact ih'
    | invoke | probe => exact absurd hev id

theorem getsAnswered_plain (h : ∀ ev ∈ events, ev.plain) (hold : GetsAnswered prior older) :
    GetsAnswered prior (events ++ older) := by
  induction events with
  | nil => exact hold
  | cons ev events ih =>
    have ih' := ih fun ev hev => h ev (List.mem_cons_of_mem _ hev)
    have hev := h ev List.mem_cons_self
    cases ev with
    | insert => exact ih'
    | respond d r =>
      cases r with
      | status => exact ih'
      | rows => exact ih'
      | got => exact absurd hev id
    | invoke | probe => exact absurd hev id

theorem GetsAnswered.answersProbe {newer older : List (Event n)} {answer : Status × Option Value}
    (h : GetsAnswered prior (newer ++ .respond c (.got answer) :: older)) :
    AnswersProbe prior c answer older := by
  induction newer with
  | nil => exact h.1
  | cons ev newer ih =>
    cases ev with
    | respond d r =>
      cases r with
      | got => exact ih h.2
      | status => exact ih h
      | rows => exact ih h
    | invoke | insert | probe => exact ih h

end Trace

def Client.reading : Client → Prop
  | .probing _ => True
  | .searching _ _ => True
  | _ => False

namespace System

variable {n : Nat} {opts : LsmOptions} {s s' : System n} {prior : List Entry} {c : Fin n}

/-- Where each `get` in progress stands, and that the finished ones were right. -/
structure Reads (prior : List Entry) (s : System n) : Prop where
  probing : ∀ c key, s.engine.clients c = .probing key → callOf c s.trace = some (.get key)
  searching : ∀ c key version, s.engine.clients c = .searching key version →
    callOf c s.trace = some (.get key) ∧ ∃ before, probeOf c s.trace = some (key, before) ∧
      (version.search key).answer key = answerAt prior key before
  answered : GetsAnswered prior s.trace

section

variable (h : Reads prior s)
    (hother : ∀ d ≠ c, s'.engine.clients d = s.engine.clients d ∧ callOf d s'.trace = callOf d s.trace ∧
      probeOf d s'.trace = probeOf d s.trace)
include h hother

theorem Reads.own (hprobing : ∀ key, s'.engine.clients c = .probing key → callOf c s'.trace = some (.get key))
    (hsearching : ∀ key version, s'.engine.clients c = .searching key version →
      callOf c s'.trace = some (.get key) ∧ ∃ before, probeOf c s'.trace = some (key, before) ∧
        (version.search key).answer key = answerAt prior key before)
    (hanswered : GetsAnswered prior s'.trace) : Reads prior s' := by
  refine ⟨fun d key hd => ?_, fun d key version hd => ?_, hanswered⟩
  · by_cases hdc : d = c
    · subst hdc
      exact hprobing key hd
    · obtain ⟨h₁, h₂, _⟩ := hother d hdc
      exact h₂.trans (h.probing d key (h₁ ▸ hd))
  · by_cases hdc : d = c
    · subst hdc
      exact hsearching key version hd
    · obtain ⟨h₁, h₂, h₃⟩ := hother d hdc
      rw [h₂, h₃]
      exact h.searching d key version (h₁ ▸ hd)

theorem Reads.ownDone (hc : ¬ (s'.engine.clients c).reading) (hanswered : GetsAnswered prior s'.trace) :
    Reads prior s' :=
  h.own hother (fun key hk => absurd (by rw [hk]; trivial) hc)
    (fun key version hk => absurd (by rw [hk]; trivial) hc) hanswered

end

theorem Reads.plain (h : Reads prior s) {events : List (Event n)}
    (htrace : s'.trace = events ++ s.trace) (hplain : ∀ ev ∈ events, ev.plain)
    (hother : ∀ d ≠ c, s'.engine.clients d = s.engine.clients d)
    (hc : ¬ (s'.engine.clients c).reading) : Reads prior s' := by
  refine h.ownDone (fun d hd => ⟨hother d hd, ?_, ?_⟩) hc ?_
  · rw [htrace, callOf_append fun ev hev => (hplain ev hev).not_isInvoke]
  · rw [htrace, probeOf_plain hplain]
  · rw [htrace]
    exact getsAnswered_plain hplain h.answered

theorem Reads.congr (h : Reads prior s) (htrace : s'.trace = s.trace)
    (hclients : s'.engine.clients = s.engine.clients) : Reads prior s' := by
  refine ⟨fun d key hd => ?_, fun d key version hd => ?_, htrace ▸ h.answered⟩
  · rw [htrace]
    exact h.probing d key (hclients ▸ hd)
  · rw [htrace]
    exact h.searching d key version (hclients ▸ hd)

theorem ClientStep.events (h : ClientStep opts s c s') :
    ∃ events, s'.trace = events ++ s.trace ∧ ∀ ev ∈ events, ¬ Event.isInvoke ev := by
  cases h with
  | insert => exact ⟨[.respond c (.status .ok), .insert _], rfl, by simp [Event.isInvoke]⟩
  | hit => exact ⟨[.respond c _, .probe c _], rfl, by simp [Event.isInvoke]⟩
  | miss => exact ⟨[.probe c _], rfl, by simp [Event.isInvoke]⟩
  | refuse | flushNothing | refuseCompact | settle | rows | search =>
    exact ⟨[.respond c _], rfl, by simp [Event.isInvoke]⟩
  | _ => exact ⟨[], rfl, by simp⟩

theorem ClientStep.plain (h : ClientStep opts s c s') (hc : ¬ (s.engine.clients c).reading) :
    ∃ events, s'.trace = events ++ s.trace ∧ (∀ ev ∈ events, Event.plain ev) ∧
      ¬ (s'.engine.clients c).reading := by
  have hset : ∀ (e : Engine n) (pc : Client), (e.setClient c pc).clients c = pc :=
    fun e pc => Function.update_self ..
  cases h with
  | hit pc | miss pc | search pc =>
    rw [pc] at hc
    exact absurd trivial hc
  | insert =>
    refine ⟨[.respond c (.status .ok), .insert _], rfl, by simp [Event.plain], ?_⟩
    exact (hset _ .idle).symm ▸ id
  | refuse | flushNothing | refuseCompact | settle | rows =>
    refine ⟨[.respond c _], rfl, by simp [Event.plain], ?_⟩
    exact (hset _ .idle).symm ▸ id
  | _ => exact ⟨[], rfl, by simp, (hset _ _).symm ▸ id⟩

end System

namespace History

variable {n : Nat} {s : System n} {prior live frozen flushed : List Entry}

section

variable (hh : History prior s live frozen flushed)
include hh

theorem find_eq (key : Key) :
    find key (written s.trace ++ prior) =
      ((s.engine.mem.get key).or (s.engine.imm.bind fun m => m.get key)).or
        (find key flushed) := by
  rw [hh.all, ← List.append_assoc, find_append, hh.contents.probe_eq]

theorem hit {key : Key} {e : MemEntry}
    (found : (s.engine.mem.get key).or (s.engine.imm.bind fun m => m.get key) = some e) :
    (Lookup.ofEntry (some e)).answer key = answerAt prior key s.trace := by
  rw [answerAt, hh.find_eq, found]
  rfl

theorem miss
    (hshaped : ∀ l ∈ s.engine.levels.tail, Levels.Shaped l) {key : Key}
    (absent : (s.engine.mem.get key).or (s.engine.imm.bind fun m => m.get key) = none) :
    (s.engine.current.search key).answer key = answerAt prior key s.trace := by
  rw [answerAt, hh.find_eq, absent, hh.contents.current, Levels.search_eq hshaped]
  refine Lookup.answer_congr ?_ key
  rw [value_ofEntry, value_ofEntry]
  exact hh.contents.levels key

end

end History

namespace System

variable {n : Nat} {opts : LsmOptions} {listing : Listing} {s s' : System n}
  {prior live frozen flushed : List Entry}

theorem setClient_self (e : Engine n) (c : Fin n) (pc : Client) : (e.setClient c pc).clients c = pc :=
  Function.update_self ..

theorem of_setClient {P : Client → Prop} {e : Engine n} {c : Fin n} {pc : Client}
    (h : P ((e.setClient c pc).clients c)) : P pc :=
  setClient_self e c pc ▸ h

theorem Reads.enter (h : Reads prior s) {c : Fin n} {call : Call}
    (hstep : EnterStep (s.note (.invoke c call)) c call s') : Reads prior s' := by
  have hothers : ∀ d ≠ c, s'.engine.clients d = s.engine.clients d :=
    fun d hd => hstep.clients_of_ne hd
  cases hstep with
  | absent =>
    refine h.ownDone (fun d hd => ⟨hothers d hd, ?_, ?_⟩) ((setClient_self _ c .idle).symm ▸ id)
      ⟨fun key hcall hkey => ?_, h.answered⟩
    · simp [respond, setClient, note, callOf, hd.symm]
    · simp [respond, setClient, note, probeOf, hd.symm]
    · simp only [setClient, note, callOf, if_true] at hcall
      cases hcall
      exact absurd rfl hkey
  | get =>
    refine h.own (fun d hd => ⟨hothers d hd, ?_, ?_⟩) (fun key hk => ?_) (fun key version hk => ?_)
      h.answered
    · simp [setClient, note, callOf, hd.symm]
    · simp [setClient, note, probeOf, hd.symm]
    · have hk' := (setClient_self _ c _).symm.trans hk
      cases hk'
      simp [setClient, note, callOf]
    · have hk' := (setClient_self _ c _).symm.trans hk
      cases hk'
  | _ =>
    refine h.ownDone (fun d hd => ⟨hothers d hd, ?_, ?_⟩) ((setClient_self _ c _).symm ▸ id)
      h.answered
    · simp [respond, setClient, note, callOf, hd.symm]
    · simp [respond, setClient, note, probeOf, hd.symm]

theorem Reads.client (h : Reads prior s) (hh : History prior s live frozen flushed)
    (hshaped : ∀ l ∈ s.engine.levels.tail, Levels.Shaped l) {c : Fin n}
    (hstep : ClientStep opts s c s') : Reads prior s' := by
  have hothers : ∀ d ≠ c, s'.engine.clients d = s.engine.clients d :=
    fun d hd => hstep.clients_of_ne hd
  by_cases hc : (s.engine.clients c).reading
  · cases hstep with
    | @hit key e pc found =>
      refine h.ownDone (fun d hd => ⟨hothers d hd, ?_, ?_⟩) ((setClient_self _ c .idle).symm ▸ id)
        ⟨fun key' hcall _ => ?_, h.answered⟩
      · simp [respond, setClient, note, callOf]
      · simp [respond, setClient, note, probeOf, hd.symm]
      · have hcall' : callOf c s.trace = some (.get key') := hcall
        rw [h.probing c key pc] at hcall'
        cases hcall'
        exact ⟨s.trace, by simp [setClient, note, probeOf], hh.hit found⟩
    | @miss key pc absent =>
      refine h.own (fun d hd => ⟨hothers d hd, ?_, ?_⟩) (fun key hk => ?_) (fun key' version hk => ?_)
        h.answered
      · simp [setClient, note, callOf]
      · simp [setClient, note, probeOf, hd.symm]
      · have hk' := (setClient_self _ c _).symm.trans hk
        cases hk'
      · have hk' := (setClient_self _ c _).symm.trans hk
        cases hk'
        exact ⟨h.probing c key pc, s.trace, by simp [setClient, note, probeOf],
          hh.miss hshaped absent⟩
    | @search key version pc =>
      obtain ⟨hcallc, before, hprobe, hanswer⟩ := h.searching c key version pc
      refine h.ownDone (fun d hd => ⟨hothers d hd, ?_, ?_⟩) ((setClient_self _ c .idle).symm ▸ id)
        ⟨fun key' hcall _ => ?_, h.answered⟩
      · simp [respond, setClient, note, callOf]
      · simp [respond, setClient, note, probeOf]
      · have hcall' : callOf c s.trace = some (.get key') := hcall
        rw [hcallc] at hcall'
        cases hcall'
        exact ⟨before, hprobe, hanswer⟩
    | rotateWrite pc | proceed pc | flushWait pc | rotateFlush pc =>
      exfalso
      rcases pc with pc | pc <;> rw [pc] at hc <;> exact hc
    | refuse pc =>
      exfalso
      rcases pc with ⟨_, pc⟩ | ⟨_, pc⟩ | pc | pc <;> rw [pc] at hc <;> exact hc
    | _ pc =>
      exfalso
      rw [pc] at hc
      exact hc
  · obtain ⟨events, htrace, hplain, hc'⟩ := hstep.plain hc
    exact h.plain htrace hplain hothers hc'

theorem Reads.step (h : Reads prior s) (hh : History prior s live frozen flushed)
    (hshaped : ∀ l ∈ s.engine.levels.tail, Levels.Shaped l) {a : Action n}
    (hstep : Step opts listing s a s') : Reads prior s' := by
  cases hstep with
  | call => exact h.enter (enter_cases _ _ _)
  | client next => exact h.client hh hshaped next
  | background next => exact h.congr next.contents.1 next.clients_eq
  | unlink => exact h.congr rfl rfl
  | stop => exact h.congr rfl rfl

def TablesReadBack (s : System n) : Prop :=
  ∀ t ∈ s.engine.levels.flatten, s.env.tables.lookup t.id = some t.file

theorem TablesReadBack.oneTablePerId (h : s.TablesReadBack) : Levels.OneTablePerId s.engine.levels := by
  rintro ⟨id, f⟩ ht ⟨id', g⟩ hs (rfl : id = id')
  exact congrArg (SSTable.mk id) (Option.some.inj ((h _ ht).symm.trans (h _ hs)))

theorem backgroundInv_opened (D : Prop) (env : Env) (r : Recovered)
    (hshaped : ∀ l ∈ r.levels.tail, Levels.Shaped l) (hsettled : D → Settled env r.levels)
    (hids : D → TableIds r.levels [] env.nextId []) : (opened n env r).BackgroundInv D opts listing :=
  ⟨hshaped, hsettled, hids⟩

theorem history_opened (env : Env) {r : Recovered}
    (h : ∀ key, visible (find key r.levels.entries) = visible (find key prior)) :
    History prior (opened n env r) [] [] prior :=
  ⟨⟨fun _ => rfl, nofun, fun _ => rfl, h, rfl⟩, rfl⟩

theorem reads_opened (env : Env) (r : Recovered) : Reads prior (opened n env r) :=
  ⟨nofun, nofun, trivial⟩

theorem reads_run {start : System n} {past : List (System n × Action n)}
    (hfail : opts.failAt = .none) (hfresh : fresh n opts listing = some start)
    (hrun : Run opts listing start past s) (hread : ∀ x ∈ past, x.1.TablesReadBack) :
    s.BackgroundInv False opts listing ∧ Reads [] s ∧
      ∃ live frozen flushed, History [] s live frozen flushed := by
  induction hrun with
  | start =>
    rw [fresh_eq hfresh]
    exact ⟨backgroundInv_opened _ _ _ (by simp) False.elim False.elim, reads_opened _ _, [], [], [],
      history_opened _ fun _ => rfl⟩
  | @step past s s' a _ next ih =>
    obtain ⟨hb, hr, live, frozen, flushed, hh⟩ := ih fun x hx => hread x (List.mem_cons_of_mem _ hx)
    have hone := (hread _ List.mem_cons_self).oneTablePerId
    have hstep := step_cases hfail next
    have hl : ∀ x, Legal False x := fun _ => False.elim
    obtain ⟨live', frozen', flushed', hh', _⟩ := history_step hh hb hone (hl _) hstep
    exact ⟨hb.step hfail hone (hl _) (hl _) hstep, hr.step hh hb.shaped hstep, live', frozen',
      flushed', hh'⟩

/-- A `get` of a non-empty key returns what the last write of the key that was
inserted before its locked probe left: the value of a put, or not found. -/
theorem get_returns_last_write {start : System n} {past : List (System n × Action n)}
    (hfail : opts.failAt = .none) (hfresh : fresh n opts listing = some start)
    (hrun : Run opts listing start past s) (hread : ∀ x ∈ past, x.1.TablesReadBack) {c : Fin n}
    {newer older : List (Event n)} {answer : Status × Option Value} {key : Key}
    (htrace : s.trace = newer ++ .respond c (.got answer) :: older)
    (hcall : callOf c older = some (.get key)) (hkey : key ≠ []) :
    ∃ before, probeOf c older = some (key, before) ∧
      answer = (Lookup.ofEntry (SortedRun.find key (written before))).answer key := by
  obtain ⟨_, hr, _⟩ := reads_run hfail hfresh hrun hread
  have hanswered := hr.answered
  rw [htrace] at hanswered
  obtain ⟨before, hprobe, rfl⟩ := hanswered.answersProbe key hcall hkey
  exact ⟨before, hprobe, by rw [answerAt, List.append_nil]⟩

instance (s : System n) : Decidable s.TablesReadBack :=
  inferInstanceAs (Decidable (∀ t ∈ s.engine.levels.flatten, s.env.tables.lookup t.id = some t.file))

/-- A put is flushed; a `get` probes, another put of the key is acknowledged, and
the search of the version taken at the probe still returns the first value. -/
theorem get_returns_last_write_across_put :
    ∃ past s start older before, fresh 2 {} .asStored = some start ∧
      Run {} .asStored start past s ∧
      s.trace = .respond 1 (.got (.ok, some (text "x"))) :: older ∧
      probeOf 1 older = some (text "a", before) ∧
      (.ok, some (text "x")) =
        (Lookup.ofEntry (SortedRun.find (text "a") (written before))).answer (text "a") := by
  let put (v : Value) : List (Action 2) := calling 0 (.put (text "a") v) 4
  let flush : List (Action 2) := calling 0 .flush 4 ++
    List.replicate 13 .background ++ [.client 0]
  let actions := put (text "x") ++ flush ++ [.call 1 (.get (text "a")), .client 1] ++
    put (text "z") ++ [.client 1]
  have h : ∃ r ∈ runFresh 2 {} actions, r.2.trace = .respond 1 (.got (.ok, some (text "x"))) :: r.2.trace.tail ∧
      callOf 1 r.2.trace.tail = some (.get (text "a")) ∧ ∀ x ∈ r.1, x.1.TablesReadBack := by decide +kernel
  obtain ⟨_, _, past, s, hstart, hrun, htrace, hcall, hread⟩ := exists_fresh_run h
  obtain ⟨before, hprobe, hanswer⟩ := @get_returns_last_write 2 {} .asStored s _ past rfl hstart
    hrun hread 1 [] _ _ _ htrace hcall (by decide)
  exact ⟨past, s, _, _, before, hstart, hrun, htrace, hprobe, hanswer⟩

end System

end KVStore
