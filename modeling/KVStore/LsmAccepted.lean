import KVStore.LsmManifest

namespace KVStore

open Lib CrashProgram

def Client.entry : Client → Option Entry
  | .wantWriter e | .checking e | .stalled e | .appending e | .inserting e => some e
  | .rotating _ (.write e) | .rotated _ (.write e) => some e
  | _ => none

def acknowledged {n : Nat} : List (Event n) → List Entry
  | [] => []
  | .respond c (.status st) :: older =>
    if st.isOk then ((callOf c older).bind Call.entry).toList ++ acknowledged older
    else acknowledged older
  | _ :: older => acknowledged older

namespace System

variable {n : Nat} {opts : LsmOptions} {listing : Listing} {s s' : System n} {prior : List Entry}
    {c : Fin n} {call : Call}

/-- Each client carries the entry of its call, and what was acknowledged is what
was inserted. -/
structure Acknowledges (s : System n) : Prop where
  carried : ∀ c, s.engine.clients c ≠ .idle →
    (callOf c s.trace).bind Call.entry = (s.engine.clients c).entry
  inserted : acknowledged s.trace = written s.trace

/-- Everything written, or on its way, passed the checks of `write_entry`. -/
structure Accepted (prior : List Entry) (s : System n) : Prop where
  carried : ∀ c e, (s.engine.clients c).entry = some e → Writable e
  written : ∀ e ∈ written s.trace ++ prior, Writable e

theorem ClientStep.entry (h : ClientStep opts s c s') :
    s'.engine.clients c = .idle ∨ (s'.engine.clients c).entry = (s.engine.clients c).entry ∧
      s.engine.clients c ≠ .idle := by
  have hself : ∀ (e : Engine n) (pc : Client), (e.setClient c pc).clients c = pc :=
    fun e pc => setClient_self e c pc
  cases h with
  | refuse | insert | hit | search | rows | flushNothing | refuseCompact | settle =>
    exact Or.inl (hself _ _)
  | rotateWrite pc | proceed pc | flushWait pc | rotateFlush pc =>
    refine Or.inr ⟨(congrArg Client.entry (hself _ _)).trans ?_, ?_⟩ <;>
      rcases pc with pc | pc <;> simp [pc, Client.entry]
  | createLog pc =>
    rename_i resume
    refine Or.inr ⟨(congrArg Client.entry (hself _ _)).trans ?_, by simp [pc]⟩
    rw [pc]
    cases resume <;> rfl
  | acquire pc | stall pc | switchWrite pc | switchFlush pc | append pc | miss pc | snapshot pc
  | flushAcquire pc | flushStall pc | request pc =>
    refine Or.inr ⟨(congrArg Client.entry (hself _ _)).trans ?_, by simp [pc]⟩
    rw [pc]
    rfl

section

variable (h : Accepted prior s)
include h

theorem Accepted.congr (hc : s'.engine.clients = s.engine.clients)
    (ht : KVStore.written s'.trace = KVStore.written s.trace) : Accepted prior s' :=
  ⟨fun c e he => h.carried c e (hc ▸ he), ht ▸ h.written⟩

theorem Accepted.enter
    (hstep : EnterStep (s.note (.invoke c call)) c call s') : Accepted prior s' := by
  refine ⟨fun d e he => ?_, ?_⟩
  · by_cases hd : d = c
    · subst hd
      cases hstep with
      | write _ hw =>
        cases of_setClient (P := fun pc => pc.entry = some e) he
        exact hw
      | _ => cases of_setClient (P := fun pc => pc.entry = some e) he
    · rw [hstep.clients_of_ne hd] at he
      exact h.carried d e he
  · rw [hstep.sameContents.2]
    exact h.written

theorem Accepted.client {c : Fin n} (hstep : ClientStep opts s c s') :
    Accepted prior s' := by
  refine ⟨fun d e he => ?_, ?_⟩
  · by_cases hd : d = c
    · subst hd
      rcases hstep.entry with hidle | ⟨hentry, _⟩
      · rw [hidle] at he
        cases he
      · exact h.carried d e (hentry ▸ he)
    · exact h.carried d e (hstep.clients_of_ne hd ▸ he)
  · rcases hstep.contents with ⟨_, ht⟩ | ⟨_, _, rfl⟩ | ⟨e, pc, rfl⟩
    · rw [ht]
      exact h.written
    · exact h.written
    · exact List.forall_mem_cons.mpr ⟨h.carried c e (by rw [pc]; rfl), h.written⟩

theorem Accepted.step {a : Action n} (hstep : Step opts listing s a s') :
    Accepted prior s' := by
  cases hstep with
  | call => exact h.enter (enter_cases _ _ _)
  | client next => exact h.client next
  | background next => exact h.congr next.clients_eq (congrArg _ next.contents.1)
  | unlink | stop => exact h.congr rfl rfl

end

section

variable (h : Acknowledges s)
include h

theorem Acknowledges.congr (hc : s'.engine.clients = s.engine.clients)
    (ht : s'.trace = s.trace) : Acknowledges s' :=
  ⟨fun c => by rw [hc, ht]; exact h.carried c, by rw [ht]; exact h.inserted⟩

theorem Acknowledges.enter
    (hstep : EnterStep (s.note (.invoke c call)) c call s') : Acknowledges s' := by
  have hself : ∀ (e : Engine n) (pc : Client), (e.setClient c pc).clients c = pc :=
    fun e pc => setClient_self e c pc
  refine ⟨fun d hd => ?_, ?_⟩
  · by_cases he : d = c
    · subst he
      have hcall : callOf d (Event.invoke d call :: s.trace) = some call := by simp [callOf]
      cases hstep with
      | refuse | absent => exact absurd (hself _ _) hd
      | write hw =>
        refine ((congrArg Client.entry (hself _ _)).trans ?_).symm
        exact hw.symm.trans (congrArg (Option.bind · Call.entry) hcall).symm
      | _ =>
        refine ((congrArg Client.entry (hself _ _)).trans ?_).symm
        exact (congrArg (Option.bind · Call.entry) hcall).symm
    · have hold := h.carried d
      rw [hstep.clients_of_ne he] at hd ⊢
      have hcall : callOf d s'.trace = callOf d s.trace := by
        cases hstep <;> simp [respond, note, setClient, callOf, Ne.symm he]
      rw [hcall]
      exact hold hd
  · cases hstep with
    | refuse bad => simp [respond, note, setClient, acknowledged, bad, written, h.inserted]
    | _ => exact h.inserted

theorem Acknowledges.client {c : Fin n} (hstep : ClientStep opts s c s') :
    Acknowledges s' := by
  obtain ⟨events, htrace, hevents⟩ := hstep.events
  refine ⟨fun d hd => ?_, ?_⟩
  · rw [htrace, callOf_append hevents]
    by_cases he : d = c
    · subst he
      obtain ⟨hentry, hidle⟩ := hstep.entry.resolve_left hd
      rw [hentry]
      exact h.carried d hidle
    · rw [hstep.clients_of_ne he] at hd ⊢
      exact h.carried d hd
  · -- only an insert acknowledges a write; the other Ok answers are to calls that carry none
    have hcarried := h.carried c
    have hold := h.inserted
    cases hstep with
    | insert pc =>
      rw [pc] at hcarried
      have hcall := hcarried (by rintro ⟨⟩)
      simp [insert, respond, release, setClient, note, acknowledged, callOf, hcall, written, Status.isOk_ok, Client.entry, hold]
    | refuse pc bad | refuseCompact pc bad =>
      simp [respond, release, setClient, note, acknowledged, bad, written, hold]
    | flushNothing pc | settle pc =>
      rw [pc] at hcarried
      have hcall := hcarried (by rintro ⟨⟩)
      simp [respond, release, setClient, note, acknowledged, hcall, Client.entry, written, hold]
    | _ => exact hold

theorem Acknowledges.step {a : Action n} (hstep : Step opts listing s a s') :
    Acknowledges s' := by
  cases hstep with
  | call => exact h.enter (enter_cases _ _ _)
  | client next => exact h.client next
  | background next => exact h.congr next.clients_eq next.contents.1
  | unlink | stop => exact h.congr rfl rfl

end

structure Filled (e : Engine n) : Prop where
  tables : ∀ t ∈ e.levels.flatten, t.entries ≠ []
  frozen : ∀ table, e.imm = some table → table.map ≠ []

theorem map_ne_nil_of_full {e : Engine n} (hsize : 1 ≤ opts.memtableSize)
    (h : e.full opts = true) : e.mem.map ≠ [] := by
  intro hm
  have hbytes : e.mem.bytes = 0 := by
    rw [e.mem.accounted, hm]
    rfl
  have hle : opts.memtableSize ≤ e.mem.bytes := of_decide_eq_true h
  omega

theorem ClientStep.frozen (h : ClientStep opts s c s') (hsize : 1 ≤ opts.memtableSize) :
    s'.engine.imm = s.engine.imm ∨ s'.engine.imm = some s.engine.mem ∧ s.engine.mem.map ≠ [] := by
  cases h with
  | rotateWrite _ _ full => exact Or.inr ⟨rfl, map_ne_nil_of_full hsize full⟩
  | rotateFlush _ _ live => exact Or.inr ⟨rfl, by simpa [Memtable.isEmpty] using live⟩
  | _ => exact Or.inl rfl

theorem BackgroundStep.described (h : BackgroundStep opts listing s s')
    (hb : s.BackgroundInv True opts listing) (hl : Legal True s.shared) :
    s'.engine.levels = s.engine.levels ∧ s'.engine.imm = s.engine.imm ∨
      Described opts s s'.engine.levels ∧ (s'.engine.imm = s.engine.imm ∨ s'.engine.imm = none) := by
  have hpromise := hb.promise
  rcases h.contents.2 with hsame | ⟨wal, levels, pc, he⟩ | ⟨run, work, levels, pc, he⟩
  · exact Or.inl ⟨hsame.levels, hsame.imm⟩
  · rw [pc] at hpromise
    obtain ⟨table, himm, _, obsolete, hp⟩ := hpromise
    obtain ⟨f, hf, rfl, _⟩ := hp.returned hl
    refine Or.inr ⟨he ▸ .flush himm hf (by simp [pc]), Or.inr (by rw [he])⟩
  · rw [pc] at hpromise
    obtain ⟨hwork, hout, ids, obsolete, hlen, hnodup, hfresh, hp⟩ := hpromise
    obtain ⟨rfl, _⟩ := hp.returned hl
    refine Or.inr ⟨he ▸ .compaction hwork hout hlen hnodup (hfresh trivial), Or.inl (by rw [he])⟩

theorem Described.filled {levels : Levels} (hd : Described opts s levels)
    (h : s.BackgroundInv True opts listing) (hf : Filled s.engine) : ∀ t ∈ levels.flatten, t.entries ≠ [] := by
  intro t ht
  cases hd with
  | settled => exact hf.tables t ht
  | flush himm hbuilt =>
    rcases LsmStore.mem_prependL0.mp ht with rfl | ht
    · rw [SSTable.entries, buildTable_entries hbuilt]
      simpa using hf.frozen _ himm
    · exact hf.tables t ht
  | compaction hwork hout hlen =>
    obtain ⟨_, _, hwork⟩ := hwork
    obtain ⟨_, _, _, _, hcut, _⟩ := Levels.exists_picked h.shaped hwork
    rcases Compaction.mem_rebuild hcut ht with ht | ht
    · exact hf.tables t ht
    · exact (writes_placed hlen hout).nonempty t ht

theorem Filled.step (h : Filled s.engine) (hsize : 1 ≤ opts.memtableSize)
    (hb : s.BackgroundInv True opts listing) (hl : Legal True s.shared) {a : Action n}
    (hstep : Step opts listing s a s') : Filled s'.engine := by
  cases hstep with
  | call =>
    obtain ⟨hsame, _⟩ := (enter_cases (s.note _) _ _).sameContents
    exact ⟨hsame.levels ▸ h.tables, hsame.imm ▸ h.frozen⟩
  | client next =>
    refine ⟨next.untouched.levels ▸ h.tables, fun table ht => ?_⟩
    rcases next.frozen hsize with himm | ⟨himm, hne⟩
    · exact h.frozen table (himm ▸ ht)
    · cases himm.symm.trans ht
      exact hne
  | background next =>
    rcases next.described hb hl with ⟨hlevels, himm⟩ | ⟨hd, himm⟩
    · exact ⟨hlevels ▸ h.tables, himm ▸ h.frozen⟩
    · refine ⟨hd.filled hb h, fun table ht => ?_⟩
      rcases himm with himm | himm
      · exact h.frozen table (himm ▸ ht)
      · cases himm.symm.trans ht
  | unlink | stop => exact ⟨h.tables, h.frozen⟩

end System

end KVStore
