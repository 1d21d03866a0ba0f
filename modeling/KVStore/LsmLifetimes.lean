import KVStore.LsmWorld

namespace KVStore

open Lib CrashProgram LsmStore

/-- An operation that puts a table into place does so under one of these ids. -/
def Op.placesWithin (ids : List FileId) : Op → Prop
  | .renameTable id => id ∈ ids
  | _ => True

theorem Op.plain.placesWithin {o : Op} (h : o.plain) (ids : List FileId) : o.placesWithin ids := by
  cases o <;> trivial

namespace Env

variable {listing : Listing} {o : Op} {id : FileId}

theorem lookup_exec_of_ne (ho : o.ofBackground) (hne : o ≠ .renameTable id) (s : Env) :
    (s.exec listing o).2.tables.lookup id = s.tables.lookup id := by
  have h := s.executes listing o
  generalize (s.exec listing o).2 = s' at h ⊢
  cases h with
  | aside _ tables => rw [tables]
  | place => exact AList.lookup_insert_ne fun he => hne (he ▸ rfl)
  | commit | fetchNextId => rfl
  | _ => cases ho

theorem lookup_exec (ho : o.ofBackground) {ids : List FileId} (hp : o.placesWithin ids) (s : Env)
    (hid : id ∉ ids) : (s.exec listing o).2.tables.lookup id = s.tables.lookup id := by
  apply lookup_exec_of_ne ho
  rintro rfl
  exact hid hp

theorem lookup_exec_ne_none (ho : o.ofBackground) (s : Env) (h : s.tables.lookup id ≠ none) :
    (s.exec listing o).2.tables.lookup id ≠ none := by
  by_cases hp : o = .renameTable id
  · subst hp
    simp only [exec, renameTable]
    split
    · rw [AList.lookup_insert]
      exact Option.some_ne_none _
    · exact h
  · rwa [lookup_exec_of_ne ho hp]

end Env

namespace Compaction

variable {c : Compaction} {levels above deeper : Levels} {source target outs : List SSTable}

theorem tables_sublist (hcut : Levels.Cut levels c.level above source target deeper)
    (hp : Levels.Picked source target deeper c) : c.tables.Sublist levels.flatten := by
  have hinputs : c.inputs.Sublist source := by
    rcases hp.inputs with h | ⟨_, t, ht, h, _⟩
    · exact h ▸ List.Sublist.refl _
    · exact h ▸ List.singleton_sublist.mpr ht
  have hoverlaps : c.overlaps.Sublist target := by
    obtain ⟨p, h⟩ := hp.overlaps
    exact h ▸ List.filter_sublist
  rw [hcut.flatten_eq, tables, ← List.append_assoc source]
  exact ((hinputs.append hoverlaps).trans (List.sublist_append_left _ _)).trans
    (List.sublist_append_right _ _)

theorem mem_tables_or_rebuild (hone : Levels.OneTablePerId levels)
    (hcut : Levels.Cut levels c.level above source target deeper)
    (hp : Levels.Picked source target deeper c) {t : SSTable} (ht : t ∈ levels.flatten) :
    t ∈ c.tables ∨ t ∈ (c.rebuild levels outs).flatten := by
  by_cases hret : c.isRetired t = true
  · exact Or.inl ((isRetired_iff hone hcut hp ht).mp hret)
  · right
    rw [(rebuild_perm hcut).mem_iff]
    apply List.mem_append_left
    have hkept : ∀ level : List SSTable, t ∈ level → t ∈ c.kept level := fun level hl =>
      List.mem_filter.mpr ⟨hl, by simpa using hret⟩
    rw [hcut.flatten_eq] at ht
    simp only [survivors, List.mem_append] at ht ⊢
    exact ht.imp_right (Or.imp (hkept source) (Or.imp_left (hkept target)))

end Compaction

namespace Background

def unmarked : Background → List SSTable
  | .marking _ work => work.tables
  | _ => []

end Background

namespace System

variable {n : Nat} {opts : LsmOptions} {listing : Listing} {s s' : System n} {pc : Background} {c : Fin n}
    {t : SSTable} {levels : Levels} {work : Compaction}

def PlacesWithin {α : Type} (ids : List FileId) (io : LsmIo α) : Prop := io.All (Op.placesWithin ids)

/-- The tables whose files are kept: those of the current level set, and those on
their way out of the directory. -/
def keptTables (s : System n) : List SSTable :=
  s.engine.levels.flatten ++ (s.engine.background.unmarked ++ s.engine.obsolete)

def InPlace (env : Env) (t : SSTable) : Prop := env.tables.lookup t.id = some t.file

/-- What the thread's remaining operations put into place lies apart from the tables on
their way out. -/
def Apart (s : System n) : Background → Prop
  | .flushing _ io => PlacesWithin [s.engine.immTableId] io
  | .compacting _ _ io => PlacesWithin [] io
  | .renamingOutputs _ _ ids io => PlacesWithin ids io ∧ ∀ id ∈ ids, id ∉ s.engine.obsoleteIds
  | .committing _ _ io => PlacesWithin [] io
  | _ => True

structure Lifetimes (s : System n) : Prop where
  published : s.engine.current = s.engine.levels
  leaving : ∀ t ∈ s.engine.background.unmarked ++ s.engine.obsolete, InPlace s.env t
  nodup : ((s.engine.background.unmarked ++ s.engine.obsolete).map SSTable.id).Nodup
  apart : s.Apart s.engine.background
  clients : ∀ c, ∀ t ∈ (s.engine.clients c).holds, t ∈ s.keptTables

theorem Apart.moved (h : s.Apart pc) (ho : ByOthers True s s')
    (hflush : ∀ wal io, pc = .flushing wal io → s.engine.imm.isSome) : s'.Apart pc := by
  cases pc with
  | flushing wal io =>
    obtain ⟨table, himm⟩ := Option.isSome_iff_exists.mp (hflush wal io rfl)
    rw [Apart, (ho.frozen table himm).immTableId]
    exact h
  | renamingOutputs =>
    exact ⟨h.1, fun id hid hobsolete => h.2 id hid (ho.obsolete id hobsolete)⟩
  | compacting | committing => exact h
  | _ => trivial

theorem BackgroundInv.imm_of_flushing {D : Prop} (h : s.BackgroundInv D opts listing) :
    ∀ wal io, s.engine.background = .flushing wal io → s.engine.imm.isSome := by
  intro wal io hpc
  have hpromise := h.promise
  rw [hpc] at hpromise
  obtain ⟨table, himm, _⟩ := hpromise
  rw [himm]
  rfl

theorem ClientStep.holds (h : ClientStep opts s c s') (c' : Fin n) (ht : t ∈ (s'.engine.clients c').holds) :
    t ∈ (s.engine.clients c').holds ∨ t ∈ s.engine.current.flatten := by
  by_cases hc : c' = c
  · subst hc
    cases h with
    | miss | snapshot =>
      right
      simpa [note, setClient, Engine.setClient, Client.holds] using ht
    | _ =>
      simp [respond, release, note, setClient, rotate, System.insert, Engine.rotate,
        Engine.setClient, Client.holds] at ht
  · rw [h.clients_of_ne hc] at ht
    exact Or.inl ht

theorem EnterStep.holds {call : Call} (h : EnterStep s c call s') (c' : Fin n)
    (ht : t ∈ (s'.engine.clients c').holds) : t ∈ (s.engine.clients c').holds := by
  by_cases hc : c' = c
  · subst hc
    cases h <;> simp [respond, note, setClient, Engine.setClient, Client.holds] at ht
  · rwa [h.clients_of_ne hc] at ht

section

variable (h : s.Lifetimes)
include h

theorem Lifetimes.others (hb : s.BackgroundInv True opts listing)
    (ho : ByOthers True s s') (hu : s.engine.Untouched s'.engine) (htables : s'.env.tables = s.env.tables)
    (hc : ∀ c, ∀ t ∈ (s'.engine.clients c).holds,
      t ∈ (s.engine.clients c).holds ∨ t ∈ s.engine.current.flatten) : s'.Lifetimes := by
  have hkept : s'.keptTables = s.keptTables := by
    rw [keptTables, keptTables, hu.levels, hu.background, hu.obsolete]
  refine ⟨?_, ?_, ?_, ?_, fun c t ht => ?_⟩
  · rw [hu.current, hu.levels]
    exact h.published
  · rw [hu.background, hu.obsolete]
    intro t ht
    rw [InPlace, htables]
    exact h.leaving t ht
  · rw [hu.background, hu.obsolete]
    exact h.nodup
  · rw [hu.background]
    exact h.apart.moved ho hb.imm_of_flushing
  · rw [hkept]
    rcases hc c t ht with ht | ht
    · exact h.clients c t ht
    · rw [h.published] at ht
      exact List.mem_append_left _ ht

theorem Lifetimes.performed {o : Op} (ho : o.ofBackground) {ids : List FileId}
    (hp : o.placesWithin ids) (hids : ∀ t ∈ s.engine.obsolete, t.id ∉ ids)
    (hbefore : s.engine.background.unmarked = []) (hafter : pc.unmarked = [])
    (hapart : (s.performed listing o pc).Apart pc) :
    (s.performed listing o pc).Lifetimes := by
  have hleaving := h.leaving
  have hnodup := h.nodup
  have hclients := h.clients
  simp only [keptTables, hbefore, List.nil_append] at hleaving hnodup hclients
  refine ⟨h.published, fun t ht => ?_, ?_, ?_, fun c t ht => ?_⟩
  · have ht' : t ∈ s.engine.obsolete := by
      simpa [System.performed, setBackground, hafter] using ht
    exact (Env.lookup_exec ho hp s.env (hids t ht')).trans (hleaving t ht')
  · simpa [System.performed, setBackground, hafter] using hnodup
  · exact hapart
  · have ht' := hclients c t ht
    simpa [keptTables, System.performed, setBackground, hafter] using ht'

structure SameUse (e e' : Engine n) : Prop where
  levels : e'.levels = e.levels
  current : e'.current = e.current
  obsolete : e'.obsolete = e.obsolete
  clients : e'.clients = e.clients

theorem Lifetimes.resume {e : Engine n} (hsame : SameUse s.engine e)
    (hbefore : s.engine.background.unmarked = []) (hafter : e.background.unmarked = [])
    (hapart : Apart { s with engine := e } e.background) :
    Lifetimes { s with engine := e } := by
  obtain ⟨hpub, hleaving, hnodup, _, hclients⟩ := h
  simp only [keptTables, hbefore] at hleaving hnodup hclients
  obtain ⟨hlevels, hcurrent, hobsolete, hclient⟩ := hsame
  refine ⟨?_, ?_, ?_, hapart, ?_⟩
  · rw [hcurrent, hlevels]
    exact hpub
  · rw [hafter, hobsolete]
    exact hleaving
  · rw [hafter, hobsolete]
    exact hnodup
  · simp only [keptTables, hlevels, hobsolete, hclient, hafter]
    exact hclients

theorem Lifetimes.setBackground (hbefore : s.engine.background.unmarked = []) (hafter : pc.unmarked = [])
    (hapart : (s.setBackground pc).Apart pc) : (s.setBackground pc).Lifetimes :=
  h.resume ⟨rfl, rfl, rfl, rfl⟩ hbefore hafter hapart

theorem lifetimes_turn {e e' : Engine n} (turn : Engine.LoopTurn opts s.env e e') (hsame : SameUse s.engine e)
    (hpc : s.engine.background.unmarked = []) : Lifetimes { s with engine := e' } := by
  obtain ⟨h₁, h₂, h₃, h₄⟩ := hsame
  cases turn with
  | exit | sleep | halt | undefined => exact h.resume ⟨h₁, h₂, h₃, h₄⟩ hpc rfl trivial
  | @flush =>
    refine h.resume ⟨h₁, h₂, h₃, h₄⟩ hpc rfl ?_
    exact all_buildTable (fun o ho => ho.placesWithin _) opts _
      (List.mem_singleton_self _) _ _
  | @compact work =>
    refine h.resume ⟨h₁, h₂, h₃, h₄⟩ hpc rfl ?_
    exact all_writeCompaction (fun o ho => ho.plain.placesWithin _) trivial opts work

end

theorem BackgroundInv.exec_cases {D : Prop} (hb : s.BackgroundInv D opts listing)
    (h : BackgroundStep opts listing s s') : (∃ logs, s'.env = { s.env with logs := logs }) ∨
      ∃ o : Op, o.ofBackground ∧ s'.env = (s.env.exec listing o).2 := by
  cases h with
  | flushOp pc | renameOp pc | compactOp pc | commitOp pc =>
    exact Or.inr ⟨_, hb.ofBackground (by rw [nextOp, pc]), rfl⟩
  | _ => exact Or.inl ⟨_, rfl⟩

theorem PickedFrom.tables_sublist
    (h : PickedFrom opts levels work) (hs : ∀ l ∈ levels.tail, Levels.Shaped l) :
    work.tables.Sublist levels.flatten := by
  obtain ⟨_, _, hwork⟩ := h
  obtain ⟨_, _, _, _, hcut, hpicked⟩ := Levels.exists_picked hs hwork
  exact Compaction.tables_sublist hcut hpicked

section

variable (h : s.Lifetimes) (hb : s.BackgroundInv True opts listing) (hl : Legal True s.shared)
include h hb hl

theorem Lifetimes.install {run : CompactionRun}
    (pointer : List Key) (pc : s.engine.background = .committing run work (.ret (.ok levels))) :
    Lifetimes { s with engine := { s.engine with
      levels := levels
      current := levels
      compactPointer := pointer
      background := .marking ⟨run.force, run.steps + 1⟩ work } } := by
  have hpromise := hb.promise
  have hleaving := h.leaving
  have hnodup := h.nodup
  have hclients := h.clients
  rw [pc] at hpromise
  simp only [keptTables, pc, Background.unmarked, List.nil_append] at hleaving hnodup hclients
  obtain ⟨hwork, hout, ids, obsolete, hlen, _, _, hp⟩ := hpromise
  have hsub := hwork.tables_sublist hb.shaped
  obtain ⟨_, _, hwork⟩ := hwork
  obtain ⟨rfl, hreplaced⟩ := hp.returned hl
  obtain ⟨above, source, target, deeper, hcut, hpicked⟩ := Levels.exists_picked hb.shaped hwork
  have hids := hb.ids trivial
  have hone := Levels.oneTablePerId_of_nodup hids.nodup
  refine ⟨rfl, fun t ht => ?_, ?_, trivial, fun c t ht => ?_⟩
  · rcases List.mem_append.mp ht with ht | ht
    · exact (hreplaced trivial).installed.files t (hsub.subset ht)
    · exact hleaving t ht
  · rw [List.map_append, List.nodup_append]
    refine ⟨hids.nodup.sublist (hsub.map _), hnodup, fun id hid id' hid' he => ?_⟩
    obtain ⟨t, ht, rfl⟩ := List.mem_map.mp hid
    exact hids.kept t (hsub.subset ht) (he ▸ hid')
  · simp only [keptTables, Background.unmarked, List.mem_append]
    rcases List.mem_append.mp (hclients c t ht) with ht | ht
    · rcases Compaction.mem_tables_or_rebuild hone hcut hpicked ht with ht | ht
      · exact Or.inr (Or.inl ht)
      · exact Or.inl ht
    · exact Or.inr (Or.inr ht)

theorem Lifetimes.background (hl' : Legal True s'.shared) (hstep : BackgroundStep opts listing s s') :
    s'.Lifetimes := by
  have hpromise := hb.promise
  have hapart := h.apart
  cases hstep with
  | turn pc next | flushFailed pc next | flushEnded pc next | runEnded pc _ next | runExhausted pc next =>
    exact lifetimes_turn h next ⟨rfl, rfl, rfl, rfl⟩ (by rw [pc]; rfl)
  | flushOp pc =>
    rw [pc] at hpromise hapart
    obtain ⟨table, himm, _, obsolete, hp⟩ := hpromise
    have hclaimed := (hb.ids trivial).claimed s.engine.immTableId (by simp [Engine.claimed, himm])
    refine h.performed hp.ops.1 hapart.1 (fun t ht hid => ?_) (by rw [pc]; rfl) rfl (hapart.2 _)
    rw [List.mem_singleton] at hid
    exact hclaimed.kept (hid ▸ List.mem_map_of_mem ht)
  | flushInstalled pc =>
    rw [pc] at hpromise
    obtain ⟨table, himm, _, obsolete, hp⟩ := hpromise
    obtain ⟨f, _, rfl, _⟩ := hp.returned hl
    obtain ⟨_, hleaving, hnodup, _, hclients⟩ := h
    simp only [keptTables, pc, Background.unmarked, List.nil_append] at hleaving hnodup hclients
    refine ⟨rfl, hleaving, hnodup, trivial, fun c t ht => ?_⟩
    apply List.mem_append.mpr
    rcases List.mem_append.mp (hclients c t ht) with ht | ht
    · exact Or.inl (mem_prependL0.mpr (Or.inr ht))
    · exact Or.inr ht
  | retire pc =>
    have hrest : (s.setBackground .retired).Lifetimes :=
      h.setBackground (by rw [pc]; rfl) rfl trivial
    exact ⟨hrest.published, hrest.leaving, hrest.nodup, trivial, hrest.clients⟩
  | compactOp pc | commitOp pc =>
    have ho := hb.ofBackground (by rw [nextOp, pc])
    rw [pc] at hapart
    exact h.performed ho hapart.1 (fun _ _ => List.not_mem_nil) (by rw [pc]; rfl) rfl (hapart.2 _)
  | written pc =>
    rw [pc] at hpromise
    obtain ⟨_, obsolete, hp⟩ := hpromise
    obtain ⟨_, hlen, hwritten⟩ := hp.returned hl
    have hown := (hwritten.2 trivial).own
    have hids := @map_fst_held opts _ _ hlen
    rw [held] at hids
    rw [hids] at hown
    refine h.setBackground (by rw [pc]; rfl) rfl ⟨?_, fun id hid ho => ?_⟩
    · exact all_renameOutputs fun _ hid => hid
    · exact (hown id hid).kept (hp.covers id ho)
  | renameOp pc =>
    have ho := hb.ofBackground (by rw [nextOp, pc])
    rw [pc] at hapart
    refine h.performed ho hapart.1.1 (fun t ht hid => ?_) (by rw [pc]; rfl) rfl
      ⟨hapart.1.2 _, hapart.2⟩
    exact hapart.2 t.id hid (List.mem_map_of_mem ht)
  | renamed pc =>
    exact h.setBackground (by rw [pc]; rfl) rfl (all_commitCompaction (fun o ho => ho.placesWithin _) _ _ _)
  | compactFailed pc next =>
    refine lifetimes_turn h next ⟨rfl, rfl, rfl, rfl⟩ ?_
    rcases pc with pc | ⟨_, pc⟩ | pc <;> rw [pc] <;> rfl
  | installed pc => exact h.install hb hl _ pc
  | mark pc =>
    obtain ⟨hpub, hleaving, hnodup, _, hclients⟩ := h
    simp only [keptTables, pc, Background.unmarked] at hleaving hnodup hclients
    exact ⟨hpub, hleaving, hnodup, trivial, hclients⟩
  | nextUndefined pc => exact h.setBackground (by rw [pc]; rfl) rfl trivial
  | nextWork pc =>
    refine h.setBackground (by rw [pc]; rfl) rfl ?_
    exact all_writeCompaction (fun o ho => ho.plain.placesWithin _) trivial opts _

end

theorem Lifetimes.unlink (h : s.Lifetimes) (hb : s.BackgroundInv True opts listing)
    {t : SSTable} (ht : t ∈ s.engine.obsolete) (hu : s.referenced t = false) :
    Lifetimes { s with
      env := { s.env with tables := s.env.tables.erase t.id }
      engine := { s.engine with obsolete := s.engine.obsolete.erase t } } := by
  have hsub : (s.engine.background.unmarked ++ s.engine.obsolete.erase t).Sublist
      (s.engine.background.unmarked ++ s.engine.obsolete) :=
    (List.Sublist.refl _).append List.erase_sublist
  have hclient : ∀ c, t ∉ (s.engine.clients c).holds := by
    intro c hc
    have hused : s.referenced t = true := by simp [referenced]; exact Or.inr ⟨c, hc⟩
    rw [hu] at hused
    cases hused
  refine ⟨h.published, fun u huin => ?_, h.nodup.sublist (hsub.map _), ?_, fun c u huc => ?_⟩
  · have hne : u.id ≠ t.id := by
      intro he
      have hut : u = t := List.inj_on_of_nodup_map h.nodup (hsub.subset huin)
        (List.mem_append_right _ ht) he
      subst hut
      have hnodup : (s.engine.background.unmarked ++ s.engine.obsolete).Nodup := h.nodup.of_map _
      obtain ⟨_, hobsolete, hdisjoint⟩ := List.nodup_append.mp hnodup
      rcases List.mem_append.mp huin with hin | hin
      · exact hdisjoint u hin u ht rfl
      · exact hobsolete.not_mem_erase hin
    exact (AList.lookup_erase_ne hne).trans (h.leaving u (hsub.subset huin))
  · exact h.apart.moved (byOthers_unlink ht) hb.imm_of_flushing
  · have hne : u ≠ t := fun he => hclient c (he ▸ huc)
    have hin := h.clients c u huc
    simp only [keptTables, List.mem_append] at hin ⊢
    exact hin.imp_right (Or.imp_right (List.mem_erase_of_ne hne).mpr)

theorem Lifetimes.step (h : s.Lifetimes) (hb : s.BackgroundInv True opts listing)
    (hl : Legal True s.shared) (hl' : Legal True s'.shared) {a : Action n}
    (hstep : Step opts listing s a s') : s'.Lifetimes := by
  cases hstep with
  | @call c call =>
    have henter := enter_cases (s.note (.invoke c call)) c call
    obtain ⟨henv, hz⟩ := henter.sameFrozen
    exact h.others hb (byOthers_of_same henter.untouched (henv ▸ .refl _) hz) henter.untouched
      (by rw [henv]; rfl) fun c' t ht => Or.inl (henter.holds c' ht)
  | client next =>
    refine h.others hb (byOthers_client next) next.untouched ?_ fun c' t ht => next.holds c' ht
    rcases next.sameFrozen with ⟨hf, _⟩ | ⟨_, _, rfl⟩
    · exact hf.tables
    · rfl
  | background next => exact h.background hb hl hl' next
  | unlink hobsolete hunused => exact h.unlink hb hobsolete hunused
  | stop =>
    refine ⟨h.published, h.leaving, h.nodup, h.apart.moved ?_ hb.imm_of_flushing, h.clients⟩
    exact ⟨rfl, rfl, fun _ _ => ⟨rfl, rfl, rfl⟩, fun _ hid => hid, fun _ _ => OtherThreads.refl _⟩

theorem lifetimes_opened (env : Env) (r : Recovered) : (opened n env r).Lifetimes :=
  ⟨rfl, nofun, List.nodup_nil, trivial, nofun⟩

end System

end KVStore
