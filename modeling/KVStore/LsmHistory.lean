import KVStore.LsmBackgroundRun

namespace KVStore

open Lib SortedRun CrashProgram LsmStore

def written {n : Nat} : List (Event n) → List Entry
  | [] => []
  | .insert e :: older => e :: written older
  | _ :: older => written older

/-- What the engine holds, as three stretches of the write history: the live
memtable, the frozen one, and the tables. -/
structure Contents {n : Nat} (e : Engine n) (live frozen flushed : List Entry) : Prop where
  mem : ∀ key, e.mem.get key = SortedRun.find key live
  imm : ∀ table, e.imm = some table → ∀ key, table.get key = SortedRun.find key frozen
  thawed : e.imm = none → frozen = []
  levels : ∀ key, visible (SortedRun.find key e.levels.entries) = visible (SortedRun.find key flushed)
  current : e.current = e.levels

/-- The three stretches make up the whole history, after `prior`. -/
structure History {n : Nat} (prior : List Entry) (s : System n) (live frozen flushed : List Entry) :
    Prop where
  contents : Contents s.engine live frozen flushed
  all : written s.trace ++ prior = live ++ (frozen ++ flushed)

theorem visible_or (a b : Option MemEntry) : visible (a.or b) = if a.isSome then visible a else visible b := by
  cases a <;> rfl

namespace Engine

variable {n : Nat}

structure SameContents (e e' : Engine n) : Prop where
  mem : e'.mem = e.mem
  imm : e'.imm = e.imm
  levels : e'.levels = e.levels
  current : e'.current = e.current

theorem LoopTurn.sameContents {opts : LsmOptions} {env : Env} {e e' : Engine n}
    (h : LoopTurn opts env e e') : e.SameContents e' := by
  cases h <;> exact ⟨rfl, rfl, rfl, rfl⟩

end Engine

namespace Contents

variable {n : Nat} {e e' : Engine n} {live frozen flushed : List Entry}

section

variable (h : Contents e live frozen flushed)
include h

theorem congr (hs : e.SameContents e') : Contents e' live frozen flushed where
  mem := fun key => by rw [hs.mem]; exact h.mem key
  imm := fun table ht => h.imm table (hs.imm ▸ ht)
  thawed := fun ht => h.thawed (hs.imm ▸ ht)
  levels := fun key => by rw [hs.levels]; exact h.levels key
  current := by rw [hs.current, hs.levels]; exact h.current

theorem imm_eq (key : Key) : (e.imm.bind fun m => m.get key) = find key frozen := by
  cases himm : e.imm with
  | none =>
    rw [h.thawed himm]
    rfl
  | some table => exact h.imm table himm key

theorem probe_eq (key : Key) :
    (e.mem.get key).or (e.imm.bind fun m => m.get key) = find key (live ++ frozen) := by
  rw [h.mem, h.imm_eq, find_append]

theorem insert (entry : Entry) :
    Contents { e with mem := e.mem.insert entry.1 entry.2.value entry.2.tombstone }
      (entry :: live) frozen flushed := by
  refine ⟨fun key => ?_, h.imm, h.thawed, h.levels, h.current⟩
  rw [Memtable.get_insert, h.mem]
  obtain ⟨k, v⟩ := entry
  simp [find]

theorem rotate (id : FileId) : Contents (e.rotate id) [] live flushed := by
  refine ⟨fun key => rfl, fun table ht => ?_, fun ht => ?_, h.levels, h.current⟩
  · cases ht
    exact h.mem
  · cases ht

theorem flush {table : Memtable} (himm : e.imm = some table)
    {blockSize bitsPerKey : Nat} {f : TableFile} (hf : buildTable blockSize bitsPerKey table.map = .ok f)
    (id : FileId) (pc : Background) :
    Contents { e with
        levels := prependL0 ⟨id, f⟩ e.levels
        current := prependL0 ⟨id, f⟩ e.levels
        imm := none
        background := pc }
      live [] (frozen ++ flushed) := by
  refine ⟨h.mem, fun _ ht => (by cases ht), fun _ => rfl, fun key => ?_, rfl⟩
  have hfind : find key f.entries = (find key frozen).map MemEntry.stored := by
    rw [buildTable_entries hf, find_map_storedEntry, ← h.imm table himm]
    rfl
  rw [entries_prependL0, find_append, find_append, visible_or,
    visible_or, hfind, h.levels, visible_map_stored, Option.isSome_map]

theorem compact {levels : Levels} (pointer : List Key) (pc : Background)
    (hsame : ∀ key, visible (find key levels.entries) =
      visible (find key e.levels.entries)) :
    Contents { e with levels := levels, current := levels, compactPointer := pointer, background := pc }
      live frozen flushed :=
  ⟨h.mem, h.imm, h.thawed, fun key => (hsame key).trans (h.levels key), rfl⟩

end

end Contents

namespace System

variable {n : Nat} {D : Prop} {opts : LsmOptions} {listing : Listing} {s s' : System n}
  {prior live frozen flushed : List Entry} {c : Fin n}

theorem EnterStep.sameContents {call : Call} (h : EnterStep s c call s') :
    s.engine.SameContents s'.engine ∧ written s'.trace = written s.trace := by
  cases h <;> exact ⟨⟨rfl, rfl, rfl, rfl⟩, rfl⟩

theorem ClientStep.contents (h : ClientStep opts s c s') :
    s.engine.SameContents s'.engine ∧ written s'.trace = written s.trace ∨
      (s.engine.imm = none ∧ ∃ resume, s' = s.rotate c resume) ∨
        ∃ e, s.engine.clients c = .inserting e ∧ s' = s.insert c e := by
  cases h with
  | rotateWrite _ thawed | rotateFlush _ thawed => exact Or.inr (Or.inl ⟨thawed, _, rfl⟩)
  | insert pc => exact Or.inr (Or.inr ⟨_, pc, rfl⟩)
  | _ => exact Or.inl ⟨⟨rfl, rfl, rfl, rfl⟩, rfl⟩

theorem BackgroundStep.contents (h : BackgroundStep opts listing s s') :
    s'.trace = s.trace ∧ (s.engine.SameContents s'.engine ∨
      (∃ wal levels, s.engine.background = .flushing wal (.ret (.ok levels)) ∧
        s'.engine = { s.engine with
          levels := levels, current := levels, imm := none, background := .retiring wal }) ∨
      ∃ run work levels, s.engine.background = .committing run work (.ret (.ok levels)) ∧
        s'.engine = { s.engine with
          levels := levels
          current := levels
          compactPointer := Engine.setPointer s.engine.compactPointer work.level work.endKey
          background := .marking ⟨run.force, run.steps + 1⟩ work }) := by
  cases h with
  | flushInstalled pc => exact ⟨rfl, Or.inr (Or.inl ⟨_, _, pc, rfl⟩)⟩
  | installed pc => exact ⟨rfl, Or.inr (Or.inr ⟨_, _, _, pc, rfl⟩)⟩
  | turn pc next => exact ⟨rfl, Or.inl next.sameContents⟩
  | flushEnded pc next | flushFailed pc next | compactFailed pc next | runExhausted pc next | runEnded pc _ next =>
    have h := next.sameContents
    exact ⟨rfl, Or.inl ⟨h.mem, h.imm, h.levels, h.current⟩⟩
  | _ => exact ⟨rfl, Or.inl ⟨rfl, rfl, rfl, rfl⟩⟩

theorem visible_of_commit (h : s.BackgroundInv D opts listing)
    (hone : Levels.OneTablePerId s.engine.levels) (hl : Legal D s.shared) {run : CompactionRun}
    {work : Compaction} {levels : Levels}
    (pc : s.engine.background = .committing run work (.ret (.ok levels))) (key : Key) :
    visible (find key levels.entries) =
      visible (find key s.engine.levels.entries) := by
  obtain ⟨⟨_, _, hwork⟩, outs, hwrites, rfl⟩ := h.writes hl pc
  obtain ⟨_, _, _, _, hcut, hpicked⟩ := Levels.exists_picked h.shaped hwork
  exact Compaction.rebuild_visible hone hcut hpicked hwrites h.shaped key

/-- How a step moves the boundaries between the stretches. -/
inductive Moves (s s' : System n) (live frozen flushed : List Entry) :
    List Entry → List Entry → List Entry → Prop
  | same (imm : s'.engine.imm = s.engine.imm) (trace : written s'.trace = written s.trace) :
      Moves s s' live frozen flushed live frozen flushed
  | insert {e : Entry} (imm : s'.engine.imm = s.engine.imm)
      (trace : written s'.trace = e :: written s.trace) :
      Moves s s' live frozen flushed (e :: live) frozen flushed
  | rotate (thawed : s.engine.imm = none) (imm : s'.engine.imm = some s.engine.mem)
      (trace : written s'.trace = written s.trace) :
      Moves s s' live frozen flushed [] live flushed
  | flush {table : Memtable} (full : s.engine.imm = some table) (imm : s'.engine.imm = none)
      (trace : written s'.trace = written s.trace) :
      Moves s s' live frozen flushed live [] (frozen ++ flushed)

theorem history_step (hh : History prior s live frozen flushed) (h : s.BackgroundInv D opts listing)
    (hone : Levels.OneTablePerId s.engine.levels) (hl : Legal D s.shared) {a : Action n}
    (hstep : Step opts listing s a s') :
    ∃ live' frozen' flushed', History prior s' live' frozen' flushed' ∧
      Moves s s' live frozen flushed live' frozen' flushed' := by
  obtain ⟨hc, hall⟩ := hh
  cases hstep with
  | call =>
    obtain ⟨hsame, htrace⟩ := (enter_cases (s.note _) _ _).sameContents
    refine ⟨_, _, _, ⟨hc.congr hsame, ?_⟩, .same hsame.imm htrace⟩
    rw [htrace]
    exact hall
  | unlink | stop => exact ⟨_, _, _, ⟨hc.congr ⟨rfl, rfl, rfl, rfl⟩, hall⟩, .same rfl rfl⟩
  | client next =>
    rcases next.contents with ⟨hsame, htrace⟩ | ⟨himm, resume, rfl⟩ | ⟨e, pc, rfl⟩
    · exact ⟨_, _, _, ⟨hc.congr hsame, htrace ▸ hall⟩, .same hsame.imm htrace⟩
    · refine ⟨_, _, _, ⟨(hc.rotate s.env.nextId).congr ⟨rfl, rfl, rfl, rfl⟩, ?_⟩, .rotate himm rfl rfl⟩
      rw [hc.thawed himm] at hall
      exact hall
    · refine ⟨_, _, _, ⟨(hc.insert e).congr ⟨rfl, rfl, rfl, rfl⟩, ?_⟩, .insert rfl rfl⟩
      exact congrArg (e :: ·) hall
  | background next =>
    obtain ⟨htrace, hnext⟩ := next.contents
    have hall' : written s'.trace ++ prior = live ++ (frozen ++ flushed) := htrace ▸ hall
    have hw : written s'.trace = written s.trace := congrArg written htrace
    rcases hnext with hsame | ⟨wal, levels, pc, he⟩ | ⟨run, work, levels, pc, he⟩
    · exact ⟨_, _, _, ⟨hc.congr hsame, hall'⟩, .same hsame.imm hw⟩
    · have hp := h.promise
      rw [pc] at hp
      obtain ⟨table, himm, _, obsolete, hp⟩ := hp
      obtain ⟨f, hf, rfl, _⟩ := hp.returned hl
      exact ⟨live, [], frozen ++ flushed, ⟨he ▸ hc.flush himm hf _ _, hall'⟩,
        .flush himm (he ▸ rfl) hw⟩
    · exact ⟨_, _, _, ⟨he ▸ hc.compact _ _ (visible_of_commit h hone hl pc), hall'⟩,
        .same (he ▸ rfl) hw⟩

end System

end KVStore
