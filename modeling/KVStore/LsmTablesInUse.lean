import KVStore.LsmIdWrap
import KVStore.LsmLife
import KVStore.LsmLifetimes

namespace KVStore

open Lib CrashProgram

def Env.Names (s : Env) (id : FileId) : Prop :=
  ∃ set, s.manifest = some set ∧ id ∈ set.levels.flatten.map TableMeta.id

namespace System

variable {n : Nat} {opts : LsmOptions} {listing : Listing} {s s' : System n} {t : SSTable}

section

variable (h : s.Lifetimes) (hb : s.BackgroundInv True opts listing) (hl : Legal True s.shared)
include h hb hl

theorem Lifetimes.inPlace_of_referenced (ht : s.referenced t = true) : InPlace s.env t := by
  have hfiles := hb.tablesReadBack hl
  have hkept : ∀ u ∈ s.keptTables, InPlace s.env u := by
    intro u hu
    rcases List.mem_append.mp hu with hu | hu
    · exact hfiles u hu
    · exact h.leaving u hu
  have hwork : ∀ u ∈ s.engine.background.holds, InPlace s.env u := by
    have hpromise := hb.promise
    cases hpc : s.engine.background with
    | compacting | renamingOutputs | committing =>
      rw [hpc] at hpromise
      exact fun u hu => hfiles u ((hpromise.1.tables_sublist hb.shaped).subset hu)
    | marking =>
      intro u hu
      apply h.leaving
      rw [hpc]
      exact List.mem_append_left _ hu
    | _ =>
      intro u hu
      cases hu
  simp only [referenced, Bool.or_eq_true, decide_eq_true_eq] at ht
  rcases ht with ((ht | ht) | ht) | ⟨c, ht⟩
  · exact hfiles t ht
  · rw [h.published] at ht
    exact hfiles t ht
  · exact hwork t ht
  · exact hkept t (h.clients c t ht)

end

theorem Described.kept {levels : Levels} (hd : Described opts s levels) (hb : s.BackgroundInv True opts listing)
    (ht : t ∈ levels.flatten) : t.id ∉ s.engine.obsoleteIds := by
  have hids := hb.ids trivial
  cases hd with
  | settled => exact hids.kept t ht
  | flush himm =>
    rcases LsmStore.mem_prependL0.mp ht with rfl | ht
    · exact (hids.claimed s.engine.immTableId (by simp [Engine.claimed, himm])).kept
    · exact hids.kept t ht
  | compaction hwork _ _ _ hfresh =>
    obtain ⟨_, _, hwork⟩ := hwork
    obtain ⟨_, _, _, _, hcut, _⟩ := Levels.exists_picked hb.shaped hwork
    rcases Compaction.mem_rebuild hcut ht with ht | ht
    · exact hids.kept t ht
    · exact (hfresh t.id (mem_ids_of_mem_placed ht)).1

theorem BackgroundInv.not_names (hb : s.BackgroundInv True opts listing) (hl : Legal True s.shared)
    (ht : t ∈ s.engine.obsolete) : ¬ s.env.Names t.id := by
  rintro ⟨set, hset, hid⟩
  obtain ⟨levels, m, hd, hc, _⟩ := manifest_described hb hl
  cases hc.manifest.symm.trans hset
  rw [flatten_levelSetOf, List.map_map] at hid
  obtain ⟨u, hu, he⟩ := List.mem_map.mp hid
  have hid' : u.id = t.id := he
  exact hd.kept hb hu (hid' ▸ List.mem_map_of_mem ht)

theorem Step.unlinks {a : Action n} (h : Step opts listing s a s')
    (hb : s.BackgroundInv True opts listing) {id : FileId} {f : TableFile}
    (hf : s.env.tables.lookup id = some f) (hgone : s'.env.tables.lookup id = none) :
    ∃ t ∈ s.engine.obsolete, a = .unlink t ∧ t.id = id ∧ s.referenced t = false := by
  have hsame : s'.env.tables ≠ s.env.tables := by
    intro he
    rw [he, hf] at hgone
    cases hgone
  cases h with
  | call => exact absurd (by rw [(enter_cases _ _ _).sameFrozen.1]; rfl) hsame
  | client next =>
    apply absurd _ hsame
    rcases next.sameFrozen with ⟨hsf, _⟩ | ⟨_, _, rfl⟩
    · exact hsf.tables
    · rfl
  | background next =>
    rcases hb.exec_cases next with ⟨_, he⟩ | ⟨o, ho, he⟩
    · exact absurd (he ▸ rfl) hsame
    · rw [he] at hgone
      exact absurd hgone (Env.lookup_exec_ne_none ho s.env (by rw [hf]; exact Option.some_ne_none _))
  | @unlink t hobsolete hunused =>
    by_cases he : id = t.id
    · exact ⟨t, hobsolete, rfl, he.symm, hunused⟩
    · rw [AList.lookup_erase_ne he, hf] at hgone
      cases hgone
  | stop => exact absurd rfl hsame

end System

namespace World

variable {n : Nat} {opts : LsmOptions} {listing : Listing} {w : World n}

theorem Reachable.lifetimes (h : Reachable opts listing w) (hfail : opts.failAt = .none)
    (hl : w.env.issued < idLimit) : ∀ s history, w = .running s history → s.Lifetimes := by
  induction h with
  | start =>
    intro s history he
    cases he
  | @step w w' reached next ih =>
    have hbefore : w.env.issued < idLimit := (next.issued_le hfail).trans_lt hl
    rintro s' history rfl
    cases next with
    | opened => exact System.lifetimes_opened _ _
    | @run s _ a _ next =>
      obtain ⟨⟨_, _, _, hs⟩, _⟩ := reached.inv hfail hbefore
      exact (ih hbefore s history rfl).step hs.background (fun _ => hbefore) (fun _ => hl)
        (System.step_cases hfail next)

/-- In every life in which ids last: what the manifest names is in place, as its
builder finished it; what a running store refers to is in place; and a file goes
only with the last reference to a table that the manifest no longer names. -/
theorem Life.tables_in_use {placed : List (FileId × TableFile)}
    (h : Life opts listing IdsLast w placed) (hfail : opts.failAt = .none) :
    (∀ set, w.env.manifest = some set → ∃ levels nextId, set = levelSetOf levels nextId ∧
      ∀ t ∈ levels.flatten, System.InPlace w.env t ∧ (t.id, t.file) ∈ placed) ∧
    ∀ s history, w = .running s history →
      (∀ t, s.referenced t = true → System.InPlace s.env t ∧ (t.id, t.file) ∈ placed) ∧
      ∀ a s', s.step opts listing a = some s' → ∀ id, s.env.tables.lookup id ≠ none →
        s'.env.tables.lookup id = none → ∃ t ∈ s.engine.obsolete,
          a = .unlink t ∧ t.id = id ∧ s.referenced t = false ∧ ¬ s.env.Names id := by
  have hl : w.env.issued < idLimit := h.ok
  have hinv := h.reachable.inv hfail hl
  have hfinished : ∀ t, System.InPlace w.env t → (t.id, t.file) ∈ placed :=
    fun t ht => h.placed_of_lookup hfail ht
  have hnamed : ∀ {levels nextId}, Committed w.env levels nextId → ∀ set,
      w.env.manifest = some set → ∃ levels nextId, set = levelSetOf levels nextId ∧
        ∀ t ∈ levels.flatten, System.InPlace w.env t ∧ (t.id, t.file) ∈ placed := by
    intro levels nextId hc set hset
    refine ⟨levels, nextId, Option.some.inj (hset.symm.trans hc.manifest), fun t ht => ?_⟩
    exact ⟨hc.files t ht, hfinished t (hc.files t ht)⟩
  have hstored : ∀ {history}, Recoverable opts w.env history → ∀ set,
      w.env.manifest = some set → ∃ levels nextId, set = levelSetOf levels nextId ∧
        ∀ t ∈ levels.flatten, System.InPlace w.env t ∧ (t.id, t.file) ∈ placed := by
    intro history hr set hset
    cases hr with
    | fresh manifest => cases manifest.symm.trans hset
    | durable hd => exact hnamed hd.manifest.committed set hset
  cases w with
  | down env history => exact ⟨hstored hinv.1, fun _ _ he => by cases he⟩
  | recovering env io history =>
    obtain ⟨⟨_, hio⟩, _⟩ := hinv
    have hr := hio.now (fun _ => rfl) hl
    exact ⟨hstored hr, fun _ _ he => by cases he⟩
  | running s history =>
    obtain ⟨⟨_, _, _, hs⟩, _⟩ := hinv
    have hlegal : Legal True s.shared := fun _ => hl
    have hlife := h.reachable.lifetimes hfail hl s history rfl
    refine ⟨hstored (hs.recoverable hlegal), ?_⟩
    rintro _ _ ⟨⟩
    refine ⟨fun t ht => ?_, fun a s' hstep id hf hgone => ?_⟩
    · have hplace := hlife.inPlace_of_referenced hs.background hlegal ht
      exact ⟨hplace, hfinished t hplace⟩
    · obtain ⟨f, hf⟩ := Option.ne_none_iff_exists'.mp hf
      obtain ⟨t, hobsolete, ha, rfl, hunused⟩ :=
        (System.step_cases hfail hstep).unlinks hs.background hf hgone
      exact ⟨t, hobsolete, ha, rfl, hunused, hs.background.not_names hlegal hobsolete⟩

/-- A put is flushed and compacted while a scan holds the table it went to: the
table is obsolete and the manifest no longer names it, but its file is still there. -/
theorem tables_in_use_during_scan :
    ∃ (s : System 2) (placed : List (FileId × TableFile)),
      Life { l0CompactionTrigger := 1 } .asStored IdsLast (.running s []) placed ∧
      (∃ t ∈ s.engine.obsolete, t ∈ (s.engine.clients 1).holds) ∧
      ∀ t, s.referenced t = true → System.InPlace s.env t ∧ (t.id, t.file) ∈ placed := by
  let actions : List (Action 2) := putFlush 0 (text "a") (text "x") ++ List.replicate 12 .background ++
    [.call 1 (.scan [] []), .client 1] ++ List.replicate 16 .background
  have h : ∃ r ∈ System.runFresh 2 { l0CompactionTrigger := 1 } actions,
      (∃ t ∈ r.2.engine.obsolete, t ∈ (r.2.engine.clients 1).holds) ∧ r.2.env.issued < idLimit := by decide +kernel
  obtain ⟨_, s, hreach, hheld, hids⟩ := exists_reachable h
  obtain ⟨placed, hlife⟩ := hreach.life rfl hids
  exact ⟨s, placed, hlife, hheld, ((hlife.tables_in_use rfl).2 s [] rfl).1⟩

/-- The counter wraps, and the third flush after it renames its table over one the
level set still holds. -/
theorem table_in_use_overwritten :
    ∃ (s : System 1) (history : List Entry), Reachable {} .asStored (.running s history) ∧
      ∃ t ∈ s.engine.levels.flatten, ∃ f, s.env.tables.lookup t.id = some f ∧ f ≠ t.file := by
  let flush (key : Key) : List (Action 1) :=
    putFlush 0 key (text "y") ++ List.replicate 13 .background ++ [.client 0]
  let actions := flush (text "b") ++ flush (text "c") ++ putFlush 0 (text "d") (text "y") ++
    List.replicate 6 .background
  have h : ∃ r ∈ System.runFrom {} .asStored [] (restedStore 4294967293) actions,
      ∃ t ∈ r.2.engine.levels.flatten, ∃ f ∈ r.2.env.tables.lookup t.id, f ≠ t.file := by decide +kernel
  obtain ⟨_, s, history, hreach, hover⟩ := exists_reachable_run (by decide) (by decide) h
  exact ⟨s, history, hreach, hover⟩

end World

end KVStore
