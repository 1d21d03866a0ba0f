import KVStore.LsmRecency
import KVStore.LsmRecoveryIds
import KVStore.LsmLife

namespace KVStore

open Lib CrashProgram

/-- Of two tables the manifest names that have a key in common, the one named first
has the greater id. -/
def LevelSet.NewestFirst (set : LevelSet) (env : Env) : Prop :=
  set.levels.flatten.Pairwise fun a b => ∀ f g, env.tables.lookup a.id = some f →
    env.tables.lookup b.id = some g → ∀ key ∈ f.keys, key ∈ g.keys → b.id < a.id

def Env.NewestFirst (s : Env) : Prop := ∀ set, s.manifest = some set → set.NewestFirst s

theorem levelSetOf_newestFirst_iff {levels : Levels} {env : Env} (nextId : FileId)
    (hfiles : ∀ t ∈ levels.flatten, env.tables.lookup t.id = some t.file) :
    (levelSetOf levels nextId).NewestFirst env ↔ levels.NewestFirst := by
  rw [LevelSet.NewestFirst, flatten_levelSetOf, List.pairwise_map, Levels.NewestFirst]
  constructor
  · refine fun h => h.imp_of_mem fun {t u} ht hu hlt => ?_
    exact hlt t.file u.file (hfiles t ht) (hfiles u hu)
  · refine fun h => h.imp_of_mem fun {t u} ht hu hlt f g hf hg => ?_
    cases hf.symm.trans (hfiles t ht)
    cases hg.symm.trans (hfiles u hu)
    exact hlt

theorem Committed.newestFirst_iff {env : Env} {levels : Levels} {nextId : FileId}
    (h : Committed env levels nextId) : env.NewestFirst ↔ levels.NewestFirst := by
  rw [← levelSetOf_newestFirst_iff nextId h.files, Env.NewestFirst]
  constructor
  · exact fun hn => hn _ h.manifest
  · intro hn set hset
    cases hset.symm.trans h.manifest
    exact hn

theorem InstallPoint.newestFirst {env : Env} {base next : Levels} (h : InstallPoint env base next)
    (hbase : base.NewestFirst) (hnext : next.NewestFirst) : env.NewestFirst := by
  obtain ⟨_, _, _, hc | hc⟩ := h.committed
  · exact hc.newestFirst_iff.mpr hbase
  · exact hc.newestFirst_iff.mpr hnext

namespace Env

variable {s s' : Env}

theorem NewestFirst.congr (h : s.NewestFirst) (hm : s'.manifest = s.manifest) (ht : s.AddsNone s') :
    s'.NewestFirst := by
  intro set hset
  refine (h set (hm ▸ hset)).imp fun {a b} hlt f g hf hg => ?_
  exact hlt f g (ht _ _ hf) (ht _ _ hg)

end Env

/-- What recovery owes when it replaces the manifest: the new one has the order. -/
def orderOwed (o : Op) (s : Env) : Prop :=
  s.issued < idLimit → o = .renameManifest →
    ∀ set, s.manifestTemp = some (some set) → set.NewestFirst s

theorem owing_order : Owing orderOwed := by
  refine ⟨fun o s hl hlt => absurd hlt hl, ?_⟩
  rintro o s h _ rfl
  rcases h with h | ⟨id, h⟩ | ⟨id, h⟩ <;> cases h

theorem Env.NewestFirst.exec {listing : Listing} {s : Env} (h : s.NewestFirst) {o : Op} {bound : FileId}
    {opts : LsmOptions} {history : List Entry} (hl : s.issued < idLimit)
    (hr : Recoverable opts s history) (hids : idsOwed bound o s) (horder : orderOwed o s) :
    (s.exec listing o).2.NewestFirst := by
  by_cases hm : o = .renameManifest
  · subst hm
    have hset := horder hl rfl
    simp only [Env.exec, renameManifest]
    split
    next set hs =>
      intro set' hset'
      cases hset'
      exact hset set hs
    next => exact h
  · have hsame := manifest_exec listing hm s
    rcases exec_places listing o s with hnone | ⟨id, f, rfl, hp⟩
    · exact h.congr hsame hnone
    · cases hr with
      | fresh manifest =>
        rw [manifest] at hsame
        intro set hset
        cases hsame.symm.trans hset
      | durable hd =>
        have hc := hd.manifest.committed
        have hpast := (hids hl).2
        apply (Committed.newestFirst_iff ⟨hsame.trans hc.manifest, fun t ht => ?_, hc.below,
          hc.positive⟩).mpr (hc.newestFirst_iff.mp h)
        rw [hp.tables, AList.lookup_insert_ne (hpast.tables t.id t.file (hc.files t ht)).ne]
        exact hc.files t ht

namespace LsmStore

variable {listing : Listing} {env : Env} {opts : LsmOptions}

theorem ordered_commitManifest {levels : Levels} {nextId : FileId}
    (h : (levelSetOf levels nextId).NewestFirst env) :
    (commitManifest levels nextId).Requires (lsmMachine listing) orderOwed env := by
  refine ⟨fun _ => nofun, fun _ => nofun, fun _ => nofun, fun _ _ set hset => ?_, trivial⟩
  cases hset
  exact h

theorem ordered_buildTable (entries : List Entry) {id nextId : FileId} {base : Levels}
    (hn : base.NewestFirst) (hlt : ∀ t ∈ base.flatten, t.id < id)
    (hfiles : ∀ t ∈ base.flatten, env.tables.lookup t.id = some t.file) :
    (buildTableUnlocked opts entries id base nextId).Requires (lsmMachine listing) orderOwed env := by
  refine ⟨fun _ => nofun, fun _ => nofun, ?_⟩
  split
  · trivial
  · refine ⟨fun _ => nofun, ?_⟩
    split
    · trivial
    · refine ⟨fun _ => nofun, ?_⟩
      dsimp only
      split
      · trivial
      · refine ⟨fun _ => nofun, ?_⟩
        dsimp only
        split
        · trivial
        next f hf =>
          split
          · trivial
          · refine requires_andThen owing_order (ordered_commitManifest ?_) fun _ _ _ _ => trivial
            rw [levelSetOf_newestFirst_iff]
            · exact newestFirst_prependL0 hn fun u hu _ _ _ => hlt u hu
            · intro t ht
              rcases mem_prependL0.mp ht with rfl | ht
              · exact hf
              · refine Eq.trans ?_ (hfiles t ht)
                apply Env.lookup_exec_of_ne (o := .renameTable id) trivial
                exact fun he => (hlt t ht).ne (Op.renameTable.inj he).symm

theorem ordered_openLog (levels : Levels) : (openLog levels).Requires (lsmMachine listing) orderOwed env :=
  ⟨fun _ => nofun, fun _ => nofun, trivial⟩

theorem ordered_openStore {history : List Entry} (h : Recoverable opts env history)
    (hn : env.NewestFirst) : (openStore opts).Requires (lsmMachine listing) orderOwed env := by
  rw [openStore]
  split
  · trivial
  · cases h with
    | fresh manifest tables logs =>
      refine requires_recoverFresh owing_order ⟨manifest, tables, logs⟩ (Nat.zero_le _)
        (fun env _ _ => ⟨fun _ => by rintro ⟨⟩, ?_⟩) fun env levels _ _ => ordered_openLog levels
      refine requires_andThen owing_order (ordered_commitManifest ?_) fun _ _ _ _ => trivial
      exact List.Pairwise.nil
    | durable hd =>
      have hlevels := hd.manifest.committed.newestFirst_iff.mp hn
      refine requires_recoverDurable owing_order hd (Nat.zero_le _) (fun env hr _ => ?_)
        fun env levels _ _ => ordered_openLog levels
      rw [installReplayed]
      split
      · trivial
      · obtain ⟨_, m, hm, hc⟩ := hr.settled
        refine ⟨fun _ => by rintro ⟨⟩, fun _ => by rintro ⟨⟩, ?_⟩
        exact ordered_buildTable _ hlevels (fun t ht => (hc.below t ht).trans_le hm) hc.files

end LsmStore

namespace System

variable {n : Nat} {opts : LsmOptions} {listing : Listing} {s : System n}

theorem Recency.env (h : s.Recency opts listing) (hb : s.BackgroundInv True opts listing)
    (hl : Legal True s.shared) : s.env.NewestFirst := by
  have hpromise := hb.promise
  have hsettled : Settled s.env s.engine.levels → s.env.NewestFirst :=
    fun ⟨_, _, _, hc⟩ => hc.newestFirst_iff.mpr h.levels
  cases hpc : s.engine.background with
  | flushing =>
    rw [hpc] at hpromise
    obtain ⟨table, himm, _, obsolete, hp⟩ := hpromise
    exact (hp.now hl trivial).newestFirst h.levels (h.flushed himm)
  | committing =>
    have hout := h.outputs
    rw [hpc] at hpromise hout
    obtain ⟨hwork, hnone, _⟩ := hpromise
    obtain ⟨ids, obsolete, hids, hlen, hp⟩ := hout
    exact (hp.now hl trivial).newestFirst h.levels
      (h.rebuilt hb hwork hnone hlen hids)
  | _ =>
    rw [hpc] at hpromise
    exact hsettled (hpromise.settled trivial hl nofun nofun)

end System

namespace World

variable {n : Nat} {opts : LsmOptions} {listing : Listing} {w w' : World n}

/-- No compaction of a running store takes an id out of order. -/
def TakesInOrder : World n → Prop
  | .running s _ => s.TakesInOrder
  | _ => True

def Ordered (opts : LsmOptions) (listing : Listing) : World n → Prop
  | .down env _ => env.NewestFirst
  | .recovering env io _ => env.NewestFirst ∧
      io.Requires (lsmMachine listing) (idsOwed 0) env ∧ io.Requires (lsmMachine listing) orderOwed env
  | .running s _ => s.Recency opts listing

theorem Ordered.step (h : w.Ordered opts listing) (hreach : Reachable opts listing w)
    (hfail : opts.failAt = .none) (hl : w.env.issued < idLimit) (hl' : w'.env.issued < idLimit)
    (hok : w.TakesInOrder) (next : Step opts listing w w') : w'.Ordered opts listing := by
  have hinv := hreach.inv hfail hl
  cases next with
  | «open» =>
    exact ⟨h, LsmStore.requires_openStore hinv.1 (Nat.zero_le _), LsmStore.ordered_openStore hinv.1 h⟩
  | recover =>
    obtain ⟨hn, hids, horder⟩ := h
    obtain ⟨⟨_, hio⟩, _⟩ := hinv
    have hr := hio.now (fun _ => rfl) hl
    exact ⟨hn.exec hl hr hids.1 horder.1, hids.2, horder.2⟩
  | opened =>
    obtain ⟨⟨_, hio⟩, _⟩ := hinv
    obtain ⟨_, _, _, hc⟩ := (hio.returned (fun _ => rfl) hl).2.settled
    exact ⟨hc.newestFirst_iff.mp h.1, fun _ _ _ => nofun, trivial⟩
  | refused | crashRecovering => exact h.1
  | run next =>
    obtain ⟨⟨_, _, _, hs⟩, _⟩ := hinv
    exact System.Recency.step h hs.background hok (fun _ => hl) (fun _ => hl') (System.step_cases hfail next)
  | @crash s _ _ _ left =>
    obtain ⟨⟨_, _, _, hs⟩, _⟩ := hinv
    have hn := System.Recency.env h hs.background fun _ => hl
    cases left with
    | between => exact hn
    | torn =>
      have hsame := Env.sameFiles_tearLog s.env s.engine.walId
      exact hn.congr hsame.manifest (.of_eq hsame.tables)

/-- In every life in which ids last and no compaction takes an id while something newer
than its inputs has a key in common with them: of two tables of the level set with
entries for one key, the one `get` consults first has the greater id. -/
theorem Life.newest_first {placed : List (FileId × TableFile)}
    (h : Life opts listing (fun w => w.IdsLast ∧ w.TakesInOrder) w placed)
    (hfail : opts.failAt = .none) :
    ∀ s history, w = .running s history →
      s.engine.levels.flatten.Pairwise fun t u => ∀ key ∈ t.keys, key ∈ u.keys → u.id < t.id := by
  have hordered : w.Ordered opts listing := by
    induction h with
    | start => exact fun _ => nofun
    | quiet lived next _ ok ih | place lived next _ ok ih =>
      exact ih.step lived.reachable hfail lived.ok.1 ok.1 lived.ok.2 next
  rintro s history rfl
  exact System.Recency.levels hordered

/-- A table is flushed and its compaction begun; meanwhile a put of `key` is frozen, and
flushed when the compaction has ended. -/
def flushDuringCompaction (key : Key) : List (Action 2) :=
  putFlush 0 (text "a") (text "x") ++ List.replicate 13 .background ++
    putFlush 1 key (text "y") ++ List.replicate 28 .background

/-- The compaction's output has another key than the memtable frozen before it got its id. -/
theorem newest_first_other_key :
    ∃ (s : System 2) (placed : List (FileId × TableFile)),
      Life { l0CompactionTrigger := 1 } .asStored (fun w => w.IdsLast ∧ w.TakesInOrder)
        (.running s []) placed ∧ s.engine.levels.ids = [4, 6] ∧
      s.engine.levels.flatten.Pairwise fun t u => ∀ key ∈ t.keys, key ∈ u.keys → u.id < t.id := by
  have h : ∃ r ∈ System.runFresh 2 { l0CompactionTrigger := 1 } (flushDuringCompaction (text "b")),
      (∀ p ∈ r.1, p.1.TakesInOrder) ∧ r.2.TakesInOrder ∧ r.2.engine.levels.ids = [4, 6] ∧
      r.2.env.issued < idLimit := by decide +kernel
  obtain ⟨⟨past, s⟩, hr, hpast, hlast, hids, hl⟩ := h
  have hallowed : Allows (fun w : World 2 => w.IdsLast ∧ w.TakesInOrder) System.TakesInOrder :=
    ⟨fun _ _ _ hl => ⟨hl, trivial⟩, fun _ _ hl hgood => ⟨hl, hgood⟩, fun _ _ => trivial⟩
  obtain ⟨placed, hlife⟩ := life_of_runFresh hallowed ⟨idLimit_pos, trivial⟩ rfl hr hl hpast hlast
  exact ⟨s, placed, hlife, hids, hlife.newest_first rfl s [] rfl⟩

/-- The same with one key: the newer table of `a`, which `get` consults first, has id 4,
the older one has id 6. -/
theorem newer_table_smaller_id :
    ∃ (s : System 2) (placed : List (FileId × TableFile)),
      Life { l0CompactionTrigger := 1 } .asStored IdsLast (.running s []) placed ∧
        ∃ t u, s.engine.levels = [[t], [u]] ∧ text "a" ∈ t.keys ∧ text "a" ∈ u.keys ∧ t.id < u.id := by
  have h : ∃ r ∈ System.runFresh 2 { l0CompactionTrigger := 1 } (flushDuringCompaction (text "a")),
      r.2.env.issued < idLimit ∧ ∃ t ∈ r.2.engine.levels.flatten, ∃ u ∈ r.2.engine.levels.flatten,
      r.2.engine.levels = [[t], [u]] ∧ text "a" ∈ t.keys ∧ decide (text "a" ∈ u.keys ∧ t.id < u.id) := by
    decide +kernel
  obtain ⟨⟨past, s⟩, hr, hl, t, _, u, _, hlevels, ha, hu⟩ := h
  obtain ⟨placed, hlife⟩ := life_of_runFresh (idsLast_allows 2) idLimit_pos rfl hr hl (fun _ _ => trivial) trivial
  exact ⟨s, placed, hlife, t, u, hlevels, ha, of_decide_eq_true hu⟩

end World

end KVStore
