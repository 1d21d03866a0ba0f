import KVStore.LsmReplay

namespace KVStore

open Lib CrashProgram

/-- The program runs before any other thread does, keeps `I` wherever a crash stops
it, and returns with `Q`, as long as ids last. -/
abbrev Alone {α : Type} (listing : Listing) (I : Env → Prop) (Q : α → Env → Prop) (p : LsmIo α)
    (env : Env) : Prop :=
  Guarded (lsmMachine listing) Eq (fun env => env.issued < idLimit) I Q p env

section Rules

variable {listing : Listing} {I : Env → Prop} {α β : Type} {Q : α → Env → Prop} {env : Env}

theorem alone_op {o : Op} {k : Res o → LsmIo α} (hI : I env) (hk : (env.exec listing o).2.issued < idLimit →
      Alone listing I Q (k (env.exec listing o).1) (env.exec listing o).2) : Alone listing I Q (.op o k) env :=
  Guarded.alone_op hI (fun _ ht => (show _ = env from ht) ▸ hI) fun _ hl => hk hl

theorem alone_andThen {p : LsmIo (Except Failure α)} {f : α → LsmIo (Except Failure β)}
    {Q : Except Failure α → Env → Prop} {Q' : Except Failure β → Env → Prop}
    (h : Alone listing I Q p env) (hl : env.issued < idLimit)
    (herror : ∀ e env, Q (.error e) env → Q' (.error e) env)
    (hok : ∀ a env, Q (.ok a) env → env.issued < idLimit → Alone listing I Q' (f a) env) :
    Alone listing I Q' (LsmIo.andThen p f) env := by
  refine h.withCrash.bind (fun _ => rfl) (fun r env hr hl => ?_) hl
  cases r with
  | error e => exact .alone_ret hr.1 (herror e env hr.2)
  | ok a => exact hok a env hr.2 hl

end Rules

namespace LsmStore

variable {listing : Listing} {I : Env → Prop} {opts : LsmOptions} {env : Env} {levels : Levels}
  {nextId : FileId} {logs : List (FileId × List Entry)} {history : List Entry}

theorem alone_sweepTempFiles (P : Env → Prop) (hP : ∀ env name, P env → P (env.removeTemp name))
    (hI : ∀ env, P env → I env) (hs : P env) : Alone listing I (fun _ env => P env) sweepTempFiles env := by
  refine alone_op (hI env hs) fun hl => ?_
  refine Guarded.alone_forEach (fun _ => P) (fun name _ env hs => ?_) hI (fun _ hs => hs) hs hl
  exact alone_op (hI env hs) fun _ => .alone_ret (hI _ (hP env name hs)) (hP env name hs)

theorem alone_openLevel {level : List SSTable} (hI : I env)
    (hfiles : ∀ t ∈ level, env.tables.lookup t.id = some t.file) (hbelow : ∀ t ∈ level, t.id < nextId)
    (hl : env.issued < idLimit) :
    Alone listing I (fun r env' => r = .ok level ∧ env' = env)
      (openLevel nextId (level.map SSTable.tableMeta)) env := by
  induction level with
  | nil => exact .alone_ret hI ⟨rfl, rfl⟩
  | cons t level ih =>
    obtain ⟨hfile, hfiles⟩ := List.forall_mem_cons.mp hfiles
    obtain ⟨hlt, hbelow⟩ := List.forall_mem_cons.mp hbelow
    have hmeta : ¬ nextId ≤ t.tableMeta.id := not_le_of_gt hlt
    rw [List.map_cons, openLevel, if_neg hmeta]
    refine alone_op hI fun _ => ?_
    have hopen : env.exec listing (.openTable t.tableMeta.id) = (some t.file, env) :=
      congrArg (·, env) hfile
    rw [hopen]
    dsimp only
    rw [if_neg (by simp [SSTable.tableMeta])]
    refine alone_andThen (ih hfiles hbelow) hl (fun _ _ he => by cases he.1) fun rest env' hr _ => ?_
    obtain ⟨hrest, rfl⟩ := hr
    cases hrest
    exact .alone_ret hI ⟨rfl, rfl⟩

theorem alone_openLevels (hI : I env) (hfiles : ∀ t ∈ levels.flatten, env.tables.lookup t.id = some t.file)
    (hbelow : ∀ t ∈ levels.flatten, t.id < nextId) (hl : env.issued < idLimit) :
    Alone listing I (fun r env' => r = .ok levels ∧ env' = env)
      (openLevels nextId (levels.map fun level => level.map SSTable.tableMeta)) env := by
  induction levels with
  | nil => exact .alone_ret hI ⟨rfl, rfl⟩
  | cons level levels ih =>
    rw [List.flatten_cons, List.forall_mem_append] at hfiles hbelow
    refine alone_andThen (alone_openLevel hI hfiles.1 hbelow.1 hl) hl
      (fun _ _ he => by cases he.1) fun first env' hr _ => ?_
    obtain ⟨hfirst, rfl⟩ := hr
    cases hfirst
    refine alone_andThen (ih hfiles.2 hbelow.2) hl (fun _ _ he => by cases he.1)
      fun rest env'' hr _ => ?_
    obtain ⟨hrest, rfl⟩ := hr
    cases hrest
    exact .alone_ret hI ⟨rfl, rfl⟩

/-- The manifest has been read: the tables it names are open, no others are left,
and the counter is past them. -/
structure Reading (opts : LsmOptions) (levels : Levels) (nextId : FileId)
    (logs : List (FileId × List Entry)) (history : List Entry) (env : Env) : Prop where
  durable : Durable opts env levels nextId logs history
  settled : Settled env levels

theorem alone_sweepOrphanTables (hnext : env.nextId = nextId)
    (hd : Durable opts env levels nextId logs history) (hl : env.issued < idLimit) :
    Alone listing (fun env => Recoverable opts env history)
      (fun _ env => Reading opts levels nextId logs history env)
      (sweepOrphanTables ((levelSetOf levels nextId).levels.flatten.map TableMeta.id)) env := by
  have hnamed : (levelSetOf levels nextId).levels.flatten.map TableMeta.id =
      levels.flatten.map SSTable.id := by
    simp [levelSetOf, List.map_flatten, Function.comp_def, SSTable.tableMeta]
  rw [hnamed]
  refine alone_op (.durable hd) fun _ => ?_
  have hlist : ∀ id f, env.tables.lookup id = some f → id ∈ listing.order (recognised env.tables.keys) := by
    intro id f hf
    rw [(listing.perm _).mem_iff]
    refine List.mem_filter.mpr ⟨?_, decide_eq_true (hd.manifest.tables id f hf)⟩
    rw [← AList.mem_keys, ← AList.lookup_isSome, hf]
    rfl
  -- while orphans go, a table in place is named by the manifest or still to be removed
  refine Guarded.alone_forEach
    (fun rest env => (∀ id ∈ rest, id ∉ levels.flatten.map SSTable.id) ∧ env.nextId = nextId ∧
      Durable opts env levels nextId logs history ∧
      ∀ id f, env.tables.lookup id = some f → id ∈ levels.flatten.map SSTable.id ∨ id ∈ rest)
    (fun id rest env hs => ?_) (fun env hs => .durable hs.2.2.1) (fun env hs => ?_)
    ⟨fun id hid => by simpa using (List.mem_filter.mp hid).2, hnext, hd, fun id f hf => ?_⟩ hl
  · obtain ⟨horphans, hnext, hd, hleft⟩ := hs
    have hgone : ∀ id', id' ≠ id → (env.tables.erase id).lookup id' = env.tables.lookup id' :=
      fun id' hne => AList.lookup_erase_ne hne
    have hkept : Durable opts { env with tables := env.tables.erase id } levels nextId logs history := by
      refine ⟨⟨⟨hd.manifest.committed.manifest, fun t ht => ?_, hd.manifest.committed.below,
        hd.manifest.committed.positive⟩, hd.manifest.counted, hd.manifest.wellFormed, hd.manifest.filled,
        fun id' f hf => ?_⟩, hd.replays, hd.logs.congr rfl le_rfl⟩
      · refine (hgone t.id fun he => ?_).trans (hd.manifest.committed.files t ht)
        exact horphans id List.mem_cons_self (he ▸ List.mem_map_of_mem ht)
      · by_cases he : id' = id
        · subst he
          exact absurd ((AList.lookup_erase _ _).symm.trans hf) nofun
        · exact hd.manifest.tables id' f ((hgone id' he).symm.trans hf)
    refine alone_op (.durable hd) fun _ => .alone_ret (.durable hkept)
      ⟨fun id' hid => horphans id' (List.mem_cons_of_mem _ hid), hnext, hkept, fun id' f hf => ?_⟩
    by_cases he : id' = id
    · subst he
      exact absurd ((AList.lookup_erase _ _).symm.trans hf) nofun
    · rcases hleft id' f ((hgone id' he).symm.trans hf) with hn | hr
      · exact Or.inl hn
      · exact Or.inr ((List.mem_cons.mp hr).resolve_left he)
  · obtain ⟨_, hnext, hd, hleft⟩ := hs
    refine ⟨hd, ⟨hnext ▸ hd.manifest.committed.positive, hnext ▸ hd.manifest.counted, fun id f hf => ?_⟩,
      nextId, hnext.ge, hd.manifest.committed⟩
    obtain ⟨t, ht, rfl⟩ := List.mem_map.mp ((hleft id f hf).resolve_right List.not_mem_nil)
    exact ⟨hd.manifest.tables _ f hf, hnext ▸ hd.manifest.committed.below t ht⟩
  · by_cases hn : id ∈ levels.flatten.map SSTable.id
    · exact Or.inl hn
    · exact Or.inr (List.mem_filter.mpr ⟨hlist id f hf, decide_eq_true hn⟩)

theorem alone_openFromManifest (hd : Durable opts env levels nextId logs history) :
    Alone listing (fun env => Recoverable opts env history)
      (fun r env => r = .ok levels ∧ Reading opts levels nextId logs history env)
      (openFromManifest (levelSetOf levels nextId)) env := by
  refine alone_op (.durable hd) fun hl => ?_
  have hstored : Durable opts { env with nextId := nextId } levels nextId logs history :=
    hd.congr rfl rfl rfl le_rfl
  have hc := hstored.manifest.committed
  refine alone_andThen (alone_openLevels (.durable hstored) hc.files hc.below hl) hl
    (fun _ _ he => by cases he.1) fun opened env' hr hl => ?_
  obtain ⟨hopened, rfl⟩ := hr
  cases hopened
  refine (alone_sweepOrphanTables rfl hstored hl).bind (fun _ => rfl) (fun _ env hr _ => ?_) hl
  exact .alone_ret (.durable hr.durable) ⟨rfl, hr⟩

end LsmStore

end KVStore
